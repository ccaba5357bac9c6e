import Rcllean.ParameterHistory

/-!
# Following a node by its parameter events

Another node keeps a copy of the values and changes it only by the events it
is sent. Where every call is announced and no announcement fails, none
undeclares and none cuts another short, the copy holds the values of the store
each time no call is in the middle of anything.
-/
namespace ParameterStore

open Parameters ParamOverrides Runs Function Listings

/-- A copy of the values, by name. -/
abbrev Copy := String → Option ParameterValue

def Copy.put (f : Copy) (p : String × WireValue) : Copy :=
  update f p.1 (some (ParameterValue.ofWire p.2))

def ParameterEvent.apply (f : Copy) (e : ParameterEvent) : Copy :=
  (e.new_parameters ++ e.changed_parameters).foldl Copy.put f

def copyOf (events : List ParameterEvent) : Copy := events.foldl ParameterEvent.apply fun _ => none

def Store.values (s : Store) : Copy := fun name => (s.params name).map (·.value)

/-- The call is made through the server, and is no removal. -/
def Op.Announced : Op → Prop
  | .declare announce _ _ _ => announce = true
  | .undeclare _ => False
  | .set announce _ => announce = true

def Move.Announced : Move → Prop
  | .call _ op => op.Announced
  | .publishFails _ _ => False
  | _ => True

/-- Each record that a batch carries is for one of its names. -/
def Named (updates : List (String × ParameterValue)) (ps : List Parameter) : Prop :=
  ∀ p ∈ ps, p.name ∈ updates.map Prod.fst

/-- The call announces what it does, and carries what its batch names. -/
def Pc.Announces : Pc → Prop
  | .inserting announce _ => announce = true
  | .listing announce _ => announce = true
  | .erasing _ => False
  | .forgetting _ => False
  | .checked announce updates proposed => announce = true ∧ Named updates proposed
  | .consulting announce updates proposed _ => announce = true ∧ Named updates proposed
  | .writing announce updates todo => announce = true ∧ Named updates todo
  | .pushing announce updates p todo => announce = true ∧ Named updates (p :: todo)
  | .storing announce updates p todo => announce = true ∧ Named updates (p :: todo)
  | _ => True

/-- Only names of the batch differ, and they are declared. -/
def Behind (f : Copy) (updates : List (String × ParameterValue)) (s : Store) : Prop :=
  ∀ name, f name = s.values name ∨ name ∈ updates.map Prod.fst ∧ s.has name = true

/-- How far the copy is behind while the call is where it is. -/
def Follows (f : Copy) (s : Store) : Pc → Prop
  | .listing _ p => f.put (Parameter.toEvent p) = s.values
  | .writing _ updates _ => Behind f updates s
  | .pushing _ updates _ _ => Behind f updates s
  | .storing _ updates _ _ => Behind f updates s
  | .reading updates => Behind f updates s
  | .publishing _ e => e.apply f = s.values
  | _ => f = s.values

theorem put_toEvent (f : Copy) (p : Parameter) :
    f.put (Parameter.toEvent p) = update f p.name (some p.value) := by
  rw [Copy.put, Parameter.toEvent, ofWire_toWire]

theorem values_insert (s : Store) (p : Parameter) :
    (s.insert p).values = update s.values p.name (some p.value) := by
  funext name
  by_cases h : name = p.name
  · simp [Store.values, Store.insert, h]
  · simp [Store.values, Store.insert, h]

theorem has_insert (s : Store) (p : Parameter) (name : String) :
    (s.insert p).has name = (decide (name = p.name) || s.has name) := by
  by_cases h : name = p.name
  · simp [Store.has, Store.insert, h]
  · simp [Store.has, Store.insert, h]

theorem copyOf_append (events : List ParameterEvent) (e : ParameterEvent) :
    copyOf (events ++ [e]) = e.apply (copyOf events) := by
  rw [copyOf, List.foldl_append]
  rfl

/-- Putting records of the table brings their names up to date and touches no others. -/
theorem foldl_put {s : Store} {ps : List Parameter}
    (hps : ∀ p ∈ ps, s.params p.name = some p) (f : Copy) (name : String) :
    (ps.map Parameter.toEvent).foldl Copy.put f name =
      if name ∈ ps.map Parameter.name then s.values name else f name := by
  induction ps generalizing f with
  | nil => rfl
  | cons p ps ih =>
    have hp := hps p List.mem_cons_self
    rw [List.map_cons, List.foldl_cons, ih fun q hq => hps q (List.mem_cons_of_mem _ hq),
      put_toEvent]
    by_cases hrest : name ∈ ps.map Parameter.name
    · simp [hrest]
    · by_cases hname : name = p.name
      · subst hname
        simp [Store.values, hp]
      · simp [hrest, hname]

/-- The event of a batch brings a copy that is behind on it up to date. -/
theorem Behind.apply {f : Copy} {updates : List (String × ParameterValue)} {s : Store}
    (hs : Sound s) (h : Behind f updates s) :
    ParameterEvent.apply f
      ⟨[], (updates.filterMap fun u => s.params u.1).map Parameter.toEvent⟩ = s.values := by
  have hps : ∀ p ∈ updates.filterMap (fun u => s.params u.1), s.params p.name = some p := by
    intro p hp
    obtain ⟨u, -, hu⟩ := List.mem_filterMap.mp hp
    rw [(hs u.1 p hu).1, hu]
  funext name
  rw [ParameterEvent.apply, List.nil_append, foldl_put hps]
  split
  · rfl
  · next hnot =>
    rcases h name with heq | ⟨hnamed, hhas⟩
    · exact heq
    · obtain ⟨u, hu, rfl⟩ := List.mem_map.mp hnamed
      obtain ⟨p, hp⟩ := Option.isSome_iff_exists.mp hhas
      refine absurd (List.mem_map.mpr ⟨p, List.mem_filterMap.mpr ⟨u, hu, hp⟩, ?_⟩) hnot
      exact (hs u.1 p hp).1

/-- A batch none of whose names is declared has left the copy as good as it was. -/
theorem Behind.silent {f : Copy} {updates : List (String × ParameterValue)} {s : Store}
    (h : Behind f updates s) (hempty : (updates.filterMap fun u => s.params u.1) = []) :
    f = s.values := by
  funext name
  rcases h name with heq | ⟨hnamed, hhas⟩
  · exact heq
  · obtain ⟨u, hu, rfl⟩ := List.mem_map.mp hnamed
    simp [Store.has, List.filterMap_eq_nil_iff.mp hempty u hu] at hhas

theorem Behind.insert {f : Copy} {updates : List (String × ParameterValue)} {s : Store}
    (h : Behind f updates s) {p : Parameter} (hp : p.name ∈ updates.map Prod.fst) :
    Behind f updates (s.insert p) := by
  intro name
  by_cases hname : name = p.name
  · exact .inr ⟨hname ▸ hp, by simp [has_insert, hname]⟩
  · simpa [values_insert, has_insert, hname] using h name

theorem begin_announces {s : Store} (hs : Sound s) {op : Op} (hop : op.Announced) :
    (begin s op).Announces := by
  cases op with
  | declare announce name defaultValue descriptor =>
    simp only [begin]
    split
    · trivial
    · exact hop
  | undeclare name => exact hop.elim
  | set announce updates =>
    simp only [begin]
    split
    · trivial
    · next hok =>
      refine ⟨hop, fun p hp => ?_⟩
      rw [← proposed_fills hs hok, List.map_map]
      exact List.mem_map.mpr ⟨p, hp, rfl⟩

theorem step_announces {s t : Sys} {m : Move} (hs : Sound s.store) (hm : m.Announced)
    (h : Step s m t) {c : Nat} (hc : (s.pc c).Announces) : (t.pc c).Announces := by
  by_cases hcaller : m.caller? = some c
  · cases h with
    | addOnSetCallback => exact hc
    | call hpc =>
      obtain rfl := Option.some.inj hcaller
      rw [setPc_pc_self]
      exact begin_announces hs hm
    | @listing d announce p hpc =>
      obtain rfl := Option.some.inj hcaller
      rw [setPc_pc_self]
      split <;> trivial
    | @writing d announce updates todo hpc =>
      obtain rfl := Option.some.inj hcaller
      rw [setPc_pc_self]
      rw [hpc] at hc
      cases todo with
      | nil => cases announce <;> trivial
      | cons p todo =>
        rw [written]
        split <;> exact hc
    | @storing d announce updates p todo hpc =>
      obtain rfl := Option.some.inj hcaller
      rw [setPc_pc_self]
      rw [hpc] at hc
      exact ⟨hc.1, fun q hq => hc.2 q (List.mem_cons_of_mem _ hq)⟩
    | inserting hpc | erasing hpc | forgetting hpc | checked hpc | accepted hpc | pushing hpc
    | silent hpc | reading hpc | publishing hpc | unheard hpc | unannounced hpc | agreed hpc
    | refused hpc | raised hpc =>
      obtain rfl := Option.some.inj hcaller
      rw [setPc_pc_self]
      rw [hpc] at hc
      first | exact hc | trivial
  · rw [h.pc_of_ne hcaller]
    exact hc

theorem begin_follows {f : Copy} {s : Store} (h : f = s.values) (op : Op) :
    Follows f s (begin s op) := by
  cases op <;> simp only [begin] <;> split <;> exact h

/-- A step of a call that moves alone keeps the copy as far behind as the call is. -/
theorem go_follows {s t : Sys} {c : Nat} (hs : Sound s.store) (hc : (s.pc c).Announces)
    (hf : Follows (copyOf s.events) s.store (s.pc c)) (h : Step s (.go c) t) :
    Follows (copyOf t.events) t.store (t.pc c) := by
  cases h with
  | @inserting _ announce p hpc =>
    rw [hpc] at hf
    rw [setPc_pc_self]
    change _ = (s.store.insert p).values
    rw [put_toEvent, values_insert, setPc_events]
    exact congrArg (fun f => update f p.name (some p.value)) hf
  | @listing _ announce p hpc =>
    rw [hpc] at hf hc
    rw [setPc_pc_self]
    obtain rfl : announce = true := hc
    exact hf
  | erasing hpc | forgetting hpc =>
    rw [hpc] at hc
    exact hc.elim
  | checked hpc =>
    rw [hpc] at hf
    rw [setPc_pc_self]
    exact hf
  | accepted hpc =>
    rw [hpc] at hf
    rw [setPc_pc_self]
    exact fun name => .inl (congrFun hf name)
  | @writing _ announce updates todo hpc =>
    rw [hpc] at hf hc
    rw [setPc_pc_self]
    cases todo with
    | nil =>
      obtain rfl := hc.1
      exact hf
    | cons p todo =>
      rw [written]
      split <;> exact hf
  | pushing hpc =>
    rw [hpc] at hf
    rw [setPc_pc_self]
    exact hf
  | storing hpc =>
    rw [hpc] at hf hc
    rw [setPc_pc_self]
    exact hf.insert (hc.2 _ List.mem_cons_self)
  | silent hpc hempty =>
    rw [hpc] at hf
    rw [setPc_pc_self]
    exact hf.silent hempty
  | reading hpc =>
    rw [hpc] at hf
    rw [setPc_pc_self]
    exact hf.apply hs
  | publishing hpc =>
    rw [hpc] at hf
    rw [setPc_pc_self]
    exact (copyOf_append s.events _).trans hf

theorem follows_of_waiting {f : Copy} {s : Store} {pc : Pc} (h : pc.waiting = true) :
    Follows f s pc ↔ f = s.values := by
  cases pc <;> simp [Pc.waiting] at h <;> rfl

theorem Follows.onSet {f : Copy} {s : Store} {pc : Pc} (h : Follows f s pc) (n : Nat) :
    Follows f { s with onSet := n } pc := by
  cases pc <;> exact h

/-- The copy is as far behind as the one call that is in the middle of something. -/
structure Followed (s : Sys) : Prop where
  inv : Inv s
  announces : ∀ c, (s.pc c).Announces
  follows : OneBusy s (Follows (copyOf s.events) s.store)

theorem step_followed {s t : Sys} {m : Move} (hs : Followed s) (hok : Alone s m ∧ m.Announced)
    (h : step s m = some t) : Followed t := by
  have hstep := step_cases h
  refine ⟨step_inv hs.inv h, fun c => step_announces hs.inv.sound hok.2 hstep (hs.announces c), ?_⟩
  refine hs.follows.step follows_of_waiting hok.1 hstep (fun c hc hf => ?_) (fun hnone pc hf => ?_)
  · cases m with
    | call d op =>
      obtain rfl := Option.some.inj hc
      cases hstep with
      | call hpc =>
        rw [hpc] at hf
        rw [setPc_pc_self]
        exact begin_follows hf op
    | go d =>
      obtain rfl := Option.some.inj hc
      exact go_follows hs.inv.sound (hs.announces d) hf hstep
    | publishFails d raised => exact hok.2.elim
    | verdict d result =>
      obtain rfl := Option.some.inj hc
      cases hstep with
      | agreed hpc | refused hpc | raised hpc =>
        rw [hpc] at hf
        rw [setPc_pc_self]
        exact hf
    | addOnSetCallback => cases hc
  · cases hstep with
    | addOnSetCallback => exact hf.onSet _
    | _ => cases hnone

/-- Whoever takes up the events of a node, which announces all that is done to its parameters, none
of it in vain, and removes none, has the values of the store whenever no call is in the middle of
anything. -/
theorem events_follow {p : RclParams} {nodeFqn : String} {allowUndeclared : Bool} {store : Store}
    {ms : List Move} {t : Sys} (hcreate : Store.create p nodeFqn allowUndeclared = .ok store)
    (hok : Throughout step Alone (start store) ms) (hannounced : ∀ m ∈ ms, m.Announced)
    (h : run step (start store) ms = some t) (hquiet : ∀ c, (t.pc c).waiting = true)
    (name : String) : copyOf t.events name = (t.store.params name).map Parameter.value := by
  have hstart : Followed (start store) := by
    refine ⟨start_inv (create_sound hcreate), fun _ => trivial, 0, fun _ _ => rfl, ?_⟩
    obtain ⟨overrides, -, hstore⟩ := bind_eq_ok.mp hcreate
    rw [pure_eq_ok.mp hstore]
    rfl
  have hfollowed := run_invariant_of_throughout (fun _ _ _ hs hok h => step_followed hs hok h)
    hstart (hok.and_of_forall hannounced) h
  exact congrFun (hfollowed.follows.quiet follows_of_waiting hquiet) name

/-- A batch whose callback sets one of its parameters on the side, both announced. -/
def announcedRun : List Move :=
  [.addOnSetCallback, .call 1 (.set true [("rate", .integer 3), ("gain", .integer 4)]), .go 1,
    .call 2 (.set true [("gain", .integer 5)]), .go 2, .verdict 2 (.ok .ok), .go 2, .go 2, .go 2,
    .go 2, .go 2, .go 2, .go 2, .verdict 1 (.ok .ok), .go 1, .go 1, .go 1, .go 1, .go 1, .go 1,
    .go 1, .go 1, .go 1]

theorem announcedRun_alone : Throughout step Alone (start openStore) announcedRun :=
  alone_of_calls [1, 2] (fun _ _ => rfl) (by decide) (by decide)

theorem announcedRun_announced : ∀ m ∈ announcedRun, m.Announced := by
  simp [announcedRun, Move.Announced, Op.Announced]

theorem events_follow_nested : ∃ t, run step (start openStore) announcedRun = some t ∧
    t.events.length = 2 ∧ copyOf t.events "gain" = some (.integer 4) := by
  obtain ⟨t, ht, hlength, hgain, hcalls, hrest⟩ : ∃ t,
      run step (start openStore) announcedRun = some t ∧ t.events.length = 2 ∧
      (t.store.params "gain").map Parameter.value = some (.integer 4) ∧
      (∀ c ∈ [0, 1, 2], (t.pc c).waiting = true) ∧ ∀ c, t.pc (c + 3) = .idle :=
    ⟨_, rfl, rfl, rfl, by decide, fun _ => rfl⟩
  have hquiet : ∀ c, (t.pc c).waiting = true
    | 0 => hcalls 0 (by decide)
    | 1 => hcalls 1 (by decide)
    | 2 => hcalls 2 (by decide)
    | c + 3 => by rw [hrest]; rfl
  refine ⟨t, ht, hlength, ?_⟩
  rw [events_follow create_openStore announcedRun_alone announcedRun_announced ht hquiet, hgain]

end ParameterStore
