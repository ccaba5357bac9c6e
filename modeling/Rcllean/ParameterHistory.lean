import Rcllean.ParameterStore

/-!
# What the calls on the parameters have written

The account of a run lists the calls begun and the writes they made, in
order. A batch is written wholly or not at all in any interleaving. When calls
are not cut short by one another, as on one thread, where a call can begin
inside another only from a callback, the store lists exactly what replaying
the account gives. A parameter reads as it was declared for as long as no call
is made on it.
-/
namespace ParameterStore

open Parameters ParamOverrides Runs Function Listings

inductive Commit where
  | add (p : Parameter)
  | remove (name : String)
  | write (p : Parameter)

/-- The write that the next step of a call makes in the table. -/
def Pc.commit : Pc → List Commit
  | .inserting _ p => [.add p]
  | .erasing name => [.remove name]
  | .storing _ _ p _ => [.write p]
  | _ => []

inductive Entry where
  | called (c : Nat) (op : Op)
  | committed (c : Nat) (k : Commit)

def entries (s : Sys) : Move → List Entry
  | .call c op => [.called c op]
  | .go c => (s.pc c).commit.map (.committed c)
  | _ => []

/-- The account of a run. -/
def account (s : Sys) (ms : List Move) : List Entry := outputs step entries s ms

/-- What a call has written. -/
def Entry.by? (c : Nat) : Entry → Option Commit
  | .committed d k => if d = c then some k else none
  | .called _ _ => none

def commitsBy (c : Nat) (log : List Entry) : List Commit := log.filterMap (Entry.by? c)

/-! ## The table -/

def Commit.put (params : String → Option Parameter) : Commit → String → Option Parameter
  | .add p => update params p.name (some p)
  | .remove name => update params name none
  | .write p => update params p.name (some p)

def Entry.put (params : String → Option Parameter) : Entry → String → Option Parameter
  | .called _ _ => params
  | .committed _ k => k.put params

/-- The table as the writes of the account leave it. -/
def tableOf (log : List Entry) : String → Option Parameter := log.foldl Entry.put fun _ => none

/-- A step makes in the table the writes that the account says it makes, and no others. -/
theorem Step.params_eq {s t : Sys} {m : Move} (h : Step s m t) :
    t.store.params = (entries s m).foldl Entry.put s.store.params := by
  cases h with
  | call hpc | unheard hpc | unannounced hpc | agreed hpc | refused hpc | raised hpc => rfl
  | addOnSetCallback => rfl
  | inserting hpc | listing hpc | erasing hpc | forgetting hpc | checked hpc | accepted hpc
  | writing hpc | pushing hpc | storing hpc | silent hpc | reading hpc | publishing hpc =>
    rw [entries, hpc]
    rfl

theorem create_params {p : RclParams} {nodeFqn : String} {allowUndeclared : Bool} {store : Store}
    (h : Store.create p nodeFqn allowUndeclared = .ok store) : store.params = fun _ => none := by
  obtain ⟨overrides, -, hstore⟩ := bind_eq_ok.mp h
  rw [pure_eq_ok.mp hstore]

theorem params_eq_tableOf {p : RclParams} {nodeFqn : String} {allowUndeclared : Bool}
    {store : Store} {ms : List Move} {t : Sys}
    (hcreate : Store.create p nodeFqn allowUndeclared = .ok store)
    (h : run step (start store) ms = some t) :
    t.store.params = tableOf (account (start store) ms) := by
  have hstep : ∀ s m u log, s.store.params = tableOf log → True → step s m = some u →
      u.store.params = tableOf (log ++ entries s m) := by
    intro s m u log hs _ h
    rw [tableOf, List.foldl_append, ← tableOf, ← hs]
    exact (step_cases h).params_eq
  have hstart : (start store).store.params = tableOf [] := create_params hcreate
  exact run_outputs hstep hstart (throughout_true step _ ms) h

/-! ## All or nothing -/

def Outcome.Refused : Outcome → Prop
  | .raised _ => True
  | .set r => r.successful = false
  | _ => False

/-- The records carry the batch. -/
def Fills (updates : List (String × ParameterValue)) (ps : List Parameter) : Prop :=
  ps.map (fun p => (p.name, p.value)) = updates

/-- How far the call of a batch has come, from what it has written. -/
def Progress (updates : List (String × ParameterValue)) (wrote : List Commit) : Pc → Prop
  | .checked _ _ proposed => wrote = [] ∧ Fills updates proposed
  | .consulting _ _ proposed _ => wrote = [] ∧ Fills updates proposed
  | .writing _ _ todo => ∃ ps, wrote = ps.map .write ∧ Fills updates (ps ++ todo)
  | .pushing _ _ p todo => ∃ ps, wrote = ps.map .write ∧ Fills updates (ps ++ p :: todo)
  | .storing _ _ p todo => ∃ ps, wrote = ps.map .write ∧ Fills updates (ps ++ p :: todo)
  | .reading _ => ∃ ps, wrote = ps.map .write ∧ Fills updates ps
  | .publishing o _ => o = .set .ok ∧ ∃ ps, wrote = ps.map .write ∧ Fills updates ps
  | .returned o => (o = .set .ok ∨ ∃ e, o = .unannounced e) ∧
        (∃ ps, wrote = ps.map .write ∧ Fills updates ps) ∨
      o.Refused ∧ wrote = []
  | _ => False

theorem proposed_fills {s : Store} (hs : Sound s) {updates : List (String × ParameterValue)}
    {ps : List Parameter} (h : s.propose updates = .ok ps) : Fills updates ps := by
  have hall := propose_ok h
  rw [Fills]
  induction hall with
  | nil => rfl
  | @cons u p us ps hu _ ih =>
    have hname := (proposeOne_admits hs hu).1
    have hvalue : p.value = u.2 := by
      rcases proposeOne_ok hu with ⟨-, -, rfl⟩ | ⟨q, -, -, -, rfl⟩ <;> rfl
    rw [List.map_cons, ih (mapM_eq_ok.mpr ‹_›), hname, hvalue]

theorem begin_progress {s : Store} (hs : Sound s) (announce : Bool)
    (updates : List (String × ParameterValue)) :
    Progress updates [] (begin s (.set announce updates)) := by
  simp only [begin]
  split
  · exact .inr ⟨rfl, rfl⟩
  · next hok => exact ⟨rfl, proposed_fills hs hok⟩

/-- A step of the call carries it on and adds what it writes. -/
theorem go_progress {s t : Sys} {c : Nat} {updates : List (String × ParameterValue)}
    {wrote : List Commit} (hp : Progress updates wrote (s.pc c)) (h : Step s (.go c) t) :
    Progress updates (wrote ++ (s.pc c).commit) (t.pc c) := by
  cases h with
  | inserting hpc | listing hpc | erasing hpc | forgetting hpc =>
    rw [hpc] at hp
    exact hp.elim
  | checked hpc | reading hpc =>
    rw [hpc] at hp ⊢
    simpa [Pc.commit, Progress] using hp
  | accepted hpc =>
    rw [hpc] at hp ⊢
    obtain ⟨rfl, hfills⟩ := hp
    simpa [Pc.commit, Progress] using hfills
  | @writing _ announce us todo hpc =>
    rw [hpc] at hp ⊢
    obtain ⟨ps, rfl, hfills⟩ := hp
    cases todo with
    | nil =>
      rw [List.append_nil] at hfills
      cases announce with
      | true => simpa [Pc.commit, written, Progress] using ⟨ps, rfl, hfills⟩
      | false => simpa [Pc.commit, written, Progress] using Or.inl ⟨ps, rfl, hfills⟩
    | cons p todo =>
      cases hhas : s.store.has p.name <;>
        simpa [Pc.commit, written, hhas, Progress] using ⟨ps, rfl, hfills⟩
  | pushing hpc =>
    rw [hpc] at hp ⊢
    simpa [Pc.commit, Progress] using hp
  | @storing _ announce us p todo hpc =>
    rw [hpc] at hp ⊢
    obtain ⟨ps, rfl, hfills⟩ := hp
    simp only [setPc_pc_self, Progress]
    exact ⟨ps ++ [p], by simp [Pc.commit], by simpa using hfills⟩
  | silent hpc hempty =>
    rw [hpc] at hp ⊢
    simpa [Pc.commit, Progress] using Or.inl hp
  | publishing hpc =>
    rw [hpc] at hp ⊢
    simpa [Pc.commit, Progress] using Or.inl ⟨.inl hp.1, hp.2⟩

def Move.caller? : Move → Option Nat
  | .call c _ | .go c | .publishFails c _ | .verdict c _ => some c
  | .addOnSetCallback => none

/-- A step moves no call but its own. -/
theorem Step.pc_of_ne {s t : Sys} {m : Move} (h : Step s m t) {d : Nat}
    (hd : m.caller? ≠ some d) : t.pc d = s.pc d := by
  cases h with
  | addOnSetCallback => rfl
  | _ => exact setPc_pc_of_ne _ _ fun he => hd (by simp [Move.caller?, he])

theorem begin_ne_idle (s : Store) (op : Op) : begin s op ≠ .idle := by
  cases op <;> simp only [begin] <;> split <;> simp

theorem written_ne_idle (s : Store) (announce : Bool) (updates : List (String × ParameterValue))
    (todo : List Parameter) : written s announce updates todo ≠ .idle := by
  cases todo with
  | nil => cases announce <;> simp [written]
  | cons p todo => cases hhas : s.has p.name <;> simp [written, hhas]

/-- A call that is not under way has taken no step. -/
theorem Step.idle {s t : Sys} {m : Move} (h : Step s m t) {c : Nat} (hc : t.pc c = .idle) :
    m.caller? ≠ some c ∧ s.pc c = .idle := by
  have hm : m.caller? ≠ some c := by
    intro hm
    cases h with
    | addOnSetCallback => cases hm
    | call hpc =>
      obtain rfl := Option.some.inj hm
      exact begin_ne_idle _ _ (by simpa using hc)
    | writing hpc =>
      obtain rfl := Option.some.inj hm
      exact written_ne_idle _ _ _ _ (by simpa using hc)
    | @listing d announce p hpc =>
      obtain rfl := Option.some.inj hm
      cases announce <;> simp at hc
    | _ =>
      obtain rfl := Option.some.inj hm
      simp at hc
  exact ⟨hm, h.pc_of_ne hm ▸ hc⟩

theorem verdict_progress {s t : Sys} {c : Nat} {result : Except String SetResult}
    {updates : List (String × ParameterValue)} {wrote : List Commit}
    (hp : Progress updates wrote (s.pc c)) (h : Step s (.verdict c result) t) :
    Progress updates wrote (t.pc c) := by
  cases h with
  | agreed hpc hr =>
    rw [hpc] at hp
    simpa [Progress] using hp
  | refused hpc hr =>
    rw [hpc] at hp
    simpa [Progress] using Or.inr ⟨hr, hp.1⟩
  | raised hpc =>
    rw [hpc] at hp
    simpa [Progress, Outcome.Refused] using hp.1

theorem publishFails_progress {s t : Sys} {c : Nat} {raised : Option String}
    {updates : List (String × ParameterValue)} {wrote : List Commit}
    (hp : Progress updates wrote (s.pc c)) (h : Step s (.publishFails c raised) t) :
    Progress updates wrote (t.pc c) := by
  cases h with
  | unheard hpc =>
    rw [hpc] at hp
    simpa [Progress] using Or.inl ⟨.inl hp.1, hp.2⟩
  | unannounced hpc =>
    rw [hpc] at hp
    simpa [Progress] using Or.inl hp.2

theorem commitsBy_append (c : Nat) (log log' : List Entry) :
    commitsBy c (log ++ log') = commitsBy c log ++ commitsBy c log' :=
  List.filterMap_append

theorem commitsBy_go (s : Sys) (c : Nat) : commitsBy c (entries s (.go c)) = (s.pc c).commit := by
  simp [commitsBy, entries, List.filterMap_map, Function.comp_def, Entry.by?]

theorem commitsBy_of_ne {s : Sys} {m : Move} {c : Nat} (h : m ≠ .go c) :
    commitsBy c (entries s m) = [] := by
  cases m with
  | go d =>
    have hd : d ≠ c := fun he => h (he ▸ rfl)
    simp [commitsBy, entries, List.filterMap_map, Function.comp_def, Entry.by?, hd]
  | _ => rfl

theorem called_mem_entries {s : Sys} {m : Move} {c : Nat} {op : Op} :
    Entry.called c op ∈ entries s m ↔ m = .call c op := by
  cases m <;> simp [entries, eq_comm]

/-- What the account says of each call agrees with where the call stands. -/
structure Kept (s : Sys) (log : List Entry) : Prop where
  inv : Inv s
  idle : ∀ c, s.pc c = .idle → commitsBy c log = [] ∧ ∀ op, Entry.called c op ∉ log
  progress : ∀ c announce updates, Entry.called c (.set announce updates) ∈ log →
    Progress updates (commitsBy c log) (s.pc c)

theorem step_kept {s t : Sys} {m : Move} {log : List Entry} (hs : Kept s log)
    (h : step s m = some t) : Kept t (log ++ entries s m) := by
  have hstep := step_cases h
  refine ⟨step_inv hs.inv h, fun c hc => ?_, fun c announce updates hm => ?_⟩
  · obtain ⟨hne, hidle⟩ := hstep.idle hc
    obtain ⟨hnone, hnew⟩ := hs.idle c hidle
    have hgo : m ≠ .go c := fun he => hne (he ▸ rfl)
    refine ⟨by rw [commitsBy_append, hnone, commitsBy_of_ne hgo, List.append_nil], fun op hop => ?_⟩
    rcases List.mem_append.mp hop with hop | hop
    · exact hnew op hop
    · exact hne (called_mem_entries.mp hop ▸ rfl)
  · rw [commitsBy_append]
    rcases List.mem_append.mp hm with hlog | hnew
    · have hp := hs.progress c announce updates hlog
      by_cases hc : m.caller? = some c
      · cases m with
        | call d op =>
          obtain rfl := Option.some.inj hc
          cases hstep with
          | call hpc => exact absurd hlog ((hs.idle d hpc).2 _)
        | go d =>
          obtain rfl := Option.some.inj hc
          rw [commitsBy_go]
          exact go_progress hp hstep
        | publishFails d raised =>
          obtain rfl := Option.some.inj hc
          rw [commitsBy_of_ne (by simp), List.append_nil]
          exact publishFails_progress hp hstep
        | verdict d result =>
          obtain rfl := Option.some.inj hc
          rw [commitsBy_of_ne (by simp), List.append_nil]
          exact verdict_progress hp hstep
        | addOnSetCallback => cases hc
      · have hgo : m ≠ .go c := fun he => hc (he ▸ rfl)
        rw [commitsBy_of_ne hgo, List.append_nil, hstep.pc_of_ne hc]
        exact hp
    · obtain rfl := called_mem_entries.mp hnew
      cases hstep with
      | call hpc =>
        rw [(hs.idle c hpc).1, commitsBy_of_ne (by simp), setPc_pc_self]
        exact begin_progress hs.inv.sound announce updates

/-- In any interleaving the table is what the writes made so far leave it; a batch that was accepted
has made its writes, all in its order, also where announcing it raised, and one that was refused,
or raised before, has made none. -/
theorem set_all_or_nothing {p : RclParams} {nodeFqn : String} {allowUndeclared : Bool}
    {store : Store} {ms : List Move} {t : Sys}
    (hcreate : Store.create p nodeFqn allowUndeclared = .ok store)
    (h : run step (start store) ms = some t) {c : Nat} {announce : Bool}
    {updates : List (String × ParameterValue)} {o : Outcome}
    (hcall : Entry.called c (.set announce updates) ∈ account (start store) ms)
    (ho : t.pc c = .returned o) :
    t.store.params = tableOf (account (start store) ms) ∧
      ((o = .set .ok ∨ ∃ e, o = .unannounced e) ∧ (∃ ps : List Parameter,
          commitsBy c (account (start store) ms) = ps.map Commit.write ∧
          ps.map (fun p => (p.name, p.value)) = updates) ∨
        o.Refused ∧ commitsBy c (account (start store) ms) = []) := by
  have hstart : Kept (start store) [] :=
    ⟨start_inv (create_sound hcreate), fun c _ => ⟨rfl, by simp⟩, by simp⟩
  have hkept := run_outputs (fun _ _ _ _ hs _ h => step_kept hs h) hstart
    (throughout_true step _ ms) h
  have hp := hkept.progress c announce updates hcall
  rw [ho] at hp
  exact ⟨params_eq_tableOf hcreate h, hp⟩

/-- A batch whose callback sets one of its parameters on the side, before it agrees. -/
def nestedRun : List Move :=
  [.addOnSetCallback, .call 1 (.set false [("rate", .integer 3), ("gain", .integer 4)]), .go 1,
    .call 2 (.set false [("gain", .integer 5)]), .go 2, .verdict 2 (.ok .ok), .go 2, .go 2, .go 2,
    .go 2, .go 2, .verdict 1 (.ok .ok), .go 1, .go 1, .go 1, .go 1, .go 1, .go 1, .go 1]

theorem set_all_or_nothing_nested : ∃ t, run step (start openStore) nestedRun = some t ∧
    (tableOf (account (start openStore) nestedRun) "gain").map Parameter.value =
      some (.integer 4) ∧
    ∃ ps : List Parameter,
      commitsBy 1 (account (start openStore) nestedRun) = ps.map Commit.write ∧
      ps.map (fun p => (p.name, p.value)) = [("rate", .integer 3), ("gain", .integer 4)] := by
  obtain ⟨t, ht, hreturned, hgain⟩ : ∃ t, run step (start openStore) nestedRun = some t ∧
      t.pc 1 = .returned (.set .ok) ∧
      (t.store.params "gain").map Parameter.value = some (.integer 4) := ⟨_, rfl, rfl, rfl⟩
  have hcall : Entry.called 1 (.set false [("rate", .integer 3), ("gain", .integer 4)]) ∈
      account (start openStore) nestedRun := List.mem_cons_self
  obtain ⟨htable, ⟨-, hwritten⟩ | ⟨hrefused, -⟩⟩ :=
    set_all_or_nothing create_openStore ht hcall hreturned
  · exact ⟨t, ht, htable ▸ hgain, hwritten⟩
  · cases hrefused

/-! ## Calls that do not cut one another short -/

/-- The call has not begun, has returned, or a callback of it is running. -/
def Pc.waiting : Pc → Bool
  | .idle => true
  | .returned _ => true
  | .consulting _ _ _ (_ :: _) => true
  | _ => false

/-- A call moves while all others wait, as they do on one thread: there a call begins inside
another only from a callback, and returns before the callback does. -/
def Alone (s : Sys) (m : Move) : Prop :=
  ∀ c, m.caller? = some c → ∀ d, d ≠ c → (s.pc d).waiting = true

/-- All calls wait but one, of which `Q` holds. -/
def OneBusy (s : Sys) (Q : Pc → Prop) : Prop :=
  ∃ c, (∀ d, d ≠ c → (s.pc d).waiting = true) ∧ Q (s.pc c)

/-- Where waiting calls all have the same to meet, it can pass from the call that was busy to the
one that moves now. -/
theorem OneBusy.step {s t : Sys} {m : Move} {Q Q' : Pc → Prop} {P : Prop} (hs : OneBusy s Q)
    (hQ : ∀ {pc}, pc.waiting = true → (Q pc ↔ P)) (hok : Alone s m) (h : Step s m t)
    (hmove : ∀ c, m.caller? = some c → Q (s.pc c) → Q' (t.pc c))
    (hstay : m.caller? = none → ∀ pc, Q pc → Q' pc) : OneBusy t Q' := by
  obtain ⟨d, hothers, hd⟩ := hs
  cases hm : m.caller? with
  | none =>
    refine ⟨d, fun e he => ?_, ?_⟩
    · rw [h.pc_of_ne (by simp [hm])]
      exact hothers e he
    · rw [h.pc_of_ne (by simp [hm])]
      exact hstay hm _ hd
  | some c =>
    refine ⟨c, fun e he => ?_, hmove c hm ?_⟩
    · rw [h.pc_of_ne fun heq => he (Option.some.inj (heq.symm.trans hm))]
      exact hok c hm e he
    · by_cases hdc : d = c
      · exact hdc ▸ hd
      · rw [hQ (hok c hm d hdc)] at hd
        exact (hQ (hothers c fun he => hdc he.symm)).mpr hd

/-- When the busy call waits too, what waiting calls have to meet holds. -/
theorem OneBusy.quiet {s : Sys} {Q : Pc → Prop} {P : Prop} (hs : OneBusy s Q)
    (hQ : ∀ {pc}, pc.waiting = true → (Q pc ↔ P)) (h : ∀ c, (s.pc c).waiting = true) : P := by
  obtain ⟨c, -, hc⟩ := hs
  exact (hQ (h c)).mp hc

def Commit.apply (l : List (String × Parameter)) : Commit → List (String × Parameter)
  | .add p => l ++ [(p.name, p)]
  | .remove name => l.filter fun p => p.1 ≠ name
  | .write p => upsert l p.name p

def Entry.apply (l : List (String × Parameter)) : Entry → List (String × Parameter)
  | .called _ _ => l
  | .committed _ k => k.apply l

/-- The parameters as the account leaves them, a declaration at the end of the list and a write in
its place. -/
def replay (log : List Entry) : List (String × Parameter) := log.foldl Entry.apply []

/-- The order lists the table, and what it lists is `l`. -/
structure Listed (l : List (String × Parameter)) (s : Store) : Prop where
  lists : Lists s.order s.params
  eq : listing s.params s.order = l

/-- What holds of the store while the call is where it is: in the middle of a declaration or a
write, it is what comes after the other half that is listed. -/
def Shape (l : List (String × Parameter)) (s : Store) : Pc → Prop
  | .inserting _ p => Listed l s ∧ s.params p.name = none
  | .listing _ p => Listed l (s.push p.name)
  | .forgetting name => Listed l (s.forget name)
  | .pushing _ _ p _ => Listed l s ∧ s.params p.name = none
  | .storing _ _ p _ => Listed (upsert l p.name p) (s.insert p)
  | _ => Listed l s

theorem shape_of_waiting {l : List (String × Parameter)} {s : Store} {pc : Pc}
    (h : pc.waiting = true) : Shape l s pc ↔ Listed l s := by
  cases pc <;> simp [Pc.waiting] at h <;> rfl

/-- Callbacks have no part in what is listed. -/
theorem Shape.onSet {l : List (String × Parameter)} {s : Store} {pc : Pc} (h : Shape l s pc)
    (n : Nat) : Shape l { s with onSet := n } pc := by
  cases pc with
  | inserting announce p => exact ⟨⟨h.1.lists, h.1.eq⟩, h.2⟩
  | pushing announce updates p todo => exact ⟨⟨h.1.lists, h.1.eq⟩, h.2⟩
  | _ => exact ⟨h.lists, h.eq⟩

theorem Listed.add {l : List (String × Parameter)} {s : Store} (h : Listed l s) {p : Parameter}
    (hp : s.params p.name = none) :
    Listed (l ++ [(p.name, p)]) ((s.insert p).push p.name) :=
  ⟨h.lists.push hp p, by rw [← h.eq]; exact h.lists.listing_push hp p⟩

theorem Listed.remove {l : List (String × Parameter)} {s : Store} (h : Listed l s)
    (name : String) :
    Listed (l.filter fun p => p.1 ≠ name) ((s.erase name).forget name) := by
  refine ⟨h.lists.erase name, ?_⟩
  rw [← h.eq, ← listing_erase]
  exact listing_filter (update_self ..) _

theorem Listed.write {l : List (String × Parameter)} {s : Store} (h : Listed l s) {p : Parameter}
    (hp : s.has p.name = true) : Listed (upsert l p.name p) (s.insert p) := by
  have hm : p.name ∈ s.order := (h.lists.mem_iff _).mpr hp
  exact ⟨h.lists.write hm p, by rw [← h.eq]; exact h.lists.listing_write hm p⟩

theorem begin_shape {l : List (String × Parameter)} {s : Store} (h : Listed l s) (op : Op) :
    Shape l s (begin s op) := by
  cases op with
  | declare announce name defaultValue descriptor =>
    simp only [begin]
    split
    · exact h
    · next hok =>
      obtain ⟨hfree, hname, -⟩ := declaration_ok hok
      exact ⟨h, by rw [hname, hfree]⟩
  | undeclare name =>
    simp only [begin]
    split <;> exact h
  | set announce updates =>
    simp only [begin]
    split <;> exact h

/-- A step of a call that moves alone does to the list what it writes. -/
theorem go_shape {l : List (String × Parameter)} {s t : Sys} {c : Nat}
    (hs : Shape l s.store (s.pc c)) (h : Step s (.go c) t) :
    Shape ((s.pc c).commit.foldl Commit.apply l) t.store (t.pc c) := by
  cases h with
  | inserting hpc =>
    rw [hpc] at hs ⊢
    rw [setPc_pc_self]
    exact hs.1.add hs.2
  | @listing _ announce p hpc =>
    rw [hpc] at hs ⊢
    rw [setPc_pc_self]
    cases announce <;> exact hs
  | erasing hpc =>
    rw [hpc] at hs ⊢
    rw [setPc_pc_self]
    exact hs.remove _
  | @writing _ announce us todo hpc =>
    rw [hpc] at hs ⊢
    rw [setPc_pc_self]
    cases todo with
    | nil => cases announce <;> exact hs
    | cons p todo =>
      cases hhas : s.store.has p.name with
      | true => simpa [Shape, Pc.commit, written, hhas] using hs.write hhas
      | false =>
        have hfree : s.store.params p.name = none := by simpa [Store.has] using hhas
        simpa [Shape, Pc.commit, written, hhas] using ⟨hs, hfree⟩
  | @pushing _ announce us p todo hpc =>
    rw [hpc] at hs ⊢
    rw [setPc_pc_self]
    obtain ⟨hlisted, hfree⟩ := hs
    have hnew : upsert l p.name p = l ++ [(p.name, p)] := by
      rw [← hlisted.eq]
      exact hlisted.lists.upsert_new hfree p
    change Listed (upsert l p.name p) _
    rw [hnew]
    exact hlisted.add hfree
  | forgetting hpc | storing hpc | checked hpc | accepted hpc | silent hpc | reading hpc
  | publishing hpc =>
    rw [hpc] at hs ⊢
    rw [setPc_pc_self]
    exact hs

/-- The list is what the store gives once the one call that is in the middle of something is
through with it. -/
def Ordered (s : Sys) (l : List (String × Parameter)) : Prop := OneBusy s (Shape l s.store)

theorem step_ordered {s t : Sys} {m : Move} {l : List (String × Parameter)} (hs : Ordered s l)
    (hok : Alone s m) (h : step s m = some t) : Ordered t ((entries s m).foldl Entry.apply l) := by
  have hstep := step_cases h
  refine hs.step shape_of_waiting hok hstep (fun c hc hshape => ?_) (fun hnone pc hshape => ?_)
  · cases m with
    | call d op =>
      obtain rfl := Option.some.inj hc
      cases hstep with
      | call hpc =>
        rw [hpc] at hshape
        rw [setPc_pc_self]
        exact begin_shape hshape op
    | go d =>
      obtain rfl := Option.some.inj hc
      rw [entries, List.foldl_map]
      exact go_shape hshape hstep
    | publishFails d raised =>
      obtain rfl := Option.some.inj hc
      cases hstep with
      | unheard hpc | unannounced hpc =>
        rw [hpc] at hshape
        rw [setPc_pc_self]
        exact hshape
    | verdict d result =>
      obtain rfl := Option.some.inj hc
      cases hstep with
      | agreed hpc | refused hpc | raised hpc =>
        rw [hpc] at hshape
        rw [setPc_pc_self]
        exact hshape
    | addOnSetCallback => cases hc
  · cases hstep with
    | addOnSetCallback => exact hshape.onSet _
    | _ => cases hnone

/-- When no call is in the middle of anything, the store lists what the account comes to. -/
theorem quiet_listed {p : RclParams} {nodeFqn : String} {allowUndeclared : Bool}
    {store : Store} {ms : List Move} {t : Sys}
    (hcreate : Store.create p nodeFqn allowUndeclared = .ok store)
    (hok : Throughout step Alone (start store) ms) (h : run step (start store) ms = some t)
    (hquiet : ∀ c, (t.pc c).waiting = true) :
    Listed (replay (account (start store) ms)) t.store := by
  have hstart : Ordered (start store) (replay []) := by
    refine ⟨0, fun _ _ => rfl, ?_⟩
    obtain ⟨overrides, -, hstore⟩ := bind_eq_ok.mp hcreate
    rw [pure_eq_ok.mp hstore]
    exact ⟨Lists.empty, rfl⟩
  have hstep : ∀ s m u log, Ordered s (replay log) → Alone s m → step s m = some u →
      Ordered u (replay (log ++ entries s m)) := by
    intro s m u log hs hok h
    rw [replay, List.foldl_append]
    exact step_ordered hs hok h
  exact (run_outputs hstep hstart hok h).quiet shape_of_waiting hquiet

/-- When no call is in the middle of anything, the parameters stand in the order in which they were
declared, each once, with the values last written. -/
theorem lists_as_declared {p : RclParams} {nodeFqn : String} {allowUndeclared : Bool}
    {store : Store} {ms : List Move} {t : Sys}
    (hcreate : Store.create p nodeFqn allowUndeclared = .ok store)
    (hok : Throughout step Alone (start store) ms) (h : run step (start store) ms = some t)
    (hquiet : ∀ c, (t.pc c).waiting = true) :
    t.store.order.Nodup ∧ (∀ name, name ∈ t.store.order ↔ t.store.has name = true) ∧
      t.store.all = (replay (account (start store) ms)).map Prod.snd := by
  have hlisted := quiet_listed hcreate hok h hquiet
  refine ⟨hlisted.lists.nodup, hlisted.lists.mem_iff, ?_⟩
  rw [Store.all, ← listing_values, hlisted.eq]

/-- Whether a call moves alone is a matter of the calls there are. -/
theorem alone_of_calls (calls : List Nat) {s : Sys} {ms : List Move}
    (hidle : ∀ d, d ∉ calls → s.pc d = .idle)
    (hcalls : ∀ m ∈ ms, ∀ c, m.caller? = some c → c ∈ calls)
    (h : Throughout step (fun s m => ∀ d ∈ calls, m.caller? ≠ some d → (s.pc d).waiting = true)
      s ms) : Throughout step Alone s ms := by
  induction ms generalizing s with
  | nil => trivial
  | cons m ms ih =>
    refine ⟨fun c hc d hd => ?_, fun t ht => ih (fun d hd => ?_) (fun m' hm => ?_) (h.2 t ht)⟩
    · by_cases hm : d ∈ calls
      · exact h.1 d hm fun he => hd (Option.some.inj (he.symm.trans hc))
      · rw [hidle d hm]
        rfl
    · rw [(step_cases ht).pc_of_ne fun he => hd (hcalls m List.mem_cons_self d he)]
      exact hidle d hd
    · exact hcalls m' (List.mem_cons_of_mem _ hm)

theorem nestedRun_alone : Throughout step Alone (start openStore) nestedRun :=
  alone_of_calls [1, 2] (fun _ _ => rfl) (by decide) (by decide)

theorem lists_as_declared_nested : ∃ t, run step (start openStore) nestedRun = some t ∧
    t.store.order = ["gain", "rate"] ∧ t.store.order.Nodup ∧
      t.store.all = (replay (account (start openStore) nestedRun)).map Prod.snd := by
  obtain ⟨t, ht, horder, hcalls, hrest⟩ : ∃ t, run step (start openStore) nestedRun = some t ∧
      t.store.order = ["gain", "rate"] ∧ (∀ c ∈ [0, 1, 2], (t.pc c).waiting = true) ∧
      ∀ c, t.pc (c + 3) = .idle := ⟨_, rfl, rfl, by decide, fun _ => rfl⟩
  have hquiet : ∀ c, (t.pc c).waiting = true
    | 0 => hcalls 0 (by decide)
    | 1 => hcalls 1 (by decide)
    | 2 => hcalls 2 (by decide)
    | c + 3 => by rw [hrest]; rfl
  have hlists := lists_as_declared create_openStore nestedRun_alone ht hquiet
  exact ⟨t, ht, horder, hlists.1, hlists.2.2⟩

/-! ## Declared values -/

/-- The store holds the value under the name. -/
def Holds (name : String) (v : ParameterValue) (s : Store) : Prop :=
  ∃ p, s.params name = some p ∧ p.value = v

/-- How far the declaration of the name has come, if it has not been refused. -/
def Declares (name : String) (v : ParameterValue) (s : Store) : Pc → Prop
  | .inserting _ p => p.name = name ∧ p.value = v
  | .listing _ p => p.value = v ∧ Holds name v s
  | .publishing outcome _ | .returned outcome =>
    (∃ e, outcome = .raised e ∨ outcome = .unannounced e) ∨ outcome = .declared v ∧ Holds name v s
  | _ => False

/-- The declaration is the only call under way that is about the name. -/
structure Declaring (name : String) (v : ParameterValue) (c : Nat) (s : Sys) : Prop where
  inv : Inv s
  place : Declares name v s.store (s.pc c)
  others : ∀ d, d ≠ c → ¬Touches name (s.pc d)

theorem begin_declares (s : Store) (announce : Bool) (name : String) (defaultValue : ParameterValue)
    (descriptor : ParameterDescriptor) :
    Declares name ((s.overrides name).getD defaultValue) s
      (begin s (.declare announce name defaultValue descriptor)) := by
  simp only [begin]
  split
  · exact .inl ⟨_, .inl rfl⟩
  · next hok => exact ⟨(declaration_ok hok).2.1, (declaration_ok hok).2.2.1⟩

theorem Declares.mono {name : String} {v : ParameterValue} {s t : Store} {pc : Pc}
    (h : Declares name v s pc) (hheld : Holds name v s → Holds name v t) :
    Declares name v t pc := by
  cases pc with
  | inserting announce p => exact h
  | listing announce p => exact ⟨h.1, hheld h.2⟩
  | publishing outcome event => exact h.imp_right fun hd => ⟨hd.1, hheld hd.2⟩
  | returned outcome => exact h.imp_right fun hd => ⟨hd.1, hheld hd.2⟩
  | _ => exact h

/-- Only the declaration itself writes under the name. -/
theorem Declaring.held {name : String} {v : ParameterValue} {c : Nat} {s t : Sys} {m : Move}
    (hs : Declaring name v c s) (h : Step s m t) (hheld : Holds name v s.store) :
    Holds name v t.store := by
  have hplace := hs.place
  obtain ⟨p, hp, hv⟩ := hheld
  rcases h.params_cases with hsame | ⟨d, q, hq, hput⟩ | ⟨d, gone, hpc, hput⟩
  · exact ⟨p, hsame ▸ hp, hv⟩
  · by_cases hname : q.name = name
    · have hd : d = c := by
        by_contra hd
        exact hs.others d hd (.inl ⟨q, hq, hname⟩)
      subst hd
      refine ⟨q, by rw [hput, hname, update_self], ?_⟩
      cases hpc : s.pc d with
      | inserting announce r =>
        rw [hpc] at hq hplace
        obtain rfl := List.mem_singleton.mp hq
        exact hplace.2
      | checked | consulting | writing | pushing | storing =>
        rw [hpc] at hplace
        cases hplace
      | _ =>
        rw [hpc] at hq
        cases hq
    · exact ⟨p, by rw [hput, update_of_ne (Ne.symm hname), hp], hv⟩
  · have hd : d ≠ c := by
      rintro rfl
      rw [hpc] at hplace
      cases hplace
    have hne : name ≠ gone := fun hname => hs.others d hd (.inr (hname ▸ hpc))
    exact ⟨p, by rw [hput, update_of_ne hne, hp], hv⟩

theorem step_declaring {name : String} {v : ParameterValue} {c : Nat} {s t : Sys} {m : Move}
    (hs : Declaring name v c s) (hunnamed : ∀ d op, m = .call d op → ¬op.Names name)
    (h : step s m = some t) : Declaring name v c t := by
  have hstep := step_cases h
  have hplace := hs.place
  refine ⟨step_inv hs.inv h, ?_, fun d hd => ?_⟩
  · by_cases hm : m.caller? = some c
    · cases hstep with
      | addOnSetCallback => cases hm
      | @inserting d announce p hpc =>
        obtain rfl := Option.some.inj hm
        rw [hpc] at hplace
        rw [setPc_pc_self, setPc_store]
        exact ⟨hplace.2, p, by simp [Store.insert, hplace.1], hplace.2⟩
      | @listing d announce p hpc =>
        obtain rfl := Option.some.inj hm
        rw [hpc] at hplace
        obtain ⟨rfl, hheld⟩ := hplace
        rw [setPc_pc_self, setPc_store]
        cases announce with
        | true => exact .inr ⟨rfl, hheld⟩
        | false => exact .inr ⟨rfl, hheld⟩
      | publishing hpc | unheard hpc =>
        obtain rfl := Option.some.inj hm
        rw [hpc] at hplace
        rw [setPc_pc_self]
        exact hplace
      | unannounced hpc =>
        obtain rfl := Option.some.inj hm
        rw [setPc_pc_self]
        exact .inl ⟨_, .inr rfl⟩
      | call hpc | erasing hpc | forgetting hpc | checked hpc | accepted hpc | writing hpc
      | pushing hpc | storing hpc | silent hpc | reading hpc | agreed hpc | refused hpc
      | raised hpc =>
        obtain rfl := Option.some.inj hm
        rw [hpc] at hplace
        cases hplace
    · rw [hstep.pc_of_ne hm]
      exact hplace.mono (hs.held hstep)
  · rcases hstep.pc_cases d with hsame | ⟨op, hm, hbegin⟩ | ⟨hless, hnot⟩
    · rw [hsame]
      exact hs.others d hd
    · rw [hbegin]
      exact begin_unnamed hs.inv.sound (hunnamed d op hm)
    · rintro (⟨q, hq, hname⟩ | herase)
      · exact hs.others d hd (.inl ⟨q, hless hq, hname⟩)
      · exact hnot name herase

theorem Step.overrides {s t : Sys} {m : Move} (h : Step s m t) :
    t.store.overrides = s.store.overrides := by
  cases h <;> rfl

/-- From the return of its declaration on a parameter reads as its override, or as its default
where there is none, whatever calls are made on other parameters meanwhile and afterwards. -/
theorem declared_reads {p : RclParams} {nodeFqn : String} {allowUndeclared : Bool} {store : Store}
    {before after : List Move} {s t : Sys}
    (hcreate : Store.create p nodeFqn allowUndeclared = .ok store)
    (hbefore : run step (start store) before = some s) {name : String}
    (huntouched : ∀ d, ¬Touches name (s.pc d)) {c : Nat} {announce : Bool}
    {defaultValue : ParameterValue} {descriptor : ParameterDescriptor}
    (hafter : run step s (.call c (.declare announce name defaultValue descriptor) :: after) =
      some t)
    (hunnamed : ∀ d op, Move.call d op ∈ after → ¬op.Names name) {v : ParameterValue}
    (hreturned : t.pc c = .returned (.declared v)) :
    v = (store.overrides name).getD defaultValue ∧ t.store.get name = .ok v := by
  have hinv := run_invariant (fun _ _ _ hs h => step_inv hs h) (start_inv (create_sound hcreate))
    hbefore
  have hoverrides : s.store.overrides = store.overrides :=
    run_invariant (fun _ _ _ hs h => (step_cases h).overrides.trans hs) rfl hbefore
  obtain ⟨u, hu, hafter⟩ := run_cons_some hafter
  have hbegun : Declaring name ((store.overrides name).getD defaultValue) c u := by
    refine ⟨step_inv hinv hu, ?_, fun d hd => ?_⟩
    · cases step_cases hu with
      | call hpc =>
        rw [setPc_pc_self, setPc_store, ← hoverrides]
        exact begin_declares s.store announce name defaultValue descriptor
    · rw [(step_cases hu).pc_of_ne fun hc => hd (Option.some.inj hc).symm]
      exact huntouched d
  have hplace := (run_invariant_of_throughout (fun _ _ _ hs hok h => step_declaring hs hok h)
    hbegun (throughout_unnamed hunnamed u) hafter).place
  rw [hreturned] at hplace
  rcases hplace with ⟨e, he | he⟩ | ⟨hv, q, hq, hvalue⟩
  · cases he
  · cases he
  · obtain rfl : v = (store.overrides name).getD defaultValue := by injection hv
    exact ⟨rfl, by simp [Store.get, hq, hvalue]⟩

/-- A declaration of a parameter, cut short by a call that sets another one. -/
def declaringRun : List Move :=
  [.go 0, .call 1 (.set false [("speed", .integer 4)]), .go 1, .go 0] ++ List.replicate 5 (.go 1)

theorem declared_reads_beside : ∃ t, run step (start openStore)
      (.call 0 (.declare false "rate" (.integer 3) { dynamicTyping := true }) :: declaringRun) =
        some t ∧ t.store.has "speed" = true ∧ t.store.get "rate" = .ok (.integer 3) := by
  obtain ⟨t, v, ht, hspeed, hpc⟩ : ∃ t v, run step (start openStore)
      (.call 0 (.declare false "rate" (.integer 3) { dynamicTyping := true }) :: declaringRun) =
        some t ∧ t.store.has "speed" = true ∧ t.pc 0 = .returned (.declared v) :=
    ⟨_, _, rfl, rfl, rfl⟩
  have hunnamed : ∀ d op, Move.call d op ∈ declaringRun → ¬op.Names "rate" := by
    intro d op hm
    simp only [declaringRun, List.mem_append, List.mem_cons, Move.call.injEq, List.mem_replicate,
      reduceCtorEq, List.not_mem_nil, and_false, false_or, or_false] at hm
    obtain ⟨-, rfl⟩ := hm
    simp [Op.Names]
  have hreads := declared_reads create_openStore (run_nil step (start openStore))
    (fun d => by simp [start, Touches, carries]) ht hunnamed hpc
  have hdefault : (openStore.overrides "rate").getD (.integer 3) = .integer 3 := by
    simp [openStore]
  rw [hdefault] at hreads
  exact ⟨t, ht, hspeed, hreads.1 ▸ hreads.2⟩

end ParameterStore
