import Rcllean.ParameterStore
import Rcllean.Stamps

/-!
# Simulated time

A time source switches its clock between the wall and the simulation by a
callback on the node's parameters. The callback takes its turn before the
batch it is shown is written, and callbacks behind it may still refuse the
batch or set parameters of their own. Each callback of the time source runs in
one piece, as on one thread, and does not raise: the clock takes an override
whenever it is given one.
-/
namespace SimTime

open Parameters ParameterStore Stamps Runs Function

/-- The parameter the time source follows. -/
def useSimTime : String := "use_sim_time"

/-- A ROS clock: whether the override is on, and the time last given to it. -/
structure Clock where
  override : Bool
  time : Int64

def Clock.now (c : Clock) (wall : Int64) : Int64 := if c.override then c.time else wall

/-- The parameters, and the time source that follows them. -/
structure State where
  params : Sys
  /-- The place of the time source's callback. -/
  follower : Nat
  enabled : Bool
  clock : Clock

def State.setEnabled (s : State) (enable : Bool) : State :=
  if s.enabled == enable then s
  else { s with enabled := enable, clock := { s.clock with override := enable } }

/-- A round of the callback's loop. -/
def State.switchOne (s : State) (p : Parameter) : State :=
  if p.name == useSimTime then
    match p.value.asBool? with
    | some enable => s.setEnabled enable
    | none => s
  else s

/-- `TimeSource.create` on a clock without override, and `followParameter`. -/
def followParameter (params : Sys) (time : Int64) : Except String State := do
  let value ← params.store.get useSimTime
  let s : State := ⟨params, params.store.onSet, false, ⟨false, time⟩⟩
  let s := match value.asBool? with
    | some enable => s.setEnabled enable
    | none => s
  return { s with
    params.store := { params.store with onSet := params.store.onSet + 1 } }

inductive Move where
  /-- Calls on the parameters and other callbacks. -/
  | params (m : ParameterStore.Move)
  /-- The callback of the time source is shown the batch of a call. -/
  | follow (c : Nat)
  | clock (stamp : Stamp)

/-- The callback whose turn it is in a call. -/
def turn : Pc → Option Nat
  | .consulting _ _ _ (cb :: _) => some cb
  | _ => none

def proposedOf : Pc → List Parameter
  | .consulting _ _ proposed _ => proposed
  | _ => []

/-- The call in which a callback returns or raises. -/
def verdictOf : ParameterStore.Move → Option Nat
  | .verdict c _ => some c
  | _ => none

def step (s : State) : Move → Option State
  | .params m =>
    if (verdictOf m).bind (fun c => turn (s.params.pc c)) = some s.follower then none
    else (ParameterStore.step s.params m).map fun params => { s with params }
  | .follow c =>
    if turn (s.params.pc c) = some s.follower then
      (ParameterStore.step s.params (.verdict c (.ok .ok))).map fun params =>
        (proposedOf (s.params.pc c)).foldl State.switchOne { s with params }
    else none
  | .clock stamp => some (if s.enabled then
      { s with clock := { s.clock with time := toNanos stamp } } else s)

/-! ## What the callback makes of a batch -/

/-- What a list of records switches the clock to, if anything: the last one counts. -/
def offered (ps : List Parameter) : Option Bool :=
  (ps.filterMap fun p => if p.name = useSimTime then p.value.asBool? else none).getLast?

theorem offered_cons (p : Parameter) (ps : List Parameter) :
    offered (p :: ps) = (offered ps).or
      (if p.name = useSimTime then p.value.asBool? else none) := by
  simp only [offered, List.filterMap_cons]
  cases hp : (if p.name = useSimTime then p.value.asBool? else none) with
  | none => simp
  | some b => rw [List.getLast?_cons, Option.or_some]

/-- The flag and the override set to one value, if there is one. -/
def State.switched (s : State) (enable : Option Bool) : State :=
  { s with enabled := enable.getD s.enabled,
           clock := { s.clock with override := enable.getD s.enabled } }

theorem switched_none {s : State} (h : s.clock.override = s.enabled) : s.switched none = s := by
  obtain ⟨params, follower, enabled, override, time⟩ := s
  cases h
  rfl

theorem setEnabled_eq {s : State} (h : s.clock.override = s.enabled) (enable : Bool) :
    s.setEnabled enable = s.switched (some enable) := by
  unfold State.setEnabled
  split
  · next heq =>
    obtain rfl : s.enabled = enable := by simpa using heq
    exact (switched_none h).symm
  · rfl

theorem switchOne_eq {s : State} (h : s.clock.override = s.enabled) (p : Parameter) :
    s.switchOne p = s.switched (if p.name = useSimTime then p.value.asBool? else none) := by
  unfold State.switchOne
  by_cases hname : p.name = useSimTime
  · cases hb : p.value.asBool? with
    | none => simpa [hname] using (switched_none h).symm
    | some b => simpa [hname] using setEnabled_eq h b
  · simpa [hname] using (switched_none h).symm

theorem foldl_switchOne {s : State} (h : s.clock.override = s.enabled) (ps : List Parameter) :
    ps.foldl State.switchOne s = s.switched (offered ps) := by
  induction ps generalizing s with
  | nil => exact (switched_none h).symm
  | cons p ps ih =>
    rw [List.foldl_cons, switchOne_eq h, ih rfl, offered_cons]
    cases offered ps <;> rfl

/-! ## The invariant -/

/-- The records that a call will write without another turn of the time source. -/
def ahead (follower : Nat) : Pc → List Parameter
  | .consulting _ _ proposed left => if follower ∈ left then [] else proposed
  | .writing _ _ todo => todo
  | .pushing _ _ p todo => p :: todo
  | .storing _ _ p todo => p :: todo
  | _ => []

def State.pending (s : State) (c : Nat) : Option Bool := offered (ahead s.follower (s.params.pc c))

@[simp] theorem pending_switched (s : State) (enable : Option Bool) (c : Nat) :
    (s.switched enable).pending c = s.pending c := rfl

/-- The parameter is not about to be declared or removed, and no callback has two turns. -/
def Fine : Pc → Prop
  | .inserting _ p => p.name ≠ useSimTime
  | .erasing name => name ≠ useSimTime
  | .consulting _ _ _ left => left.Nodup
  | _ => True

/-- At most one call is still to write what the clock has been switched to; when there is none,
the clock is as the parameter says. -/
structure Inv (s : State) : Prop where
  override : s.clock.override = s.enabled
  declared : s.params.store.has useSimTime = true
  registered : s.follower < s.params.store.onSet
  fine : ∀ c, Fine (s.params.pc c)
  next : ∀ c b, s.pending c = some b → s.enabled = b
  single : ∀ c d b b', s.pending c = some b → s.pending d = some b' → c = d
  stored : (∀ c, s.pending c = none) → ∀ p b, s.params.store.params useSimTime = some p →
    p.value.asBool? = some b → s.enabled = b

/-- Nothing comes between the turn of the time source and the write: no callback behind it refuses
the batch, none sets the parameter meanwhile; and the parameter is not removed. -/
def Undisturbed (s : State) : Move → Prop
  | .params (.call _ (.undeclare name)) => name ≠ useSimTime
  | .params (.verdict c result) => s.pending c ≠ none → ∃ r, result = .ok r ∧ r.successful = true
  | .follow c => offered (proposedOf (s.params.pc c)) ≠ none → ∀ d, s.pending d = none
  | _ => True

/-! ## What one step keeps -/

theorem pending_update {s : State} {t : Sys} {c : Nat} {pc : Pc}
    (hpc : t.pc = update s.params.pc c pc) (d : Nat) :
    State.pending { s with params := t } d =
      if d = c then offered (ahead s.follower pc) else s.pending d := by
  rw [State.pending, State.pending, hpc]
  by_cases hd : d = c
  · subst hd
    rw [update_self, if_pos rfl]
  · rw [update_of_ne hd, if_neg hd]

theorem fine_update {s : Sys} {t : Sys} {c : Nat} {pc : Pc} (hs : ∀ d, Fine (s.pc d))
    (hpc : t.pc = update s.pc c pc) (hfine : Fine pc) (d : Nat) : Fine (t.pc d) := by
  rw [hpc]
  by_cases hd : d = c
  · subst hd
    rwa [update_self]
  · rw [update_of_ne hd]
    exact hs d

/-- A call goes on with nothing ahead that it had not before, and the parameter stays. -/
theorem Inv.pass {s : State} (hs : Inv s) {t : Sys} {c : Nat} {pc : Pc}
    (hpc : t.pc = update s.params.pc c pc) (hfine : Fine pc)
    (hahead : offered (ahead s.follower pc) = s.pending c)
    (hparam : t.store.params useSimTime = s.params.store.params useSimTime)
    (honSet : s.params.store.onSet ≤ t.store.onSet) : Inv { s with params := t } := by
  have hpending : ∀ d, State.pending { s with params := t } d = s.pending d := by
    intro d
    rw [pending_update hpc]
    by_cases hd : d = c
    · rw [if_pos hd, hd, hahead]
    · rw [if_neg hd]
  refine ⟨hs.override, ?_, hs.registered.trans_le honSet, fine_update hs.fine hpc hfine, ?_, ?_, ?_⟩
  · exact (congrArg Option.isSome hparam).trans hs.declared
  · intro d b hd
    exact hs.next d b (hpending d ▸ hd)
  · intro d e b b' hd he
    exact hs.single d e b b' (hpending d ▸ hd) (hpending e ▸ he)
  · intro hnone p b hp
    exact hs.stored (fun d => hpending d ▸ hnone d) p b (hparam ▸ hp)

/-- A record is written: what it says for the clock, the clock has been switched to. -/
theorem Inv.write {s : State} (hs : Inv s) {t : Sys} {c : Nat} {announce : Bool}
    {updates : List (String × ParameterValue)} {p : Parameter} {todo : List Parameter}
    (hc : s.params.pc c = .storing announce updates p todo)
    (hpc : t.pc = update s.params.pc c (.writing announce updates todo))
    (hstore : t.store = s.params.store.insert p) : Inv { s with params := t } := by
  have hold : s.pending c = (offered todo).or
      (if p.name = useSimTime then p.value.asBool? else none) := by
    rw [State.pending, hc, ahead, offered_cons]
  have hnew : ∀ d, State.pending { s with params := t } d =
      if d = c then offered todo else s.pending d := pending_update hpc
  have hparams : t.store.params = update s.params.store.params p.name (some p) := by
    rw [hstore]
    rfl
  have hless : ∀ d b, State.pending { s with params := t } d = some b → s.pending d = some b := by
    intro d b hd
    rw [hnew] at hd
    by_cases hdc : d = c
    · rw [if_pos hdc] at hd
      rw [hdc, hold, hd]
      rfl
    · rwa [if_neg hdc] at hd
  refine ⟨hs.override, ?_, ?_, fine_update hs.fine hpc trivial, fun d b hd =>
    hs.next d b (hless d b hd), fun d e b b' hd he => hs.single d e b b' (hless d b hd)
    (hless e b' he), ?_⟩
  · change (t.store.params useSimTime).isSome = true
    rw [hparams]
    by_cases hname : useSimTime = p.name
    · rw [← hname, update_self]
      rfl
    · rw [update_of_ne hname]
      exact hs.declared
  · rw [hstore]
    exact hs.registered
  · intro hnone q b hq hb
    have htodo : offered todo = none := by simpa [hnew] using hnone c
    change t.store.params useSimTime = some q at hq
    rw [hparams] at hq
    by_cases hname : useSimTime = p.name
    · obtain rfl : p = q := by simpa [hname] using hq
      exact hs.next c b (by rw [hold, htodo, if_pos hname.symm, hb]; rfl)
    · rw [update_of_ne hname] at hq
      refine hs.stored (fun d => ?_) q b hq hb
      by_cases hd : d = c
      · rw [hd, hold, htodo, if_neg (Ne.symm hname)]
        rfl
      · simpa [hnew, hd] using hnone d

theorem begin_fine {s : Store} (hdeclared : s.has useSimTime = true) {op : Op}
    (hop : ∀ name, op = .undeclare name → name ≠ useSimTime) : Fine (begin s op) := by
  cases op with
  | declare announce name defaultValue descriptor =>
    simp only [begin]
    split
    · trivial
    · next p hok =>
      obtain ⟨hfree, hname, -⟩ := declaration_ok hok
      intro hsim
      rw [← hname, hsim] at hfree
      simp [Store.has, hfree] at hdeclared
  | undeclare name =>
    simp only [begin]
    split
    · trivial
    · exact hop name rfl
  | set announce updates =>
    simp only [begin]
    split <;> trivial

theorem ahead_begin (follower : Nat) (s : Store) (op : Op) : ahead follower (begin s op) = [] := by
  cases op with
  | declare announce name defaultValue descriptor | undeclare name | set announce updates =>
    simp only [begin]
    split <;> rfl

theorem written_ahead (follower : Nat) (s : Store) (announce : Bool)
    (updates : List (String × ParameterValue)) (todo : List Parameter) :
    Fine (written s announce updates todo) ∧
      ahead follower (written s announce updates todo) = todo := by
  cases todo with
  | nil => cases announce <;> exact ⟨trivial, rfl⟩
  | cons p todo => cases hhas : s.has p.name <;> simp [written, hhas, Fine, ahead]

/-- Steps of the calls and of other callbacks. -/
theorem Inv.params {s : State} (hs : Inv s) {m : ParameterStore.Move} {t : Sys}
    (hok : Undisturbed s (.params m))
    (hturn : (verdictOf m).bind (fun c => turn (s.params.pc c)) ≠ some s.follower)
    (h : Step s.params m t) : Inv { s with params := t } := by
  cases h with
  | @call c op hpc =>
    refine hs.pass rfl (begin_fine hs.declared ?_) ?_ rfl le_rfl
    · rintro name rfl
      exact hok
    · rw [ahead_begin, State.pending, hpc]
      rfl
  | @inserting c announce p hpc =>
    have hname : p.name ≠ useSimTime := by
      have hfine := hs.fine c
      rwa [hpc] at hfine
    refine hs.pass rfl trivial ?_ (update_of_ne hname.symm _ _) le_rfl
    rw [State.pending, hpc]
    rfl
  | @listing c announce p hpc =>
    have hold : s.pending c = none := by
      rw [State.pending, hpc]
      rfl
    cases announce <;> exact hs.pass rfl trivial hold.symm rfl le_rfl
  | @erasing c name hpc =>
    have hname : name ≠ useSimTime := by
      have hfine := hs.fine c
      rwa [hpc] at hfine
    refine hs.pass rfl trivial ?_ (update_of_ne hname.symm _ _) le_rfl
    rw [State.pending, hpc]
    rfl
  | @checked c announce updates proposed hpc =>
    refine hs.pass rfl List.nodup_range ?_ rfl le_rfl
    rw [State.pending, hpc, ahead, if_pos (List.mem_range.mpr hs.registered)]
    rfl
  | @accepted c announce updates proposed hpc =>
    refine hs.pass rfl trivial ?_ rfl le_rfl
    rw [State.pending, hpc]
    rfl
  | @writing c announce updates todo hpc =>
    obtain ⟨hfine, hahead⟩ := written_ahead s.follower s.params.store announce updates todo
    refine hs.pass rfl hfine ?_ rfl le_rfl
    rw [hahead, State.pending, hpc, ahead]
  | @storing c announce updates p todo hpc => exact hs.write hpc rfl rfl
  | @agreed c announce updates proposed cb left r hpc hr =>
    have hother : s.follower ≠ cb := by
      rintro rfl
      exact hturn (by simp [verdictOf, turn, hpc])
    have hfine := hs.fine c
    rw [hpc] at hfine
    refine hs.pass rfl (List.nodup_cons.mp hfine).2 ?_ rfl le_rfl
    simp [State.pending, hpc, ahead, hother]
  | @refused c announce updates proposed cb left r hpc hr =>
    have hnone : s.pending c = none := by
      by_contra hsome
      obtain ⟨r', hr', hsuccess⟩ := hok hsome
      cases hr'
      rw [hr] at hsuccess
      cases hsuccess
    exact hs.pass rfl trivial hnone.symm rfl le_rfl
  | @raised c announce updates proposed cb left e hpc =>
    have hnone : s.pending c = none := by
      by_contra hsome
      obtain ⟨r', hr', -⟩ := hok hsome
      cases hr'
    exact hs.pass rfl trivial hnone.symm rfl le_rfl
  | @pushing c announce updates p todo hpc =>
    refine hs.pass rfl trivial ?_ rfl le_rfl
    rw [State.pending, hpc]
    rfl
  | forgetting hpc | silent hpc _ | reading hpc | publishing hpc | unheard hpc | unannounced hpc =>
    refine hs.pass rfl trivial ?_ rfl le_rfl
    rw [State.pending, hpc]
    rfl
  | addOnSetCallback =>
    exact hs.pass (update_eq_self 0 _).symm (hs.fine 0) rfl rfl (Nat.le_succ _)

/-- The time source is shown a batch and switches the clock. -/
theorem Inv.follow {s : State} (hs : Inv s) {c : Nat} {announce : Bool}
    {updates : List (String × ParameterValue)} {proposed : List Parameter} {left : List Nat}
    (hc : s.params.pc c = .consulting announce updates proposed (s.follower :: left))
    (hok : offered proposed ≠ none → ∀ d, s.pending d = none) : Inv (State.switched
      { s with params := s.params.setPc c (.consulting announce updates proposed left) }
      (offered proposed)) := by
  have hfine := hs.fine c
  rw [hc] at hfine
  obtain ⟨hnot, hnodup⟩ := List.nodup_cons.mp hfine
  have hold : s.pending c = none := by
    rw [State.pending, hc, ahead, if_pos List.mem_cons_self]
    rfl
  have hnew : ahead s.follower (.consulting announce updates proposed left) = proposed := by
    rw [ahead, if_neg hnot]
  cases hoffered : offered proposed with
  | none =>
    have hsame : Inv
        { s with params := s.params.setPc c (.consulting announce updates proposed left) } :=
      hs.pass rfl hnodup (by rw [hnew, hoffered, hold]) rfl le_rfl
    rw [switched_none hsame.override]
    exact hsame
  | some b =>
    have hnone : ∀ d, s.pending d = none := hok (by rw [hoffered]; simp)
    have hpending : ∀ d, State.pending
        { s with params := s.params.setPc c (.consulting announce updates proposed left) } d =
          if d = c then some b else none := by
      intro d
      rw [pending_update rfl, hnew, hoffered, hnone]
    refine ⟨rfl, hs.declared, hs.registered, fine_update hs.fine rfl hnodup, ?_, ?_, ?_⟩
    · intro d b' hd
      rw [pending_switched, hpending] at hd
      split at hd
      · exact Option.some.inj hd
      · cases hd
    · intro d e b' b'' hd he
      rw [pending_switched, hpending] at hd he
      split at hd
      · next hdc =>
        split at he
        · next hec => rw [hdc, hec]
        · cases he
      · cases hd
    · intro hall
      have hnow := hall c
      rw [pending_switched, hpending, if_pos rfl] at hnow
      cases hnow

theorem step_inv (s : State) (m : Move) (t : State) (hs : Inv s) (hok : Undisturbed s m)
    (h : step s m = some t) : Inv t := by
  cases m with
  | params m =>
    simp only [step] at h
    split at h
    · cases h
    · next hturn =>
      obtain ⟨u, hu, rfl⟩ := Option.map_eq_some_iff.mp h
      exact hs.params hok hturn (step_cases hu)
  | follow c =>
    simp only [step] at h
    split at h
    · next hturn =>
      obtain ⟨u, hu, rfl⟩ := Option.map_eq_some_iff.mp h
      cases step_cases hu with
      | @agreed _ announce updates proposed cb left r hpc hr =>
        obtain rfl : cb = s.follower := by simpa [turn, hpc] using hturn
        rw [hpc, proposedOf, foldl_switchOne]
        · refine hs.follow hpc fun hoffered => hok ?_
          rwa [hpc]
        · exact hs.override
      | refused hpc hr => cases hr
    · cases h
  | clock stamp =>
    obtain rfl := Option.some.inj h
    split
    · exact ⟨hs.override, hs.declared, hs.registered, hs.fine, hs.next, hs.single, hs.stored⟩
    · exact hs

/-! ## Runs -/

/-- The call has not begun or has returned. -/
def Over : Pc → Prop
  | .idle => True
  | .returned _ => True
  | _ => False

theorem Over.fine {pc : Pc} (h : Over pc) : Fine pc := by
  cases pc with
  | idle | returned _ => trivial
  | _ => cases h

theorem Over.ahead {pc : Pc} (h : Over pc) (follower : Nat) : ahead follower pc = [] := by
  cases pc with
  | idle | returned _ => rfl
  | _ => cases h

theorem followParameter_inv {p : Sys} {time : Int64} {s : State} (hquiet : ∀ c, Over (p.pc c))
    (hdeclared : p.store.has useSimTime = true) (h : followParameter p time = .ok s) :
    Inv s ∧ s.clock.time = time := by
  obtain ⟨q, hq⟩ := Option.isSome_iff_exists.mp hdeclared
  have hs : s = State.switched ⟨{ p with store := { p.store with onSet := p.store.onSet + 1 } },
      p.store.onSet, false, ⟨false, time⟩⟩ q.value.asBool? := by
    have hget : p.store.get useSimTime = .ok q.value := by simp [Store.get, hq]
    rw [followParameter, hget, ok_bind, pure_eq_ok] at h
    cases hb : q.value.asBool? with
    | none => simpa [hb, State.switched] using h
    | some b => cases b <;> simpa [hb, State.setEnabled, State.switched] using h
  subst hs
  have hnone : ∀ follower c, offered (ahead follower (p.pc c)) = none := by
    intro follower c
    rw [(hquiet c).ahead]
    rfl
  refine ⟨⟨rfl, hdeclared, Nat.lt_succ_self _, fun c => (hquiet c).fine, fun c b hc => ?_,
    fun c d b b' hc => ?_, fun _ r b hr hb => ?_⟩, rfl⟩
  · exact absurd (hnone _ c ▸ hc : none = some b) (by simp)
  · exact absurd (hnone _ c ▸ hc : none = some b) (by simp)
  · obtain rfl : q = r := Option.some.inj (hq.symm.trans hr)
    rw [State.switched, hb]
    rfl

/-- The clock messages that the time source takes up. -/
def heard (s : State) : Move → List Stamp
  | .clock stamp => if s.enabled then [stamp] else []
  | _ => []

/-- What the clock has been set to, from what the time source has heard. -/
def lastHeard (time : Int64) (log : List Stamp) : Int64 := (log.getLast?.map toNanos).getD time

theorem step_heard {time : Int64} (s : State) (m : Move) (t : State) (log : List Stamp)
    (hs : Inv s ∧ s.clock.time = lastHeard time log) (hok : Undisturbed s m)
    (h : step s m = some t) : Inv t ∧ t.clock.time = lastHeard time (log ++ heard s m) := by
  refine ⟨step_inv s m t hs.1 hok h, ?_⟩
  cases m with
  | params m =>
    simp only [step] at h
    split at h
    · cases h
    · obtain ⟨u, -, rfl⟩ := Option.map_eq_some_iff.mp h
      exact hs.2.trans (congrArg (lastHeard time) (List.append_nil log).symm)
  | follow c =>
    simp only [step] at h
    split at h
    · obtain ⟨u, -, rfl⟩ := Option.map_eq_some_iff.mp h
      rw [foldl_switchOne]
      · exact hs.2.trans (congrArg (lastHeard time) (List.append_nil log).symm)
      · exact hs.1.override
    · cases h
  | clock stamp =>
    obtain rfl := Option.some.inj h
    rw [heard]
    split
    · simp [lastHeard]
    · rw [List.append_nil]
      exact hs.2

/-- From when a time source begins to follow a declared `use_sim_time`, with no call under way, and
where it is not undeclared and nothing comes between the turn of the time source and the write of a
batch, the clock reads the simulation's last time whenever the parameter is set and no call is under
way, and the wall whenever it is not. -/
theorem clock_follows_parameter {p : Sys} {time : Int64} {s t : State} {ms : List Move}
    (hquiet : ∀ c, Over (p.pc c)) (hdeclared : p.store.has useSimTime = true)
    (hfollow : followParameter p time = .ok s) (hok : Throughout step Undisturbed s ms)
    (h : run step s ms = some t) (hover : ∀ c, Over (t.params.pc c)) {q : Parameter}
    (hq : t.params.store.params useSimTime = some q) {b : Bool} (hb : q.value.asBool? = some b)
    (wall : Int64) :
    t.clock.now wall = if b then lastHeard time (outputs step heard s ms) else wall := by
  obtain ⟨hinv, htime⟩ := followParameter_inv hquiet hdeclared hfollow
  have hstart : Inv s ∧ s.clock.time = lastHeard time [] := ⟨hinv, htime⟩
  obtain ⟨hend, hlast⟩ := run_outputs step_heard hstart hok h
  have henabled : t.enabled = b := by
    refine hend.stored (fun c => ?_) q b hq hb
    rw [State.pending, (hover c).ahead]
    rfl
  rw [Clock.now, hend.override, henabled, hlast, List.nil_append]

/-- The parameters of a node that does not simulate yet. -/
def onWallTime : Sys :=
  ParameterStore.start
    ((openStore.insert { name := useSimTime, value := .bool false }).push useSimTime)

/-- A clock message too early, the switch, and a message at seven and a half seconds. -/
def switchingRun : List Move :=
  [.clock ⟨5, 0⟩, .params (.call 1 (.set false [(useSimTime, .bool true)])), .params (.go 1),
    .follow 1, .params (.go 1), .params (.go 1), .params (.go 1), .params (.go 1),
    .clock ⟨7, 500000000⟩]

theorem clock_follows_parameter_switched : ∃ s t, followParameter onWallTime 0 = .ok s ∧
    run step s switchingRun = some t ∧ ∀ wall, t.clock.now wall = 7500000000 := by
  obtain ⟨s, t, hs, ht, hok, hover, q, hq, hb, hheard⟩ : ∃ s t,
      followParameter onWallTime 0 = .ok s ∧ run step s switchingRun = some t ∧
      Throughout step Undisturbed s switchingRun ∧ (∀ c, Over (t.params.pc c)) ∧
      ∃ q, t.params.store.params useSimTime = some q ∧ q.value.asBool? = some true ∧
      lastHeard 0 (outputs step heard s switchingRun) = 7500000000 := by
    refine ⟨_, _, rfl, rfl, ?_, ?_, _, rfl, rfl, ?_⟩
    · iterate 3 refine (throughout_cons_iff rfl).mpr ⟨trivial, ?_⟩
      refine (throughout_cons_iff rfl).mpr ⟨fun _ c => ?_, ?_⟩
      · match c with
        | 0 => rfl
        | 1 => rfl
        | _ + 2 => rfl
      · iterate 5 refine (throughout_cons_iff rfl).mpr ⟨trivial, ?_⟩
        trivial
    · intro c
      match c with
      | 0 => trivial
      | 1 => trivial
      | _ + 2 => trivial
    · decide
  have hquiet : ∀ c, Over (onWallTime.pc c) := fun _ => trivial
  have hnow := clock_follows_parameter hquiet rfl hs hok ht hover hq hb
  exact ⟨s, t, hs, ht, fun wall => (hnow wall).trans (by rw [if_pos rfl, hheard])⟩

end SimTime
