import Mathlib.Data.List.Perm.Basic
import Rcllean.Spinner

/-!
# No lost wake-up

Entities of a busy group are left out of the wait set, and so are those added
after a pass has read the registrations. The invariant accounts for every
registered entity at every place of the three kinds of thread: it is on its
way into the wait set, or the wakeup is triggered, or a worker or an adder
that stands for it has its trigger still to come.
-/
namespace WakeUp

open WaitSets Executors Spinner Runs

/-- The pass under way will wait for the entity. -/
def OnTrack (e : Nat × Waitable) : Pc → Prop
  | .checking all _ _ => e ∈ all
  | .forgetting all _ => e ∈ all
  | .screening todo eligible => e.2 ∈ todo ∨ e.2 ∈ eligible
  | .filling eligible => e.2 ∈ eligible
  | .adding todo added => e.2 ∈ todo ∨ e.2 ∈ added.map Prod.fst
  | .pointing w todo added => e.2 ∈ w :: todo ∨ e.2 ∈ added.map Prod.fst
  | .waiting added => e.2 ∈ added.map Prod.fst
  | _ => True

/-- A worker of the mutually exclusive group is between entering it and its last trigger. -/
def HeldBack (s : Sys) (g : CallbackGroup) : Prop :=
  g.kind = .mutuallyExclusive ∧ ∃ w ∈ s.workers, w.group = g ∧ w.stage ≠ .finished

def Covered (s : Sys) (e : Nat × Waitable) : Prop :=
  OnTrack e s.pc ∨ s.triggered = true ∨ HeldBack s e.2.group ∨ e.1 ∈ s.pushed

/-- A thread blocked in the wait without a registered entity has a wakeup ahead of it. -/
def NoLostWakeup (s : Sys) : Prop :=
  ∀ added, s.pc = .waiting added → ∀ e ∈ s.waitables, s.valid e.2.handle = true →
    (∀ i, (s.waitSet.handle.slots e.2.kind).entry i ≠ some e.2.handle) →
    s.triggered = true ∨ HeldBack s e.2.group ∨ e.1 ∈ s.pushed

/-! ## Groups and their workers -/

def inside (g : CallbackGroup) (w : Worker) : Bool := w.group = g && w.stage = .running

/-- A group's count is the number of workers inside it. -/
def Counted (s : Sys) : Prop := ∀ g, s.running g = s.workers.countP (inside g)

theorem counted_dispatch {s : Sys} (h : Counted s) (w : Waitable)
    (todo : List (Waitable × Nat)) : Counted (dispatch s w todo) := by
  intro g
  simp only [dispatch, List.countP_append, List.countP_singleton, inside, enter]
  by_cases hg : g = w.group
  · subst hg
    simpa using h w.group
  · simpa [hg, Ne.symm hg] using h g

theorem counted_leave {s : Sys} (h : Counted s) {i : Nat} {g : CallbackGroup}
    (hi : s.workers[i]? = some ⟨g, .running⟩) :
    Counted { s with running := leave s.running g, workers := s.workers.set i ⟨g, .left⟩ } := by
  obtain ⟨hlt, hget⟩ := List.getElem?_eq_some_iff.mp hi
  intro k
  simp only [leave, List.countP_set hlt, hget, inside]
  by_cases hk : k = g
  · subst hk
    simpa [inside] using congrArg (· - 1) (h k)
  · simpa [hk, Ne.symm hk, inside] using h k

theorem counted_trigger {s : Sys} (h : Counted s) {i : Nat} {g : CallbackGroup}
    (hi : s.workers[i]? = some ⟨g, .left⟩) :
    Counted { s with workers := s.workers.set i ⟨g, .finished⟩, triggered := true } := by
  obtain ⟨hlt, hget⟩ := List.getElem?_eq_some_iff.mp hi
  intro k
  simpa [List.countP_set hlt, hget, inside] using h k

/-- A group that cannot run has a worker inside. -/
theorem heldBack_of_busy {s : Sys} (h : Counted s) {g : CallbackGroup}
    (hg : canRun s.running g = false) : HeldBack s g := by
  unfold canRun at hg
  cases hk : g.kind with
  | reentrant => simp [hk] at hg
  | mutuallyExclusive =>
    rw [hk] at hg
    have hpos : 0 < s.workers.countP (inside g) := by
      have hne : s.running g ≠ 0 := by simpa using hg
      rw [← h g]
      omega
    obtain ⟨w, hw, hin⟩ := List.countP_pos_iff.mp hpos
    have hin : w.group = g ∧ w.stage = .running := by simpa [inside] using hin
    exact ⟨hk, w, hw, hin.1, by rw [hin.2]; decide⟩

theorem step_counted {s t : Sys} {m : Move} (hb : Base s) (h : Counted s)
    (hs : step s m = some t) : Counted t := by
  cases step_cases hb hs with
  | main hmain => cases hmain <;> exact h
  | dispatched => exact counted_dispatch h _ _
  | leave hi => exact counted_leave h hi
  | trigger hi => exact counted_trigger h hi
  | _ => exact h

/-! ## Numbers -/

/-- The numbers found dead are of entities that are. -/
def DeadOk (valid : Handle → Bool) : Pc → Prop
  | .checking all todo dead => (all.map Prod.fst).Nodup ∧ (∀ p ∈ todo, p ∈ all) ∧
    ∀ id ∈ dead, ∃ p ∈ all, p.1 = id ∧ valid p.2.handle = false
  | .forgetting all dead => (all.map Prod.fst).Nodup ∧
    ∀ id ∈ dead, ∃ p ∈ all, p.1 = id ∧ valid p.2.handle = false
  | _ => True

/-- No number is given out twice. -/
structure Numbered (s : Sys) : Prop where
  distinct : (s.waitables.map Prod.fst ++ s.numbered.map Prod.fst).Nodup
  lt : ∀ id ∈ s.waitables.map Prod.fst ++ s.numbered.map Prod.fst, id < s.nextId
  dead : DeadOk s.valid s.pc

theorem DeadOk.invalidate {valid : Handle → Bool} {pc : Pc} (h : DeadOk valid pc) (d : Handle) :
    DeadOk (Function.update valid d false) pc := by
  have hstays : ∀ h, valid h = false → Function.update valid d false h = false := by
    intro h hv
    by_cases hd : h = d
    · subst hd
      exact Function.update_self ..
    · rw [Function.update_of_ne hd]
      exact hv
  cases pc with
  | checking all todo dead =>
    refine ⟨h.1, h.2.1, fun id hid => ?_⟩
    obtain ⟨p, hp, hpid, hv⟩ := h.2.2 id hid
    exact ⟨p, hp, hpid, hstays _ hv⟩
  | forgetting all dead =>
    refine ⟨h.1, fun id hid => ?_⟩
    obtain ⟨p, hp, hpid, hv⟩ := h.2 id hid
    exact ⟨p, hp, hpid, hstays _ hv⟩
  | _ => trivial

theorem Numbered.mainStep {s t : Sys} (h : Numbered s) (hs : MainStep s t) : Numbered t := by
  have hdead := h.dead
  cases hs with
  | snapshot hpc =>
    exact ⟨h.distinct, h.lt, (List.nodup_append.mp h.distinct).1, fun _ hp => hp, by simp⟩
  | live hpc hv =>
    rw [hpc] at hdead
    exact ⟨h.distinct, h.lt, hdead.1, fun q hq => hdead.2.1 q (List.mem_cons_of_mem _ hq),
      hdead.2.2⟩
  | @dead all todo dead p hpc hv =>
    rw [hpc] at hdead
    refine ⟨h.distinct, h.lt, hdead.1, fun q hq => hdead.2.1 q (List.mem_cons_of_mem _ hq), ?_⟩
    intro id hid
    rcases List.mem_append.mp hid with hid | hid
    · exact hdead.2.2 id hid
    · exact ⟨p, hdead.2.1 p (List.mem_cons_self ..), (List.mem_singleton.mp hid).symm, hv⟩
  | checked hpc =>
    rw [hpc] at hdead
    exact ⟨h.distinct, h.lt, hdead.1, hdead.2.2⟩
  | forget hpc hkept =>
    have hsub := (hkept.map Prod.fst).append (List.Sublist.refl (s.numbered.map Prod.fst))
    exact ⟨h.distinct.sublist hsub, fun id hid => h.lt id (hsub.subset hid), trivial⟩
  | _ => exact ⟨h.distinct, h.lt, trivial⟩

/-- A new number is above all that have been given out. -/
theorem Numbered.addBegin {s : Sys} (h : Numbered s) (w : Waitable) :
    Numbered { s with nextId := s.nextId + 1, numbered := s.numbered ++ [(s.nextId, w)] } := by
  have hnew : s.nextId ∉ s.waitables.map Prod.fst ++ s.numbered.map Prod.fst :=
    fun hm => Nat.lt_irrefl _ (h.lt _ hm)
  have hperm : (s.waitables.map Prod.fst ++ (s.numbered ++ [(s.nextId, w)]).map Prod.fst).Perm
      (s.nextId :: (s.waitables.map Prod.fst ++ s.numbered.map Prod.fst)) := by
    rw [List.map_append, ← List.append_assoc]
    exact List.perm_append_singleton ..
  refine ⟨hperm.nodup_iff.mpr (List.nodup_cons.mpr ⟨hnew, h.distinct⟩), ?_, h.dead⟩
  intro id hid
  rcases List.mem_cons.mp (hperm.mem_iff.mp hid) with rfl | hid
  · exact Nat.lt_succ_self _
  · exact Nat.lt_succ_of_lt (h.lt id hid)

/-- A push moves a number from one list to the other. -/
theorem Numbered.addPush {s : Sys} (h : Numbered s) {i : Nat} {e : Nat × Waitable}
    (hi : s.numbered[i]? = some e) : Numbered { s with
      waitables := s.waitables ++ [e]
      numbered := s.numbered.eraseIdx i
      pushed := s.pushed ++ [e.1] } := by
  obtain ⟨hlt, hget⟩ := List.getElem?_eq_some_iff.mp hi
  have hperm : ((s.waitables ++ [e]).map Prod.fst ++ (s.numbered.eraseIdx i).map Prod.fst).Perm
      (s.waitables.map Prod.fst ++ s.numbered.map Prod.fst) := by
    rw [List.map_append, List.append_assoc, ← List.map_append]
    refine List.Perm.append_left _ (List.Perm.map _ ?_)
    rw [← hget]
    exact List.getElem_cons_eraseIdx_perm hlt
  exact ⟨hperm.nodup_iff.mpr h.distinct, fun id hid => h.lt id (hperm.mem_iff.mp hid), h.dead⟩

theorem step_numbered {s t : Sys} {m : Move} (hb : Base s) (h : Numbered s)
    (hs : step s m = some t) : Numbered t := by
  cases step_cases hb hs with
  | main hmain => exact h.mainStep hmain
  | wake => exact ⟨h.distinct, h.lt, trivial⟩
  | passed => exact ⟨h.distinct, h.lt, trivial⟩
  | dispatched => exact ⟨h.distinct, h.lt, trivial⟩
  | raised => exact ⟨h.distinct, h.lt, trivial⟩
  | refused => exact ⟨h.distinct, h.lt, trivial⟩
  | addBegin => exact h.addBegin _
  | addPush hi => exact h.addPush hi
  | invalidate => exact ⟨h.distinct, h.lt, h.dead.invalidate _⟩
  | _ => exact ⟨h.distinct, h.lt, h.dead⟩

/-! ## Coverage -/

def AllCovered (s : Sys) : Prop :=
  ∀ e ∈ s.waitables, s.valid e.2.handle = true → Covered s e

/-- When the waiting thread moves, it is enough to say where an entity on track goes. -/
theorem Covered.move {s : Sys} {e : Nat × Waitable} {pc : Pc} (h : Covered s e)
    (htrack : OnTrack e s.pc → OnTrack e pc ∨ HeldBack s e.2.group) :
    Covered { s with pc } e := by
  rcases h with ho | hrest
  · rcases htrack ho with ho | hheld
    · exact .inl ho
    · exact .inr (.inr (.inl hheld))
  · exact .inr hrest

/-- An entity that still exists is not among those found dead. -/
theorem mem_survivors {valid : Handle → Bool} {all : List (Nat × Waitable)} {dead : List Nat}
    (h : DeadOk valid (.forgetting all dead)) {e : Nat × Waitable} (he : e ∈ all)
    (hv : valid e.2.handle = true) : e.2 ∈ survivors dead all := by
  have hnot : e.1 ∉ dead := by
    intro hd
    obtain ⟨p, hp, hid, hpv⟩ := h.2 e.1 hd
    obtain rfl := List.inj_on_of_nodup_map h.1 hp he hid
    rw [hv] at hpv
    cases hpv
  exact List.mem_filterMap.mpr ⟨e, he, by simp [hnot]⟩

theorem AllCovered.mainStep {s t : Sys} (h : AllCovered s) (hc : Counted s) (hn : Numbered s)
    (hs : MainStep s t) : AllCovered t := by
  cases hs with
  | snapshot hpc => exact fun e he hv => (h e he hv).move fun _ => .inl he
  | live hpc hval => exact fun e he hv => (h e he hv).move fun ho => .inl (by rwa [hpc] at ho)
  | dead hpc hval => exact fun e he hv => (h e he hv).move fun ho => .inl (by rwa [hpc] at ho)
  | checked hpc => exact fun e he hv => (h e he hv).move fun ho => .inl (by rwa [hpc] at ho)
  | forget hpc hkept =>
    intro e he hv
    have hdead := hn.dead
    rw [hpc] at hdead
    refine (h e (hkept.subset he) hv).move fun ho => .inl (.inl ?_)
    rw [hpc] at ho
    exact mem_survivors hdead ho hv
  | free hpc hrun =>
    refine fun e he hv => (h e he hv).move fun ho => .inl ?_
    rw [hpc] at ho
    rcases ho with ho | ho
    · rcases List.mem_cons.mp ho with rfl | ho
      · exact .inr (List.mem_append_right _ (List.mem_singleton.mpr rfl))
      · exact .inl ho
    · exact .inr (List.mem_append_left _ ho)
  | busy hpc hbusy =>
    -- what is left out belongs to a group with a worker inside
    refine fun e he hv => (h e he hv).move fun ho => ?_
    rw [hpc] at ho
    rcases ho with ho | ho
    · rcases List.mem_cons.mp ho with rfl | ho
      · exact .inr (heldBack_of_busy hc hbusy)
      · exact .inl (.inl ho)
    · exact .inl (.inr ho)
  | screened hpc =>
    refine fun e he hv => (h e he hv).move fun ho => .inl ?_
    rw [hpc] at ho
    exact ho.resolve_left (List.not_mem_nil)
  | fill hpc _ _ =>
    exact fun e he hv => (h e he hv).move fun ho => .inl (.inl (by rwa [hpc] at ho))
  | check hpc hval => exact fun e he hv => (h e he hv).move fun ho => .inl (by rwa [hpc] at ho)
  | point hpc _ _ =>
    refine fun e he hv => (h e he hv).move fun ho => .inl ?_
    rw [hpc] at ho
    rcases ho with ho | ho
    · rcases List.mem_cons.mp ho with rfl | ho
      · exact .inr (List.mem_map.mpr ⟨_, List.mem_append_right _ (List.mem_singleton.mpr rfl), rfl⟩)
      · exact .inl ho
    · rw [OnTrack, List.map_append]
      exact .inr (List.mem_append_left _ ho)
  | wait hpc =>
    refine fun e he hv => (h e he hv).move fun ho => .inl ?_
    rw [hpc] at ho
    exact ho.resolve_left (List.not_mem_nil)
  | _ => exact fun e he hv => (h e he hv).move fun _ => .inl trivial

theorem heldBack_set {s : Sys} {i : Nat} {g k : CallbackGroup} {a b : Stage}
    (hi : s.workers[i]? = some ⟨g, a⟩) (hb : b ≠ .finished) (running : Running)
    (h : HeldBack s k) :
    HeldBack { s with running, workers := s.workers.set i ⟨g, b⟩ } k := by
  obtain ⟨hk, w, hw, hg, hst⟩ := h
  obtain ⟨j, hj⟩ := List.mem_iff_getElem?.mp hw
  by_cases hij : i = j
  · subst hij
    obtain rfl : w = ⟨g, a⟩ := Option.some.inj (hj.symm.trans hi)
    have hlt := (List.getElem?_eq_some_iff.mp hi).1
    exact ⟨hk, ⟨g, b⟩, List.mem_of_getElem? (List.getElem?_set_self hlt), hg, hb⟩
  · refine ⟨hk, w, List.mem_of_getElem? (i := j) ?_, hg, hst⟩
    rw [List.getElem?_set_ne hij]
    exact hj

theorem AllCovered.leave {s : Sys} (h : AllCovered s) {i : Nat} {g : CallbackGroup}
    (hi : s.workers[i]? = some ⟨g, .running⟩) : AllCovered { s with
      running := leave s.running g, workers := s.workers.set i ⟨g, .left⟩ } := by
  intro e he hv
  rcases h e he hv with ho | ht | hh | hp
  · exact .inl ho
  · exact .inr (.inl ht)
  · exact .inr (.inr (.inl (heldBack_set hi (by decide) _ hh)))
  · exact .inr (.inr (.inr hp))

/-- The thread that has pushed an entity has its trigger still to come. -/
theorem AllCovered.addPush {s : Sys} (h : AllCovered s) (i : Nat) (p : Nat × Waitable) :
    AllCovered { s with
      waitables := s.waitables ++ [p]
      numbered := s.numbered.eraseIdx i
      pushed := s.pushed ++ [p.1] } := by
  intro e he hv
  rcases List.mem_append.mp he with he | he
  · rcases h e he hv with ho | ht | hh | hp
    · exact .inl ho
    · exact .inr (.inl ht)
    · exact .inr (.inr (.inl hh))
    · exact .inr (.inr (.inr (List.mem_append_left _ hp)))
  · obtain rfl := List.mem_singleton.mp he
    exact .inr (.inr (.inr (List.mem_append_right _ (List.mem_singleton.mpr rfl))))

theorem AllCovered.invalidate {s : Sys} (h : AllCovered s) (d : Handle) :
    AllCovered { s with valid := Function.update s.valid d false } := by
  intro e he hv
  have hv' : s.valid e.2.handle = true := by
    by_cases hd : e.2.handle = d
    · rw [hd] at hv
      simp at hv
    · simpa [hd] using hv
  exact h e he hv'

theorem step_allCovered {s t : Sys} {m : Move} (hb : Base s) (hc : Counted s) (hn : Numbered s)
    (h : AllCovered s) (hs : step s m = some t) : AllCovered t := by
  cases step_cases hb hs with
  | main hmain => exact h.mainStep hc hn hmain
  -- from here on the next pass will look at every entity again
  | wake => exact fun e he hv => .inl trivial
  | passed => exact fun e he hv => .inl trivial
  | dispatched => exact fun e he hv => .inl trivial
  | raised => exact fun e he hv => .inl trivial
  | refused => exact fun e he hv => .inl trivial
  | leave hi => exact h.leave hi
  | addPush => exact h.addPush _ _
  | invalidate => exact h.invalidate _
  | trigger => exact fun e he hv => .inr (.inl rfl)
  | addTrigger => exact fun e he hv => .inr (.inl rfl)
  | notify => exact fun e he hv => .inr (.inl rfl)
  | _ => exact h

/-! ## Runs -/

structure Inv (s : Sys) : Prop where
  base : Base s
  counted : Counted s
  numbered : Numbered s
  covered : AllCovered s

theorem step_inv (s : Sys) (m : Move) (t : Sys) (h : Inv s) (hs : step s m = some t) : Inv t where
  base := step_base s m t h.base hs
  counted := step_counted h.base h.counted hs
  numbered := step_numbered h.base h.numbered hs
  covered := step_allCovered h.base h.counted h.numbered h.covered hs

theorem start_inv {ex : Executor} {valid : Handle → Bool} (hwakeup : valid ex.wakeup = true)
    (hbooks : ∃ records, Books ex.waitSet records) (children : Handle → List Handle)
    (triggered : Bool) : Inv (start ex valid children triggered) where
  base := start_base hwakeup hbooks children triggered
  counted := fun _ => rfl
  numbered := by
    refine ⟨?_, ?_, trivial⟩
    · simpa [start] using ex.waitables.distinct
    · simpa [start] using ex.waitables.numbered
  covered := fun _ _ _ => .inl trivial

/-- An entity on track is in the wait set once the thread waits. -/
theorem entry_of_waiting {s : Sys} (hb : Base s) {added : List (Waitable × Nat)}
    (hpc : s.pc = .waiting added) {w : Waitable} (hw : w ∈ added.map Prod.fst) :
    ∃ i, (s.waitSet.handle.slots w.kind).entry i = some w.handle := by
  have htrack := hb.track
  rw [hpc] at htrack
  obtain ⟨p, hp, rfl⟩ := List.mem_map.mp hw
  have hrec : (⟨p.1.held, p.2, true⟩ : Record) ∈ recorded s.wakeup added :=
    List.mem_cons_of_mem _ (List.mem_map_of_mem hp)
  exact ⟨p.2, htrack.entry_slot hrec⟩

theorem Inv.noLostWakeup {s : Sys} (h : Inv s) : NoLostWakeup s := by
  intro added hpc e he hv hmissing
  rcases h.covered e he hv with ho | hrest
  · rw [hpc] at ho
    obtain ⟨i, hi⟩ := entry_of_waiting h.base hpc ho
    exact absurd hi (hmissing i)
  · exact hrest

/-- In every run, with any interleaving of the three kinds of thread. -/
theorem no_lost_wakeup {ex : Executor} {valid : Handle → Bool} (hwakeup : valid ex.wakeup = true)
    (hbooks : ∃ records, Books ex.waitSet records) (children : Handle → List Handle)
    (triggered : Bool) (ms : List Move) (s : Sys)
    (hs : run step (start ex valid children triggered) ms = some s) : NoLostWakeup s :=
  (run_invariant step_inv (start_inv hwakeup hbooks children triggered) hs).noLostWakeup

/-- The subscription's callback runs, so the next wait is without it and the worker stands for
it. -/
theorem no_lost_wakeup_busy : ∃ ex, Executor.create true 0 = .ok ex ∧
    ∃ s, run step (start ex (fun _ => true) (fun _ => []) false)
        (dispatching (subscription 0 1) ++ List.replicate 12 .main) = some s ∧
      s.pc = .waiting [] ∧ s.waitables = [(0, subscription 0 1)] ∧ NoLostWakeup s := by
  obtain ⟨ex, hex, hbooks⟩ := exists_start
  have hrun : ∃ s, run step (start ex (fun _ => true) (fun _ => []) false)
        (dispatching (subscription 0 1) ++ List.replicate 12 .main) = some s ∧
      s.pc = .waiting [] ∧ s.waitables = [(0, subscription 0 1)] := by
    obtain rfl := Except.ok.inj hex
    refine ⟨_, rfl, ?_⟩
    exact ⟨rfl, rfl⟩
  obtain ⟨s, hs, hpc, hreg⟩ := hrun
  exact ⟨ex, hex, s, hs, hpc, hreg, no_lost_wakeup rfl hbooks _ _ _ s hs⟩

end WakeUp
