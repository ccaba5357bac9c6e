import Rcllean.Spinner

/-!
# Teardown under a running wait

The wait set holds its entities so that none is collected before the wait has
read it. That keeps the references and not the rcl objects: a callback may
destroy an entity between the moment the pass finds it valid and the moment
the wait returns, and then the wait reads what has been finalized. In a run
whose teardowns stay clear of the entities being waited for it never does.
-/
namespace RunningWait

open WaitSets Executors Spinner Runs

/-- The entities the wait set points to while it is being filled and waited on, and the one found
valid that it is about to point to. -/
def pointedTo : Pc → List Handle
  | .adding _ added => added.map (·.1.handle)
  | .pointing w _ added => w.handle :: added.map (·.1.handle)
  | .waiting added => added.map (·.1.handle)
  | _ => []

/-- A fini does not run for an entity the pass has found valid, until the wait has returned. -/
def SparesTheWait (s : Sys) : Move → Prop
  | .fini h => h ∉ pointedTo s.pc
  | _ => True

instance (s : Sys) : (m : Move) → Decidable (SparesTheWait s m)
  | .fini h => inferInstanceAs (Decidable (¬ h ∈ pointedTo s.pc))
  | .main | .refuse .. | .wake .. | .take _ | .leave _ | .trigger _ | .addBegin _ | .addPush _
  | .addTrigger _ | .invalidate _ | .shutdown | .notify => isTrue trivial

/-- No entity the wait set points to has had its rcl object finalized. -/
def WaitsOnLiving (s : Sys) : Prop :=
  ∀ added, s.pc = .waiting added → ∀ k i h, (s.waitSet.handle.slots k).entry i = some h →
    s.finalized h = false

/-! ## What one step preserves -/

/-- What is finalized has been destroyed before. -/
def Ordered (s : Sys) : Prop := ∀ h, s.finalized h = true → s.valid h = false

structure Inv (s : Sys) : Prop where
  base : Base s
  ordered : Ordered s
  spared : ∀ h ∈ pointedTo s.pc, s.finalized h = false

theorem Ordered.living {s : Sys} (h : Ordered s) {d : Handle} (hd : s.valid d = true) :
    s.finalized d = false := by
  cases hf : s.finalized d with
  | false => rfl
  | true =>
    have hv := h d hf
    rw [hd] at hv
    cases hv

theorem ordered_mainStep {s t : Sys} (h : Ordered s) (hs : MainStep s t) : Ordered t := by
  cases hs <;> exact h

/-- Only the check of an entity brings one among those pointed to, and it has just been found
valid. -/
theorem spared_mainStep {s t : Sys} (hord : Ordered s)
    (h : ∀ d ∈ pointedTo s.pc, s.finalized d = false) (hs : MainStep s t) :
    ∀ d ∈ pointedTo t.pc, t.finalized d = false := by
  intro d hd
  cases hs with
  | check hpc hv =>
    rw [hpc] at h
    rcases List.mem_cons.mp hd with rfl | hd
    · exact hord.living hv
    · exact h d hd
  | point hpc _ _ =>
    rw [hpc] at h
    apply h d
    simpa [pointedTo, or_comm] using hd
  | wait hpc =>
    rw [hpc] at h
    exact h d hd
  | _ => cases hd

theorem Inv.mainStep {s t : Sys} (h : Inv s) (hs : MainStep s t) : Inv t where
  base := h.base.mainStep hs
  ordered := ordered_mainStep h.ordered hs
  spared := spared_mainStep h.ordered h.spared hs

theorem Inv.fini {s : Sys} (h : Inv s) {d : Handle} (hok : d ∉ pointedTo s.pc)
    (hd : s.valid d = false) : Inv { s with finalized := Function.update s.finalized d true } where
  base := ⟨h.base.wakeup, h.base.track⟩
  ordered := by
    intro e he
    by_cases hed : e = d
    · rw [hed]
      exact hd
    · exact h.ordered e (by simpa [hed] using he)
  spared := by
    intro e he
    have hed : e ≠ d := fun heq => hok (heq ▸ he)
    simpa [hed] using h.spared e he

theorem Ordered.invalidate {s : Sys} (h : Ordered s) (d : Handle) :
    Ordered { s with valid := Function.update s.valid d false } := by
  intro e he
  by_cases hed : e = d
  · simp [hed]
  · simpa [hed] using h e he

theorem step_inv (s : Sys) (m : Move) (t : Sys) (h : Inv s) (hok : SparesTheWait s m)
    (hs : step s m = some t) : Inv t := by
  have hbase := step_base s m t h.base hs
  cases step_cases h.base hs with
  | main hmain => exact h.mainStep hmain
  | fini hd => exact h.fini hok hd
  | invalidate => exact ⟨hbase, h.ordered.invalidate _, h.spared⟩
  -- out of the wait and in the takes there is nothing it points to
  | wake => exact ⟨hbase, h.ordered, fun d hd => by cases hd⟩
  | passed => exact ⟨hbase, h.ordered, fun d hd => by cases hd⟩
  | dispatched => exact ⟨hbase, h.ordered, fun d hd => by cases hd⟩
  | raised => exact ⟨hbase, h.ordered, fun d hd => by cases hd⟩
  | refused => exact ⟨hbase, h.ordered, fun d hd => by cases hd⟩
  | _ => exact ⟨hbase, h.ordered, h.spared⟩

theorem start_inv {ex : Executor} {valid : Handle → Bool} (hwakeup : valid ex.wakeup = true)
    (hbooks : ∃ records, Books ex.waitSet records) (children : Handle → List Handle)
    (triggered : Bool) : Inv (start ex valid children triggered) where
  base := start_base hwakeup hbooks children triggered
  ordered := fun h hf => by simpa [start] using hf
  spared := fun h hh => by cases hh

/-! ## Runs -/

/-- While the thread waits, the set points to the wakeup and to what the pass has added. -/
theorem pointer_of_waiting {s : Sys} (hb : Base s) {added : List (Waitable × Nat)}
    (hpc : s.pc = .waiting added) {k : WaitableKind} {i : Nat} {h : Handle}
    (he : (s.waitSet.handle.slots k).entry i = some h) :
    h = s.wakeup ∨ h ∈ added.map (·.1.handle) := by
  have htrack := hb.track
  rw [hpc] at htrack
  rw [Slots.Block.entry, Option.join_eq_some_iff] at he
  obtain ⟨r, hr, -, -, hc⟩ := htrack.getElem?_entries he
  rcases List.mem_cons.mp hr with rfl | hr
  · exact .inl (Option.some.inj hc).symm
  · obtain ⟨p, hp, rfl⟩ := List.mem_map.mp hr
    obtain rfl := Option.some.inj hc
    exact .inr (List.mem_map.mpr ⟨p, hp, rfl⟩)

theorem Inv.waitsOnLiving {s : Sys} (h : Inv s) : WaitsOnLiving s := by
  intro added hpc k i d hd
  rcases pointer_of_waiting h.base hpc hd with rfl | hd
  · exact h.ordered.living h.base.wakeup
  · apply h.spared
    rw [hpc]
    exact hd

/-- In every run whose teardowns spare the entities of the wait, whatever its interleaving. -/
theorem waits_on_living {ex : Executor} {valid : Handle → Bool} (hwakeup : valid ex.wakeup = true)
    (hbooks : ∃ records, Books ex.waitSet records) (children : Handle → List Handle)
    (triggered : Bool) (ms : List Move)
    (hspares : Throughout step SparesTheWait (start ex valid children triggered) ms) (s : Sys)
    (hs : run step (start ex valid children triggered) ms = some s) : WaitsOnLiving s :=
  (run_invariant_of_throughout step_inv (start_inv hwakeup hbooks children triggered) hspares
    hs).waitsOnLiving

/-- The callback destroys its own subscription before the next pass looks at it. -/
theorem waits_on_living_own : ∃ ex, Executor.create true 0 = .ok ex ∧
    ∃ s, run step (start ex (fun _ => true) (fun _ => []) false)
        (dispatching (subscription 0 1) ++ [.invalidate 1, .fini 1] ++
          List.replicate 11 .main) = some s ∧
      s.pc = .waiting [] ∧ s.finalized 1 = true ∧ WaitsOnLiving s := by
  obtain ⟨ex, hex, hbooks⟩ := exists_start
  have hrun : ∃ s, run step (start ex (fun _ => true) (fun _ => []) false)
        (dispatching (subscription 0 1) ++ [.invalidate 1, .fini 1] ++
          List.replicate 11 .main) = some s ∧
      Throughout step SparesTheWait (start ex (fun _ => true) (fun _ => []) false)
        (dispatching (subscription 0 1) ++ [.invalidate 1, .fini 1] ++ List.replicate 11 .main) ∧
      s.pc = .waiting [] ∧ s.finalized 1 = true := by
    obtain rfl := Except.ok.inj hex
    refine ⟨_, rfl, by decide, ?_⟩
    exact ⟨rfl, rfl⟩
  obtain ⟨s, hs, hok, hpc, hfin⟩ := hrun
  exact ⟨ex, hex, s, hs, hpc, hfin, waits_on_living rfl hbooks _ _ _ hok s hs⟩

/-- Two subscriptions of groups of their own; the first one's callback has been dispatched when the
next wait, for the second, begins. -/
def waitingForSecond : List Move :=
  register (subscription 0 1) ++ register (subscription 1 2) ++ untilWait 2 ++
    [.wake true (fun _ i => i == 0) true, .main, .take .data, .take .data] ++
    List.replicate 16 .main

/-- The running callback destroys the subscription the thread is waiting for. -/
theorem callback_frees_waited : ∃ ex, Executor.create true 0 = .ok ex ∧
    ∃ s, run step (start ex (fun _ => true) (fun _ => []) false)
        (waitingForSecond ++ [.invalidate 2, .fini 2]) = some s ∧
      s.workers = [⟨⟨.mutuallyExclusive, 0⟩, .running⟩] ∧ ¬ WaitsOnLiving s := by
  obtain ⟨ex, hex, -⟩ := exists_start
  have hrun : ∃ s, run step (start ex (fun _ => true) (fun _ => []) false)
        (waitingForSecond ++ [.invalidate 2, .fini 2]) = some s ∧
      s.workers = [⟨⟨.mutuallyExclusive, 0⟩, .running⟩] ∧
      s.pc = .waiting [(subscription 1 2, 0)] ∧
      (s.waitSet.handle.slots .subscription).entry 0 = some 2 ∧ s.finalized 2 = true := by
    obtain rfl := Except.ok.inj hex
    refine ⟨_, rfl, ?_⟩
    exact ⟨rfl, rfl, rfl, rfl⟩
  obtain ⟨s, hs, hworkers, hpc, hentry, hfin⟩ := hrun
  refine ⟨ex, hex, s, hs, hworkers, fun hliving => ?_⟩
  have hnot := hliving _ hpc .subscription 0 2 hentry
  rw [hfin] at hnot
  cases hnot

end RunningWait
