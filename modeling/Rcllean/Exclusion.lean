import Rcllean.WakeUp

/-!
# Callbacks of one group

A mutually exclusive group's callback is dispatched only while none of the
group is inside. Whatever other threads do in between, its callbacks run one
after the other, in the order in which they were dispatched.
-/
namespace Exclusion

open WaitSets Executors Spinner WakeUp Runs

/-- The earlier of two workers has left its group if the group holds one at a time. -/
def After (v w : Worker) : Prop :=
  v.group = w.group → v.group.kind = .mutuallyExclusive → v.stage ≠ .running

/-- Workers are kept in the order in which they were dispatched. -/
def Serial (workers : List Worker) : Prop := workers.Pairwise After

theorem serial_set {workers : List Worker} (h : Serial workers) {i : Nat} {g : CallbackGroup}
    {before after : Stage} (hi : workers[i]? = some ⟨g, before⟩) (hafter : after ≠ .running) :
    Serial (workers.set i ⟨g, after⟩) := by
  obtain ⟨hlt, hget⟩ := List.getElem?_eq_some_iff.mp hi
  rw [Serial, List.pairwise_iff_getElem] at h ⊢
  intro j k hj hk hjk
  rw [List.length_set] at hj hk
  have hold := h j k hj hk hjk
  simp only [List.getElem_set]
  by_cases hij : i = j
  · rw [if_pos hij, if_neg (by omega)]
    exact fun _ _ => hafter
  · rw [if_neg hij]
    by_cases hik : i = k
    · subst hik
      rw [hget] at hold
      rw [if_pos rfl]
      exact hold
    · rw [if_neg hik]
      exact hold

/-- A group that can run has no worker inside, so one more comes after all of them. -/
theorem serial_dispatch {s : Sys} (hcounted : Counted s) (h : Serial s.workers) (w : Waitable)
    (todo : List (Waitable × Nat)) (hrun : canRun s.running w.group = true) :
    Serial (dispatch s w todo).workers := by
  rw [Serial, dispatch, List.pairwise_append]
  refine ⟨h, List.pairwise_singleton _ _, fun v hv w' hw' => ?_⟩
  obtain rfl := List.mem_singleton.mp hw'
  intro hgroup hkind hstage
  change v.group = w.group at hgroup
  have hzero : s.running w.group = 0 := by
    rw [hgroup] at hkind
    simpa [canRun, hkind] using hrun
  rw [hcounted, List.countP_eq_zero] at hzero
  exact hzero v hv (by simp [inside, hgroup, hstage])

structure Inv (s : Sys) : Prop where
  base : Base s
  counted : Counted s
  serial : Serial s.workers

theorem step_inv (s : Sys) (m : Move) (t : Sys) (h : Inv s) (hs : step s m = some t) : Inv t := by
  refine ⟨step_base s m t h.base hs, step_counted h.base h.counted hs, ?_⟩
  cases step_cases h.base hs with
  | main hmain => cases hmain <;> exact h.serial
  | dispatched hpc hrun => exact serial_dispatch h.counted h.serial _ _ hrun
  | leave hi => exact serial_set h.serial hi (by decide)
  | trigger hi => exact serial_set h.serial hi (by decide)
  | _ => exact h.serial

theorem start_inv {ex : Executor} {valid : Handle → Bool} (hwakeup : valid ex.wakeup = true)
    (hbooks : ∃ records, Books ex.waitSet records) (children : Handle → List Handle)
    (triggered : Bool) : Inv (start ex valid children triggered) where
  base := start_base hwakeup hbooks children triggered
  counted := fun _ => rfl
  serial := List.Pairwise.nil

/-- One after the other means no two at once. -/
theorem countP_inside_le {workers : List Worker} (h : Serial workers) {g : CallbackGroup}
    (hg : g.kind = .mutuallyExclusive) : workers.countP (inside g) ≤ 1 := by
  induction workers with
  | nil => simp
  | cons w workers ih =>
    rw [Serial, List.pairwise_cons] at h
    rw [List.countP_cons]
    by_cases hw : inside g w = true
    · have hin : w.group = g ∧ w.stage = .running := by simpa [inside] using hw
      have hnone : workers.countP (inside g) = 0 := by
        rw [List.countP_eq_zero]
        intro v hv hinv
        have hv' : v.group = g ∧ v.stage = .running := by simpa [inside] using hinv
        exact h.1 v hv (by rw [hin.1, hv'.1]) (by rw [hin.1, hg]) hin.2
      simp [hw, hnone]
    · have hrest := ih h.2
      simp [hw, hrest]

/-- In every run of `spinMultiThreaded` a group's count is the number of its callbacks that are
inside; a mutually exclusive group has at most one there, and its callbacks enter in the order of
their dispatch, each after those before it have left. -/
theorem callbacks_exclude {ex : Executor} {valid : Handle → Bool} (hwakeup : valid ex.wakeup = true)
    (hbooks : ∃ records, Books ex.waitSet records) (children : Handle → List Handle)
    (triggered : Bool) {es : List Move} {s : Sys}
    (h : run step (start ex valid children triggered) es = some s) :
    (∀ g, s.running g = s.workers.countP (inside g) ∧
      (g.kind = .mutuallyExclusive → s.workers.countP (inside g) ≤ 1)) ∧
    s.workers.Pairwise fun v w =>
      v.group = w.group → v.group.kind = .mutuallyExclusive → v.stage ≠ .running := by
  have hinv := run_invariant step_inv (start_inv hwakeup hbooks children triggered) h
  exact ⟨fun g => ⟨hinv.counted g, countP_inside_le hinv.serial⟩, hinv.serial⟩

/-- Two subscriptions of one group are found ready together. -/
def readyTogether : List Move :=
  register (subscription 0 1) ++ register (subscription 0 2) ++ untilWait 2 ++
    [.wake true (fun _ _ => true) true, .main, .take .data, .take .data]

/-- Of two that are ready together the second stays where it is. -/
theorem callbacks_exclude_together : ∃ ex, Executor.create true 0 = .ok ex ∧
    ∃ s, run step (start ex (fun _ => true) (fun _ => []) false) readyTogether = some s ∧
      s.pc = .taking [] ∧ s.workers = [⟨⟨.mutuallyExclusive, 0⟩, .running⟩] ∧
      s.workers.countP (inside ⟨.mutuallyExclusive, 0⟩) ≤ 1 := by
  obtain ⟨ex, hex, hbooks⟩ := exists_start
  have hrun : ∃ s, run step (start ex (fun _ => true) (fun _ => []) false) readyTogether = some s ∧
      s.pc = .taking [] ∧ s.workers = [⟨⟨.mutuallyExclusive, 0⟩, .running⟩] := by
    obtain rfl := Except.ok.inj hex
    refine ⟨_, rfl, ?_⟩
    exact ⟨rfl, rfl⟩
  obtain ⟨s, hs, hpc, hworkers⟩ := hrun
  have hexclude := callbacks_exclude rfl hbooks (fun _ => []) false hs
  exact ⟨ex, hex, s, hs, hpc, hworkers, (hexclude.1 _).2 rfl⟩

end Exclusion
