import Rcllean.WakeUp

/-!
# The end of a spin

A shutdown takes the context down and then triggers the wakeup, in two steps
that others may come between. From the first on the thread that waits is on
its way out: what it still has to do is counted, only entities registered in
the meantime add to it, and it waits at most once more. It returns after the
last callback.
-/
namespace Stopping

open WaitSets Executors Spinner Runs

/-- Past the last wait it would go into with the context down. -/
def Late : Pc → Prop
  | .loop | .woken .. | .taking _ | .reaping .. | .draining _ | .returned | .raised _ => True
  | _ => False

instance : DecidablePred Late := fun pc => by
  cases pc <;> unfold Late <;> infer_instance

/-- The moves the waiting thread has left with the context down, as far as its variables say. -/
def left (registered tasks : Nat) : Pc → Nat
  | .snapshot => 7 * registered + 2 * tasks + 12
  | .checking all todo _ => todo.length + 6 * all.length + 2 * tasks + 11
  | .forgetting all _ => 6 * all.length + 2 * tasks + 10
  | .screening todo eligible => 6 * todo.length + 5 * eligible.length + 2 * tasks + 9
  | .filling eligible => 5 * eligible.length + 2 * tasks + 8
  | .adding todo added => 5 * todo.length + 3 * added.length + 2 * tasks + 7
  | .pointing _ todo added => 5 * todo.length + 3 * added.length + 2 * tasks + 11
  | .waiting added => 3 * added.length + 2 * tasks + 6
  | .woken added _ => 3 * added.length + 2 * tasks + 5
  | .taking todo => 3 * todo.length + 2 * tasks + 4
  | .reaping todo kept => 2 * todo.length + kept.length + 3
  | .loop => tasks + 2
  | .draining todo => todo.length + 1
  | .returned | .raised _ => 0

def work (s : Sys) : Nat := left s.waitables.length s.tasks.length s.pc

/-- The moves of the thread that waits. -/
def ofWaiting : Move → Bool
  | .main | .refuse .. | .wake .. | .take _ => true
  | _ => false

def isWake : Move → Bool
  | .wake .. => true
  | _ => false

def isPush : Move → Bool
  | .addPush _ => true
  | _ => false

structure Down (s : Sys) : Prop where
  base : Base s
  contextOk : s.contextOk = false

/-! ## What one step leaves to do -/

theorem mainStep_down {s t : Sys} (hdown : s.contextOk = false) (hs : MainStep s t) :
    t.contextOk = false := by
  cases hs <;> exact hdown

theorem step_down (s : Sys) (m : Move) (t : Sys) (h : Down s) (hs : step s m = some t) :
    Down t := by
  have hdown := h.contextOk
  refine ⟨step_base s m t h.base hs, ?_⟩
  cases step_cases h.base hs with
  | main hmain => exact mainStep_down hdown hmain
  | shutdown => rfl
  | _ => exact hdown

theorem length_survivors_le (dead : List Nat) (all : List (Nat × Waitable)) :
    (survivors dead all).length ≤ all.length := List.length_filterMap_le ..

theorem mainStep_work {s t : Sys} (hdown : s.contextOk = false) (hs : MainStep s t) :
    work t + 1 ≤ work s := by
  cases hs with
  | go hpc hok =>
    rw [hdown] at hok
    cases hok
  | @forget all dead kept hpc hkept =>
    have hle := length_survivors_le dead all
    simp only [work, left, hpc, List.length_nil]
    omega
  | proceed hpc | skip hpc | taken hpc | reaped hpc | fill hpc | wait hpc | stop hpc | snapshot hpc
  | live hpc | dead hpc | checked hpc | free hpc | busy hpc | screened hpc | refuse hpc | check hpc
  | point hpc | drop hpc | keep hpc | awaited hpc | drained hpc =>
    simp only [work, left, hpc, List.length_append, List.length_cons, List.length_nil]
    omega

theorem left_mono {m n : Nat} (h : m ≤ n) (tasks : Nat) (pc : Pc) :
    left m tasks pc ≤ left n tasks pc ∧ left n tasks pc ≤ left m tasks pc + 7 * (n - m) := by
  cases pc <;> simp only [left] <;> omega

theorem step_work (s : Sys) (m : Move) (t : Sys) (h : Down s) (hs : step s m = some t) :
    work t + (ofWaiting m).toNat ≤ work s + 7 * (isPush m).toNat := by
  cases step_cases h.base hs with
  | main hmain => exact mainStep_work h.contextOk hmain
  | refused hfn =>
    have hpos : 0 < work s := by
      unfold Sys.refusable at hfn
      split at hfn <;> simp_all [work, left]
    change 0 + 1 ≤ work s + 7 * 0
    omega
  | wake hpc =>
    simp only [work, left, hpc, ofWaiting, isPush, Bool.toNat_true, Bool.toNat_false]
    omega
  | passed hpc =>
    simp only [work, left, hpc, ofWaiting, isPush, List.length_cons, Bool.toNat_true,
      Bool.toNat_false]
    omega
  | dispatched hpc =>
    simp only [work, left, dispatch, hpc, ofWaiting, isPush, List.length_append, List.length_cons,
      List.length_nil, Bool.toNat_true, Bool.toNat_false]
    omega
  | raised hpc =>
    simp only [work, left, hpc, ofWaiting, isPush, Bool.toNat_true, Bool.toNat_false]
    omega
  | addPush =>
    have hle := (left_mono (Nat.le_succ s.waitables.length) s.tasks.length s.pc).2
    simpa [work, ofWaiting, isPush] using hle
  | _ => exact Nat.le_refl _

/-! ## The last wait -/

/-- With the context down no step leads back before the wait. -/
theorem mainStep_late {s t : Sys} (hdown : s.contextOk = false) (h : Late s.pc)
    (hs : MainStep s t) : Late t.pc := by
  cases hs with
  | go hpc hok =>
    rw [hdown] at hok
    cases hok
  | stop | proceed | skip | taken | drop | keep | reaped | awaited | drained | refuse => trivial
  | snapshot hpc | live hpc | dead hpc | checked hpc | forget hpc | free hpc | busy hpc
  | screened hpc | fill hpc | check hpc | point hpc | wait hpc =>
    rw [hpc] at h
    cases h

theorem step_late {s t : Sys} {m : Move} (h : Down s) (hlate : Late s.pc)
    (hs : step s m = some t) : Late t.pc := by
  cases step_cases h.base hs with
  | main hmain => exact mainStep_late h.contextOk hlate hmain
  | wake => trivial
  | passed => trivial
  | dispatched => trivial
  | raised => trivial
  | refused => trivial
  | _ => exact hlate

/-- The waits that the thread may still come out of. -/
def waitsLeft (s : Sys) : Nat := if Late s.pc then 0 else 1

/-- A wait is come out of for the last time. -/
theorem step_waitsLeft (s : Sys) (m : Move) (t : Sys) (h : Down s) (hs : step s m = some t) :
    waitsLeft t + (isWake m).toNat ≤ waitsLeft s + 0 * (isPush m).toNat := by
  by_cases hlate : Late s.pc
  · have ht := step_late h hlate hs
    cases m with
    | wake woken ready observed =>
      cases step_cases h.base hs with
      | wake hpc =>
        rw [hpc] at hlate
        cases hlate
    | _ => simp [waitsLeft, hlate, ht, isWake]
  · cases m with
    | wake woken ready observed =>
      cases step_cases h.base hs with
      | wake hpc => simp [waitsLeft, hpc, Late, isWake]
    | _ =>
      simp only [waitsLeft, hlate, isWake, if_false]
      split <;> simp

/-- The thread has come out of its last wait, or has a trigger to come out on. -/
structure Released (s : Sys) : Prop where
  down : Down s
  released : Late s.pc ∨ s.triggered = true

theorem step_released (s : Sys) (m : Move) (t : Sys) (h : Released s) (hs : step s m = some t) :
    Released t := by
  refine ⟨step_down s m t h.down hs, ?_⟩
  rcases h.released with hlate | htriggered
  · exact .inl (step_late h.down hlate hs)
  · cases step_cases h.down.base hs with
    | main hmain => cases hmain <;> exact .inr htriggered
    | refused => exact .inl trivial
    | wake => exact .inl trivial
    | trigger => exact .inr rfl
    | addTrigger => exact .inr rfl
    | notify => exact .inr rfl
    | _ => exact .inr htriggered

/-! ## Runs -/

/-- Every callback that was ever dispatched is past its last trigger and out of its group. -/
def Quiet (s : Sys) : Prop :=
  (∀ w ∈ s.workers, w.stage = .finished) ∧ ∀ g, s.running g = 0

theorem quiet_of_returned {s : Sys} (hawaited : Awaited s) (hcounted : WakeUp.Counted s)
    (hpc : s.pc = .returned) : Quiet s := by
  have hdone := hawaited.finished hpc
  refine ⟨hdone, fun g => ?_⟩
  rw [hcounted g, List.countP_eq_zero]
  intro w hw hin
  simp [WakeUp.inside, hdone w hw] at hin

structure Inv (s : Sys) : Prop where
  base : Base s
  counted : WakeUp.Counted s
  awaited : Awaited s

theorem step_inv (s : Sys) (m : Move) (t : Sys) (h : Inv s) (hs : step s m = some t) : Inv t where
  base := step_base s m t h.base hs
  counted := WakeUp.step_counted h.base h.counted hs
  awaited := step_awaited h.base h.awaited hs

/-- Whatever the interleaving and however callbacks and other threads go on, once the thread has
returned nothing it dispatched is still under way. -/
theorem returns_quiet {ex : Executor} {valid : Handle → Bool} (hwakeup : valid ex.wakeup = true)
    (hbooks : ∃ records, Books ex.waitSet records) (children : Handle → List Handle)
    (triggered : Bool) (ms : List Move) (s : Sys)
    (hs : run step (start ex valid children triggered) ms = some s) (hpc : s.pc = .returned) :
    Quiet s := by
  have hstart : Inv (start ex valid children triggered) :=
    ⟨start_base hwakeup hbooks children triggered, fun g => rfl, fun i w hi _ => by cases hi⟩
  have hinv := run_invariant step_inv hstart hs
  exact quiet_of_returned hinv.awaited hinv.counted hpc

/-- The context goes down while the callback runs, which is over only when the thread awaits it. -/
def stopping : List Move :=
  dispatching (subscription 0 1) ++ [.shutdown, .notify] ++ List.replicate 4 .main ++
    [.leave 0, .trigger 0, .main, .main]

theorem returns_quiet_awaited : ∃ ex, Executor.create true 0 = .ok ex ∧
    ∃ s, run step (start ex (fun _ => true) (fun _ => []) false) stopping = some s ∧
      s.workers = [⟨⟨.mutuallyExclusive, 0⟩, .finished⟩] ∧ Quiet s := by
  obtain ⟨ex, hex, hbooks⟩ := exists_start
  have hrun : ∃ s, run step (start ex (fun _ => true) (fun _ => []) false) stopping = some s ∧
      s.workers = [⟨⟨.mutuallyExclusive, 0⟩, .finished⟩] ∧ s.pc = .returned := by
    obtain rfl := Except.ok.inj hex
    refine ⟨_, rfl, ?_⟩
    exact ⟨rfl, rfl⟩
  obtain ⟨s, hs, hworkers, hpc⟩ := hrun
  exact ⟨ex, hex, s, hs, hworkers, returns_quiet rfl hbooks _ _ _ s hs hpc⟩

/-- From any state a run may be in when the context is down, with the trigger of the shutdown still
to come or not. -/
theorem stops_after_shutdown {ex : Executor} {valid : Handle → Bool}
    (hwakeup : valid ex.wakeup = true) (hbooks : ∃ records, Books ex.waitSet records)
    (children : Handle → List Handle) (triggered : Bool) (before : List Move) (s : Sys)
    (hs : run step (start ex valid children triggered) before = some s)
    (hdown : s.contextOk = false) (after : List Move) (t : Sys) (ht : run step s after = some t) :
    after.countP isWake ≤ 1 ∧
      after.countP ofWaiting ≤ work s + 7 * after.countP isPush ∧
      (.notify ∈ after → ∀ added, t.pc = .waiting added → t.triggered = true) := by
  have hbase := run_invariant step_base (start_base hwakeup hbooks children triggered) hs
  have hs : Down s := ⟨hbase, hdown⟩
  refine ⟨?_, ?_, ?_⟩
  · have hwaits := run_measure step_down step_waitsLeft hs ht
    have hone : waitsLeft s ≤ 1 := by
      unfold waitsLeft
      split <;> omega
    omega
  · have hwork := run_measure step_down step_work hs ht
    omega
  · intro hmem added hpc
    obtain ⟨es, fs, rfl⟩ := List.append_of_mem hmem
    obtain ⟨u, hu, hrest⟩ := run_append_some ht
    obtain ⟨v, hv, hrest⟩ := run_cons_some hrest
    have hu := run_invariant step_down hs hu
    obtain rfl := Option.some.inj hv
    have hv : Released { u with triggered := true } := ⟨⟨⟨hu.base.wakeup, hu.base.track⟩,
      hu.contextOk⟩, .inr rfl⟩
    rcases (run_invariant step_released hv hrest).released with hlate | htriggered
    · rw [hpc] at hlate
      cases hlate
    · exact htriggered

/-- The context goes down between the look at it and the wait. -/
theorem stops_after_shutdown_before_wait : ∃ ex, Executor.create true 0 = .ok ex ∧
    ∃ s, run step (start ex (fun _ => true) (fun _ => []) false) [.main, .shutdown] = some s ∧
      s.pc = .snapshot ∧
      ∃ t, run step s (.notify :: List.replicate 6 .main) = some t ∧ t.pc = .waiting [] ∧
        t.triggered = true := by
  obtain ⟨ex, hex, hbooks⟩ := exists_start
  have hrun : ∃ s, run step (start ex (fun _ => true) (fun _ => []) false) [.main, .shutdown] =
        some s ∧ s.pc = .snapshot ∧ s.contextOk = false ∧
      ∃ t, run step s (.notify :: List.replicate 6 .main) = some t ∧ t.pc = .waiting [] := by
    obtain rfl := Except.ok.inj hex
    refine ⟨_, rfl, rfl, rfl, ?_⟩
    exact ⟨_, rfl, rfl⟩
  obtain ⟨s, hs, hpc, hdown, t, ht, hwait⟩ := hrun
  exact ⟨ex, hex, s, hs, hpc, t, ht, hwait, (stops_after_shutdown rfl hbooks _ _ _ s hs hdown _ t
    ht).2.2 List.mem_cons_self _ hwait⟩

end Stopping
