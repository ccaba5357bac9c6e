import Rcllean.Spinner

/-!
# Messages that do not convert

What a callback raises stays on its worker. A take runs on the waiting thread
inside the loop over the slots, and nothing there catches what it raises: it
ends the pass, the executor and the wait for the callbacks still running. The
runs that keep going are those in which no take that goes ahead is refused or
of an entity that is gone, and in which the pass neither comes upon a destroyed
entity nor is refused a call of rcl while callbacks are running.
-/
namespace BadMessage

open WaitSets Executors Spinner Runs

/-- The turn's group is free and its slot ready, so that its take goes ahead. -/
def Due (s : Sys) (w : Waitable) (slot : Nat) : Prop :=
  canRun s.running w.group = true ∧ s.waitSet.ready w.kind slot = true

instance (s : Sys) (w : Waitable) (slot : Nat) : Decidable (Due s w slot) :=
  inferInstanceAs (Decidable (_ ∧ _))

/-- No callback is running. -/
def Quiet (s : Sys) : Prop := ∀ w ∈ s.workers, w.stage ≠ .running

instance (s : Sys) : Decidable (Quiet s) := inferInstanceAs (Decidable (∀ w ∈ s.workers, _))

/-- The executor has returned or raised to its caller. -/
def Over (s : Sys) : Prop := s.pc = .returned ∨ ∃ why, s.pc = .raised why

/-- Each take leaves the rest of the loop to be done and dispatches what it was given; after the
loop comes another pass; and the caller is not returned to while a callback runs. -/
structure KeepsGoing (s : Sys) (m : Move) (t : Sys) : Prop where
  taken : ∀ answer w slot todo, m = .take answer → s.pc = .taking ((w, slot) :: todo) →
    t.pc = .taking todo ∧ (Due s w slot → w.kind = .guardCondition ∨ answer = .data →
      t.workers = s.workers ++ [⟨w.group, .running⟩])
  again : t.pc = .taking [] →
    ∃ n u, run step t (List.replicate n .main) = some u ∧ u.pc = .loop
  quiet : Over t → Quiet t

def refuses : Answer → Bool
  | .refused _ => true
  | _ => false

/-- A take that goes ahead is of an entity that still exists and is not refused; no callback is
running when the pass comes upon an entity destroyed since it was screened, or when rcl refuses it
a call or fails its wait. -/
def Harmless (s : Sys) : Move → Prop
  | .take answer => match s.pc with
    | .taking ((w, slot) :: _) => Due s w slot → w.kind = .guardCondition ∨
        (s.valid w.handle = true ∧ refuses answer = false)
    | _ => True
  | .main => match s.pc with
    | .adding (w :: _) _ => s.valid w.handle = true ∨ Quiet s
    | _ => True
  | .refuse fn _ => fn ∈ s.refusable → Quiet s
  | _ => True

instance (s : Sys) (m : Move) : Decidable (Harmless s m) := by
  unfold Harmless
  split <;> (try split) <;> infer_instance

/-! ## Takes -/

theorem refuses_eq_false_iff {answer : Answer} :
    refuses answer = false ↔ ∀ why, answer ≠ .refused why := by
  cases answer <;> simp [refuses]

/-- A turn that is not due is passed over. -/
theorem takeStep_of_not_due {s : Sys} {w : Waitable} {slot : Nat} (todo : List (Waitable × Nat))
    (answer : Answer) (h : ¬ Due s w slot) :
    takeStep s w slot todo answer = { s with pc := .taking todo } := by
  unfold takeStep
  by_cases hrun : canRun s.running w.group = true
  · have hready : s.waitSet.ready w.kind slot = false :=
      Bool.eq_false_iff.mpr fun hr => h ⟨hrun, hr⟩
    rw [if_pos hrun, w.takeIfReady_eq, hready]
    rfl
  · rw [if_neg hrun]

section

variable {s : Sys} {w : Waitable} {slot : Nat} (todo : List (Waitable × Nat)) (answer : Answer)

theorem takeStep_of_due (h : Due s w slot) (hok : w.kind = .guardCondition ∨
    (s.valid w.handle = true ∧ refuses answer = false)) :
    takeStep s w slot todo answer = if w.kind = .guardCondition ∨ answer = .data then
      dispatch s w todo else { s with pc := .taking todo } := by
  unfold takeStep
  rw [if_pos h.1, w.takeIfReady_eq, if_pos h.2]
  by_cases hk : w.kind = .guardCondition
  · simp [hk]
  · have hv := hok.resolve_left hk
    rw [refuses_eq_false_iff] at hv
    have htake := (@takeFrom_ok_iff (takeName w.kind) _ _ _).mpr ⟨hv, rfl⟩
    rw [if_neg hk, htake]
    by_cases hd : answer = .data <;> simp [hk, hd]

theorem takeStep_raises (h : Due s w slot) (hbad : ¬ (w.kind = .guardCondition ∨
    (s.valid w.handle = true ∧ refuses answer = false))) :
    ∃ why, takeStep s w slot todo answer = { s with pc := .raised why } := by
  obtain ⟨hk, hv⟩ := not_or.mp hbad
  unfold takeStep
  rw [if_pos h.1, w.takeIfReady_eq, if_pos h.2, if_neg hk]
  cases htake : takeFrom (takeName w.kind) (s.valid w.handle) answer with
  | error why => exact ⟨why, rfl⟩
  | ok b =>
    have hok := (takeFrom_ok_iff.mp htake).1
    exact absurd ⟨hok.1, refuses_eq_false_iff.mpr hok.2⟩ hv

end

/-- A harmless take passes the turn over or dispatches what it was given. -/
theorem take_harmless {s t : Sys} {answer : Answer} {w : Waitable} {slot : Nat}
    {todo : List (Waitable × Nat)} (hok : Harmless s (.take answer))
    (hpc : s.pc = .taking ((w, slot) :: todo)) (hs : step s (.take answer) = some t) :
    (t = { s with pc := .taking todo } ∧
      ¬ (Due s w slot ∧ (w.kind = .guardCondition ∨ answer = .data))) ∨
    t = dispatch s w todo := by
  simp only [Harmless, hpc] at hok
  simp only [step, hpc, Option.some.injEq] at hs
  subst hs
  by_cases hdue : Due s w slot
  · rw [takeStep_of_due todo answer hdue (hok hdue)]
    split
    · exact .inr rfl
    · rename_i hnone
      exact .inl ⟨rfl, fun h => hnone h.2⟩
  · exact .inl ⟨takeStep_of_not_due todo answer hdue, fun h => hdue h.1⟩

/-! ## The end of a pass -/

/-- Whatever has finished, the loop over the tasks ends and the next pass begins. -/
theorem reaping_ends (s : Sys) (todo kept : List Nat) (hpc : s.pc = .reaping todo kept) :
    ∃ n u, run step s (List.replicate n .main) = some u ∧ u.pc = .loop := by
  induction todo generalizing s kept with
  | nil =>
    refine ⟨1, { s with tasks := kept, pc := .loop }, ?_, rfl⟩
    simp [List.replicate, run_cons, step, mainStep, hpc]
  | cons i todo ih =>
    obtain ⟨n, u, hrun, hu⟩ := ih { s with
      pc := .reaping todo (if s.finished i then kept else kept ++ [i]) } _ rfl
    refine ⟨n + 1, u, ?_, hu⟩
    simpa [List.replicate_succ, run_cons, step, mainStep, hpc] using hrun

theorem taking_ends (s : Sys) (hpc : s.pc = .taking []) :
    ∃ n u, run step s (List.replicate n .main) = some u ∧ u.pc = .loop := by
  obtain ⟨n, u, hrun, hu⟩ := reaping_ends { s with pc := .reaping s.tasks [] } _ _ rfl
  refine ⟨n + 1, u, ?_, hu⟩
  simpa [List.replicate_succ, run_cons, step, mainStep, hpc] using hrun

/-! ## Raising -/

structure Inv (s : Sys) : Prop where
  base : Base s
  awaited : Awaited s
  raised : ∀ why, s.pc = .raised why → Quiet s

theorem quiet_of_set {s t : Sys} {i : Nat} {g : CallbackGroup} {b : Stage}
    (hb : b ≠ .running) (ht : t.workers = s.workers.set i ⟨g, b⟩) (h : Quiet s) : Quiet t := by
  intro w hw
  rw [ht] at hw
  rcases List.mem_or_eq_of_mem_set hw with hw | rfl
  · exact h w hw
  · exact hb

/-- Where the thread has raised, it has done so with no callback running. -/
theorem quiet_mainStep {s t : Sys} (hok : Harmless s .main) (hs : MainStep s t) (why : Failure)
    (hr : t.pc = .raised why) : Quiet t := by
  cases hs with
  | refuse hpc hv =>
    simp only [Harmless, hpc, hv, Bool.false_eq_true, false_or] at hok
    exact hok
  | _ => cases hr

theorem step_inv (s : Sys) (m : Move) (t : Sys) (h : Inv s) (hok : Harmless s m)
    (hs : step s m = some t) : Inv t := by
  refine ⟨step_base s m t h.base hs, step_awaited h.base h.awaited hs, ?_⟩
  intro why hr
  cases step_cases h.base hs with
  | main hmain => exact quiet_mainStep hok hmain why hr
  | refused hfn => exact hok hfn
  | raised hpc =>
    -- a harmless take goes on with the loop
    rcases take_harmless hok hpc hs with ⟨heq, -⟩ | heq
    · cases congrArg Sys.pc heq
    · cases congrArg Sys.pc heq
  | wake | passed | dispatched => cases hr
  | leave hi => exact quiet_of_set (by decide) rfl (h.raised why hr)
  | trigger hi => exact quiet_of_set (by decide) rfl (h.raised why hr)
  | _ => exact h.raised why hr

theorem start_inv {ex : Executor} {valid : Handle → Bool} (hwakeup : valid ex.wakeup = true)
    (hbooks : ∃ records, Books ex.waitSet records) (children : Handle → List Handle)
    (triggered : Bool) : Inv (start ex valid children triggered) where
  base := start_base hwakeup hbooks children triggered
  awaited := fun i w hi _ => by cases hi
  raised := fun why hr => by cases hr

/-- A thread that has returned has waited for every task. -/
theorem Inv.quiet {s : Sys} (h : Inv s) (hover : Over s) : Quiet s := by
  rcases hover with hpc | ⟨why, hpc⟩
  · intro w hw hrun
    rw [h.awaited.finished hpc w hw] at hrun
    cases hrun
  · exact h.raised why hpc

/-! ## Runs -/

theorem keepsGoing_of_harmless {s t : Sys} {m : Move} (h : Inv s) (hok : Harmless s m)
    (hs : step s m = some t) : KeepsGoing s m t where
  taken := by
    intro answer w slot todo hm hpc
    subst hm
    rcases take_harmless hok hpc hs with ⟨rfl, hnone⟩ | rfl
    · exact ⟨rfl, fun hdue hgiven => absurd ⟨hdue, hgiven⟩ hnone⟩
    · exact ⟨rfl, fun _ _ => rfl⟩
  again := taking_ends t
  quiet := (step_inv s m t h hok hs).quiet

/-- A step that is not harmless raises: at once of the take, or with callbacks running. -/
theorem harmless_of_keepsGoing {s : Sys} {m : Move}
    (h : ∀ t, step s m = some t → KeepsGoing s m t) : Harmless s m := by
  cases m with
  | take answer =>
    simp only [Harmless]
    split
    · rename_i w slot todo hpc
      intro hdue
      by_contra hbad
      obtain ⟨why, hraised⟩ := takeStep_raises todo answer hdue hbad
      have hs : step s (.take answer) = some { s with pc := .raised why } := by
        simp [step, hpc, hraised]
      have hgoes := ((h _ hs).taken answer w slot todo rfl hpc).1
      cases hgoes
    · trivial
  | main =>
    simp only [Harmless]
    split
    · rename_i w todo added hpc
      cases hv : s.valid w.handle with
      | true => exact .inl rfl
      | false =>
        have hs : ∃ why, step s .main = some { s with pc := .raised why } := by
          simp [step, mainStep, hpc, hv, requireValid]
        obtain ⟨why, hs⟩ := hs
        exact .inr ((h _ hs).quiet (.inr ⟨why, rfl⟩))
    · trivial
  | refuse fn code =>
    intro hfn
    have hs : step s (.refuse fn code) = some { s with pc := .raised (.code fn code) } :=
      if_pos hfn
    exact (h _ hs).quiet (.inr ⟨_, rfl⟩)
  | _ => trivial

/-- The executor keeps going through a run exactly when every step of it is harmless. -/
theorem keeps_going_iff {ex : Executor} {valid : Handle → Bool}
    (hwakeup : valid ex.wakeup = true) (hbooks : ∃ records, Books ex.waitSet records)
    (children : Handle → List Handle) (triggered : Bool) (ms : List Move) :
    Throughout step (fun s m => ∀ t, step s m = some t → KeepsGoing s m t)
        (start ex valid children triggered) ms ↔
      Throughout step Harmless (start ex valid children triggered) ms := by
  constructor
  · intro h
    exact h.imp fun s m hgoes => harmless_of_keepsGoing hgoes
  · intro h
    exact throughout_of_invariant step_inv
      (fun s m hinv hok t hs => keepsGoing_of_harmless hinv hok hs)
      (start_inv hwakeup hbooks children triggered) h

/-! ### Three subscriptions -/

/-- Three subscriptions of groups of their own, all ready; the takes come back as given. -/
def threeReady (first second third : Answer) : List Move :=
  register (subscription 0 1) ++ register (subscription 1 2) ++ register (subscription 2 3) ++
    untilWait 3 ++ [.wake true (fun _ _ => true) true, .main] ++
    [.take first, .take second, .take third]

/-- Two of the messages convert and one queue turns out empty. -/
theorem keeps_going_three_ready : ∃ ex, Executor.create true 0 = .ok ex ∧
    Throughout step (fun s m => ∀ t, step s m = some t → KeepsGoing s m t)
      (start ex (fun _ => true) (fun _ => []) false) (threeReady .data .nothing .data) := by
  obtain ⟨ex, hex, hbooks⟩ := exists_start
  have hharmless : Throughout step Harmless (start ex (fun _ => true) (fun _ => []) false)
      (threeReady .data .nothing .data) := by
    obtain rfl := Except.ok.inj hex
    decide
  exact ⟨ex, hex, (keeps_going_iff rfl hbooks _ _ _).mpr hharmless⟩

/-- The second message violates a bound: the executor raises while the first one's callback is
running, and the third subscription is not taken from. -/
theorem bound_violation_raises : ∃ ex, Executor.create true 0 = .ok ex ∧
    ∃ s, run step (start ex (fun _ => true) (fun _ => []) false)
        ((threeReady .data .data .data).dropLast.dropLast) = some s ∧
      s.pc = .taking [(subscription 1 2, 1), (subscription 2 3, 2)] ∧
      ∃ t, step s (.take (.refused (.message "rcl_take" "bound violated"))) = some t ∧
        t.pc = .raised (.message "rcl_take" "bound violated") ∧
        t.workers = [⟨⟨.mutuallyExclusive, 0⟩, .running⟩] ∧
        ¬ KeepsGoing s (.take (.refused (.message "rcl_take" "bound violated"))) t := by
  obtain ⟨ex, hex, -⟩ := exists_start
  have hrun : ∃ s, run step (start ex (fun _ => true) (fun _ => []) false)
        ((threeReady .data .data .data).dropLast.dropLast) = some s ∧
      s.pc = .taking [(subscription 1 2, 1), (subscription 2 3, 2)] ∧
      ∃ t, step s (.take (.refused (.message "rcl_take" "bound violated"))) = some t ∧
        t.pc = .raised (.message "rcl_take" "bound violated") ∧
        t.workers = [⟨⟨.mutuallyExclusive, 0⟩, .running⟩] := by
    obtain rfl := Except.ok.inj hex
    refine ⟨_, rfl, ?_⟩
    refine ⟨rfl, _, rfl, ?_⟩
    exact ⟨rfl, rfl⟩
  obtain ⟨s, hs, hpc, t, ht, hraised, hworkers⟩ := hrun
  refine ⟨ex, hex, s, hs, hpc, t, ht, hraised, hworkers, fun hgoes => ?_⟩
  have hquiet := hgoes.quiet (.inr ⟨_, hraised⟩) ⟨⟨.mutuallyExclusive, 0⟩, .running⟩
  rw [hworkers] at hquiet
  exact hquiet (List.mem_singleton.mpr rfl) rfl

end BadMessage
