import Rcllean.Client

/-!
# Spinning until a future completes

The executor spins until a future has its value, with a time limit or without
one. The future is completed, the context shut down and the clock moves on at
any point. Times are 64 bits wide and their sums wrap around.
-/
namespace Deadlines

open Client Runs

variable {α : Type}

/-- Where the loop is. -/
inductive Pc (α : Type) where
  | start
  | testing
  | checking
  | reading
  /-- In `spinOnce`, called with what the clock left it at `since`. -/
  | spinning (since : Int64) (remaining : Option Int64)
  | getting
  | returned (value : Option α)
  | raised (text : String)

structure State (α : Type) where
  future : Future α
  contextOk : Bool
  /-- The steady clock. -/
  clock : Int64
  timeout : Option Int64
  /-- When the loop began. -/
  begun : Int64
  deadline : Option Int64
  pc : Pc α

def start (future : Future α) (clock : Int64) (timeout : Option Int64) : State α :=
  ⟨future, true, clock, timeout, clock, none, .start⟩

inductive Move (α : Type) where
  | go
  /-- A pass returns, with or without having run callbacks. -/
  | spun
  /-- A callback of the pass raises. -/
  | raises (text : String)
  | complete (value : Except String α)
  | shutdown
  | tick (clock : Int64)

/-- The next step of the loop, outside the passes. -/
def go (s : State α) : Option (State α) :=
  match s.pc with
  | .start => some { s with
      begun := s.clock, deadline := s.timeout.map fun d => s.clock + d, pc := .testing }
  | .testing => some { s with pc := if s.future.value.isSome then .getting else .checking }
  | .checking => some { s with pc := if s.contextOk then .reading else .returned none }
  | .reading =>
    let remaining := s.deadline.map fun t => t - s.clock
    some { s with
      pc := if remaining.any (· ≤ 0) then .returned none else .spinning s.clock remaining }
  | .getting => some { s with
      pc := match s.future.value with
        | none => .raised "future is not complete yet"
        | some (.ok v) => .returned (some v)
        | some (.error e) => .raised e }
  | _ => none

def step (s : State α) : Move α → Option (State α)
  | .go => go s
  | .spun => match s.pc with
    | .spinning _ _ => some { s with pc := .testing }
    | _ => none
  | .raises text => match s.pc with
    | .spinning _ _ => some { s with pc := .raised text }
    | _ => none
  | .complete value => some { s with future := (s.future.complete value).2 }
  | .shutdown => some { s with contextOk := false }
  | .tick clock => if s.clock ≤ clock then some { s with clock } else none

/-- The timeout that `rcl_wait` gets; a negative one blocks until something happens. -/
def waitNanos (remaining : Option Int64) : Int64 := remaining.getD (-1)

/-! ## The time left -/

/-- However the deadline wraps around, what is left of it does not. -/
theorem toInt_remaining {begun clock d : Int64} (hbegun : 0 ≤ begun.toInt)
    (hclock : begun.toInt ≤ clock.toInt) (hd : 0 ≤ d.toInt) :
    (begun + d - clock).toInt = d.toInt - (clock.toInt - begun.toInt) := by
  have hmax := clock.toInt_lt
  have hlimit := d.toInt_lt
  have hcancel : begun.toInt + d.toInt - clock.toInt =
      d.toInt - (clock.toInt - begun.toInt) := by omega
  rw [Int64.toInt_sub, Int64.toInt_add, Int.bmod_sub_bmod, hcancel]
  exact Int.bmod_eq_of_le (by omega) (by omega)

/-- The time is up. -/
def Elapsed (s : State α) : Prop :=
  ∃ d, s.timeout = some d ∧ d.toInt ≤ s.clock.toInt - s.begun.toInt

/-- What a pass is given is all the time that was left, and there was some; or there is no
limit. -/
def TimeLeft (s : State α) (since : Int64) (remaining : Option Int64) : Prop :=
  match s.timeout with
  | none => remaining = none
  | some d => ∃ left, remaining = some left ∧ 0 < left.toInt ∧
      left.toInt = d.toInt - (since.toInt - s.begun.toInt)

/-- What holds at each place of the loop. -/
def At (s : State α) : Pc α → Prop
  | .spinning since remaining => TimeLeft s since remaining
  | .getting => s.future.value.isSome = true
  | .returned none => s.contextOk = false ∨ Elapsed s
  | .returned (some v) => s.future.value = some (.ok v)
  | _ => True

structure Inv (s : State α) : Prop where
  begun : 0 ≤ s.begun.toInt
  clock : s.begun.toInt ≤ s.clock.toInt
  limit : ∀ d, s.timeout = some d → 0 ≤ d.toInt
  deadline : s.pc = .start ∨ s.deadline = s.timeout.map fun d => s.begun + d
  at_pc : At s s.pc

/-- The loop goes on, the rest being as it was. -/
theorem Inv.next {s : State α} (hs : Inv s) {pc : Pc α}
    (hstart : s.deadline = s.timeout.map fun d => s.begun + d) (h : At s pc) :
    Inv { s with pc } :=
  ⟨hs.begun, hs.clock, hs.limit, .inr hstart, by cases pc <;> exact h⟩

theorem go_inv {s t : State α} (hs : Inv s) (h : go s = some t) : Inv t := by
  have hdeadline := hs.deadline
  unfold go at h
  cases hpc : s.pc with
  | start =>
    rw [hpc] at h
    obtain rfl := Option.some.inj h
    exact ⟨Int.le_trans hs.begun hs.clock, Int.le_refl _, hs.limit, .inr rfl, trivial⟩
  | testing =>
    rw [hpc] at h
    obtain rfl := Option.some.inj h
    refine hs.next (hdeadline.resolve_left (by simp [hpc])) ?_
    split
    · next hvalue => exact hvalue
    · trivial
  | checking =>
    rw [hpc] at h
    obtain rfl := Option.some.inj h
    refine hs.next (hdeadline.resolve_left (by simp [hpc])) ?_
    split
    · trivial
    · next hdown => exact .inl (Bool.eq_false_iff.mpr hdown)
  | reading =>
    simp only [hpc] at h
    obtain rfl := Option.some.inj h
    have hset := hdeadline.resolve_left (by simp [hpc])
    refine hs.next hset ?_
    cases htimeout : s.timeout with
    | none => simp [hset, htimeout, At, TimeLeft]
    | some d =>
      have hleft := toInt_remaining hs.begun hs.clock (hs.limit d htimeout)
      have hzero : s.begun + d - s.clock ≤ 0 ↔ (s.begun + d - s.clock).toInt ≤ 0 :=
        Int64.le_iff_toInt_le
      by_cases hover : s.begun + d - s.clock ≤ 0
      · have hup := hzero.mp hover
        rw [hset, htimeout]
        simp only [Option.map_some, Option.any_some, hover, decide_true, if_true]
        exact .inr ⟨d, htimeout, by omega⟩
      · have hsome := mt hzero.mpr hover
        rw [hset, htimeout]
        simp only [Option.map_some, Option.any_some, hover, decide_false, Bool.false_eq_true,
          if_false, At, TimeLeft, htimeout]
        exact ⟨_, rfl, by omega, hleft⟩
  | getting =>
    have hvalue := hs.at_pc
    rw [hpc] at h hvalue
    obtain rfl := Option.some.inj h
    refine hs.next (hdeadline.resolve_left (by simp [hpc])) ?_
    split
    · trivial
    · next hv => exact hv
    · trivial
  | spinning since remaining | returned value | raised text =>
    rw [hpc] at h
    cases h

/-- What other threads do takes nothing of it away. -/
theorem Inv.aside {s t : State α} (hs : Inv s) (hpc : t.pc = s.pc) (hbegun : t.begun = s.begun)
    (htimeout : t.timeout = s.timeout) (hdeadline : t.deadline = s.deadline)
    (hclock : s.clock.toInt ≤ t.clock.toInt) (hok : s.contextOk = false → t.contextOk = false)
    (hvalue : ∀ v, s.future.value = some v → t.future.value = some v) : Inv t := by
  have hat := hs.at_pc
  refine ⟨hbegun ▸ hs.begun, ?_, htimeout ▸ hs.limit, ?_, ?_⟩
  · rw [hbegun]
    exact Int.le_trans hs.clock hclock
  · rw [hpc, hdeadline, htimeout, hbegun]
    exact hs.deadline
  · rw [hpc]
    cases hplace : s.pc with
    | spinning since remaining =>
      rw [hplace] at hat
      simpa only [At, TimeLeft, htimeout, hbegun] using hat
    | getting =>
      rw [hplace] at hat
      obtain ⟨v, hv⟩ := Option.isSome_iff_exists.mp hat
      exact Option.isSome_iff_exists.mpr ⟨v, hvalue v hv⟩
    | returned value =>
      rw [hplace] at hat
      cases value with
      | none =>
        refine hat.imp hok fun helapsed => ?_
        obtain ⟨d, hd, hle⟩ := helapsed
        exact ⟨d, htimeout.trans hd, by rw [hbegun]; omega⟩
      | some v => exact hvalue _ hat
    | _ => trivial

theorem step_inv (s : State α) (m : Move α) (t : State α) (hs : Inv s) (h : step s m = some t) :
    Inv t := by
  cases m with
  | go => exact go_inv hs h
  | spun =>
    simp only [step] at h
    split at h
    · next since remaining hpc =>
      obtain rfl := Option.some.inj h
      exact hs.next (hs.deadline.resolve_left (by simp [hpc])) trivial
    · cases h
  | raises text =>
    simp only [step] at h
    split at h
    · next since remaining hpc =>
      obtain rfl := Option.some.inj h
      exact hs.next (hs.deadline.resolve_left (by simp [hpc])) trivial
    · cases h
  | complete value =>
    obtain rfl := Option.some.inj h
    refine hs.aside rfl rfl rfl rfl (Int.le_refl _) id fun v hv => ?_
    simp [Future.complete, hv]
  | shutdown =>
    obtain rfl := Option.some.inj h
    exact hs.aside rfl rfl rfl rfl (Int.le_refl _) (fun _ => rfl) fun _ hv => hv
  | tick clock =>
    simp only [step, Option.ite_none_right_eq_some, Option.some.injEq] at h
    obtain ⟨hlater, rfl⟩ := h
    exact hs.aside rfl rfl rfl rfl (Int64.le_iff_toInt_le.mp hlater) id fun _ hv => hv

/-- Whatever happens while it spins, the loop gives each pass exactly the time that was left of its
limit, which is no negative one, and that is never none; it gives up only once the context is down
or the time is up, and what it returns is the value of the future, which is there when it asks. -/
theorem spin_until_complete {future : Future α} {clock : Int64} {timeout : Option Int64}
    (hclock : 0 ≤ clock.toInt) (hlimit : ∀ d, timeout = some d → 0 ≤ d.toInt)
    {ms : List (Move α)} {s : State α} (h : run step (start future clock timeout) ms = some s) :
    (∀ since remaining, s.pc = .spinning since remaining → match s.timeout with
      | none => waitNanos remaining = -1
      | some d => 0 < (waitNanos remaining).toInt ∧
        (waitNanos remaining).toInt = d.toInt - (since.toInt - s.begun.toInt)) ∧
    (s.pc = .returned none → s.contextOk = false ∨
      ∃ d, s.timeout = some d ∧ d.toInt ≤ s.clock.toInt - s.begun.toInt) ∧
    (∀ v, s.pc = .returned (some v) → s.future.value = some (.ok v)) ∧
    (s.pc = .getting → s.future.value.isSome = true) := by
  have hstart : Inv (start future clock timeout) :=
    ⟨hclock, Int.le_refl _, hlimit, .inl rfl, trivial⟩
  have hat := (run_invariant step_inv hstart h).at_pc
  refine ⟨fun since remaining hpc => ?_, fun hpc => ?_, fun v hpc => ?_, fun hpc => ?_⟩
  · rw [hpc] at hat
    simp only [At, TimeLeft] at hat
    split at hat
    · rw [hat]
      rfl
    · obtain ⟨left, rfl, hpos, hleft⟩ := hat
      exact ⟨hpos, hleft⟩
  · rwa [hpc] at hat
  · rwa [hpc] at hat
  · rwa [hpc] at hat

/-- A limit so long that the deadline wraps around. -/
theorem spin_until_complete_wrapped : ∃ s : State Nat,
    run step (start {} 5 (some 9223372036854775807)) [.go, .tick 8, .go, .go, .go] = some s ∧
    s.deadline = some (-9223372036854775804) ∧
    s.pc = .spinning 8 (some 9223372036854775804) ∧
    0 < (waitNanos (some 9223372036854775804)).toInt := by
  obtain ⟨s, hs, hdeadline, htimeout, hpc⟩ : ∃ s : State Nat,
      run step (start {} 5 (some 9223372036854775807)) [.go, .tick 8, .go, .go, .go] = some s ∧
      s.deadline = some (-9223372036854775804) ∧ s.timeout = some 9223372036854775807 ∧
      s.pc = .spinning 8 (some 9223372036854775804) := ⟨_, rfl, rfl, rfl, rfl⟩
  have hlimit : ∀ d, some (9223372036854775807 : Int64) = some d → 0 ≤ d.toInt := by
    rintro d ⟨⟩
    decide
  have hleft := (spin_until_complete (by decide) hlimit hs).1 _ _ hpc
  rw [htimeout] at hleft
  exact ⟨s, hs, hdeadline, hpc, hleft.1⟩

end Deadlines
