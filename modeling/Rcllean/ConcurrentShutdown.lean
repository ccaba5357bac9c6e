import Mathlib.Logic.Function.Basic
import Rcllean.Runs
import Rcllean.ShutdownGuards

/-!
# Shutting a context down from several threads

A user call tests the context and shuts it down before it takes the lock under
which it triggers the guards; the signal thread does all three under that lock.
The steps of any number of calls of both kinds come in any order. The shutdown
takes effect once and the guards hear of it in every run, but a user call that
another one overtakes after its test raises.
-/
namespace ConcurrentShutdown

open Function Runs ShutdownGuards WaitSets

/-- A call from a user thread or one of the signal thread. -/
inductive Kind where
  | user | signal
  deriving DecidableEq, Repr

/-- What a call does next. -/
inductive Pc where
  | idle
  | test (k : Kind)
  | shutdown (k : Kind)
  | lock (k : Kind)
  | trigger (k : Kind) (i : Nat)
  | unlock (k : Kind)
  | returned
  | raised (f : Failure)
  deriving DecidableEq

/-- The context, its guards and the calls. `effects` counts the shutdowns that took effect and
`triggered` keeps the guards triggered, with whether the context was valid then. -/
structure State extends Threads Nat Pc where
  valid : Bool
  rclValid : Bool
  shutdownGuards : GuardList
  holder : Option Nat
  effects : Nat
  triggered : List (Handle × Bool)

def start (guards : GuardList) : State := ⟨⟨fun _ => .idle⟩, true, true, guards, none, 0, []⟩

abbrev State.setPc (s : State) (c : Nat) (p : Pc) : State :=
  { s with toThreads := s.toThreads.setPc c p }

/-! ## The steps of a call -/

/-- `RCL_RET_ALREADY_SHUTDOWN`. -/
def alreadyShutdown : Nat := 106

/-- `rcl_shutdown` and its return code, where it takes a valid context down without fail. -/
def rclShutdown (s : State) : State × Nat :=
  if s.rclValid then ({ s with rclValid := false, effects := s.effects + 1 }, 0)
  else (s, alreadyShutdown)

/-- A user call begins with its test, the signal thread with the lock. -/
def begin : Kind → Pc
  | .user => .test .user
  | .signal => .lock .signal

/-- Where a call goes with the lock taken. -/
def locked : Kind → Pc
  | .user => .trigger .user 0
  | .signal => .test .signal

/-- Where a call goes when its test finds the context down: the lock is given back, if held. -/
def skip : Kind → Pc
  | .user => .returned
  | .signal => .unlock .signal

/-- A user call raises what `rcl_shutdown` returns and then takes the lock; the signal thread, which
holds it, drops the error. -/
def afterShutdown : Kind → Nat → Pc
  | .user, ret => if ret = 0 then .lock .user else .raised (.code "rcl_shutdown" ret)
  | .signal, _ => .trigger .signal 0

/-- One step of a call, or none where it waits for the lock or is over. -/
def go (s : State) (c : Nat) : Option State :=
  match s.pc c with
  | .idle => none
  | .test k =>
    if !s.valid || !s.rclValid then some (s.setPc c (skip k)) else some (s.setPc c (.shutdown k))
  | .shutdown k => some ((rclShutdown s).1.setPc c (afterShutdown k (rclShutdown s).2))
  | .lock k => match s.holder with
    | none => some ({ s with holder := some c }.setPc c (locked k))
    | some _ => none
  | .trigger k i => match s.shutdownGuards.entries[i]? with
    | some g =>
      some ({ s with triggered := (g, s.rclValid) :: s.triggered }.setPc c (.trigger k (i + 1)))
    | none => some (s.setPc c (.unlock k))
  | .unlock _ => some ({ s with holder := none }.setPc c .returned)
  | .returned => none
  | .raised _ => none

inductive Move where
  | call (c : Nat) (k : Kind)
  | go (c : Nat)
  | register (g : Handle)
  deriving DecidableEq

/-- A registration is one section under the lock, in which nothing else of the list happens. -/
def step (s : State) : Move → Option State
  | .call c k => if s.pc c = .idle then some (s.setPc c (begin k)) else none
  | .go c => go s c
  | .register g =>
    if h : s.holder = none ∧ s.shutdownGuards.entries.length < maxShutdownGuards then
      some { s with shutdownGuards := s.shutdownGuards.append g h.2 }
    else none

/-! ## What is promised -/

def Over (p : Pc) : Prop := p = .returned ∨ ∃ f, p = .raised f

/-- The guard was triggered with the context down. -/
def Told (s : State) (g : Handle) : Prop := (g, false) ∈ s.triggered

/-- The most steps a call takes. -/
def maxSteps : Nat := maxShutdownGuards + 5

def remaining : Pc → Nat
  | .idle => maxSteps + 1
  | .test .user => maxSteps
  | .shutdown .user => maxSteps - 1
  | .lock .user => maxSteps - 2
  | .lock .signal => maxSteps
  | .test .signal => maxSteps - 1
  | .shutdown .signal => maxSteps - 2
  | .trigger _ i => maxShutdownGuards - i + 2
  | .unlock _ => 1
  | .returned => 0
  | .raised _ => 0

/-- What holds in a state of the run of calls that began with these guards registered. -/
structure Promised (guards : GuardList) (s : State) : Prop where
  /-- No call has raised. -/
  unraised : ∀ c f, s.pc c ≠ .raised f
  /-- The shutdown has taken effect at most once, and once calls were made and all are over, it has,
  and every guard has been triggered since. -/
  once : s.effects ≤ 1
  settled : (∀ c, s.pc c = .idle ∨ Over (s.pc c)) → (∃ c, Over (s.pc c)) →
    s.effects = 1 ∧ ∀ g ∈ guards.entries, Told s g
  /-- While a call is under way, one can take its next step. -/
  progress : ∀ c, s.pc c ≠ .idle → ¬ Over (s.pc c) → ∃ d t, go s d = some t

/-- What a move promises: the next state is as it should be, and a step brings its call closer to
its end and no other call farther from its own. -/
structure Keeps (guards : GuardList) (s : State) (e : Move) : Prop where
  promised : ∀ t, step s e = some t → Promised guards t
  closer : ∀ t c, step s e = some t → e = .go c → remaining (t.pc c) < remaining (s.pc c)
  others : ∀ t c d, step s e = some t → e = .go c → d ≠ c → t.pc d = s.pc d

/-- A user call comes to its shutdown before any other has shut the context down. -/
def InTime (s : State) (e : Move) : Prop :=
  ∀ c, e = .go c → s.pc c = .shutdown .user → s.rclValid = true

/-! ## What one step does -/

/-- A step of a call, by where the call stands. -/
inductive Step (s : State) (c : Nat) : State → Prop where
  | up (k : Kind) (hpc : s.pc c = .test k) (hr : s.rclValid = true) :
      Step s c (s.setPc c (.shutdown k))
  | down (k : Kind) (hpc : s.pc c = .test k) (hr : s.valid = true → s.rclValid = false) :
      Step s c (s.setPc c (skip k))
  | shut (k : Kind) (hpc : s.pc c = .shutdown k) (hr : s.rclValid = true) :
      Step s c ({ s with rclValid := false, effects := s.effects + 1 }.setPc c (afterShutdown k 0))
  | late (k : Kind) (hpc : s.pc c = .shutdown k) (hr : s.rclValid = false) :
      Step s c (s.setPc c (afterShutdown k alreadyShutdown))
  | lock (k : Kind) (hpc : s.pc c = .lock k) (hfree : s.holder = none) :
      Step s c ({ s with holder := some c }.setPc c (locked k))
  | trigger (k : Kind) (i : Nat) (g : Handle) (hpc : s.pc c = .trigger k i)
      (hg : s.shutdownGuards.entries[i]? = some g) :
      Step s c ({ s with triggered := (g, s.rclValid) :: s.triggered }.setPc c (.trigger k (i + 1)))
  | swept (k : Kind) (i : Nat) (hpc : s.pc c = .trigger k i)
      (hg : s.shutdownGuards.entries[i]? = none) : Step s c (s.setPc c (.unlock k))
  | unlock (k : Kind) (hpc : s.pc c = .unlock k) :
      Step s c ({ s with holder := none }.setPc c .returned)

theorem go_step {s t : State} {c : Nat} (h : go s c = some t) : Step s c t := by
  unfold go at h
  split at h
  · cases h
  · next k hpc =>
    split at h
    · next hdown =>
      obtain rfl := Option.some.inj h
      exact .down k hpc fun hv => by simpa [hv] using hdown
    · next hup =>
      obtain rfl := Option.some.inj h
      simp only [Bool.or_eq_true, Bool.not_eq_true', not_or, Bool.not_eq_false] at hup
      exact .up k hpc hup.2
  · next k hpc =>
    obtain rfl := Option.some.inj h
    unfold rclShutdown
    split
    · next hr => exact .shut k hpc hr
    · next hr => exact .late k hpc (Bool.not_eq_true _ ▸ hr)
  · next k hpc =>
    split at h
    · next hfree =>
      obtain rfl := Option.some.inj h
      exact .lock k hpc hfree
    · cases h
  · next k i hpc =>
    split at h
    · next g hg =>
      obtain rfl := Option.some.inj h
      exact .trigger k i g hpc hg
    · next hg =>
      obtain rfl := Option.some.inj h
      exact .swept k i hpc hg
  · next k hpc =>
    obtain rfl := Option.some.inj h
    exact .unlock k hpc
  · cases h
  · cases h

/-- A step of one call leaves the others where they are. -/
theorem Step.pc_of_ne {s t : State} {c d : Nat} (h : Step s c t) (hd : d ≠ c) :
    t.pc d = s.pc d := by
  cases h <;> exact setPc_pc_of_ne _ _ hd

theorem Step.remaining_lt {s t : State} {c : Nat} (h : Step s c t) :
    remaining (t.pc c) < remaining (s.pc c) := by
  cases h with
  | up k hpc => cases k <;> simp [hpc, remaining, maxSteps]
  | down k hpc => cases k <;> simp [hpc, remaining, maxSteps, skip]
  | shut k hpc => cases k <;> simp [hpc, remaining, maxSteps, afterShutdown]
  | late k hpc => cases k <;> simp [hpc, remaining, maxSteps, afterShutdown, alreadyShutdown]
  | lock k hpc => cases k <;> simp [hpc, remaining, maxSteps, locked]
  | trigger k i g hpc hg =>
    have hlt : i < s.shutdownGuards.entries.length := (List.getElem?_eq_some_iff.mp hg).1
    have hfits := s.shutdownGuards.fits
    simp only [setPc_pc_self, hpc, remaining]
    omega
  | swept k i hpc => simp [hpc, remaining]
  | unlock k hpc => simp [hpc, remaining]

/-! ## The invariant -/

/-- The call holds the lock. -/
def Critical : Pc → Prop
  | .test .signal | .shutdown .signal | .trigger _ _ | .unlock _ => True
  | _ => False

/-- The call has shut the context down, or has found it down under the lock, and triggers next. -/
def Owes : Pc → Prop
  | .lock .user | .trigger _ _ => True
  | _ => False

/-- What a call knows where it stands. -/
def Place (s : State) : Pc → Prop
  | .trigger _ i => s.rclValid = false ∧
      ∀ j < i, ∀ g, s.shutdownGuards.entries[j]? = some g → Told s g
  | .lock .user | .unlock _ | .returned | .raised _ => s.rclValid = false
  | _ => True

structure Inv (guards : GuardList) (s : State) : Prop where
  valid : s.valid = true
  effects : s.effects = if s.rclValid then 0 else 1
  held : ∀ c, s.holder = some c ↔ Critical (s.pc c)
  place : ∀ c, Place s (s.pc c)
  /-- Once the context is down, the guards know or some call has them still to trigger. -/
  owed : s.rclValid = false → (∀ g ∈ guards.entries, Told s g) ∨ ∃ c, Owes (s.pc c)
  kept : ∀ g ∈ guards.entries, g ∈ s.shutdownGuards.entries

theorem start_inv (guards : GuardList) : Inv guards (start guards) where
  valid := rfl
  effects := rfl
  held c := by simp [start, Critical]
  place c := trivial
  owed h := by cases h
  kept _ hg := hg

/-- What a call knows stays true while another one steps. -/
theorem Place.mono {s t : State} {p : Pc} (h : Place s p)
    (hr : s.rclValid = false → t.rclValid = false) (hl : t.shutdownGuards = s.shutdownGuards)
    (ht : ∀ g, Told s g → Told t g) : Place t p := by
  cases p with
  | trigger k i => exact ⟨hr h.1, fun j hj g hg => ht g (h.2 j hj g (hl ▸ hg))⟩
  | lock k => cases k with
    | user => exact hr h
    | signal => trivial
  | unlock k => exact hr h
  | returned => exact hr h
  | raised f => exact hr h
  | _ => trivial

theorem Step.rclValid_false {s t : State} {c : Nat} (h : Step s c t) (hr : s.rclValid = false) :
    t.rclValid = false := by
  cases h <;> first | exact hr | rfl

theorem Step.shutdownGuards_eq {s t : State} {c : Nat} (h : Step s c t) :
    t.shutdownGuards = s.shutdownGuards := by
  cases h <;> rfl

theorem Step.told {s t : State} {c : Nat} (h : Step s c t) {g : Handle} (hg : Told s g) :
    Told t g := by
  cases h with
  | trigger => exact List.mem_cons_of_mem _ hg
  | _ => exact hg

/-- Where the call stands after its step it knows what it needs. -/
theorem Step.place_self {s t : State} {c : Nat} (h : Step s c t) (hv : s.valid = true)
    (hp : Place s (s.pc c)) : Place t (t.pc c) := by
  cases h with
  | up k hpc hr => cases k <;> simp [Place]
  | down k hpc hr =>
    have hdown := hr hv
    cases k <;> simpa [Place, skip] using hdown
  | shut k hpc hr => cases k <;> simp [Place, afterShutdown]
  | late k hpc hr => cases k <;> simpa [Place, afterShutdown, alreadyShutdown] using hr
  | lock k hpc hfree =>
    rw [hpc] at hp
    cases k with
    | user => simpa [Place, locked] using hp
    | signal => simp [Place, locked]
  | trigger k i g hpc hg =>
    rw [hpc] at hp
    rw [setPc_pc_self]
    refine ⟨hp.1, fun j hj g' hg' => ?_⟩
    rcases Nat.lt_succ_iff_lt_or_eq.mp hj with hj | rfl
    · exact List.mem_cons_of_mem _ (hp.2 j hj g' hg')
    · obtain rfl : g = g' := Option.some.inj (hg.symm.trans hg')
      simp [Told, hp.1]
  | swept k i hpc hg =>
    rw [hpc] at hp
    simpa [Place] using hp.1
  | unlock k hpc =>
    rw [hpc] at hp
    simpa [Place] using hp

/-- The lock changes hands with the place of the call that steps. -/
theorem Step.held {s t : State} {c : Nat} (h : Step s c t)
    (hheld : ∀ d, s.holder = some d ↔ Critical (s.pc d)) (d : Nat) :
    t.holder = some d ↔ Critical (t.pc d) := by
  have hc := hheld c
  by_cases hd : d = c
  · subst hd
    cases h with
    | up k hpc => cases k <;> simpa [hpc, Critical] using hc
    | down k hpc => cases k <;> simpa [hpc, Critical, skip] using hc
    | shut k hpc => cases k <;> simpa [hpc, Critical, afterShutdown] using hc
    | late k hpc => cases k <;> simpa [hpc, Critical, afterShutdown, alreadyShutdown] using hc
    | lock k hpc => cases k <;> simp [Critical, locked]
    | trigger k i g hpc => simpa [hpc, Critical] using hc
    | swept k i hpc => simpa [hpc, Critical] using hc
    | unlock k hpc => simp [Critical]
  · rw [h.pc_of_ne hd, ← hheld d]
    cases h with
    | lock k hpc hfree => simp [hfree, Ne.symm hd]
    | unlock k hpc =>
      have hself : s.holder = some c := hc.mpr (by rw [hpc]; trivial)
      simp [hself, Ne.symm hd]
    | _ => rfl

/-- A guard known to the guards stays known, and so does the debt until it is paid. -/
theorem Step.owed {guards : GuardList} {s t : State} {c : Nat} (h : Step s c t)
    (hI : Inv guards s) (hr : t.rclValid = false) :
    (∀ g ∈ guards.entries, Told t g) ∨ ∃ d, Owes (t.pc d) := by
  by_cases hself : Owes (t.pc c)
  · exact .inr ⟨c, hself⟩
  have hrest : s.rclValid = false → ¬ Owes (s.pc c) →
      (∀ g ∈ guards.entries, Told t g) ∨ ∃ d, Owes (t.pc d) := by
    intro hs hc
    rcases hI.owed hs with htold | ⟨d, hd⟩
    · exact .inl fun g hg => h.told (htold g hg)
    · have hne : d ≠ c := by
        rintro rfl
        exact hc hd
      exact .inr ⟨d, by rw [h.pc_of_ne hne]; exact hd⟩
  cases h with
  | up k hpc => exact hrest hr (by simp [hpc, Owes])
  | down k hpc => exact hrest hr (by simp [hpc, Owes])
  | shut k hpc => exact absurd (by cases k <;> simp [Owes, afterShutdown]) hself
  | late k hpc hs => exact hrest hs (by simp [hpc, Owes])
  | lock k hpc => cases k with
    | user => exact absurd (by simp [Owes, locked]) hself
    | signal => exact hrest hr (by simp [hpc, Owes])
  | trigger k i g hpc => exact absurd (by simp [Owes]) hself
  | swept k i hpc hg =>
    -- The loop is past the last entry, so every entry was triggered on the way.
    have hplace := hI.place c
    rw [hpc] at hplace
    refine .inl fun g hmem => ?_
    obtain ⟨j, hj⟩ := List.getElem?_of_mem (hI.kept g hmem)
    have hlt : j < i := by
      have hend := List.getElem?_eq_none_iff.mp hg
      have hin := (List.getElem?_eq_some_iff.mp hj).1
      omega
    exact hplace.2 j hlt g hj
  | unlock k hpc => exact hrest hr (by simp [hpc, Owes])

theorem Step.effects {s t : State} {c : Nat} (h : Step s c t)
    (he : s.effects = if s.rclValid then 0 else 1) : t.effects = if t.rclValid then 0 else 1 := by
  cases h with
  | shut k hpc hr => simp [he, hr]
  | _ => exact he

theorem Step.inv {guards : GuardList} {s t : State} {c : Nat} (hI : Inv guards s)
    (h : Step s c t) : Inv guards t where
  valid := by cases h <;> exact hI.valid
  effects := h.effects hI.effects
  held := h.held hI.held
  place d := by
    by_cases hd : d = c
    · rw [hd]
      exact h.place_self hI.valid (hI.place c)
    · rw [h.pc_of_ne hd]
      exact (hI.place d).mono h.rclValid_false h.shutdownGuards_eq fun g => h.told
  owed := h.owed hI
  kept := by rw [h.shutdownGuards_eq]; exact hI.kept

/-- A call that begins is at its test or in front of the lock. -/
theorem call_inv {guards : GuardList} {s : State} {c : Nat} (hI : Inv guards s)
    (hidle : s.pc c = .idle) (k : Kind) : Inv guards (s.setPc c (begin k)) where
  valid := hI.valid
  effects := hI.effects
  held d := by
    have hc : s.holder ≠ some c := fun h => by simpa [hidle, Critical] using (hI.held c).mp h
    by_cases hd : d = c
    · subst hd
      cases k <;> simpa [begin, Critical] using hc
    · rw [setPc_pc_of_ne _ _ hd]
      exact hI.held d
  place d := by
    by_cases hd : d = c
    · subst hd
      cases k <;> simp [begin, Place]
    · rw [setPc_pc_of_ne _ _ hd]
      exact (hI.place d).mono id rfl fun _ => id
  owed hr := by
    rcases hI.owed hr with htold | ⟨d, hd⟩
    · exact .inl htold
    · have hne : d ≠ c := by
        rintro rfl
        simp [hidle, Owes] at hd
      exact .inr ⟨d, by rw [setPc_pc_of_ne _ _ hne]; exact hd⟩
  kept := hI.kept

/-- A guard is registered while no call holds the lock, so none is on its way through the list. -/
theorem register_inv {guards : GuardList} {s : State} {g : Handle} (hI : Inv guards s)
    (hfree : s.holder = none) (room : s.shutdownGuards.entries.length < maxShutdownGuards) :
    Inv guards { s with shutdownGuards := s.shutdownGuards.append g room } where
  valid := hI.valid
  effects := hI.effects
  held := hI.held
  place c := by
    have hplace := hI.place c
    cases hpc : s.pc c with
    | trigger k i =>
      have hheld := (hI.held c).mpr (by rw [hpc]; trivial)
      rw [hfree] at hheld
      cases hheld
    | lock k => rw [hpc] at hplace; cases k <;> exact hplace
    | _ => rw [hpc] at hplace; exact hplace
  owed := hI.owed
  kept x hx := List.mem_append_left _ (hI.kept x hx)

theorem inv_step {guards : GuardList} {s t : State} {e : Move} (hI : Inv guards s)
    (h : step s e = some t) : Inv guards t := by
  cases e with
  | call c k =>
    obtain ⟨hidle, hstep⟩ : s.pc c = .idle ∧ s.setPc c (begin k) = t := by simpa [step] using h
    rw [← hstep]
    exact call_inv hI hidle k
  | go c => exact (go_step h).inv hI
  | register g =>
    simp only [step] at h
    split at h
    · next hroom =>
      obtain rfl := Option.some.inj h
      exact register_inv hI hroom.1 hroom.2
    · cases h

/-! ## Runs -/

/-- What a call that is over knows. -/
theorem rclValid_of_over {guards : GuardList} {s : State} (hI : Inv guards s) {c : Nat}
    (h : Over (s.pc c)) : s.rclValid = false := by
  have hplace := hI.place c
  rcases h with h | ⟨f, h⟩ <;> simpa [h, Place] using hplace

/-- A call holding the lock is never stuck, and without the lock taken none is. -/
theorem can_go {s : State} {c : Nat} (hidle : s.pc c ≠ .idle) (hover : ¬ Over (s.pc c))
    (hlock : ∀ k, s.pc c = .lock k → s.holder = none) : ∃ t, go s c = some t := by
  unfold go
  cases hpc : s.pc c with
  | idle => exact absurd hpc hidle
  | test k =>
    simp only
    split
    · exact ⟨_, rfl⟩
    · exact ⟨_, rfl⟩
  | shutdown k => exact ⟨_, rfl⟩
  | lock k => simp [hlock k hpc]
  | trigger k i =>
    simp only
    split
    · exact ⟨_, rfl⟩
    · exact ⟨_, rfl⟩
  | unlock k => exact ⟨_, rfl⟩
  | returned => exact absurd (.inl hpc) hover
  | raised f => exact absurd (.inr ⟨f, hpc⟩) hover

theorem progress {guards : GuardList} {s : State} (hI : Inv guards s) {c : Nat}
    (hidle : s.pc c ≠ .idle) (hover : ¬ Over (s.pc c)) : ∃ d t, go s d = some t := by
  cases hh : s.holder with
  | none => exact ⟨c, can_go hidle hover fun _ _ => hh⟩
  | some d =>
    have hd := (hI.held d).mp hh
    refine ⟨d, can_go ?_ ?_ ?_⟩
    · intro h
      rw [h] at hd
      exact hd
    · rintro (h | ⟨f, h⟩)
      · rw [h] at hd
        exact hd
      · rw [h] at hd
        exact hd
    · intro k h
      rw [h] at hd
      cases hd

theorem promised_of_inv {guards : GuardList} {s : State} (hI : Inv guards s)
    (hr : ∀ c f, s.pc c ≠ .raised f) : Promised guards s where
  unraised := hr
  once := by rw [hI.effects]; split <;> decide
  settled := by
    rintro hall ⟨c, hc⟩
    have hdown := rclValid_of_over hI hc
    refine ⟨by rw [hI.effects, hdown]; rfl, ?_⟩
    rcases hI.owed hdown with htold | ⟨d, hd⟩
    · exact htold
    · rcases hall d with h | h | ⟨f, h⟩ <;> simp [h, Owes] at hd
  progress := fun _ => progress hI

/-- Where no call has raised, a move makes one raise exactly when it is too late. -/
theorem unraised_step_iff {s t : State} {e : Move} (hr : ∀ c f, s.pc c ≠ .raised f)
    (h : step s e = some t) : (∀ c f, t.pc c ≠ .raised f) ↔ InTime s e := by
  cases e with
  | call c k =>
    obtain ⟨-, hstep⟩ : s.pc c = .idle ∧ s.setPc c (begin k) = t := by simpa [step] using h
    refine iff_of_true (fun d f => ?_) (fun d he => by cases he)
    rw [← hstep]
    by_cases hd : d = c
    · subst hd
      cases k <;> simp [begin]
    · rw [setPc_pc_of_ne _ _ hd]
      exact hr d f
  | register g =>
    simp only [step] at h
    split at h
    · obtain rfl := Option.some.inj h
      exact iff_of_true hr (fun d he => by cases he)
    · cases h
  | go c =>
    have hgo := go_step h
    have hself : (∀ d f, t.pc d ≠ .raised f) ↔ ∀ f, t.pc c ≠ .raised f := by
      constructor
      · exact fun hall => hall c
      · intro hc d
        by_cases hd : d = c
        · rw [hd]
          exact hc
        · rw [hgo.pc_of_ne hd]
          exact hr d
    rw [hself]
    have htime : InTime s (.go c) ↔ (s.pc c = .shutdown .user → s.rclValid = true) :=
      ⟨fun hall => hall c rfl, fun hc d hd => by cases hd; exact hc⟩
    rw [htime]
    cases hgo with
    | up k hpc => simp [hpc]
    | down k hpc => cases k <;> simp [hpc, skip]
    | shut k hpc hv => cases k <;> simp [hv, afterShutdown]
    | late k hpc hv => cases k <;> simp [hpc, hv, afterShutdown, alreadyShutdown]
    | lock k hpc => cases k <;> simp [hpc, locked]
    | trigger k i g hpc => simp [hpc]
    | swept k i hpc => simp [hpc]
    | unlock k hpc => simp [hpc]

theorem keeps_iff {guards : GuardList} {s : State} {e : Move} (hI : Inv guards s)
    (hr : ∀ c f, s.pc c ≠ .raised f) : Keeps guards s e ↔ InTime s e := by
  constructor
  · rintro h c rfl hpc
    obtain ⟨t, ht⟩ : ∃ t, step s (.go c) = some t :=
      can_go (by simp [hpc]) (by simp [hpc, Over]) (by simp [hpc])
    exact (unraised_step_iff hr ht).mp (h.promised t ht).unraised c rfl hpc
  · intro htime
    constructor
    · intro t ht
      exact promised_of_inv (inv_step hI ht) ((unraised_step_iff hr ht).mpr htime)
    · rintro t c ht rfl
      exact (go_step ht).remaining_lt
    · rintro t c d ht rfl hd
      exact (go_step ht).pc_of_ne hd

/-- Steps of a call bring it closer to its end, and nothing takes it back. -/
theorem remaining_step {s t : State} {e : Move} (h : step s e = some t) (c : Nat) :
    [e].count (.go c) + remaining (t.pc c) ≤ remaining (s.pc c) := by
  cases e with
  | call d k =>
    obtain ⟨hidle, hstep⟩ : s.pc d = .idle ∧ s.setPc d (begin k) = t := by simpa [step] using h
    rw [← hstep]
    by_cases hc : c = d
    · subst hc
      cases k <;> simp [hidle, begin, remaining]
    · simp [setPc_pc_of_ne _ _ hc]
  | register g =>
    simp only [step] at h
    split at h
    · obtain rfl := Option.some.inj h
      simp
    · cases h
  | go d =>
    by_cases hc : c = d
    · subst hc
      have hlt := (go_step h).remaining_lt
      simp only [List.count_singleton_self]
      omega
    · have hne : Move.go d ≠ .go c := by simp [Ne.symm hc]
      simp [(go_step h).pc_of_ne hc, hne]

/-- In every run a call is over after a bounded number of steps of its own. -/
theorem remaining_run {s t : State} {es : List Move} (h : run step s es = some t) (c : Nat) :
    es.count (.go c) + remaining (t.pc c) ≤ remaining (s.pc c) := by
  induction es generalizing s with
  | nil => simp [Option.some.inj h]
  | cons e es ih =>
    obtain ⟨u, hu, ht⟩ := run_cons_some h
    have hstep := remaining_step hu c
    have hrest := ih ht
    rw [List.count_cons]
    rw [List.count_singleton] at hstep
    omega

/-- In every run of calls of both kinds the promises are kept exactly when no user call comes to its
shutdown after another one has shut the context down. -/
theorem shutdown_once_iff (guards : GuardList) (es : List Move) :
    Throughout step (Keeps guards) (start guards) es ↔
      Throughout step InTime (start guards) es := by
  have hstep : ∀ s e t, Inv guards s ∧ (∀ c f, s.pc c ≠ .raised f) → Keeps guards s e →
      step s e = some t → Inv guards t ∧ ∀ c f, t.pc c ≠ .raised f :=
    fun s e t hs hk ht => ⟨inv_step hs.1 ht, (hk.promised t ht).unraised⟩
  exact throughout_congr hstep (fun s e hs => keeps_iff hs.1 hs.2)
    ⟨start_inv guards, fun c f h => by cases h⟩

/-- A signal that shuts the context down between a user call's test and its shutdown: the call
raises. -/
theorem overtaken_call_raises :
    ¬ ∀ guards es, Throughout step (Keeps guards) (start guards) es := by
  intro h
  obtain ⟨-, h₁⟩ := h ⟨[], by decide⟩
    [.call 0 .user, .go 0, .call 1 .signal, .go 1, .go 1, .go 1, .go 0]
  obtain ⟨-, h₂⟩ := h₁ _ rfl
  obtain ⟨-, h₃⟩ := h₂ _ rfl
  obtain ⟨-, h₄⟩ := h₃ _ rfl
  obtain ⟨-, h₅⟩ := h₄ _ rfl
  obtain ⟨-, h₆⟩ := h₅ _ rfl
  obtain ⟨h₇, -⟩ := h₆ _ rfl
  exact (h₇.promised _ rfl).unraised 0 _ rfl

end ConcurrentShutdown
