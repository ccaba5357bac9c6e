import Mathlib.Logic.Function.Basic

/-!
# Code that owns the cells it works on

A piece of code works on cells it was given or has acquired, and goes on as
the outside answers. Between any two of its instructions other code may run.
`Safe` is a weakest precondition about the cells the code owns and no others,
and an instruction changes no cell of another owner, so that what is safe
alone is safe beside any other safe code.
-/
namespace Ownership

open Function

variable {κ α ρ ω : Type}

/-- What the cells in use hold, by address. -/
abbrev Cells (κ : Type) := Nat → Option κ

abbrev Cells.empty : Cells κ := fun _ => none

/-- Instructions, each with what follows it. -/
inductive Code (κ α ρ : Type) where
  | ret (r : ρ)
  /-- A new cell holding `c` is asked for, and may be refused. -/
  | acquire (c : κ) (k : Except α Nat → Code κ α ρ)
  /-- The outside works on cells that have to hold what is said, and answers. -/
  | ask (needs : List (Nat × κ)) (k : α → Code κ α ρ)
  /-- The outside is to turn a cell from `old` to `new`, and may leave it as it is. -/
  | convert (b : Nat) (old new : κ) (k : Bool → Code κ α ρ)
  | become (b : Nat) (old new : κ) (k : Code κ α ρ)
  | release (b : Nat) (old : κ) (k : Code κ α ρ)

/-- How an instruction comes out. -/
inductive Event (α : Type) where
  | acquired (b : Except α Nat)
  | answered (a : α)
  | converted (ok : Bool)
  | done

/-- One instruction: whether the cells held what it needs, the cells after it and what is left.
An address in use is not given out again. -/
def advance [DecidableEq κ] (m : Cells κ) : Code κ α ρ → Event α →
    Option (Bool × Cells κ × Code κ α ρ)
  | .acquire _ k, .acquired (.error a) => some (true, m, k (.error a))
  | .acquire c k, .acquired (.ok b) =>
    if m b = none then some (true, update m b (some c), k (.ok b)) else none
  | .ask needs k, .answered a => some (needs.all fun p => m p.1 = some p.2, m, k a)
  | .convert b old new k, .converted ok =>
    some (m b = some old, if ok then update m b (some new) else m, k ok)
  | .become b old new k, .done => some (m b = some old, update m b (some new), k)
  | .release b old k, .done => some (m b = some old, update m b none, k)
  | _, _ => none

/-- With `own` the code comes upon what it needs at each instruction, however they come out, and
ends with `post`. -/
def Safe (post : ρ → Cells κ → Prop) : Code κ α ρ → Cells κ → Prop
  | .ret r, own => post r own
  | .acquire c k, own => (∀ a, Safe post (k (.error a)) own) ∧
    ∀ b, own b = none → Safe post (k (.ok b)) (update own b (some c))
  | .ask needs k, own => (∀ p ∈ needs, own p.1 = some p.2) ∧ ∀ a, Safe post (k a) own
  | .convert b old new k, own => own b = some old ∧ Safe post (k false) own ∧
    Safe post (k true) (update own b (some new))
  | .become b old new k, own => own b = some old ∧ Safe post k (update own b (some new))
  | .release b old k, own => own b = some old ∧ Safe post k (update own b none)

theorem safe_ite {post : ρ → Cells κ → Prop} {own : Cells κ} {p : Prop} [Decidable p]
    {yes no : Code κ α ρ} (hyes : p → Safe post yes own) (hno : ¬ p → Safe post no own) :
    Safe post (if p then yes else no) own := by
  split
  · rename_i h
    exact hyes h
  · rename_i h
    exact hno h

/-! ## Owners -/

variable [DecidableEq ω]

/-- The cells of one owner. -/
def owned (m : Cells κ) (owner : Nat → ω) (w : ω) : Cells κ :=
  fun b => if owner b = w then m b else none

theorem owned_eq_some {m : Cells κ} {owner : Nat → ω} {w : ω} {b : Nat} {c : κ} :
    owned m owner w b = some c ↔ owner b = w ∧ m b = some c := by
  by_cases h : owner b = w <;> simp [owned, h]

theorem owned_update_self {m : Cells κ} {owner : Nat → ω} {w : ω} {b : Nat} (h : owner b = w)
    (x : Option κ) : owned (update m b x) owner w = update (owned m owner w) b x := by
  funext d
  by_cases hd : d = b
  · subst hd
    simp [owned, h]
  · simp [owned, hd]

theorem owned_update_of_ne {m : Cells κ} {owner : Nat → ω} {v w : ω} {b : Nat} (h : owner b = w)
    (hv : v ≠ w) (x : Option κ) : owned (update m b x) owner v = owned m owner v := by
  funext d
  by_cases hd : d = b
  · subst hd
    simp [owned, h, hv.symm]
  · simp [owned, hd]

/-- A cell that was not in use comes to its new owner, -/
theorem owned_acquire_self {m : Cells κ} {owner : Nat → ω} {b : Nat} (w : ω) (c : κ) :
    owned (update m b (some c)) (update owner b w) w = update (owned m owner w) b (some c) := by
  funext d
  by_cases hd : d = b
  · subst hd
    simp [owned]
  · simp [owned, hd]

/-- and nothing changes for the others. -/
theorem owned_acquire_of_ne {m : Cells κ} {owner : Nat → ω} {v w : ω} {b : Nat} (hb : m b = none)
    (hv : v ≠ w) (c : κ) :
    owned (update m b (some c)) (update owner b w) v = owned m owner v := by
  funext d
  by_cases hd : d = b
  · subst hd
    simp [owned, hb, hv.symm]
  · simp [owned, hd]

/-- Beside other owners: one instruction of safe code is used properly, leaves safe code and
changes nothing another owns. -/
theorem Safe.advance [DecidableEq κ] {post : ρ → Cells κ → Prop} {m m' : Cells κ}
    {owner : Nat → ω} {w : ω} {code code' : Code κ α ρ} {e : Event α} {proper : Bool}
    (h : Safe post code (owned m owner w)) (hs : advance m code e = some (proper, m', code')) :
    proper = true ∧ ∃ owner', Safe post code' (owned m' owner' w) ∧
      ∀ v, v ≠ w → owned m' owner' v = owned m owner v := by
  unfold Ownership.advance at hs
  split at hs
  · rename_i c k a
    cases hs
    exact ⟨rfl, owner, h.1 a, fun v _ => rfl⟩
  · rename_i c k b
    split at hs
    · rename_i hb
      cases hs
      refine ⟨rfl, update owner b w, ?_, fun v hv => owned_acquire_of_ne hb hv c⟩
      rw [owned_acquire_self]
      exact h.2 b (by simp [owned, hb])
    · cases hs
  · rename_i needs k a
    cases hs
    refine ⟨?_, owner, h.2 a, fun v _ => rfl⟩
    rw [List.all_eq_true]
    intro p hp
    simpa using (owned_eq_some.mp (h.1 p hp)).2
  · rename_i b old new k ok
    cases hs
    obtain ⟨hw, hm⟩ := owned_eq_some.mp h.1
    refine ⟨by simpa using hm, owner, ?_, ?_⟩
    · cases ok with
      | false => exact h.2.1
      | true =>
        rw [if_pos rfl, owned_update_self hw]
        exact h.2.2
    · intro v hv
      cases ok with
      | false => rfl
      | true => exact owned_update_of_ne hw hv _
  · rename_i b old new k
    cases hs
    obtain ⟨hw, hm⟩ := owned_eq_some.mp h.1
    refine ⟨by simpa using hm, owner, ?_, fun v hv => owned_update_of_ne hw hv _⟩
    rw [owned_update_self hw]
    exact h.2
  · rename_i b old k
    cases hs
    obtain ⟨hw, hm⟩ := owned_eq_some.mp h.1
    refine ⟨by simpa using hm, owner, ?_, fun v hv => owned_update_of_ne hw hv _⟩
    rw [owned_update_self hw]
    exact h.2
  · cases hs

/-! ## Handing over -/

/-- All that `v` owns becomes `w`'s. -/
def give (owner : Nat → ω) (v w : ω) : Nat → ω := fun b => if owner b = v then w else owner b

theorem owned_give_to {m : Cells κ} {owner : Nat → ω} {w : ω}
    (hw : owned m owner w = Cells.empty) (v : ω) :
    owned m (give owner v w) w = owned m owner v := by
  funext b
  have hb := congrFun hw b
  by_cases h : owner b = v
  · simp [owned, give, h]
  · simpa [owned, give, h] using hb

theorem owned_give_from {m : Cells κ} {owner : Nat → ω} {v w : ω} (hvw : v ≠ w) :
    owned m (give owner v w) v = Cells.empty := by
  funext b
  by_cases h : owner b = v
  · simp [owned, give, h, hvw.symm]
  · simp [owned, give, h]

theorem owned_give_of_ne {m : Cells κ} {owner : Nat → ω} {u v w : ω} (huv : u ≠ v) (huw : u ≠ w) :
    owned m (give owner v w) u = owned m owner u := by
  funext b
  by_cases h : owner b = v
  · simp [owned, give, h, huv.symm, huw.symm]
  · simp [owned, give, h]

end Ownership
