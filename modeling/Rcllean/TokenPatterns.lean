import Mathlib.Computability.Language

/-!
# Patterns over tokens

A pattern is a list of literal tokens and of wildcards for one token or for
any number of them. What it matches is the product of the languages of its
parts; whether a word is in that language is decided by recursion on the
pattern.
-/
namespace TokenPatterns

variable {α : Type}

inductive Glob (α : Type) where
  | lit (a : α)
  | one
  | many
  deriving DecidableEq, Repr

/-- The words that one part of a pattern stands for. -/
def Glob.lang : Glob α → Language α
  | .lit a => {[a]}
  | .one => {xs | xs.length = 1}
  | .many => {_xs | True}

def lang (ps : List (Glob α)) : Language α := (ps.map Glob.lang).prod

theorem mem_lang_nil {xs : List α} : xs ∈ lang ([] : List (Glob α)) ↔ xs = [] := by
  simp [lang, Language.mem_one]

theorem mem_lang_cons {p : Glob α} {ps : List (Glob α)} {xs : List α} :
    xs ∈ lang (p :: ps) ↔ ∃ a ∈ p.lang, ∃ b ∈ lang ps, a ++ b = xs := by
  simp only [lang, List.map_cons, List.prod_cons, Language.mem_mul]

theorem mem_lang_lit_cons {a : α} {ps : List (Glob α)} {xs : List α} :
    xs ∈ lang (.lit a :: ps) ↔ ∃ ys ∈ lang ps, a :: ys = xs := by
  rw [mem_lang_cons]
  constructor
  · rintro ⟨_, rfl, b, hb, rfl⟩
    exact ⟨b, hb, rfl⟩
  · rintro ⟨b, hb, rfl⟩
    exact ⟨[a], rfl, b, hb, rfl⟩

theorem mem_lang_one_cons {ps : List (Glob α)} {xs : List α} :
    xs ∈ lang (.one :: ps) ↔ ∃ a, ∃ ys ∈ lang ps, a :: ys = xs := by
  rw [mem_lang_cons]
  constructor
  · rintro ⟨w, hw, b, hb, rfl⟩
    obtain ⟨a, rfl⟩ := List.length_eq_one_iff.mp hw
    exact ⟨a, b, hb, rfl⟩
  · rintro ⟨a, b, hb, rfl⟩
    exact ⟨[a], rfl, b, hb, rfl⟩

theorem mem_lang_many_cons {ps : List (Glob α)} {xs : List α} :
    xs ∈ lang (.many :: ps) ↔ ∃ ys ∈ lang ps, ys <:+ xs := by
  rw [mem_lang_cons]
  constructor
  · rintro ⟨a, -, b, hb, rfl⟩
    exact ⟨b, hb, a, rfl⟩
  · rintro ⟨b, hb, a, rfl⟩
    exact ⟨a, trivial, b, hb, rfl⟩

/-- A pattern of literals matches itself alone. -/
theorem mem_lang_map_lit {as xs : List α} : xs ∈ lang (as.map .lit) ↔ xs = as := by
  induction as generalizing xs with
  | nil => exact mem_lang_nil
  | cons a as ih =>
    rw [List.map_cons, mem_lang_lit_cons]
    constructor
    · rintro ⟨ys, hys, rfl⟩
      rw [ih.mp hys]
    · rintro rfl
      exact ⟨as, ih.mpr rfl, rfl⟩

theorem mem_lang_many (xs : List α) : xs ∈ lang [.many] :=
  mem_lang_many_cons.mpr ⟨[], mem_lang_nil.mpr rfl, List.nil_suffix⟩

theorem mem_lang_one {xs : List α} : xs ∈ lang [.one] ↔ xs.length = 1 := by
  rw [mem_lang_one_cons, List.length_eq_one_iff]
  simp [mem_lang_nil, eq_comm]

/-! ## Deciding a match -/

variable [DecidableEq α]

def accepts : List (Glob α) → List α → Bool
  | [], xs => xs.isEmpty
  | .lit _ :: _, [] => false
  | .lit a :: ps, x :: xs => a == x && accepts ps xs
  | .one :: _, [] => false
  | .one :: ps, _ :: xs => accepts ps xs
  | .many :: ps, xs => xs.tails.any (accepts ps)

theorem accepts_iff {ps : List (Glob α)} {xs : List α} : accepts ps xs = true ↔ xs ∈ lang ps := by
  induction ps generalizing xs with
  | nil => simp [accepts, mem_lang_nil]
  | cons p ps ih => cases p with
    | lit a => cases xs with
      | nil => simp [accepts, mem_lang_lit_cons]
      | cons x xs => simp [accepts, mem_lang_lit_cons, ih, and_comm]
    | one => cases xs with
      | nil => simp [accepts, mem_lang_one_cons]
      | cons x xs => simp [accepts, mem_lang_one_cons, ih]
    | many => simp [accepts, mem_lang_many_cons, ih, and_comm]

instance decidableMemLang (ps : List (Glob α)) (xs : List α) : Decidable (xs ∈ lang ps) :=
  decidable_of_iff _ accepts_iff

end TokenPatterns
