import Mathlib.Data.List.Basic

/-!
# Removal by swapping in the last element

An array that is kept without gaps and in no order loses an element by having
its last one moved into the place. What remains is a permutation of what
removing the first occurrence leaves.
-/
namespace SwapRemoval

variable {α : Type} [DecidableEq α]

/-- Overwrite the first occurrence with the last element and give up the last place. -/
def removeFirst (l : List α) (a : α) : List α :=
  match l.idxOf? a, l.getLast? with
  | some i, some b => (l.set i b).dropLast
  | _, _ => l

theorem removeFirst_of_notMem {l : List α} {a : α} (h : a ∉ l) : removeFirst l a = l := by
  have hidx : l.idxOf? a = none := List.idxOf?_eq_none_iff.mpr h
  rw [removeFirst, hidx]

theorem idxOf?_append_cons {l₁ l₂ : List α} {a : α} (h : a ∉ l₁) :
    (l₁ ++ a :: l₂).idxOf? a = some l₁.length := by
  induction l₁ with
  | nil => simp [List.idxOf?_cons]
  | cons b l₁ ih =>
    have hb : b ≠ a := fun hb => h (by simp [hb])
    have hrest : a ∉ l₁ := fun hm => h (List.mem_cons_of_mem _ hm)
    simp [List.idxOf?_cons, hb, ih hrest]

/-- The last element is removed without a trace. -/
theorem removeFirst_append_singleton {l : List α} {a : α} (h : a ∉ l) :
    removeFirst (l ++ [a]) a = l := by
  rw [removeFirst, idxOf?_append_cons h]
  simp

/-- The last element takes the place of the one removed. -/
theorem removeFirst_append_cons {l₁ l₂ : List α} {a : α} (h : a ∉ l₁) (b : α) :
    removeFirst (l₁ ++ a :: (l₂ ++ [b])) a = l₁ ++ b :: l₂ := by
  have hassoc (c : α) : l₁ ++ c :: (l₂ ++ [b]) = (l₁ ++ c :: l₂) ++ [b] := by simp
  have hlast : (l₁ ++ a :: (l₂ ++ [b])).getLast? = some b := by
    rw [hassoc, List.getLast?_concat]
  have hset : (l₁ ++ a :: (l₂ ++ [b])).set l₁.length b = l₁ ++ b :: (l₂ ++ [b]) := by
    rw [List.set_append_right _ _ (Nat.le_refl _), Nat.sub_self, List.set_cons_zero]
  simp only [removeFirst, idxOf?_append_cons h, hlast, hset]
  rw [hassoc, List.dropLast_concat]

/-- Up to the order, the first occurrence is gone and nothing else. -/
theorem removeFirst_perm_erase (l : List α) (a : α) : (removeFirst l a).Perm (l.erase a) := by
  by_cases ha : a ∈ l
  · obtain ⟨l₁, l₂, hl, hnot⟩ := List.eq_append_cons_of_mem ha
    have herase : l.erase a = l₁ ++ l₂ := by
      rw [hl, List.erase_append_right _ hnot, List.erase_cons_head]
    rw [herase, hl]
    rcases List.eq_nil_or_concat l₂ with rfl | ⟨l₃, b, rfl⟩
    · rw [removeFirst_append_singleton hnot, List.append_nil]
    · rw [List.concat_eq_append, removeFirst_append_cons hnot]
      exact (List.perm_append_singleton b l₃).symm.append_left l₁
  · rw [removeFirst_of_notMem ha, List.erase_of_not_mem ha]

theorem mem_removeFirst_of_ne {l : List α} {a b : α} (h : b ≠ a) :
    b ∈ removeFirst l a ↔ b ∈ l := by
  rw [(removeFirst_perm_erase l a).mem_iff, List.mem_erase_of_ne h]

/-- The element removed is still there exactly when it stood there more than once. -/
theorem mem_removeFirst_self {l : List α} {a : α} : a ∈ removeFirst l a ↔ 1 < l.count a := by
  rw [(removeFirst_perm_erase l a).mem_iff, ← List.count_pos_iff, List.count_erase_self]
  omega

theorem mem_of_mem_removeFirst {l : List α} {a b : α} (h : b ∈ removeFirst l a) : b ∈ l :=
  List.mem_of_mem_erase ((removeFirst_perm_erase l a).mem_iff.mp h)

theorem length_removeFirst_le (l : List α) (a : α) : (removeFirst l a).length ≤ l.length := by
  rw [(removeFirst_perm_erase l a).length_eq]
  exact List.length_erase_le

end SwapRemoval
