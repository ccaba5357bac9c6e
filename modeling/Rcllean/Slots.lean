import Mathlib.Data.List.Basic

/-!
# Blocks of slots

A block has a fixed number of slots and is filled from the front; each entry
gets the next free slot. A mask empties slots in place, so the entries that
are left stay where they were. Clearing starts again at the first slot.
-/
namespace Slots

variable {α : Type}

structure Block (α : Type) where
  size : Nat
  entries : List (Option α)
  fits : entries.length ≤ size

namespace Block

def ofSize (n : Nat) : Block α := ⟨n, [], Nat.zero_le n⟩

def clear (b : Block α) : Block α := ofSize b.size

/-- Put an entry in the next free slot, giving back the slot; `none` when the block is full. -/
def add (b : Block α) (a : α) : Option (Block α × Nat) :=
  if h : b.entries.length < b.size then
    some (⟨b.size, b.entries ++ [some a], by simpa using Nat.succ_le_of_lt h⟩, b.entries.length)
  else none

/-- Empty the slots `keep` does not name. -/
def mask (keep : Nat → Bool) (b : Block α) : Block α where
  size := b.size
  entries := b.entries.mapIdx fun i e => if keep i then e else none
  fits := by simpa using b.fits

/-- What the slot holds: nothing past the last entry and where it was emptied. -/
def entry (b : Block α) (i : Nat) : Option α := b.entries[i]?.join

def occupied (b : Block α) (i : Nat) : Bool := i < b.size && (b.entry i).isSome

/-- Adding succeeds exactly while there is room, in the slot after the last one filled. -/
theorem add_eq_some {b c : Block α} {a : α} {i : Nat} : b.add a = some (c, i) ↔
    b.entries.length < b.size ∧ c.size = b.size ∧ c.entries = b.entries ++ [some a] ∧
      i = b.entries.length := by
  unfold add
  split
  · rename_i h
    constructor
    · intro he
      obtain ⟨rfl, rfl⟩ := Prod.mk.inj (Option.some.inj he)
      exact ⟨h, rfl, rfl, rfl⟩
    · rintro ⟨-, hs, he, rfl⟩
      obtain ⟨s, e, hf⟩ := c
      obtain rfl : s = b.size := hs
      obtain rfl : e = b.entries ++ [some a] := he
      rfl
  · rename_i h
    constructor
    · intro he
      cases he
    · intro he
      exact absurd he.1 h

theorem exists_add {b : Block α} (a : α) (h : b.entries.length < b.size) :
    ∃ c, b.add a = some (c, b.entries.length) ∧ c.size = b.size ∧
      c.entries = b.entries ++ [some a] :=
  ⟨⟨b.size, b.entries ++ [some a], by simpa using Nat.succ_le_of_lt h⟩,
    add_eq_some.mpr ⟨h, rfl, rfl, rfl⟩, rfl, rfl⟩

theorem entry_of_getElem? {b : Block α} {i : Nat} {e : Option α} (h : b.entries[i]? = some e) :
    b.entry i = e := by
  simp [entry, h]

/-- The bound on the index adds nothing: what a slot holds is there only below the size. -/
theorem occupied_iff (b : Block α) (i : Nat) : b.occupied i = (b.entry i).isSome := by
  unfold occupied
  cases he : (b.entry i).isSome with
  | false => simp
  | true =>
    have hlt : i < b.entries.length := by
      by_contra hn
      rw [entry, List.getElem?_eq_none (Nat.le_of_not_lt hn)] at he
      cases he
    simpa using Nat.lt_of_lt_of_le hlt b.fits

end Block

end Slots
