import Mathlib.Data.List.Nodup
import Mathlib.Logic.Function.Basic

/-!
# Listings of a table in an order of its own

A table is a partial function and says nothing about the order of its keys;
beside it stands a list of keys. The listing is the entries in that order. As
long as the keys are those of the table, once each, writing, adding and
removing an entry of the table do to the listing what they do to a list.
-/
namespace Listings

open Function

variable {κ ν : Type}

/-- The entries of the table, in the order of the keys. -/
def listing (f : κ → Option ν) (order : List κ) : List (κ × ν) :=
  order.filterMap fun k => (f k).map fun v => (k, v)

/-- The keys are those of the table, once each. -/
structure Lists (order : List κ) (f : κ → Option ν) : Prop where
  nodup : order.Nodup
  mem_iff : ∀ k, k ∈ order ↔ (f k).isSome

theorem mem_listing {f : κ → Option ν} {order : List κ} {p : κ × ν} :
    p ∈ listing f order ↔ p.1 ∈ order ∧ f p.1 = some p.2 := by
  obtain ⟨k, v⟩ := p
  simp only [listing, List.mem_filterMap, Option.map_eq_some_iff, Prod.mk.injEq]
  constructor
  · rintro ⟨k', hk', v', hv', rfl, rfl⟩
    exact ⟨hk', hv'⟩
  · rintro ⟨hk, hv⟩
    exact ⟨k, hk, v, hv, rfl, rfl⟩

theorem listing_congr {f g : κ → Option ν} {order : List κ} (h : ∀ k ∈ order, f k = g k) :
    listing f order = listing g order :=
  List.filterMap_congr fun k hk => by rw [h k hk]

theorem listing_append_some {f : κ → Option ν} {k : κ} {v : ν} (h : f k = some v)
    (order : List κ) : listing f (order ++ [k]) = listing f order ++ [(k, v)] := by
  simp [listing, h]

/-- Where each key has an entry, the keys listed are the keys of the order. -/
theorem keys_listing {f : κ → Option ν} {order : List κ} (h : ∀ k ∈ order, (f k).isSome) :
    (listing f order).map Prod.fst = order := by
  induction order with
  | nil => rfl
  | cons k order ih =>
    obtain ⟨v, hv⟩ := Option.isSome_iff_exists.mp (h k List.mem_cons_self)
    have hrest := ih fun k' hk' => h k' (List.mem_cons_of_mem _ hk')
    rw [listing] at hrest ⊢
    simp [hv, hrest]

theorem listing_values (f : κ → Option ν) (order : List κ) :
    (listing f order).map Prod.snd = order.filterMap f := by
  rw [listing, List.map_filterMap]
  apply List.filterMap_congr
  intro k hk
  cases f k <;> simp

theorem Lists.keys {order : List κ} {f : κ → Option ν} (h : Lists order f) :
    (listing f order).map Prod.fst = order :=
  keys_listing fun k hk => (h.mem_iff k).mp hk

theorem Lists.empty : Lists [] (fun _ => none : κ → Option ν) := ⟨List.nodup_nil, by simp⟩

theorem Lists.notMem {order : List κ} {f : κ → Option ν} (h : Lists order f) {k : κ}
    (hk : f k = none) : k ∉ order := fun hm => by
  simpa [hk] using (h.mem_iff k).mp hm

/-! ## Writing, adding and removing -/

variable [DecidableEq κ]

/-- Overwrite the entry under the key where it stands, or add one at the end. -/
def upsert (l : List (κ × ν)) (k : κ) (v : ν) : List (κ × ν) :=
  if k ∈ l.map Prod.fst then l.map fun p => if p.1 = k then (k, v) else p else l ++ [(k, v)]

/-- A key that is not in the order is not listed, whatever is under it. -/
theorem listing_update_of_notMem {f : κ → Option ν} {order : List κ} {k : κ} (hk : k ∉ order)
    (o : Option ν) : listing (update f k o) order = listing f order := by
  apply listing_congr
  rintro k' hk'
  have hne : k' ≠ k := by
    rintro rfl
    exact hk hk'
  exact update_of_ne hne _ _

/-- Writing under a listed key overwrites its entry in place. -/
theorem Lists.listing_write {order : List κ} {f : κ → Option ν} (h : Lists order f) {k : κ}
    (hk : k ∈ order) (v : ν) :
    listing (update f k (some v)) order = upsert (listing f order) k v := by
  rw [upsert, h.keys, if_pos hk, listing, listing, List.map_filterMap]
  apply List.filterMap_congr
  intro k' hk'
  by_cases he : k' = k
  · subst he
    obtain ⟨w, hw⟩ := Option.isSome_iff_exists.mp ((h.mem_iff k').mp hk)
    simp [hw]
  · simp only [update_of_ne he]
    cases f k' <;> simp [he]

/-- For the list, adding an entry is writing one under a new key. -/
theorem Lists.upsert_new {order : List κ} {f : κ → Option ν} (h : Lists order f) {k : κ}
    (hk : f k = none) (v : ν) : upsert (listing f order) k v = listing f order ++ [(k, v)] := by
  rw [upsert, h.keys, if_neg (h.notMem hk)]

/-- A new entry is listed last. -/
theorem Lists.listing_push {order : List κ} {f : κ → Option ν} (h : Lists order f) {k : κ}
    (hk : f k = none) (v : ν) :
    listing (update f k (some v)) (order ++ [k]) = listing f order ++ [(k, v)] := by
  rw [listing_append_some (update_self ..), listing_update_of_notMem (h.notMem hk)]

/-- Removing an entry of the table takes it off the list. -/
theorem listing_erase (f : κ → Option ν) (order : List κ) (k : κ) :
    listing (update f k none) order = (listing f order).filter fun p => p.1 ≠ k := by
  rw [listing, listing, List.filter_filterMap]
  apply List.filterMap_congr
  intro k' hk'
  by_cases he : k' = k
  · subst he
    cases f k' <;> simp [Option.filter]
  · simp only [update_of_ne he]
    cases f k' <;> simp [Option.filter, he]

/-- A key without an entry can leave the order. -/
theorem listing_filter {f : κ → Option ν} {k : κ} (h : f k = none) (order : List κ) :
    listing f (order.filter (· ≠ k)) = listing f order := by
  rw [listing, listing, List.filterMap_filter]
  apply List.filterMap_congr
  intro k' hk'
  by_cases he : k' = k
  · subst he
    simp [h]
  · simp [he]

theorem Lists.push {order : List κ} {f : κ → Option ν} (h : Lists order f) {k : κ}
    (hk : f k = none) (v : ν) : Lists (order ++ [k]) (update f k (some v)) := by
  refine ⟨List.nodup_append.mpr ⟨h.nodup, List.nodup_singleton k, ?_⟩, fun k' => ?_⟩
  · rintro a ha b hb rfl
    obtain rfl : a = k := List.mem_singleton.mp hb
    exact h.notMem hk ha
  · by_cases he : k' = k
    · simp [he]
    · simp [he, h.mem_iff]

theorem Lists.write {order : List κ} {f : κ → Option ν} (h : Lists order f) {k : κ}
    (hk : k ∈ order) (v : ν) : Lists order (update f k (some v)) := by
  refine ⟨h.nodup, fun k' => ?_⟩
  by_cases he : k' = k
  · simp [he, hk]
  · simp [he, h.mem_iff]

theorem Lists.erase {order : List κ} {f : κ → Option ν} (h : Lists order f) (k : κ) :
    Lists (order.filter (· ≠ k)) (update f k none) := by
  refine ⟨h.nodup.filter _, fun k' => ?_⟩
  by_cases he : k' = k
  · simp [he]
  · simp [he, h.mem_iff]

end Listings
