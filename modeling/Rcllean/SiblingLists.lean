import Mathlib.Data.List.Nodup
import Mathlib.Logic.Function.Basic

/-!
# Doubly linked lists in their own nodes

Every node may own a list, whose members are nodes again: the owner points to
its first member and each member to its neighbours. A node is on one list at
most. New members go in front; a member leaves from where it stands.
-/
namespace SiblingLists

open Function

variable {α : Type}

structure Links (α : Type) where
  first : α → Option α
  next : α → Option α
  prev : α → Option α

def Links.empty : Links α := ⟨fun _ => none, fun _ => none, fun _ => none⟩

section

variable [DecidableEq α]

def Links.pushFront (l : Links α) (owner a : α) : Links α :=
  let l := { l with prev := update l.prev a none }
  let l := { l with next := update l.next a (l.first owner) }
  let l := match l.first owner with
    | some b => { l with prev := update l.prev b (some a) }
    | none => l
  { l with first := update l.first owner (some a) }

def Links.remove (l : Links α) (owner a : α) : Links α :=
  let l := match l.prev a with
    | some b => { l with next := update l.next b (l.next a) }
    | none => { l with first := update l.first owner (l.next a) }
  let l := match l.next a with
    | some b => { l with prev := update l.prev b (l.prev a) }
    | none => l
  { l with next := update l.next a none, prev := update l.prev a none }

end

/-- Each of the nodes points to its neighbours, the first one back to `before`. -/
def Chain (l : Links α) : Option α → List α → Prop
  | _, [] => True
  | before, a :: as => l.prev a = before ∧ l.next a = as.head? ∧ Chain l (some a) as

/-- The pointers make well-formed lists, and `lists` says which node owns which. -/
structure Represents (l : Links α) (lists : α → List α) : Prop where
  first : ∀ p, l.first p = (lists p).head?
  chain : ∀ p, Chain l none (lists p)
  nodup : ∀ p, (lists p).Nodup
  apart : ∀ p q a, a ∈ lists p → a ∈ lists q → p = q

theorem empty_represents : Represents (Links.empty : Links α) fun _ => [] where
  first := fun _ => rfl
  chain := fun _ => trivial
  nodup := fun _ => List.nodup_nil
  apart := fun _ _ _ h => by cases h

theorem Chain.congr {l m : Links α} {before : Option α} {as : List α} (h : Chain l before as)
    (hnext : ∀ a ∈ as, m.next a = l.next a) (hprev : ∀ a ∈ as, m.prev a = l.prev a) :
    Chain m before as := by
  induction as generalizing before with
  | nil => trivial
  | cons a as ih =>
    obtain ⟨hp, hn, hrest⟩ := h
    refine ⟨?_, ?_, ih hrest (fun b hb => hnext b (List.mem_cons_of_mem _ hb))
      (fun b hb => hprev b (List.mem_cons_of_mem _ hb))⟩
    · rw [hprev a (List.mem_cons_self ..), hp]
    · rw [hnext a (List.mem_cons_self ..), hn]

/-- The neighbours of a member of a chain. -/
theorem Chain.neighbours {l : Links α} {before : Option α} {xs ys : List α} {a : α}
    (h : Chain l before (xs ++ a :: ys)) :
    l.prev a = xs.getLast?.or before ∧ l.next a = ys.head? := by
  induction xs generalizing before with
  | nil => exact ⟨h.1, h.2.1⟩
  | cons x xs ih =>
    have hrest := ih h.2.2
    refine ⟨?_, hrest.2⟩
    rw [hrest.1]
    cases xs with
    | nil => rfl
    | cons y ys => simp [List.getLast?_cons]

/-- The node a member points back to is a member. -/
theorem Represents.prev_mem {l : Links α} {lists : α → List α} (h : Represents l lists) {p a b : α}
    (ha : a ∈ lists p) (hb : l.prev a = some b) : b ∈ lists p := by
  obtain ⟨xs, ys, hsplit⟩ := List.append_of_mem ha
  have hchain := h.chain p
  rw [hsplit] at hchain ⊢
  rw [hchain.neighbours.1, Option.or_none] at hb
  exact List.mem_append_left _ (List.mem_of_getLast? hb)

/-- The node a member points on to is a member. -/
theorem Represents.next_mem {l : Links α} {lists : α → List α} (h : Represents l lists) {p a b : α}
    (ha : a ∈ lists p) (hb : l.next a = some b) : b ∈ lists p := by
  obtain ⟨xs, ys, hsplit⟩ := List.append_of_mem ha
  have hchain := h.chain p
  rw [hsplit] at hchain ⊢
  rw [hchain.neighbours.2] at hb
  exact List.mem_append_right _ (List.mem_cons_of_mem _ (List.mem_of_mem_head? hb))

/-- Members other than the first keep their neighbours in front of a new one. -/
theorem Chain.behind {l m : Links α} {before after : Option α} {a : α} {as : List α}
    (h : Chain l before (a :: as)) (hnext : ∀ b ∈ a :: as, m.next b = l.next b)
    (hprev : ∀ b ∈ as, m.prev b = l.prev b) (ha : m.prev a = after) : Chain m after (a :: as) := by
  obtain ⟨-, hn, hrest⟩ := h
  refine ⟨ha, ?_, hrest.congr (fun b hb => hnext b (List.mem_cons_of_mem _ hb)) hprev⟩
  rw [hnext a (List.mem_cons_self ..), hn]

variable [DecidableEq α]

section push

variable {l : Links α} {lists : α → List α} {p a : α}

theorem first_pushFront (l : Links α) (p a q : α) :
    (l.pushFront p a).first q = update l.first p (some a) q := by
  unfold Links.pushFront
  cases hf : l.first p <;> simp [hf]

theorem next_pushFront (l : Links α) (p a b : α) :
    (l.pushFront p a).next b = update l.next a (l.first p) b := by
  unfold Links.pushFront
  cases hf : l.first p <;> simp [hf]

theorem prev_pushFront (l : Links α) (p a b : α) : (l.pushFront p a).prev b =
    if l.first p = some b then some a else update l.prev a none b := by
  unfold Links.pushFront
  cases hf : l.first p with
  | none => simp [hf]
  | some c =>
    by_cases hb : b = c
    · subst hb
      simp [hf]
    · simp [hf, hb, Ne.symm hb]

theorem Represents.pushFront (h : Represents l lists) (ha : ∀ q, a ∉ lists q) :
    Represents (l.pushFront p a) (update lists p (a :: lists p)) := by
  -- a member of a list is not the new node, so only the first of the owner's list changes
  have hnext : ∀ q, ∀ b ∈ lists q, (l.pushFront p a).next b = l.next b := by
    intro q b hb
    rw [next_pushFront, update_of_ne]
    exact fun hba => ha q (hba ▸ hb)
  have hprev : ∀ q, ∀ b ∈ lists q, l.first p ≠ some b →
      (l.pushFront p a).prev b = l.prev b := by
    intro q b hb hfirst
    rw [prev_pushFront, if_neg hfirst, update_of_ne]
    exact fun hba => ha q (hba ▸ hb)
  have hfirst : ∀ b, l.first p = some b → b ∈ lists p := by
    intro b hb
    rw [h.first] at hb
    exact List.mem_of_mem_head? hb
  constructor
  · intro q
    rw [first_pushFront]
    by_cases hq : q = p
    · subst hq
      simp
    · simp [hq, h.first]
  · intro q
    by_cases hq : q = p
    · subst hq
      rw [update_self]
      refine ⟨?_, ?_, ?_⟩
      · rw [prev_pushFront, if_neg, update_self]
        exact fun hfa => ha q (hfirst a hfa)
      · rw [next_pushFront, update_self, h.first]
      · cases hl : lists q with
        | nil => trivial
        | cons b bs =>
          have hchain := h.chain q
          have hnodup := h.nodup q
          have hhead := h.first q
          rw [hl] at hchain hnodup hhead
          refine hchain.behind (fun c hc => hnext q c (hl ▸ hc)) (fun c hc => ?_) ?_
          · refine hprev q c (hl ▸ List.mem_cons_of_mem _ hc) ?_
            rw [hhead]
            intro hbc
            obtain rfl : b = c := Option.some.inj hbc
            exact (List.nodup_cons.mp hnodup).1 hc
          · rw [prev_pushFront]
            exact if_pos hhead
    · rw [update_of_ne hq]
      refine (h.chain q).congr (hnext q) (fun b hb => hprev q b hb fun hf => ?_)
      exact hq (h.apart q p b hb (hfirst b hf))
  · intro q
    by_cases hq : q = p
    · subst hq
      rw [update_self]
      exact List.nodup_cons.mpr ⟨ha q, h.nodup q⟩
    · rw [update_of_ne hq]
      exact h.nodup q
  · have howner : ∀ q b, b ∈ update lists p (a :: lists p) q → (b = a ∧ q = p) ∨ b ∈ lists q := by
      intro q b hb
      by_cases hq : q = p
      · subst hq
        rw [update_self] at hb
        exact (List.mem_cons.mp hb).imp_left fun hba => ⟨hba, rfl⟩
      · rw [update_of_ne hq] at hb
        exact .inr hb
    intro q r b hbq hbr
    rcases howner q b hbq with ⟨hba, hqp⟩ | hbq
    · rcases howner r b hbr with ⟨-, hrp⟩ | hbr
      · rw [hqp, hrp]
      · exact absurd (hba ▸ hbr) (ha r)
    · rcases howner r b hbr with ⟨hba, -⟩ | hbr
      · exact absurd (hba ▸ hbq) (ha q)
      · exact h.apart q r b hbq hbr

end push

section remove

variable {l : Links α} {lists : α → List α} {p a : α}

/-- Writing to a place what some place holds leaves that place as it was. -/
theorem update_apply_self {β : Type} (f : α → β) (b a : α) : update f b (f a) a = f a := by
  by_cases h : a = b
  · subst h
    exact update_self ..
  · exact update_of_ne h ..

theorem first_remove (l : Links α) (p a q : α) : (l.remove p a).first q =
    if l.prev a = none then update l.first p (l.next a) q else l.first q := by
  unfold Links.remove
  cases hp : l.prev a with
  | none => cases hn : l.next a <;> simp [hn]
  | some c =>
    simp only [update_apply_self]
    cases hn : l.next a <;> simp

theorem next_remove (l : Links α) (p : α) {a b : α} (hb : b ≠ a) : (l.remove p a).next b =
    if l.prev a = some b then l.next a else l.next b := by
  unfold Links.remove
  cases hp : l.prev a with
  | none => cases hn : l.next a <;> simp [hb, hn]
  | some c =>
    simp only [update_apply_self]
    by_cases hbc : b = c
    · subst hbc
      cases hn : l.next a <;> simp [hb]
    · cases hn : l.next a <;> simp [hb, hbc, Ne.symm hbc]

theorem prev_remove (l : Links α) (p : α) {a b : α} (hb : b ≠ a) : (l.remove p a).prev b =
    if l.next a = some b then l.prev a else l.prev b := by
  unfold Links.remove
  cases hp : l.prev a with
  | none => cases hn : l.next a with
    | none => simp [hb, hn]
    | some c =>
      by_cases hbc : b = c
      · subst hbc
        simp [hb, hn, hp]
      · simp [hb, hn, hbc, Ne.symm hbc]
  | some d =>
    simp only [update_apply_self]
    cases hn : l.next a with
    | none => simp [hb]
    | some c =>
      by_cases hbc : b = c
      · subst hbc
        simp [hb, hp]
      · simp [hb, hbc, Ne.symm hbc]

/-- A chain without one of its members, the neighbours of which point past it. -/
theorem Chain.remove {m : Links α} {before : Option α} {xs ys : List α}
    (h : Chain l before (xs ++ a :: ys)) (hnodup : (xs ++ a :: ys).Nodup)
    (hbefore : ∀ b ∈ xs ++ a :: ys, before ≠ some b)
    (hnext : ∀ b ∈ xs ++ ys, m.next b = if l.prev a = some b then l.next a else l.next b)
    (hprev : ∀ b ∈ xs ++ ys, m.prev b = if l.next a = some b then l.prev a else l.prev b) :
    Chain m before (xs ++ ys) := by
  have hnbr := h.neighbours
  induction xs generalizing before with
  | nil =>
    cases ys with
    | nil => trivial
    | cons y ys =>
      have hpa : l.prev a = before := h.1
      have hna : l.next a = some y := h.2.1
      have hy : y ∉ ys := (List.nodup_cons.mp (List.nodup_cons.mp hnodup).2).1
      refine h.2.2.behind (fun b hb => ?_) (fun b hb => ?_) ?_
      · rw [hnext b hb, hpa, if_neg (hbefore b (List.mem_cons_of_mem _ hb))]
      · rw [hprev b (List.mem_cons_of_mem _ hb), hna, if_neg]
        intro hyb
        exact hy (Option.some.inj hyb ▸ hb)
      · rw [hprev y (List.mem_cons_self ..), if_pos hna, hpa]
  | cons x xs ih =>
    obtain ⟨hpx, hnx, hrest⟩ := h
    obtain ⟨hx, hnodup'⟩ := List.nodup_cons.mp hnodup
    have hmem : x ∉ ys := fun hm =>
      hx (List.mem_append_right _ (List.mem_cons_of_mem _ hm))
    refine ⟨?_, ?_, ih hrest hnodup' ?_ (fun b hb => hnext b (List.mem_cons_of_mem _ hb))
      (fun b hb => hprev b (List.mem_cons_of_mem _ hb)) hrest.neighbours⟩
    · rw [hprev x (List.mem_cons_self ..), if_neg, hpx]
      rw [hnbr.2]
      exact fun hhead => hmem (List.mem_of_mem_head? hhead)
    · rw [hnext x (List.mem_cons_self ..)]
      rw [hrest.neighbours.1]
      cases xs with
      | nil => simpa using hnbr.2
      | cons y zs =>
        -- the last of the members in between stands before the one that leaves
        have hlast : ∃ z ∈ y :: zs, ((y :: zs).getLast?.or (some x)) = some z := by
          obtain ⟨z, hz⟩ := Option.isSome_iff_exists.mp
            (List.getLast?_isSome.mpr (List.cons_ne_nil y zs))
          exact ⟨z, List.mem_of_getLast? hz, by rw [hz]; rfl⟩
        obtain ⟨z, hz, heq⟩ := hlast
        rw [heq, if_neg, hnx]
        · rfl
        · intro hzx
          obtain rfl := Option.some.inj hzx
          exact hx (List.mem_append_left _ hz)
    · intro b hb hxb
      obtain rfl := Option.some.inj hxb
      exact hx hb

theorem Represents.remove (h : Represents l lists) (ha : a ∈ lists p) :
    Represents (l.remove p a) (update lists p ((lists p).erase a)) := by
  obtain ⟨xs, ys, hsplit⟩ := List.append_of_mem ha
  have hchain := h.chain p
  have hnodup := h.nodup p
  rw [hsplit] at hchain hnodup
  obtain ⟨hprev, hnext⟩ := hchain.neighbours
  rw [Option.or_none] at hprev
  have hax : a ∉ xs := fun hm =>
    (List.nodup_append.mp hnodup).2.2 a hm a (List.mem_cons_self ..) rfl
  have hay : a ∉ ys := (List.nodup_cons.mp (List.nodup_append.mp hnodup).2.1).1
  have herase : (lists p).erase a = xs ++ ys := by
    rw [hsplit, List.erase_append_right _ hax, List.erase_cons_head]
  have hne : ∀ b ∈ xs ++ ys, b ≠ a := by
    rintro b hb rfl
    exact (List.mem_append.mp hb).elim hax hay
  have hother : ∀ q, q ≠ p → ∀ b ∈ lists q, b ∉ lists p := fun q hq b hb hbp =>
    hq (h.apart q p b hb hbp)
  constructor
  · intro q
    rw [first_remove]
    by_cases hq : q = p
    · subst hq
      rw [update_self, update_self, herase, hprev, hnext, h.first, hsplit]
      cases xs <;> simp
    · rw [update_of_ne hq, update_of_ne hq, h.first, ite_self]
  · intro q
    by_cases hq : q = p
    · subst hq
      rw [update_self, herase]
      exact hchain.remove hnodup (fun _ _ hb => by cases hb)
        (fun b hb => next_remove l q (hne b hb)) (fun b hb => prev_remove l q (hne b hb))
    · rw [update_of_ne hq]
      have hqa : ∀ b ∈ lists q, b ≠ a := fun b hb hba => hother q hq b hb (hba ▸ ha)
      refine (h.chain q).congr (fun b hb => ?_) (fun b hb => ?_)
      · rw [next_remove l p (hqa b hb), if_neg]
        intro hba
        rw [hprev] at hba
        apply hother q hq b hb
        rw [hsplit]
        exact List.mem_append_left _ (List.mem_of_getLast? hba)
      · rw [prev_remove l p (hqa b hb), if_neg]
        intro hba
        rw [hnext] at hba
        apply hother q hq b hb
        rw [hsplit]
        exact List.mem_append_right _ (List.mem_cons_of_mem _ (List.mem_of_mem_head? hba))
  · intro q
    by_cases hq : q = p
    · subst hq
      rw [update_self]
      exact (h.nodup q).erase a
    · rw [update_of_ne hq]
      exact h.nodup q
  · have hsub : ∀ q b, b ∈ update lists p ((lists p).erase a) q → b ∈ lists q := by
      intro q b hb
      by_cases hq : q = p
      · subst hq
        rw [update_self] at hb
        exact List.mem_of_mem_erase hb
      · rwa [update_of_ne hq] at hb
    intro q r b hbq hbr
    exact h.apart q r b (hsub q b hbq) (hsub r b hbr)

end remove

end SiblingLists
