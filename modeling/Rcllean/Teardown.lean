import Mathlib.Logic.Relation
import Rcllean.HandleCalls

/-!
# Teardown of the handle tree

Every operation the program may make leaves the invariant as between
operations, so it holds in every run: handles are created under valid parents,
destroyed at any level and any number of times, and their references dropped
in any order. What it says of the lists, the order of the finis and the
ancestors is what the tree is for.
-/
namespace Teardown

open Handles HandleInvariant HandleCalls SiblingLists Function Runs

/-- What holds between operations. -/
structure Sound (σ : Heap) : Prop where
  /-- A fini runs at most once. -/
  once : ∀ h, σ.log.count (.fini h) ≤ 1
  /-- Whatever was freed has its free in the log, and its fini before that. -/
  freed : ∀ h, h < σ.fresh → σ.allocated h = false → .free h ∈ σ.log
  finalized : ∀ h, Before (.fini h) (.free h) σ.log
  /-- A fini runs after those of all the handles ever created under the handle. -/
  children : ∀ p c, c < σ.fresh → σ.origin c = some p → Before (.fini c) (.fini p) σ.log
  /-- Every list is well formed and holds the valid children of its owner, once each. -/
  lists : ∃ lists, Represents σ.links lists ∧
    ∀ p c, c ∈ lists p ↔ σ.valid c = true ∧ σ.parent c = some p
  /-- What is above a valid handle is valid. -/
  ancestors : ∀ a c, Relation.TransGen (fun p c => σ.parent c = some p) a c →
    σ.valid c = true → σ.valid a = true

/-! ## Between operations -/

theorem Inv.valid_of_ancestor {σ : Heap} (hI : Inv σ .idle) {a c : Handle}
    (h : Relation.TransGen (fun p c => σ.parent c = some p) a c) (hc : σ.valid c = true) :
    σ.valid a = true := by
  induction h with
  | single hp => exact (hI.linked.above _ a hc hp).resolve_right List.not_mem_nil
  | tail hrest hp ih => exact ih ((hI.linked.above _ _ hc hp).resolve_right List.not_mem_nil)

theorem sound_of_inv {σ : Heap} (hI : Inv σ .idle) : Sound σ := by
  constructor
  · intro h
    exact List.nodup_iff_count_le_one.mp hI.logged.nodup _
  · intro h hlt ha
    exact (hI.logged.free h).mpr ⟨hlt, ha⟩
  · exact hI.logged.freed
  · exact hI.logged.children
  · obtain ⟨lists, hrep, hlisted⟩ := hI.linked.lists
    refine ⟨lists, hrep, fun p c => (hlisted p c).trans ?_⟩
    constructor
    · rintro ⟨-, hp, hv | hm⟩
      · exact ⟨hv, hp⟩
      · cases hm
    · rintro ⟨hv, hp⟩
      exact ⟨hI.linked.alive c hv, hp, .inl hv⟩
  · exact fun a c h hc => Inv.valid_of_ancestor hI h hc

theorem empty_inv : Inv Heap.empty .idle where
  linked := by
    refine ⟨⟨_, empty_represents, fun p c => ?_⟩, ?_, ?_, List.nodup_nil, ?_⟩
    · constructor
      · intro h
        cases h
      · rintro ⟨ha, -⟩
        cases ha
    · intro h hv
      cases hv
    · intro h hm
      cases hm
    · intro c p hv
      cases hv
  counted := by
    refine ⟨fun h => rfl, ?_, ?_, fun h _ => rfl, ?_, List.nodup_nil⟩
    · intro h ha
      cases ha
    · intro h ha
      cases ha
    · intro h hm
      cases hm
  logged := by
    refine ⟨List.nodup_nil, ?_, ?_, ?_, ?_⟩
    · intro h
      constructor
      · intro hm
        cases hm
      · rintro ⟨hlt, -⟩
        cases hlt
    · intro h
      constructor
      · intro hm
        cases hm
      · rintro ⟨hlt, -⟩
        cases hlt
    · intro p c hlt
      cases hlt
    · intro h i hi
      simp [Heap.empty] at hi
  shape := by
    refine ⟨fun c ha => ?_, fun c p hlt => ?_, fun c p hlt => ?_, fun c hlt => ?_,
      fun t c ha => ?_, fun h ha => ?_⟩
    · cases ha
    · cases hlt
    · cases hlt
    · cases hlt
    · cases ha
    · cases ha
  unrun := fun h hm => by cases hm
  unrunNodup := List.nodup_nil
  released := fun a b hm => by cases hm

/-! ## Creating -/

theorem foldl_incRef (l : List Handle) (σ : Heap) :
    l.foldl Heap.incRef σ = { σ with rc := fun h => σ.rc h + l.count h } := by
  induction l generalizing σ with
  | nil => rfl
  | cons p l ih =>
    rw [List.foldl_cons, ih]
    have hrc : ∀ h, (σ.incRef p).rc h + l.count h = σ.rc h + (p :: l).count h := by
      intro h
      by_cases hp : h = p
      · subst hp
        simp only [Heap.incRef, Heap.setRc, update_self, List.count_cons_self]
        omega
      · rw [List.count_cons_of_ne (Ne.symm hp)]
        simp [Heap.incRef, Heap.setRc, hp]
    exact congrArg (fun rc => ({ σ with rc } : Heap)) (funext hrc)

/-- The heap with the new handle, its references taken and the handle linked. -/
def created (σ : Heap) (parent clock : Option Handle) : Heap := { σ.alloc parent clock with
  rc := fun h => (σ.alloc parent clock).rc h + (parent.toList ++ clock.toList).count h
  links := parent.elim σ.links fun p => σ.links.pushFront p σ.fresh }

/-- What a new handle may be given: valid ones, the clock being a root of another tree. -/
structure Fits (σ : Heap) (parent clock : Option Handle) : Prop where
  above : ∀ p ∈ parent, σ.valid p = true
  bare : ∀ c ∈ clock, σ.valid c = true ∧ σ.origin c = none ∧ σ.clock c = none
  apart : ∀ c ∈ clock, ∀ p ∈ parent, σ.root p ≠ c

section

variable {σ : Heap} {parent clock : Option Handle}

theorem Fits.lt (hf : Fits σ parent clock) (hI : Inv σ .idle) {b : Handle}
    (hb : b ∈ parent ∨ b ∈ clock) : b < σ.fresh := by
  rcases hb with hb | hb
  · exact hI.lt_fresh (hI.linked.alive b (hf.above b hb))
  · exact hI.lt_fresh (hI.linked.alive b (hf.bare b hb).1)

/-- A clock is not the parent, which would be the root of the tree. -/
theorem Fits.ne (hf : Fits σ parent clock) (hI : Inv σ .idle) {b : Handle} (hp : b ∈ parent)
    (hc : b ∈ clock) : False :=
  hf.apart b hc b hp (hI.shape.top b (hf.lt hI (.inl hp)) (hf.bare b hc).2.1)

theorem not_allocated_fresh (hI : Inv σ .idle) : σ.allocated σ.fresh = false :=
  Bool.eq_false_iff.mpr fun ha => Nat.lt_irrefl _ (hI.lt_fresh ha)

theorem created_linked (hI : Inv σ .idle) (hf : Fits σ parent clock) :
    Linked (created σ parent clock).allocated (created σ parent clock).valid
      (created σ parent clock).parent (created σ parent clock).links [] := by
  have hnew := not_allocated_fresh hI
  obtain ⟨lists, hrep, hlisted⟩ := hI.linked.lists
  have hnowhere : ∀ q, σ.fresh ∉ lists q := by
    intro q hm
    have ha := ((hlisted q σ.fresh).mp hm).1
    rw [hnew] at ha
    cases ha
  have hold : ∀ c, c ≠ σ.fresh → ∀ q, c ∈ lists q ↔ (created σ parent clock).allocated c = true ∧
      (created σ parent clock).parent c = some q ∧
        ((created σ parent clock).valid c = true ∨ c ∈ []) := by
    intro c hc q
    refine (hlisted q c).trans ?_
    simp [created, Heap.alloc, Calls.idle, hc]
  constructor
  · cases hp : parent with
    | none =>
      refine ⟨lists, hrep, fun q c => ?_⟩
      by_cases hc : c = σ.fresh
      · subst hc
        simp [created, Heap.alloc, hnowhere]
      · rw [← hp]
        exact hold c hc q
    | some p =>
      refine ⟨_, hrep.pushFront (p := p) hnowhere, fun q c => ?_⟩
      by_cases hc : c = σ.fresh
      · subst hc
        by_cases hq : q = p
        · subst hq
          simp [created, Heap.alloc]
        · simp [created, Heap.alloc, hq, Ne.symm hq, hnowhere]
      · rw [← hp, ← hold c hc q]
        by_cases hq : q = p
        · subst hq
          simp [hc]
        · simp [hq]
  · intro h hv
    by_cases hh : h = σ.fresh
    · simp [created, Heap.alloc, hh]
    · have ha := hI.linked.alive h (by simpa [created, Heap.alloc, hh] using hv)
      simpa [created, Heap.alloc, hh] using ha
  · intro h hm
    cases hm
  · exact List.nodup_nil
  · intro c p hv hp
    left
    by_cases hpn : p = σ.fresh
    · simp [created, Heap.alloc, hpn]
    · have hpv : σ.valid p = true := by
        by_cases hc : c = σ.fresh
        · subst hc
          exact hf.above p (by simpa [created, Heap.alloc] using hp)
        · exact (hI.linked.above c p (by simpa [created, Heap.alloc, hc] using hv)
            (by simpa [created, Heap.alloc, hc] using hp)).resolve_right List.not_mem_nil
      simpa [created, Heap.alloc, hpn] using hpv

/-- The new handle holds what it was given, once. -/
theorem holders_created (hI : Inv σ .idle) (hf : Fits σ parent clock) (b : Handle) :
    (List.range (σ.fresh + 1)).countP (holds (created σ parent clock).allocated
        (created σ parent clock).parent (created σ parent clock).clock [] b) =
      (List.range σ.fresh).countP (holds σ.allocated σ.parent σ.clock [] b) +
        (parent.toList ++ clock.toList).count b := by
  have hsame := countP_range_same (n := σ.fresh)
    (f := holds (created σ parent clock).allocated (created σ parent clock).parent
      (created σ parent clock).clock [] b)
    (g := holds σ.allocated σ.parent σ.clock [] b) (fun a ha => by
      have hne : a ≠ σ.fresh := Nat.ne_of_lt ha
      simp [holds, created, Heap.alloc, hne])
  rw [List.range_succ, List.countP_append, hsame, List.countP_singleton, List.count_append]
  congr 1
  have hne := fun hp hc => hf.ne hI (b := b) hp hc
  cases parent with
  | none => cases clock with
    | none => simp [holds, created, Heap.alloc]
    | some c => by_cases hc : c = b <;> simp [holds, created, Heap.alloc, hc]
  | some p => cases clock with
    | none => by_cases hp : p = b <;> simp [holds, created, Heap.alloc, hp]
    | some c =>
      by_cases hp : p = b
      · have hc : c ≠ b := fun hc => hne (by simp [hp]) (by simp [hc])
        simp [holds, created, Heap.alloc, hp, hc]
      · by_cases hc : c = b <;> simp [holds, created, Heap.alloc, hp, hc]

theorem created_counted (hI : Inv σ .idle) (hf : Fits σ parent clock) :
    Counted (created σ parent clock).fresh (created σ parent clock).allocated
      (created σ parent clock).parent (created σ parent clock).clock
      (created σ parent clock).rc (created σ parent clock).refs .idle := by
  have hnew := not_allocated_fresh hI
  constructor
  · intro b
    have hcount := hI.counted.count b
    have hholders := holders_created hI hf b
    by_cases hb : b = σ.fresh
    · subst hb
      have hgone := hI.counted.gone _ hnew
      simp only [Calls.idle, reduceCtorEq, if_false] at hcount ⊢
      simp only [created, Heap.alloc, update_self] at hholders ⊢
      omega
    · simp only [Calls.idle, reduceCtorEq, if_false] at hcount ⊢
      simp only [created, Heap.alloc, update_of_ne hb] at hholders ⊢
      omega
  · intro h ha
    by_cases hh : h = σ.fresh
    · simp [created, Heap.alloc, hh]
    · exact Nat.lt_succ_of_lt (hI.lt_fresh (by simpa [created, Heap.alloc, hh] using ha))
  · intro h ha
    left
    by_cases hh : h = σ.fresh
    · subst hh
      simp only [created, Heap.alloc, update_self]
      omega
    · have hpos := (hI.counted.pos h (by simpa [created, Heap.alloc, hh] using ha)).resolve_right
        List.not_mem_nil
      simp only [created, Heap.alloc, update_of_ne hh]
      omega
  · intro h ha
    have hh : h ≠ σ.fresh := by
      rintro rfl
      simp [created, Heap.alloc] at ha
    have hdead : σ.allocated h = false := by simpa [created, Heap.alloc, hh] using ha
    have hnone : (parent.toList ++ clock.toList).count h = 0 := by
      refine List.count_eq_zero.mpr fun hm => ?_
      have hv : σ.valid h = true := by
        rcases List.mem_append.mp hm with hm | hm
        · exact hf.above h (Option.mem_toList.mp hm)
        · exact (hf.bare h (Option.mem_toList.mp hm)).1
      rw [hI.linked.alive h hv] at hdead
      cases hdead
    simp only [created, Heap.alloc, update_of_ne hh, hnone, hI.counted.gone h hdead]
  · intro h hm
    cases hm
  · exact List.nodup_nil

theorem created_logged (hI : Inv σ .idle) (hf : Fits σ parent clock) :
    Logged (created σ parent clock).fresh (created σ parent clock).allocated
      (created σ parent clock).valid (created σ parent clock).origin
      (created σ parent clock).log [] := by
  constructor
  · exact hI.logged.nodup
  · intro h
    refine (hI.logged.fini h).trans ?_
    by_cases hh : h = σ.fresh
    · simp [created, Heap.alloc, hh]
    · have hlt : h < σ.fresh + 1 ↔ h < σ.fresh := by omega
      simp [created, Heap.alloc, Calls.idle, hh, hlt]
  · intro h
    refine (hI.logged.free h).trans ?_
    by_cases hh : h = σ.fresh
    · simp [created, Heap.alloc, hh]
    · have hlt : h < σ.fresh + 1 ↔ h < σ.fresh := by omega
      simp [created, Heap.alloc, hh, hlt]
  · intro p c hc hp
    by_cases hcn : c = σ.fresh
    · -- the parent is valid, so its fini has not run
      subst hcn
      have hpv := hf.above p (by simpa [created, Heap.alloc] using hp)
      intro i hi
      have hrun := ((hI.logged.fini p).mp (List.mem_of_getElem? hi)).2.1
      rw [hpv] at hrun
      cases hrun
    · exact hI.logged.children p c (Nat.lt_of_le_of_ne (Nat.le_of_lt_succ hc) hcn)
        (by simpa [created, Heap.alloc, hcn] using hp)
  · exact hI.logged.freed

theorem created_shape (hI : Inv σ .idle) (hf : Fits σ parent clock) :
    Shape (created σ parent clock).fresh (created σ parent clock).allocated
      (created σ parent clock).valid (created σ parent clock).parent
      (created σ parent clock).clock (created σ parent clock).origin
      (created σ parent clock).root [] := by
  have hlt : ∀ c, c < σ.fresh + 1 → c ≠ σ.fresh → c < σ.fresh := fun c hc hne => by omega
  constructor
  · intro c ha
    by_cases hc : c = σ.fresh
    · simp [created, Heap.alloc, hc]
    · simpa [created, Heap.alloc, hc] using
        hI.shape.made c (by simpa [created, Heap.alloc, hc] using ha)
  · intro c p hcn hp
    by_cases hc : c = σ.fresh
    · subst hc
      exact hf.lt hI (.inl (by simpa [created, Heap.alloc] using hp))
    · exact hI.shape.lt c p (hlt c hcn hc) (by simpa [created, Heap.alloc, hc] using hp)
  · intro c p hcn hp
    have hpn : p < σ.fresh := by
      by_cases hc : c = σ.fresh
      · subst hc
        exact hf.lt hI (.inl (by simpa [created, Heap.alloc] using hp))
      · exact Nat.lt_trans (hI.shape.lt c p (hlt c hcn hc)
          (by simpa [created, Heap.alloc, hc] using hp)) (hlt c hcn hc)
    by_cases hc : c = σ.fresh
    · subst hc
      have hpar : parent = some p := by simpa [created, Heap.alloc] using hp
      simp [created, Heap.alloc, hpar, Nat.ne_of_lt hpn]
    · have hroot := hI.shape.inner c p (hlt c hcn hc) (by simpa [created, Heap.alloc, hc] using hp)
      simpa [created, Heap.alloc, hc, Nat.ne_of_lt hpn] using hroot
  · intro c hcn hp
    by_cases hc : c = σ.fresh
    · subst hc
      have hpar : parent = none := by simpa [created, Heap.alloc] using hp
      simp [created, Heap.alloc, hpar]
    · simpa [created, Heap.alloc, hc] using
        hI.shape.top c (hlt c hcn hc) (by simpa [created, Heap.alloc, hc] using hp)
  · intro t c ha htc
    have hclock : c < σ.fresh ∧ σ.origin c = none ∧ σ.clock c = none ∧
        (created σ parent clock).root t ≠ c := by
      by_cases ht : t = σ.fresh
      · subst ht
        have hm : c ∈ clock := by simpa [created, Heap.alloc] using htc
        have hcn := hf.lt hI (.inr hm)
        refine ⟨hcn, (hf.bare c hm).2.1, (hf.bare c hm).2.2, ?_⟩
        cases hp : parent with
        | none => simpa [created, Heap.alloc] using Ne.symm (Nat.ne_of_lt hcn)
        | some p => simpa [created, Heap.alloc] using hf.apart c hm p hp
      · obtain ⟨hcn, ho, hb, hr⟩ := hI.shape.apart t c
          (by simpa [created, Heap.alloc, ht] using ha)
          (by simpa [created, Heap.alloc, ht] using htc)
        exact ⟨hcn, ho, hb, by simpa [created, Heap.alloc, ht] using hr⟩
    obtain ⟨hcn, ho, hb, hr⟩ := hclock
    have hc : c ≠ σ.fresh := Nat.ne_of_lt hcn
    exact ⟨Nat.lt_succ_of_lt hcn, by simpa [created, Heap.alloc, hc] using ho,
      by simpa [created, Heap.alloc, hc] using hb, hr⟩
  · intro h ha hv _
    have hh : h ≠ σ.fresh := by
      rintro rfl
      simp [created, Heap.alloc] at hv
    have hclosed := hI.shape.closed h (by simpa [created, Heap.alloc, hh] using ha)
      (by simpa [created, Heap.alloc, hh] using hv) List.not_mem_nil
    simpa [created, Heap.alloc, hh] using hclosed

theorem created_inv (hI : Inv σ .idle) (hf : Fits σ parent clock) :
    Inv (created σ parent clock) .idle where
  linked := created_linked hI hf
  counted := created_counted hI hf
  logged := created_logged hI hf
  shape := created_shape hI hf
  unrun := fun h hm => by cases hm
  unrunNodup := List.nodup_nil
  released := fun a b hm => by cases hm

theorem create_eq (hI : Inv σ .idle) (hf : Fits σ parent clock) :
    create σ parent clock = some (created σ parent clock) := by
  have hvalid : (parent.toList ++ clock.toList).all σ.valid = true := by
    rw [List.all_eq_true]
    intro b hb
    rcases List.mem_append.mp hb with hb | hb
    · exact hf.above b (Option.mem_toList.mp hb)
    · exact (hf.bare b (Option.mem_toList.mp hb)).1
  unfold create
  rw [if_pos hvalid, foldl_incRef]
  cases hp : parent with
  | none => rfl
  | some p =>
    have hpa : σ.allocated p = true := hI.linked.alive p (hf.above p (by simp [hp]))
    have hfirst : ∀ b ∈ (σ.links.first p).toList, σ.allocated b = true := fun b hb =>
      (hI.linked.first_some (Option.mem_toList.mp hb)).1
    have hreach : ([p, σ.fresh] ++ (σ.links.first p).toList).all
        (update σ.allocated σ.fresh true) = true := by
      rw [List.all_eq_true]
      intro b hb
      by_cases hbn : b = σ.fresh
      · rw [hbn, update_self]
      · rw [update_of_ne hbn]
        rcases List.mem_append.mp hb with hb | hb
        · rcases List.mem_cons.mp hb with rfl | hb
          · exact hpa
          · exact absurd (List.mem_singleton.mp hb) hbn
        · exact hfirst b hb
    exact if_pos hreach

end

/-! ## Operations -/

section

variable {σ : Heap}

theorem dup_inv (hI : Inv σ .idle) {h : Handle} (href : 0 < σ.refs h) :
    Inv { σ.incRef h with refs := update σ.refs h (σ.refs h + 1) } .idle where
  linked := hI.linked
  counted := by
    have hcount := hI.counted.count h
    constructor
    · intro b
      by_cases hb : b = h
      · subst hb
        simp only [Heap.incRef, Heap.setRc, update_self]
        omega
      · simpa [Heap.incRef, Heap.setRc, hb] using hI.counted.count b
    · exact hI.counted.bound
    · intro b hb
      left
      by_cases hbh : b = h
      · simp [Heap.incRef, Heap.setRc, hbh]
      · simpa [Heap.incRef, Heap.setRc, hbh] using
          (hI.counted.pos b hb).resolve_right List.not_mem_nil
    · intro b hb
      have hgone := hI.counted.gone b hb
      have hbh : b ≠ h := by
        rintro rfl
        omega
      simpa [Heap.incRef, Heap.setRc, hbh] using hgone
    · intro b hm
      cases hm
    · exact List.nodup_nil
  logged := hI.logged
  shape := hI.shape
  unrun := fun c hm => by cases hm
  unrunNodup := List.nodup_nil
  released := fun a b hm => by cases hm

/-- The program lets go of a reference, which is then to be given back. -/
theorem letGo_inv (hI : Inv σ .idle) {h : Handle} (href : 0 < σ.refs h) :
    Inv { σ with refs := update σ.refs h (σ.refs h - 1) } { Calls.idle with owed := some h } where
  linked := hI.linked
  counted := by
    refine ⟨fun b => ?_, hI.counted.bound, hI.counted.pos, hI.counted.gone, hI.counted.zero,
      hI.counted.nodup⟩
    have hcount := hI.counted.count b
    simp only [Calls.idle, reduceCtorEq, if_false, Option.some.injEq] at hcount ⊢
    by_cases hb : b = h
    · subst hb
      simp only [update_self, if_true]
      omega
    · simp only [update_of_ne hb, Ne.symm hb, if_false]
      omega
  logged := hI.logged
  shape := hI.shape
  unrun := fun c hm => by cases hm
  unrunNodup := List.nodup_nil
  released := fun a b hm => by cases hm

/-- Whoever holds a handle finds it there. -/
theorem allocated_of_refs (hI : Inv σ .idle) {h : Handle} (href : 0 < σ.refs h) :
    σ.allocated h = true := by
  refine hI.allocated_of_rc ?_
  have hcount := hI.counted.count h
  omega

/-- No operation the program may make gets stuck, and none breaks the invariant. -/
theorem apply_ok (hI : Inv σ .idle) (op : Op) (hop : Allowed σ op) :
    ∃ τ, apply σ op = some τ ∧ Inv τ .idle := by
  have hwork := work_le σ
  cases op with
  | create parent clock =>
    by_cases hvalid : (parent.toList ++ clock.toList).all σ.valid = true
    · have hv : ∀ b, b ∈ parent ∨ b ∈ clock → σ.valid b = true := by
        intro b hb
        refine List.all_eq_true.mp hvalid b (List.mem_append.mpr ?_)
        exact hb.imp Option.mem_toList.mpr Option.mem_toList.mpr
      have hf : Fits σ parent clock := by
        constructor
        · exact fun p hp => hv p (.inl hp)
        · exact fun c hc => ⟨hv c (.inr hc), (hop.2 c hc).2.1, (hop.2 c hc).2.2.1⟩
        · exact fun c hc => (hop.2 c hc).2.2.2
      exact ⟨_, create_eq hI hf, created_inv hI hf⟩
    · refine ⟨σ, ?_, hI⟩
      simp only [apply, create]
      exact if_neg hvalid
  | destroy h =>
    obtain ⟨τ, hτ, hIτ, -⟩ := (destroyOk σ.fuel).1 σ .idle h hI (allocated_of_refs hI hop)
      (fun t ht => by cases ht) (by unfold Heap.fuel; omega)
    exact ⟨τ, hτ, hIτ⟩
  | dup h => exact ⟨_, rfl, dup_inv hI hop⟩
  | drop h =>
    obtain ⟨τ, hτ, hIτ, -⟩ := (decOk σ.fuel).1 _ .idle h (letGo_inv hI hop) (by
      have hsame : work { σ with refs := update σ.refs h (σ.refs h - 1) } = work σ := rfl
      unfold Heap.fuel
      omega)
    exact ⟨τ, hτ, hIτ⟩

end

/-! ## Runs -/

theorem run_inv {σ : Heap} (hI : Inv σ .idle) (ops : List Op)
    (hops : Throughout apply Allowed σ ops) : ∃ τ, run apply σ ops = some τ ∧ Inv τ .idle := by
  induction ops generalizing σ with
  | nil => exact ⟨σ, rfl, hI⟩
  | cons op ops ih =>
    obtain ⟨τ, hτ, hIτ⟩ := apply_ok hI op hops.1
    obtain ⟨υ, hυ, hIυ⟩ := ih hIτ (hops.2 τ hτ)
    refine ⟨υ, ?_, hIυ⟩
    rw [run_cons, hτ]
    exact hυ

/-- Whatever the program does with its handles, every operation ends and leaves the forest sound. -/
theorem teardown_sound (ops : List Op) (hops : Throughout apply Allowed Heap.empty ops) :
    ∃ σ, run apply Heap.empty ops = some σ ∧ Sound σ := by
  obtain ⟨σ, hσ, hI⟩ := run_inv empty_inv ops hops
  exact ⟨σ, hσ, sound_of_inv hI⟩

/-- A context with a node, its publisher and a timer whose clock is only the timer's by then; the
context is destroyed, twice, and the references are dropped parents first. -/
def contextFirst : List Op :=
  [.create none none, .create (some 0) none, .create (some 1) none, .create none none,
    .create (some 0) (some 3), .drop 3, .destroy 2, .dup 0, .destroy 0, .destroy 0,
    .drop 0, .drop 0, .drop 1, .drop 4, .drop 2]

theorem teardown_sound_context_first :
    ∃ σ, run apply Heap.empty contextFirst = some σ ∧ Sound σ ∧
      σ.log = [.fini 2, .fini 4, .fini 3, .free 3, .fini 1, .fini 0, .free 4, .free 0, .free 1,
        .free 2] := by
  have hlog : (run apply Heap.empty contextFirst).map Heap.log =
      some [.fini 2, .fini 4, .fini 3, .free 3, .fini 1, .fini 0, .free 4, .free 0, .free 1,
        .free 2] := by decide +kernel
  obtain ⟨σ, hσ, hsound⟩ := teardown_sound contextFirst (by decide +kernel)
  rw [hσ] at hlog
  exact ⟨σ, hσ, hsound, Option.some.inj hlog⟩

end Teardown
