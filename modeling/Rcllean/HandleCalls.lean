import Rcllean.HandleInvariant

/-!
# The calls of a teardown end

Each call of a teardown ends when it is given fuel for the work there is, and
leaves the invariant as it found it. A release of a clock never reaches the
tree it is made from. Destroying a handle goes down its tree, every level
making one more handle invalid; finalizing goes up, every level taking the
last reference of one more.
-/
namespace HandleCalls

open Handles HandleInvariant SiblingLists Function Runs

/-! ## What a call leaves behind -/

/-- How much there is left to tear down: the valid handles and the referenced ones. -/
def work (σ : Heap) : Nat :=
  (List.range σ.fresh).countP σ.valid + (List.range σ.fresh).countP fun h => 0 < σ.rc h

/-- A call creates nothing, leaves the program its references and adds no work. -/
structure After (σ τ : Heap) : Prop where
  fresh : τ.fresh = σ.fresh
  refs : τ.refs = σ.refs
  origin : τ.origin = σ.origin
  root : τ.root = σ.root
  work : work τ ≤ work σ

theorem After.refl (σ : Heap) : After σ σ := ⟨rfl, rfl, rfl, rfl, Nat.le_refl _⟩

theorem After.trans {σ τ υ : Heap} (h : After σ τ) (h' : After τ υ) : After σ υ :=
  ⟨h'.fresh.trans h.fresh, h'.refs.trans h.refs, h'.origin.trans h.origin,
    h'.root.trans h.root, Nat.le_trans h'.work h.work⟩

theorem work_invalidate {σ : Heap} {h : Handle} (hlt : h < σ.fresh) (hv : σ.valid h = true) :
    work σ = work (σ.invalidate h) + 1 := by
  have hdrop := countP_range_drop (f := σ.valid) (g := (σ.invalidate h).valid) hlt hv
    (update_self ..) (fun c hc => (update_of_ne hc ..).symm)
  have hsame : work (σ.invalidate h) = (List.range σ.fresh).countP (σ.invalidate h).valid +
      (List.range σ.fresh).countP fun h => 0 < σ.rc h := rfl
  rw [work, hsame]
  omega

theorem work_last {σ : Heap} {p : Handle} (hlt : p < σ.fresh) (hrc : σ.rc p = 1) :
    work σ = work (σ.setRc p 0) + 1 := by
  have hdrop := countP_range_drop (f := fun h => decide (0 < σ.rc h))
    (g := fun h => decide (0 < (σ.setRc p 0).rc h)) hlt (by simp [hrc])
    (by simp [Heap.setRc]) (fun c hc => by simp [Heap.setRc, hc])
  exact congrArg ((List.range σ.fresh).countP σ.valid + ·) hdrop

theorem work_decrement {σ : Heap} {p : Handle} (hrc : 1 < σ.rc p) :
    work (σ.setRc p (σ.rc p - 1)) = work σ := by
  have hsame := countP_range_same (n := σ.fresh)
    (f := fun h => decide (0 < (σ.setRc p (σ.rc p - 1)).rc h)) (g := fun h => decide (0 < σ.rc h))
    (fun h _ => by
      by_cases hp : h = p
      · subst hp
        simp only [Heap.setRc, update_self, decide_eq_decide]
        omega
      · simp [Heap.setRc, hp])
  exact congrArg ((List.range σ.fresh).countP σ.valid + ·) hsame

/-- The bound on the fuel of an operation. -/
theorem work_le (σ : Heap) : work σ ≤ 2 * σ.fresh := by
  have hv := List.countP_le_length (p := σ.valid) (l := List.range σ.fresh)
  have hr := List.countP_le_length (p := fun h => decide (0 < σ.rc h)) (l := List.range σ.fresh)
  rw [List.length_range] at hv hr
  unfold work
  omega

/-! ## The calls -/

section

variable {σ : Heap} {k : Calls}

/-- A root without children or clock is destroyed on the spot. -/
theorem destroyLocked_bare {n : Nat} {c : Handle} (hI : Inv σ k) (ha : σ.allocated c = true)
    (hs : Spent σ c) (hp : σ.parent c = none)
    (hn : 1 ≤ n ∧ (σ.valid c = true → 3 ≤ n)) :
    ∃ τ, destroyLocked n σ c = some τ ∧ Inv τ k ∧ After σ τ ∧ τ.valid c = false ∧
      τ.links = σ.links ∧ τ.clock = σ.clock ∧ τ.parent = σ.parent := by
  obtain ⟨n, rfl⟩ : ∃ m, n = m + 1 := ⟨n - 1, by omega⟩
  cases hv : σ.valid c with
  | false =>
    refine ⟨σ, ?_, hI, After.refl σ, hv, rfl, rfl, rfl⟩
    simp [destroyLocked, ha, hv]
  | true =>
    obtain ⟨n, rfl⟩ : ∃ m, n = m + 1 := ⟨n - 1, by have := hn.2 hv; omega⟩
    have hdone := ((hI.invalidate hv).recordFini (k := { k with torn := c :: k.torn }) hs.first)
    refine ⟨(σ.invalidate c).record (.fini c), ?_, ?_, ⟨rfl, rfl, rfl, rfl, ?_⟩, update_self ..,
      rfl, rfl, rfl⟩
    · simp [destroyLocked, destroyChildren, fini, Heap.invalidate, Heap.record, ha, hv, hs.first,
        hs.clock, hp]
    · exact hdone.unlinkRoot ⟨hs.clock, hs.first⟩ hp hI.unrun
    · have hwork := work_invalidate (hI.lt_fresh ha) hv
      have hsame : work ((σ.invalidate c).record (.fini c)) = work (σ.invalidate c) := rfl
      omega

/-- Giving back a reference to a root without a clock touches no other handle. -/
theorem decRef_bare {n : Nat} {c : Handle} (hI : Inv σ { k with owed := some c })
    (hroot : σ.origin c = none) (hclock : σ.clock c = none) (hnot : c ∉ k.torn)
    (hn : 2 * work σ + 1 ≤ n) :
    ∃ τ, decRef n σ c = some τ ∧ Inv τ { k with owed := none } ∧ After σ τ ∧
      τ.links = σ.links ∧ τ.clock = σ.clock := by
  have hrc := hI.rc_of_owed rfl
  have ha := hI.allocated_of_rc hrc
  have hlt := hI.lt_fresh ha
  obtain ⟨n, rfl⟩ : ∃ m, n = m + 1 := ⟨n - 1, by omega⟩
  rcases Nat.lt_or_ge 1 (σ.rc c) with hmany | hone
  · refine ⟨σ.setRc c (σ.rc c - 1), ?_, hI.decrement hmany,
      ⟨rfl, rfl, rfl, rfl, Nat.le_of_eq (work_decrement hmany)⟩, rfl, rfl⟩
    simp [decRef, ha, hmany]
  · have hrc1 : σ.rc c = 1 := by omega
    have hlast := hI.last hrc1
    have hwork := work_last hlt hrc1
    have hparent : σ.parent c = none := (hI.shape.made c ha).trans hroot
    have hvalid : (σ.setRc c 0).valid c = true → 1 ≤ work (σ.setRc c 0) := by
      intro hv
      have hstep := work_invalidate (σ := σ.setRc c 0) hlt hv
      omega
    obtain ⟨n, rfl⟩ : ∃ m, n = m + 1 := ⟨n - 1, by omega⟩
    obtain ⟨τ, hτ, hIτ, hafter, hv, hlinks, hclk, hpar⟩ :=
      destroyLocked_bare (n := n) hlast ha
        ⟨hclock, hlast.first_of_rc (update_self ..)⟩ hparent
        ⟨by omega, fun hv => by have := hvalid hv; omega⟩
    have haτ := (hIτ.counted.zero c (List.mem_cons_self ..)).1
    have hparτ : τ.parent c = none := by rw [hpar]; exact hparent
    refine ⟨τ.free c, ?_, ?_, ⟨hafter.fresh, hafter.refs, hafter.origin, hafter.root, ?_⟩,
      hlinks, hclk⟩
    · simp [decRef, finalize, ha, hrc1, hτ, hparτ, haτ]
    · exact hIτ.free (k := { k with owed := none }) hv hnot
        (fun p hp => by rw [hparτ] at hp; cases hp) (fun e he => he) (fun a b _ hab => hab)
    · have hsame : work (τ.free c) = work τ := rfl
      have hle := hafter.work
      omega

/-- A fini runs once the children are gone, and releases the clock. -/
theorem fini_ok {n : Nat} {h : Handle} {unrun : List Handle}
    (hI : Inv σ { k with unrun := h :: unrun, owed := none })
    (hfirst : σ.links.first h = none) (hrel : ∀ b, (h, b) ∉ k.released)
    (hapart : ∀ c, σ.clock h = some c → c ∉ k.torn) (hn : 2 * work σ + 2 ≤ n) :
    ∃ τ, fini n σ h = some τ ∧ Inv τ { k with unrun := unrun, owed := none } ∧ After σ τ ∧
      Spent τ h := by
  have ht := hI.unrun h (List.mem_cons_self ..)
  obtain ⟨ha, hv⟩ := hI.linked.down h ht
  have hrun := hI.recordFini (k := { k with owed := none }) hfirst
  obtain ⟨n, rfl⟩ : ∃ m, n = m + 1 := ⟨n - 1, by omega⟩
  cases hclock : σ.clock h with
  | none =>
    refine ⟨σ.record (.fini h), ?_, hrun, ⟨rfl, rfl, rfl, rfl, Nat.le_refl _⟩, hclock, hfirst⟩
    simp [fini, ha, hclock]
  | some c =>
    obtain ⟨hlt, hroot, hbare, hne⟩ := hI.shape.apart h c ha hclock
    -- the clock is not the parent, whose tree is this one
    have hparent : σ.parent h ≠ some c := by
      intro hp
      rw [hI.shape.made h ha] at hp
      apply hne
      rw [hI.shape.inner h c (hI.lt_fresh ha) hp, hI.shape.top c hlt hroot]
    have hrelease := hrun.release (k := { k with unrun := unrun }) ha (.inr hclock) (hrel c) hv
      (fun hp => absurd hp hparent)
    obtain ⟨τ, hτ, hIτ, hafter, hlinks, hclk⟩ :=
      decRef_bare (n := n) (k := { k with unrun := unrun, released := (h, c) :: k.released })
        hrelease hroot hbare (hapart c hclock) (by
          have hsame : work (σ.record (.fini h)) = work σ := rfl
          omega)
    have haτ := (hIτ.linked.down h ht).1
    have hclkτ : τ.clock h = some c := by rw [hclk]; exact hclock
    have hparτ : τ.parent h ≠ some c := by
      rw [hIτ.shape.made h haτ, hafter.origin]
      have hsame : σ.origin h = σ.parent h := (hI.shape.made h ha).symm
      exact fun hp => hparent (hsame.symm.trans hp)
    refine ⟨τ.clearClock h, ?_,
      hIτ.clearClock (k := { k with unrun := unrun, owed := none }) hclkτ hparτ,
      ⟨hafter.fresh, hafter.refs, hafter.origin, hafter.root, hafter.work⟩, update_self .., ?_⟩
    · simp [fini, ha, hclock, hτ, haτ]
    · exact (congrFun (congrArg Links.first hlinks) h).trans hfirst

end

/-! ## Destroying a tree -/

/-- What is being torn down above a handle: what is of its tree is older. -/
def Below (σ : Heap) (torn : List Handle) (h : Handle) : Prop :=
  ∀ t ∈ torn, t < h ∧ σ.root t = σ.root h

def DestroyOk (n : Nat) : Prop := ∀ (σ : Heap) (k : Calls) (h : Handle),
  Inv σ { k with owed := none } → σ.allocated h = true → Below σ k.torn h →
  2 * work σ + 1 ≤ n → ∃ τ, destroyLocked n σ h = some τ ∧ Inv τ { k with owed := none } ∧
    After σ τ ∧ τ.valid h = false ∧ (σ.valid h = true → work τ < work σ)

def ChildrenOk (n : Nat) : Prop := ∀ (σ : Heap) (k : Calls) (h : Handle),
  Inv σ { k with owed := none } → h ∈ k.torn →
  (∀ t ∈ k.torn, t ≤ h ∧ σ.root t = σ.root h) → 2 * work σ + 2 ≤ n →
  ∃ τ, destroyChildren n σ h = some τ ∧ Inv τ { k with owed := none } ∧ After σ τ ∧
    τ.links.first h = none

/-- The first child is younger than everything torn down above it, so it is still valid. -/
theorem childrenOk_succ {n : Nat} (hd : DestroyOk n) (hc : ChildrenOk n) : ChildrenOk (n + 1) := by
  intro σ k h hI ht habove hn
  have ha := (hI.linked.down h ht).1
  cases hf : σ.links.first h with
  | none =>
    refine ⟨σ, ?_, hI, After.refl σ, hf⟩
    simp [destroyChildren, ha, hf]
  | some c =>
    obtain ⟨hca, hcp, hcv⟩ := hI.linked.first_some hf
    have horigin : σ.origin c = some h := (hI.shape.made c hca).symm.trans hcp
    have hlt := hI.shape.lt c h (hI.lt_fresh hca) horigin
    have hroot := hI.shape.inner c h (hI.lt_fresh hca) horigin
    have hvalid : σ.valid c = true :=
      hcv.resolve_right fun hm => Nat.not_le_of_lt hlt (habove c hm).1
    have hbelow : Below σ k.torn c := fun t hm =>
      ⟨Nat.lt_of_le_of_lt (habove t hm).1 hlt, (habove t hm).2.trans hroot.symm⟩
    obtain ⟨τ, hτ, hIτ, hafter, -, hless⟩ := hd σ k c hI hca hbelow (by omega)
    have hwork := hless hvalid
    obtain ⟨υ, hυ, hIυ, hafter', hnone⟩ := hc τ k h hIτ ht
      (by rw [hafter.root]; exact habove) (by omega)
    refine ⟨υ, ?_, hIυ, hafter.trans hafter', hnone⟩
    simp [destroyChildren, ha, hf, hτ, hυ]

theorem destroyOk_succ {n : Nat} (hc : ChildrenOk n) : DestroyOk (n + 1) := by
  intro σ k h hI ha hbelow hn
  cases hv : σ.valid h with
  | false =>
    refine ⟨σ, ?_, hI, After.refl σ, hv, fun h => by cases h⟩
    simp [destroyLocked, ha, hv]
  | true =>
    have hwork := work_invalidate (hI.lt_fresh ha) hv
    have hrel : ∀ b, (h, b) ∉ k.released := by
      intro b hm
      have hfalse := (hI.released h b hm).1
      rw [hv] at hfalse
      cases hfalse
    obtain ⟨τ, hτ, hIτ, hafter, hfirst⟩ := hc (σ.invalidate h)
      { k with torn := h :: k.torn, unrun := h :: k.unrun } h (hI.invalidate hv)
      (List.mem_cons_self ..) (by
        intro t hm
        rcases List.mem_cons.mp hm with rfl | hm
        · exact ⟨Nat.le_refl _, rfl⟩
        · exact ⟨Nat.le_of_lt (hbelow t hm).1, (hbelow t hm).2⟩) (by omega)
    have htorn : h ∈ h :: k.torn := List.mem_cons_self ..
    have hlt := hIτ.lt_fresh (hIτ.linked.down h htorn).1
    have hle := hafter.work
    -- a clock is the root of another tree, so it is none of those being torn down
    obtain ⟨υ, hυ, hIυ, hafter', hspent⟩ := fini_ok (n := n) (k := { k with torn := h :: k.torn })
      hIτ hfirst hrel (by
        intro c hclock hm
        obtain ⟨hclt, hroot, -, hne⟩ :=
          hIτ.shape.apart h c (hIτ.linked.down h htorn).1 hclock
        have htop := hIτ.shape.top c hclt hroot
        have hsame : τ.root c = τ.root h := by
          rw [hafter.root]
          rcases List.mem_cons.mp hm with rfl | hm
          · rfl
          · exact (hbelow c hm).2
        exact hne (hsame.symm.trans htop)) (by omega)
    have hdown := (hIυ.linked.down h htorn).2
    have hunrun : ∀ c ∈ k.unrun, c ∈ k.torn := hI.unrun
    have hall : After σ υ := by
      refine ⟨hafter'.fresh.trans hafter.fresh, hafter'.refs.trans hafter.refs,
        hafter'.origin.trans hafter.origin, hafter'.root.trans hafter.root, ?_⟩
      have := hafter'.work
      omega
    have hless : work υ < work σ := by
      have := hafter'.work
      omega
    cases hp : υ.parent h with
    | none =>
      refine ⟨υ, ?_, hIυ.unlinkRoot (k := { k with owed := none }) hspent hp hunrun, hall, hdown,
        fun _ => hless⟩
      simp [destroyLocked, ha, hv, hτ, hυ, hp]
    | some p =>
      have hunlink := hIυ.unlinkChild_ok htorn hp
      refine ⟨_, ?_, hIυ.unlink (k := { k with owed := none }) hspent hp hunrun,
        ⟨hall.fresh, hall.refs, hall.origin, hall.root, hall.work⟩, hdown, fun _ => hless⟩
      simp [destroyLocked, ha, hv, hτ, hυ, hp, hunlink]

/-- With fuel for the work there is, destroying a handle ends. -/
theorem destroyOk (n : Nat) : DestroyOk n ∧ ChildrenOk n := by
  induction n with
  | zero =>
    constructor
    · intro σ k h _ _ _ hn
      omega
    · intro σ k h _ _ _ hn
      omega
  | succ n ih => exact ⟨destroyOk_succ ih.2, childrenOk_succ ih.1 ih.2⟩

/-! ## Finalizing up the tree -/

def DecOk (n : Nat) : Prop := ∀ (σ : Heap) (k : Calls) (p : Handle),
  Inv σ { k with torn := [], owed := some p } → 2 * work σ + 1 ≤ n →
  ∃ τ, decRef n σ p = some τ ∧ Inv τ { k with torn := [], owed := none } ∧ After σ τ

def FinalizeOk (n : Nat) : Prop := ∀ (σ : Heap) (k : Calls) (h : Handle),
  Inv σ { k with torn := [], zero := h :: k.zero, owed := none } →
  (∀ b, σ.origin h = some b → (h, b) ∉ k.released) → 2 * work σ + 2 ≤ n →
  ∃ τ, finalize n σ h = some τ ∧ Inv τ { k with torn := [], owed := none } ∧ After σ τ

theorem decOk_succ {n : Nat} (hf : FinalizeOk n) : DecOk (n + 1) := by
  intro σ k p hI hn
  have hrc := hI.rc_of_owed rfl
  have ha := hI.allocated_of_rc hrc
  rcases Nat.lt_or_ge 1 (σ.rc p) with hmany | hone
  · refine ⟨σ.setRc p (σ.rc p - 1), ?_, hI.decrement (k := { k with torn := [] }) hmany,
      ⟨rfl, rfl, rfl, rfl, Nat.le_of_eq (work_decrement hmany)⟩⟩
    simp [decRef, ha, hmany]
  · have hrc1 : σ.rc p = 1 := by omega
    have hwork := work_last (hI.lt_fresh ha) hrc1
    -- a handle whose reference to its parent has been given back has no references itself
    have hrel : ∀ b, σ.origin p = some b → (p, b) ∉ k.released := by
      intro b hb hm
      have hz := ((hI.released p b hm).2 ((hI.shape.made p ha).trans hb)).1
      have hzero := (hI.counted.zero p hz).2
      omega
    obtain ⟨τ, hτ, hIτ, hafter⟩ := hf (σ.setRc p 0) k p
      (hI.last (k := { k with torn := [] }) hrc1) hrel (by omega)
    have hle := hafter.work
    refine ⟨τ, ?_, hIτ, hafter.fresh, hafter.refs, hafter.origin, hafter.root, by omega⟩
    simp [decRef, ha, hrc1, hτ]

theorem finalizeOk_succ {n : Nat} (hd : DecOk n) : FinalizeOk (n + 1) := by
  intro σ k h hI hrel hn
  have ha := (hI.counted.zero h (List.mem_cons_self ..)).1
  obtain ⟨τ, hτ, hIτ, hafter, hv, -⟩ := (destroyOk n).1 σ
    { k with torn := [], zero := h :: k.zero } h hI ha (fun t ht => by cases ht) (by omega)
  have hle := hafter.work
  obtain ⟨haτ, -⟩ := hIτ.counted.zero h (List.mem_cons_self ..)
  have hmade := hIτ.shape.made h haτ
  cases hp : τ.parent h with
  | none =>
    refine ⟨τ.free h, ?_, ?_, hafter.fresh, hafter.refs, hafter.origin, hafter.root, hle⟩
    · simp [finalize, hτ, hp, haτ]
    · exact hIτ.free (k := { k with torn := [], owed := none }) hv List.not_mem_nil
        (fun p hpp => by rw [hp] at hpp; cases hpp) (fun e he => he) (fun a b _ hab => hab)
  | some p =>
    have horigin : σ.origin h = some p := by rw [← hafter.origin, ← hmade, hp]
    have hrelease := hIτ.release (k := { k with torn := [], zero := h :: k.zero }) haτ
      (.inl hp) (hrel p horigin) hv (fun _ => ⟨List.mem_cons_self .., List.not_mem_nil⟩)
    obtain ⟨υ, hυ, hIυ, hafter'⟩ := hd τ
      { k with zero := h :: k.zero, released := (h, p) :: k.released } p hrelease (by omega)
    obtain ⟨haυ, -⟩ := hIυ.counted.zero h (List.mem_cons_self ..)
    have hvυ := (hIυ.released h p (List.mem_cons_self ..)).1
    refine ⟨υ.free h, ?_, ?_, hafter'.fresh.trans hafter.fresh, hafter'.refs.trans hafter.refs,
      hafter'.origin.trans hafter.origin, hafter'.root.trans hafter.root,
      Nat.le_trans hafter'.work hle⟩
    · simp [finalize, hτ, hp, hυ, haυ]
    · refine hIυ.free (k := { k with torn := [], owed := none }) hvυ List.not_mem_nil ?_
        (fun e he => List.mem_cons_of_mem _ he) ?_
      · intro q hq
        rw [hIυ.shape.made h haυ, hafter'.origin, ← hmade, hp] at hq
        obtain rfl := Option.some.inj hq
        exact List.mem_cons_self ..
      · intro a b hah hab
        rcases List.mem_cons.mp hab with heq | hab
        · exact absurd (Prod.mk.inj heq).1 hah
        · exact hab

/-- With fuel for the work there is, giving back a reference ends. -/
theorem decOk (n : Nat) : DecOk n ∧ FinalizeOk n := by
  induction n with
  | zero =>
    constructor
    · intro σ k p _ hn
      omega
    · intro σ k h _ _ hn
      omega
  | succ n ih => exact ⟨decOk_succ ih.2, finalizeOk_succ ih.1⟩

end HandleCalls
