import Mathlib.Data.List.Nodup
import Rcllean.Client

/-!
# The callbacks of a future

Completing a future takes its callbacks and runs them one after the other;
registering one on a completed future runs it at once. Completions and
registrations come from any threads and from inside callbacks, and a callback
may raise.
-/
namespace Futures

open Client Function Runs

variable {α : Type}

/-- What a call does next. -/
inductive Pc (α : Type) where
  | idle
  /-- Between callbacks, with those still to run. -/
  | running (v : Except String α) (left : List Nat)
  | inside (v : Except String α) (left : List Nat)
  | returned
  | raised

/-- The future and the calls on it; `registered` keeps the callbacks in the order of their
registration, `dropped` those that a raise kept from running. -/
structure Sys (α : Type) extends Threads Nat (Pc α) where
  future : Future α
  registered : List Nat
  ran : List (Nat × Except String α)
  dropped : List Nat

def start : Sys α := ⟨⟨fun _ => .idle⟩, {}, [], [], []⟩

abbrev Sys.setPc (s : Sys α) (c : Nat) (pc : Pc α) : Sys α :=
  { s with toThreads := s.toThreads.setPc c pc }

inductive Move (α : Type) where
  | complete (c : Nat) (v : Except String α)
  | onComplete (c : Nat) (cb : Nat)
  | go (c : Nat)
  /-- The callback that runs returns. -/
  | returns (c : Nat)
  | raises (c : Nat)

def step (s : Sys α) : Move α → Option (Sys α)
  | .complete c v => match s.pc c with
    | .idle => some ({ s with future := (s.future.complete v).2 }.setPc c
        (.running v (s.future.complete v).1))
    | _ => none
  | .onComplete c cb => match s.pc c with
    | .idle =>
      if cb ∈ s.registered then none
      else some ({ s with future := (s.future.onComplete cb).2,
                          registered := s.registered ++ [cb] }.setPc c
        (match (s.future.onComplete cb).1 with
          | some v => .running v [cb]
          | none => .returned))
    | _ => none
  | .go c => match s.pc c with
    | .running _ [] => some (s.setPc c .returned)
    | .running v (cb :: left) =>
      some ({ s with ran := s.ran ++ [(cb, v)] }.setPc c (.inside v left))
    | _ => none
  | .returns c => match s.pc c with
    | .inside v left => some (s.setPc c (.running v left))
    | _ => none
  | .raises c => match s.pc c with
    | .inside _ left => some ({ s with dropped := s.dropped ++ left }.setPc c .raised)
    | _ => none

/-! ## What one step does -/

inductive Step (s : Sys α) : Move α → Sys α → Prop where
  | first {c v} (hpc : s.pc c = .idle) (hv : s.future.value = none) : Step s (.complete c v)
      ({ s with future := { value := some v } }.setPc c (.running v s.future.callbacks))
  | again {c v w} (hpc : s.pc c = .idle) (hv : s.future.value = some w) :
      Step s (.complete c v) (s.setPc c (.running v []))
  | store {c cb} (hpc : s.pc c = .idle) (hnew : cb ∉ s.registered) (hv : s.future.value = none) :
      Step s (.onComplete c cb)
        ({ s with future := { s.future with callbacks := s.future.callbacks ++ [cb] },
                  registered := s.registered ++ [cb] }.setPc c .returned)
  | now {c cb w} (hpc : s.pc c = .idle) (hnew : cb ∉ s.registered)
      (hv : s.future.value = some w) : Step s (.onComplete c cb)
        ({ s with registered := s.registered ++ [cb] }.setPc c (.running w [cb]))
  | finish {c v} (hpc : s.pc c = .running v []) : Step s (.go c) (s.setPc c .returned)
  | run {c v cb left} (hpc : s.pc c = .running v (cb :: left)) :
      Step s (.go c) ({ s with ran := s.ran ++ [(cb, v)] }.setPc c (.inside v left))
  | returns {c v left} (hpc : s.pc c = .inside v left) :
      Step s (.returns c) (s.setPc c (.running v left))
  | raises {c v left} (hpc : s.pc c = .inside v left) :
      Step s (.raises c) ({ s with dropped := s.dropped ++ left }.setPc c .raised)

theorem step_cases {s t : Sys α} {m : Move α} (h : step s m = some t) : Step s m t := by
  cases m with
  | complete c v =>
    simp only [step] at h
    split at h
    · next hpc =>
      obtain rfl := Option.some.inj h
      cases hv : s.future.value with
      | none => simpa [Future.complete, hv] using Step.first hpc hv
      | some w => simpa [Future.complete, hv] using Step.again hpc hv
    · cases h
  | onComplete c cb =>
    simp only [step] at h
    split at h
    · next hpc =>
      split at h
      · cases h
      · next hnew =>
        obtain rfl := Option.some.inj h
        cases hv : s.future.value with
        | none => simpa [Future.onComplete, hv] using Step.store hpc hnew hv
        | some w => simpa [Future.onComplete, hv] using Step.now hpc hnew hv
    · cases h
  | go c =>
    simp only [step] at h
    split at h
    · next v hpc => exact Option.some.inj h ▸ .finish hpc
    · next v cb left hpc => exact Option.some.inj h ▸ .run hpc
    · cases h
  | returns c =>
    simp only [step] at h
    split at h
    · next v left hpc => exact Option.some.inj h ▸ .returns hpc
    · cases h
  | raises c =>
    simp only [step] at h
    split at h
    · next v left hpc => exact Option.some.inj h ▸ .raises hpc
    · cases h

/-! ## The invariant -/

/-- The callbacks that a call has still to run. -/
def Pc.left : Pc α → List Nat
  | .running _ left => left
  | .inside _ left => left
  | _ => []

/-- The value a call hands to its callbacks. -/
def Pc.value? : Pc α → Option (Except String α)
  | .running v (_ :: _) => some v
  | .inside v _ => some v
  | _ => none

/-- All callbacks registered are in one place each: placed, or left to one of the calls. -/
structure Spread (registered placed : List Nat) (left : Nat → List Nat) : Prop where
  distinct : registered.Nodup
  nodup : ∀ c, (placed ++ left c).Nodup
  apart : ∀ c d cb, cb ∈ left c → cb ∈ left d → c = d
  mem : ∀ cb, cb ∈ registered ↔ cb ∈ placed ∨ ∃ c, cb ∈ left c

/-- One call takes up what is new and passes between what it has left and what is placed. -/
theorem Spread.move {registered placed placed' new left' : List Nat} {left : Nat → List Nat}
    (h : Spread registered placed left) {c : Nat} (hnew : ∀ cb ∈ new, cb ∉ registered)
    (hnodup : new.Nodup) (hperm : (placed' ++ left').Perm (placed ++ left c ++ new)) :
    Spread (registered ++ new) placed' (update left c left') := by
  have hall : (placed' ++ left').Nodup := by
    refine hperm.nodup_iff.mpr (List.nodup_append.mpr ⟨h.nodup c, hnodup, ?_⟩)
    rintro a ha b hb rfl
    refine hnew a hb ((h.mem a).mpr ?_)
    exact (List.mem_append.mp ha).imp_right fun ha => ⟨c, ha⟩
  have hothers : ∀ d, d ≠ c → ∀ cb, cb ∈ left d → cb ∉ placed' ++ left' := by
    intro d hd cb hcb hm
    rcases List.mem_append.mp (hperm.mem_iff.mp hm) with hm | hm
    · rcases List.mem_append.mp hm with hm | hm
      · exact (List.nodup_append.mp (h.nodup d)).2.2 cb hm cb hcb rfl
      · exact hd (h.apart d c cb hcb hm)
    · exact hnew cb hm ((h.mem cb).mpr (.inr ⟨d, hcb⟩))
  constructor
  · refine List.nodup_append.mpr ⟨h.distinct, hnodup, ?_⟩
    rintro a ha b hb rfl
    exact hnew a hb ha
  · intro d
    by_cases hd : d = c
    · subst hd
      rw [update_self]
      exact hall
    · rw [update_of_ne hd]
      refine List.nodup_append.mpr ⟨(List.nodup_append.mp hall).1,
        (List.nodup_append.mp (h.nodup d)).2.1, ?_⟩
      rintro a ha b hb rfl
      exact hothers d hd a hb (List.mem_append_left _ ha)
  · intro d e cb hd he
    by_cases hdc : d = c
    · by_cases hec : e = c
      · rw [hdc, hec]
      · subst hdc
        rw [update_self] at hd
        rw [update_of_ne hec] at he
        exact absurd (List.mem_append_right _ hd) (hothers e hec cb he)
    · rw [update_of_ne hdc] at hd
      by_cases hec : e = c
      · subst hec
        rw [update_self] at he
        exact absurd (List.mem_append_right _ he) (hothers d hdc cb hd)
      · rw [update_of_ne hec] at he
        exact h.apart d e cb hd he
  · intro cb
    have hsplit : cb ∈ placed' ++ left' ↔ cb ∈ placed ++ left c ++ new := hperm.mem_iff
    simp only [List.mem_append] at hsplit ⊢
    rw [h.mem]
    constructor
    · rintro ((hcb | ⟨d, hd⟩) | hcb)
      · exact (hsplit.mpr (.inl (.inl hcb))).imp_right fun hcb => ⟨c, by rwa [update_self]⟩
      · by_cases hdc : d = c
        · subst hdc
          exact (hsplit.mpr (.inl (.inr hd))).imp_right fun hcb => ⟨d, by rwa [update_self]⟩
        · exact .inr ⟨d, by rwa [update_of_ne hdc]⟩
      · exact (hsplit.mpr (.inr hcb)).imp_right fun hcb => ⟨c, by rwa [update_self]⟩
    · rintro (hcb | ⟨d, hd⟩)
      · rcases hsplit.mp (.inl hcb) with (hcb | hcb) | hcb
        · exact .inl (.inl hcb)
        · exact .inl (.inr ⟨c, hcb⟩)
        · exact .inr hcb
      · by_cases hdc : d = c
        · subst hdc
          rw [update_self] at hd
          rcases hsplit.mp (.inr hd) with (hcb | hcb) | hcb
          · exact .inl (.inl hcb)
          · exact .inl (.inr ⟨d, hcb⟩)
          · exact .inr hcb
        · rw [update_of_ne hdc] at hd
          exact .inl (.inr ⟨d, hd⟩)

def Sys.placed (s : Sys α) : List Nat := s.future.callbacks ++ s.ran.map Prod.fst ++ s.dropped

@[simp] theorem setPc_placed (s : Sys α) (c : Nat) (pc : Pc α) :
    (s.setPc c pc).placed = s.placed := rfl

theorem left_setPc (s : Sys α) (c : Nat) (pc : Pc α) :
    (fun d => ((s.setPc c pc).pc d).left) = update (fun d => (s.pc d).left) c pc.left := by
  funext d
  by_cases hd : d = c
  · subst hd
    simp
  · simp [setPc_pc_of_ne _ pc hd, hd]

/-- Before the first completion nothing has run; afterwards all run with its value. -/
structure Inv (s : Sys α) : Prop where
  spread : Spread s.registered s.placed fun c => (s.pc c).left
  unset : s.future.value = none →
    s.future.callbacks = s.registered ∧ s.dropped = [] ∧ ∀ c, (s.pc c).value? = none
  unrun : s.future.value = none → s.ran = []
  set : ∀ v, s.future.value = some v → s.future.callbacks = [] ∧ (∀ p ∈ s.ran, p.2 = v) ∧
    ∀ c w, (s.pc c).value? = some w → w = v

theorem start_inv : Inv (start : Sys α) where
  spread := ⟨.nil, by simp [start, Sys.placed, Pc.left], by simp [start, Pc.left],
    by simp [start, Sys.placed, Pc.left]⟩
  unset _ := ⟨rfl, rfl, fun _ => rfl⟩
  unrun _ := rfl
  set v h := by cases h

theorem Step.spread {s t : Sys α} {m : Move α}
    (hs : Spread s.registered s.placed fun c => (s.pc c).left) (h : Step s m t) :
    Spread t.registered t.placed fun c => (t.pc c).left := by
  have hmove : ∀ {c : Nat} {left' new : List Nat},
      (fun d => (t.pc d).left) = update (fun d => (s.pc d).left) c left' →
      t.registered = s.registered ++ new → (∀ cb ∈ new, cb ∉ s.registered) → new.Nodup →
      (t.placed ++ left').Perm (s.placed ++ (s.pc c).left ++ new) →
      Spread t.registered t.placed fun d => (t.pc d).left := by
    intro c left' new hleft hreg hnew hnodup hperm
    rw [hleft, hreg]
    exact hs.move hnew hnodup hperm
  cases h with
  | first hpc hv =>
    refine hmove (left_setPc _ _ _) (List.append_nil _).symm (by simp) .nil ?_
    rw [List.perm_iff_count]
    intro a
    simp only [Sys.placed, Pc.left, hpc, List.count_append, List.count_nil, List.append_nil]
    omega
  | again hpc hv | finish hpc | returns hpc =>
    exact hmove (left_setPc _ _ _) (List.append_nil _).symm (by simp) .nil (by simp [Pc.left, hpc])
  | @store c cb hpc hnew hv =>
    refine hmove (left_setPc _ _ _) rfl (by simpa using hnew) (List.nodup_singleton cb) ?_
    rw [List.perm_iff_count]
    intro a
    simp only [Sys.placed, Pc.left, hpc, List.count_append, List.append_nil]
    omega
  | @now c cb w hpc hnew hv =>
    refine hmove (left_setPc _ _ _) rfl (by simpa using hnew) (List.nodup_singleton cb) ?_
    simp [Sys.placed, Pc.left, hpc]
  | @run c v cb left hpc =>
    refine hmove (left_setPc _ _ _) (List.append_nil _).symm (by simp) .nil ?_
    rw [List.perm_iff_count]
    intro a
    have hcons : (cb :: left).count a = [cb].count a + left.count a := by
      rw [← List.singleton_append, List.count_append]
    simp only [Sys.placed, Pc.left, hpc, List.count_append, List.map_append, List.map_cons,
      List.map_nil, List.append_nil, hcons]
    omega
  | raises hpc =>
    refine hmove (left_setPc _ _ _) (List.append_nil _).symm (by simp) .nil ?_
    simp [Sys.placed, Pc.left, hpc]

theorem value?_running {v w : Except String α} {left : List Nat}
    (h : (Pc.running v left).value? = some w) : w = v := by
  cases left with
  | nil => cases h
  | cons cb left => exact (Option.some.inj h).symm

/-- What calls hand on after a step, they did before it, but for the one that moved. -/
theorem value?_setPc {s u : Sys α} (hpc : u.pc = s.pc) {c : Nat} {pc : Pc α} {d : Nat}
    {w : Except String α} (h : ((u.setPc c pc).pc d).value? = some w) :
    pc.value? = some w ∨ (s.pc d).value? = some w := by
  by_cases hd : d = c
  · subst hd
    rw [setPc_pc_self] at h
    exact .inl h
  · rw [setPc_pc_of_ne _ pc hd, hpc] at h
    exact .inr h

/-- A step that leaves the future alone, runs callbacks with its value at most, and goes on to hand
on no other. -/
theorem Inv.beside {s u : Sys α} (hs : Inv s) {c : Nat} {pc : Pc α}
    (hspread : Spread u.registered u.placed fun d => ((u.setPc c pc).pc d).left)
    (hfuture : u.future = s.future) (hpc : u.pc = s.pc)
    (hsame : s.future.value = none → u = s ∧ pc.value? = none)
    (hran : ∀ v, s.future.value = some v → ∀ p ∈ u.ran, p ∈ s.ran ∨ p.2 = v)
    (hvalue : ∀ v, s.future.value = some v → ∀ w, pc.value? = some w → w = v) :
    Inv (u.setPc c pc) := by
  refine ⟨hspread, fun hnone => ?_, fun hnone => ?_, fun v hv => ?_⟩
  · have hnone' : s.future.value = none := hfuture ▸ hnone
    obtain ⟨rfl, hpcnone⟩ := hsame hnone'
    obtain ⟨hcallbacks, hdropped, hvalues⟩ := hs.unset hnone'
    refine ⟨hcallbacks, hdropped, fun d => ?_⟩
    by_cases hd : d = c
    · subst hd
      rw [setPc_pc_self, hpcnone]
    · rw [setPc_pc_of_ne _ pc hd, hvalues d]
  · have hnone' : s.future.value = none := hfuture ▸ hnone
    obtain ⟨rfl, -⟩ := hsame hnone'
    exact hs.unrun hnone'
  · have hv' : s.future.value = some v := hfuture ▸ hv
    obtain ⟨hcallbacks, hall, hvalues⟩ := hs.set v hv'
    refine ⟨(congrArg Future.callbacks hfuture).trans hcallbacks, fun p hp => ?_, fun d w hd => ?_⟩
    · exact (hran v hv' p hp).elim (hall p) id
    · cases value?_setPc hpc hd with
      | inl hnew => exact hvalue v hv' w hnew
      | inr hold => exact hvalues d w hold

/-- A call that hands on a value has it from the future. -/
theorem Inv.value_of {s : Sys α} (hs : Inv s) {c : Nat} {v : Except String α}
    (hc : (s.pc c).value? = some v) : s.future.value = some v := by
  cases hv : s.future.value with
  | none => simp [(hs.unset hv).2.2 c] at hc
  | some w => rw [(hs.set w hv).2.2 c v hc]

theorem step_inv (s : Sys α) (m : Move α) (t : Sys α) (hs : Inv s) (h : step s m = some t) :
    Inv t := by
  have hstep := step_cases h
  have hspread := hstep.spread hs.spread
  cases hstep with
  | @first c v hpc hv =>
    refine ⟨hspread, fun h => by simp at h, fun h => by simp at h, fun w hw => ?_⟩
    obtain rfl : v = w := by simpa using hw
    refine ⟨rfl, by simp [hs.unrun hv], fun d w hd => ?_⟩
    cases value?_setPc rfl hd with
    | inl hnew => exact value?_running hnew
    | inr hold => simp [(hs.unset hv).2.2 d] at hold
  | again hpc hv =>
    exact hs.beside hspread rfl rfl (fun _ => ⟨rfl, rfl⟩) (fun _ _ _ => .inl) fun _ _ _ hw => by
      cases hw
  | @store c cb hpc hnew hv =>
    obtain ⟨hcallbacks, hdropped, hvalues⟩ := hs.unset hv
    refine ⟨hspread, fun _ => ⟨congrArg (· ++ [cb]) hcallbacks, hdropped, fun d => ?_⟩,
      fun _ => hs.unrun hv, fun w hw => by simp [hv] at hw⟩
    by_cases hd : d = c
    · subst hd
      rw [setPc_pc_self]
      rfl
    · rw [setPc_pc_of_ne _ _ hd]
      exact hvalues d
  | now hpc hnew hv =>
    refine hs.beside hspread rfl rfl (fun hnone => by simp [hv] at hnone) (fun _ _ _ => .inl) ?_
    intro v hv' w hw
    exact (value?_running hw).trans (Option.some.inj (hv.symm.trans hv'))
  | finish hpc =>
    exact hs.beside hspread rfl rfl (fun _ => ⟨rfl, rfl⟩) (fun _ _ _ => .inl) fun _ _ _ hw => by
      cases hw
  | @run c v cb left hpc =>
    have hv := hs.value_of (c := c) (v := v) (by rw [hpc]; rfl)
    refine hs.beside hspread rfl rfl (fun hnone => by simp [hv] at hnone) (fun w hw p hp => ?_) ?_
    · obtain rfl := Option.some.inj (hv.symm.trans hw)
      exact (List.mem_append.mp hp).imp_right fun hp => by rw [List.mem_singleton.mp hp]
    · intro w hw x hx
      exact (Option.some.inj hx).symm.trans (Option.some.inj (hv.symm.trans hw))
  | @returns c v left hpc =>
    have hv := hs.value_of (c := c) (v := v) (by rw [hpc]; rfl)
    refine hs.beside hspread rfl rfl (fun hnone => by simp [hv] at hnone) (fun _ _ _ => .inl) ?_
    intro w hw x hx
    exact (value?_running hx).trans (Option.some.inj (hv.symm.trans hw))
  | @raises c v left hpc =>
    have hv := hs.value_of (c := c) (v := v) (by rw [hpc]; rfl)
    exact hs.beside hspread rfl rfl (fun hnone => by simp [hv] at hnone) (fun _ _ _ => .inl)
      fun _ _ _ hx => by cases hx

/-! ## Every callback once -/

/-- The callbacks registered by these moves, in their order. -/
def registrations (ms : List (Move α)) : List Nat :=
  ms.filterMap fun
    | .onComplete _ cb => some cb
    | _ => none

def Move.IsComplete : Move α → Prop
  | .complete _ _ => True
  | _ => False

def Move.IsRaise : Move α → Prop
  | .raises _ => True
  | _ => False

def Pc.Over : Pc α → Prop
  | .idle => True
  | .returned => True
  | .raised => True
  | _ => False

/-- Of the callbacks that the completing call had to run, those in front have run, in their order,
and it has the others left, unless they were dropped. -/
def Ordered (first : List Nat) (c : Nat) (s : Sys α) : Prop :=
  ∃ done rest, first = done ++ rest ∧ done.Sublist (s.ran.map Prod.fst) ∧
    (rest = (s.pc c).left ∨ rest ⊆ s.dropped)

/-- What has run and what was dropped stays on the books. -/
theorem Step.grows {s t : Sys α} {m : Move α} (h : Step s m t) :
    s.ran <+: t.ran ∧ s.dropped <+: t.dropped := by
  cases h with
  | run hpc => exact ⟨List.prefix_append _ _, List.prefix_rfl⟩
  | raises hpc => exact ⟨List.prefix_rfl, List.prefix_append _ _⟩
  | _ => exact ⟨List.prefix_rfl, List.prefix_rfl⟩

/-- A call that has callbacks left keeps them, runs the foremost, or drops them all. -/
theorem Step.left_of {s t : Sys α} {m : Move α} (h : Step s m t) (c : Nat) :
    (s.pc c).left ⊆ t.dropped ∨ (t.pc c).left = (s.pc c).left ∨
      ∃ cb v, (s.pc c).left = cb :: (t.pc c).left ∧ t.ran = s.ran ++ [(cb, v)] := by
  have hother : ∀ {d : Nat} {u : Sys α} {pc : Pc α}, u.pc = s.pc → c ≠ d →
      ((u.setPc d pc).pc c).left = (s.pc c).left := by
    intro d u pc hpc hc
    rw [setPc_pc_of_ne _ pc hc, hpc]
  have hidle : ∀ {d : Nat} {u : Sys α} {pc : Pc α}, u.pc = s.pc → (s.pc d).left = [] →
      (s.pc c).left ⊆ u.dropped ∨ ((u.setPc d pc).pc c).left = (s.pc c).left := by
    intro d u pc hpc hd
    by_cases hc : c = d
    · subst hc
      rw [hd]
      exact .inl (List.nil_subset _)
    · exact .inr (hother hpc hc)
  cases h with
  | first hpc hv | again hpc hv | store hpc hnew hv | now hpc hnew hv | finish hpc =>
    exact (hidle rfl (by rw [hpc]; rfl)).imp_right .inl
  | @run d v cb left hpc =>
    by_cases hc : c = d
    · subst hc
      exact .inr (.inr ⟨cb, v, by rw [setPc_pc_self, hpc]; rfl, rfl⟩)
    · exact .inr (.inl (hother rfl hc))
  | @raises d v left hpc =>
    by_cases hc : c = d
    · subst hc
      rw [hpc]
      exact .inl (List.subset_append_right _ _)
    · exact .inr (.inl (hother rfl hc))
  | @returns d v left hpc =>
    by_cases hc : c = d
    · subst hc
      rw [setPc_pc_self, hpc]
      exact .inr (.inl rfl)
    · exact .inr (.inl (hother rfl hc))

theorem step_ordered {first : List Nat} {c : Nat} (s : Sys α) (m : Move α) (t : Sys α)
    (hs : Ordered first c s) (h : step s m = some t) : Ordered first c t := by
  obtain ⟨done, rest, hfirst, hdone, hrest⟩ := hs
  have hstep := step_cases h
  obtain ⟨hran, hdropped⟩ := hstep.grows
  have hdone' : done.Sublist (t.ran.map Prod.fst) := hdone.trans (hran.sublist.map _)
  rcases hrest with rfl | hrest
  · rcases hstep.left_of c with hsub | hsame | ⟨cb, v, hcons, hlast⟩
    · exact ⟨done, _, hfirst, hdone', .inr hsub⟩
    · exact ⟨done, _, hfirst, hdone', .inl hsame.symm⟩
    · refine ⟨done ++ [cb], (t.pc c).left, ?_, ?_, .inl rfl⟩
      · rw [hfirst, hcons, List.append_assoc]
        rfl
      · rw [hlast, List.map_append]
        exact hdone.append (List.Sublist.refl _)
  · exact ⟨done, rest, hfirst, hdone', .inr fun a ha => hdropped.subset (hrest ha)⟩

/-- Once set, the value stays. -/
theorem step_value {v : Except String α} (s : Sys α) (m : Move α) (t : Sys α)
    (hv : s.future.value = some v) (h : step s m = some t) : t.future.value = some v := by
  cases step_cases h with
  | first hpc hnone | store hpc hnew hnone => simp [hnone] at hv
  | _ => exact hv

theorem step_dropped (s : Sys α) (m : Move α) (t : Sys α) (hs : s.dropped = []) (hm : ¬m.IsRaise)
    (h : step s m = some t) : t.dropped = [] := by
  cases step_cases h with
  | raises hpc => exact absurd trivial hm
  | _ => exact hs

/-- Without a completion the future stays without a value, and holds what was registered. -/
theorem run_unset {s t : Sys α} {ms : List (Move α)} (hms : ∀ m ∈ ms, ¬m.IsComplete)
    (hs : s.future.value = none) (h : run step s ms = some t) :
    t.future.value = none ∧ t.registered = s.registered ++ registrations ms := by
  induction ms generalizing s with
  | nil =>
    obtain rfl : s = t := by simpa using h
    simp [hs, registrations]
  | cons m ms ih =>
    obtain ⟨u, hu, ht⟩ := run_cons_some h
    have hu' : u.future.value = none ∧ u.registered = s.registered ++ registrations [m] := by
      cases step_cases hu with
      | first hpc hv | again hpc hv => exact absurd trivial (hms _ List.mem_cons_self)
      | now hpc hnew hv => simp [hs] at hv
      | _ => simp [registrations, hs]
    obtain ⟨hvalue, hreg⟩ := ih (fun m' hm => hms m' (List.mem_cons_of_mem m hm)) hu'.1 ht
    refine ⟨hvalue, ?_⟩
    rw [hreg, hu'.2, List.append_assoc, registrations, registrations, ← List.filterMap_append]
    rfl

theorem Pc.Over.left {pc : Pc α} (h : pc.Over) : pc.left = [] := by
  cases pc with
  | running v left | inside v left => cases h
  | _ => rfl

/-- With a value there and all calls over, every callback has run or was dropped. -/
theorem Inv.settled {s : Sys α} {v : Except String α} (hs : Inv s) (hv : s.future.value = some v)
    (hover : ∀ d, (s.pc d).Over) : (s.ran.map Prod.fst ++ s.dropped).Perm s.registered := by
  have hcallbacks := (hs.set v hv).1
  have hleft : ∀ d, (s.pc d).left = [] := fun d => (hover d).left
  have hplaced : s.placed = s.ran.map Prod.fst ++ s.dropped := by
    rw [Sys.placed, hcallbacks, List.nil_append]
  have hnodup := hs.spread.nodup 0
  rw [hleft, List.append_nil, hplaced] at hnodup
  refine (List.perm_ext_iff_of_nodup hnodup hs.spread.distinct).mpr fun cb => ?_
  rw [hs.spread.mem, hplaced]
  simp [hleft]

/-- A future is completed once: whichever threads register and complete, when all of them are done
every callback registered has run once, with the value of the first completion, or was dropped when
one before it raised; and those there at the completion run in the order of their registration
when none raises. -/
theorem callbacks_run_once {before after : List (Move α)} {c : Nat} {v : Except String α}
    {t : Sys α} (hfirst : ∀ m ∈ before, ¬m.IsComplete)
    (h : run step start (before ++ .complete c v :: after) = some t)
    (hover : ∀ d, (t.pc d).Over) :
    (t.ran.map Prod.fst ++ t.dropped).Perm t.registered ∧ (∀ p ∈ t.ran, p.2 = v) ∧
      ((∀ m ∈ after, ¬m.IsRaise) →
        t.dropped = [] ∧ (registrations before).Sublist (t.ran.map Prod.fst)) := by
  obtain ⟨s, hbefore, hrest⟩ := run_append_some h
  obtain ⟨u, hu, hafter⟩ := run_cons_some hrest
  have hs : Inv s := run_invariant step_inv start_inv hbefore
  have ht : Inv t := run_invariant step_inv start_inv h
  obtain ⟨hnone, hreg⟩ := run_unset hfirst rfl hbefore
  obtain ⟨hcallbacks, hdropped, -⟩ := hs.unset hnone
  have hcompleted : u.future.value = some v ∧ u.dropped = [] ∧
      Ordered (registrations before) c u := by
    cases step_cases hu with
    | again hpc hv => simp [hnone] at hv
    | first hpc hv =>
      refine ⟨rfl, hdropped, [], _, rfl, List.nil_sublist _, .inl ?_⟩
      rw [setPc_pc_self, Pc.left, hcallbacks, hreg]
      rfl
  obtain ⟨hv, hkept, hordered⟩ := hcompleted
  have htv : t.future.value = some v := run_invariant step_value hv hafter
  refine ⟨ht.settled htv hover, (ht.set v htv).2.1, fun hraise => ?_⟩
  have hok : Throughout step (fun _ m => ¬m.IsRaise) u after :=
    ((throughout_true step u after).and_of_forall hraise).imp fun _ _ h => h.2
  have hnil : t.dropped = [] := run_invariant_of_throughout step_dropped hkept hok hafter
  refine ⟨hnil, ?_⟩
  obtain ⟨done, rest, hsplit, hdone, hleft⟩ := run_invariant step_ordered hordered hafter
  have hempty : rest = [] := by
    rcases hleft with hleft | hsub
    · rw [hleft, (hover c).left]
    · exact List.subset_nil.mp (hnil ▸ hsub)
  rwa [hsplit, hempty, List.append_nil]

/-- One callback is there at the completion, the other one comes while that one runs. -/
theorem callbacks_run_once_late : ∃ t : Sys Nat,
    run step start ([.onComplete 0 7] ++ .complete 1 (.ok 3) ::
      [.go 1, .onComplete 2 8, .complete 3 (.ok 4), .go 2, .returns 1, .go 1, .returns 2, .go 2,
        .go 3]) = some t ∧
      (t.ran.map Prod.fst ++ t.dropped).Perm t.registered ∧ (∀ p ∈ t.ran, p.2 = .ok 3) ∧
      t.registered = [7, 8] := by
  obtain ⟨t, ht, hover, hreg⟩ : ∃ t : Sys Nat,
      run step start ([.onComplete 0 7] ++ .complete 1 (.ok 3) ::
        [.go 1, .onComplete 2 8, .complete 3 (.ok 4), .go 2, .returns 1, .go 1, .returns 2, .go 2,
          .go 3]) = some t ∧ (∀ d, (t.pc d).Over) ∧ t.registered = [7, 8] := by
    refine ⟨_, rfl, fun d => ?_, rfl⟩
    match d with
    | 0 => trivial
    | 1 => trivial
    | 2 => trivial
    | 3 => trivial
    | _ + 4 => trivial
  have honce := callbacks_run_once (by simp [Move.IsComplete]) ht hover
  exact ⟨t, ht, honce.1, honce.2.1, hreg⟩

end Futures
