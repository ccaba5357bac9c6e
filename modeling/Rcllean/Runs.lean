import Mathlib.Data.List.Basic
import Mathlib.Logic.Function.Basic

/-!
# Runs of a step function

A system is a state type, a type of moves and a step function that refuses a
move with `none`. A run is a list of moves, of any length and in any order.
The rules here turn what one step preserves into what every run preserves,
with or without a condition on the steps taken. Where threads take turns, the
state says of each what it does next.
-/
namespace Runs

variable {σ ε : Type}

/-- Take the moves in order; `none` when one of them is refused. -/
def run (step : σ → ε → Option σ) : σ → List ε → Option σ
  | s, [] => some s
  | s, e :: es => (step s e).bind fun t => run step t es

@[simp] theorem run_nil (step : σ → ε → Option σ) (s : σ) : run step s [] = some s := rfl

theorem run_cons (step : σ → ε → Option σ) (s : σ) (e : ε) (es : List ε) :
    run step s (e :: es) = (step s e).bind fun t => run step t es := rfl

/-- The first move of a run that goes through, and the run of the others. -/
theorem run_cons_some {step : σ → ε → Option σ} {s t : σ} {e : ε} {es : List ε}
    (h : run step s (e :: es) = some t) : ∃ u, step s e = some u ∧ run step u es = some t :=
  Option.bind_eq_some_iff.mp h

/-- The run of the first moves of a run that goes through, and that of the others. -/
theorem run_append_some {step : σ → ε → Option σ} {s t : σ} {es fs : List ε}
    (h : run step s (es ++ fs) = some t) :
    ∃ u, run step s es = some u ∧ run step u fs = some t := by
  induction es generalizing s with
  | nil => exact ⟨s, rfl, h⟩
  | cons e es ih =>
    obtain ⟨w, hw, h⟩ := run_cons_some h
    obtain ⟨u, hu, ht⟩ := ih h
    exact ⟨u, by rw [run_cons, hw]; exact hu, ht⟩

/-- Every move of the list, in the state in which its turn comes, satisfies `P`. -/
def Throughout (step : σ → ε → Option σ) (P : σ → ε → Prop) : σ → List ε → Prop
  | _, [] => True
  | s, e :: es => P s e ∧ ∀ t, step s e = some t → Throughout step P t es

/-- An invariant of single steps is one of runs. -/
theorem run_invariant {step : σ → ε → Option σ} {Inv : σ → Prop}
    (hstep : ∀ s e t, Inv s → step s e = some t → Inv t) {s t : σ} {es : List ε}
    (hs : Inv s) (h : run step s es = some t) : Inv t := by
  induction es generalizing s with
  | nil => obtain rfl : s = t := by simpa using h
           exact hs
  | cons e es ih =>
    obtain ⟨u, hu, ht⟩ := run_cons_some h
    exact ih (hstep s e u hs hu) ht

/-- Where each move that `pays` takes one off a measure and only one that `adds` raises it, by at
most `k`, the moves that pay are bounded. -/
theorem run_measure {step : σ → ε → Option σ} {Inv : σ → Prop} {measure : σ → Nat} {k : Nat}
    {pays adds : ε → Bool} (hstep : ∀ s e t, Inv s → step s e = some t → Inv t)
    (hmeasure : ∀ s e t, Inv s → step s e = some t →
      measure t + (pays e).toNat ≤ measure s + k * (adds e).toNat)
    {s t : σ} {es : List ε} (hs : Inv s) (h : run step s es = some t) :
    measure t + es.countP pays ≤ measure s + k * es.countP adds := by
  induction es generalizing s with
  | nil => obtain rfl : s = t := by simpa using h
           simp
  | cons e es ih =>
    obtain ⟨u, hu, ht⟩ := run_cons_some h
    have hone := hmeasure s e u hs hu
    have hrest := ih (hstep s e u hs hu) ht
    rw [List.countP_cons, List.countP_cons, Nat.mul_add]
    cases hp : pays e <;> cases ha : adds e <;> simp [hp, ha] at hone ⊢ <;> omega

/-- An invariant of the steps that `Ok` allows is one of the runs made of such steps. -/
theorem run_invariant_of_throughout {step : σ → ε → Option σ} {Inv : σ → Prop}
    {Ok : σ → ε → Prop} (hstep : ∀ s e t, Inv s → Ok s e → step s e = some t → Inv t)
    {s t : σ} {es : List ε} (hs : Inv s) (hok : Throughout step Ok s es)
    (h : run step s es = some t) : Inv t := by
  induction es generalizing s with
  | nil => obtain rfl : s = t := by simpa using h
           exact hs
  | cons e es ih =>
    obtain ⟨u, hu, ht⟩ := run_cons_some h
    exact ih (hstep s e u hs hok.1 hu) (hok.2 u hu) ht

/-- Where until the end there is always an allowed move that takes one off a measure, allowed moves
lead there. -/
theorem exists_run_of_measure {step : σ → ε → Option σ} {Inv Over : σ → Prop}
    {Ok : σ → ε → Prop} {measure : σ → Nat}
    (hstep : ∀ s e t, Inv s → Ok s e → step s e = some t → Inv t)
    (hmove : ∀ s, Inv s → ¬ Over s → ∃ e t, Ok s e ∧ step s e = some t ∧ measure t + 1 ≤ measure s)
    {s : σ} (hs : Inv s) :
    ∃ es t, Throughout step Ok s es ∧ run step s es = some t ∧ Over t := by
  induction h : measure s using Nat.strongRecOn generalizing s with
  | _ n ih =>
    by_cases hover : Over s
    · exact ⟨[], s, trivial, rfl, hover⟩
    · obtain ⟨e, u, hok, hu, hless⟩ := hmove s hs hover
      obtain ⟨es, t, hall, ht, hend⟩ := ih (measure u) (by omega) (hstep s e u hs hok hu) rfl
      refine ⟨e :: es, t, ⟨hok, fun v hv => ?_⟩, by rw [run_cons, hu]; exact ht, hend⟩
      obtain rfl := Option.some.inj (hu.symm.trans hv)
      exact hall

/-- What an invariant gives for one allowed step holds throughout a run of allowed steps. -/
theorem throughout_of_invariant {step : σ → ε → Option σ} {Inv : σ → Prop}
    {Ok P : σ → ε → Prop} (hstep : ∀ s e t, Inv s → Ok s e → step s e = some t → Inv t)
    (hP : ∀ s e, Inv s → Ok s e → P s e) {s : σ} {es : List ε} (hs : Inv s)
    (hok : Throughout step Ok s es) : Throughout step P s es := by
  induction es generalizing s with
  | nil => trivial
  | cons e es ih =>
    exact ⟨hP s e hs hok.1, fun t ht => ih (hstep s e t hs hok.1 ht) (hok.2 t ht)⟩

/-- Under an invariant that its own moves keep, a condition can be exchanged for one that comes to
the same in every single state. -/
theorem throughout_congr {step : σ → ε → Option σ} {Inv : σ → Prop} {P Q : σ → ε → Prop}
    (hstep : ∀ s e t, Inv s → P s e → step s e = some t → Inv t)
    (hiff : ∀ s e, Inv s → (P s e ↔ Q s e)) {s : σ} {es : List ε} (hs : Inv s) :
    Throughout step P s es ↔ Throughout step Q s es := by
  constructor
  · exact throughout_of_invariant hstep (fun s e hI hP => (hiff s e hI).mp hP) hs
  · exact throughout_of_invariant (fun s e t hI hQ => hstep s e t hI ((hiff s e hI).mpr hQ))
      (fun s e hI hQ => (hiff s e hI).mpr hQ) hs

theorem throughout_cons_none {step : σ → ε → Option σ} {P : σ → ε → Prop} {s : σ} {e : ε}
    {es : List ε} (hs : step s e = none) : Throughout step P s (e :: es) ↔ P s e := by
  simp [Throughout, hs]

theorem throughout_cons_iff {step : σ → ε → Option σ} {P : σ → ε → Prop} {s t : σ} {e : ε}
    {es : List ε} (hs : step s e = some t) :
    Throughout step P s (e :: es) ↔ P s e ∧ Throughout step P t es := by
  simp [Throughout, hs]

instance decidableThroughout (step : σ → ε → Option σ) (P : σ → ε → Prop)
    [∀ s e, Decidable (P s e)] : ∀ s es, Decidable (Throughout step P s es)
  | _, [] => isTrue trivial
  | s, e :: es => match h : step s e with
    | none => decidable_of_iff (P s e) (throughout_cons_none h).symm
    | some t =>
      have := decidableThroughout step P t es
      decidable_of_iff (P s e ∧ Throughout step P t es) (throughout_cons_iff h).symm

/-- What holds throughout can be weakened move by move. -/
theorem Throughout.imp {step : σ → ε → Option σ} {P Q : σ → ε → Prop} (hPQ : ∀ s e, P s e → Q s e)
    {s : σ} {es : List ε} (h : Throughout step P s es) : Throughout step Q s es := by
  induction es generalizing s with
  | nil => trivial
  | cons e es ih => exact ⟨hPQ s e h.1, fun t ht => ih (h.2 t ht)⟩

/-- No condition at all holds throughout every run. -/
theorem throughout_true (step : σ → ε → Option σ) (s : σ) (es : List ε) :
    Throughout step (fun _ _ => True) s es := by
  induction es generalizing s with
  | nil => trivial
  | cons e es ih => exact ⟨trivial, fun t _ => ih t⟩

/-- What every move of the list satisfies can be added to a condition. -/
theorem Throughout.and_of_forall {step : σ → ε → Option σ} {P : σ → ε → Prop} {Q : ε → Prop}
    {s : σ} {es : List ε} (h : Throughout step P s es) (hQ : ∀ e ∈ es, Q e) :
    Throughout step (fun s e => P s e ∧ Q e) s es := by
  induction es generalizing s with
  | nil => trivial
  | cons e es ih =>
    exact ⟨⟨h.1, hQ e List.mem_cons_self⟩,
      fun t ht => ih (h.2 t ht) fun e' he => hQ e' (List.mem_cons_of_mem _ he)⟩

/-! ## What a run puts out -/

variable {ω : Type}

/-- What the moves of a run put out, in order. -/
def outputs (step : σ → ε → Option σ) (out : σ → ε → List ω) (s : σ) : List ε → List ω
  | [] => []
  | e :: es => out s e ++ match step s e with
    | none => []
    | some t => outputs step out t es

/-- A relation between the state and what has been put out holds after a run when each step keeps
it. -/
theorem run_outputs {step : σ → ε → Option σ} {out : σ → ε → List ω} {R : σ → List ω → Prop}
    {Ok : σ → ε → Prop}
    (hstep : ∀ s e t log, R s log → Ok s e → step s e = some t → R t (log ++ out s e))
    {s t : σ} {es : List ε} {log : List ω} (hs : R s log) (hok : Throughout step Ok s es)
    (h : run step s es = some t) : R t (log ++ outputs step out s es) := by
  induction es generalizing s log with
  | nil => obtain rfl : s = t := by simpa using h
           simpa [outputs] using hs
  | cons e es ih =>
    obtain ⟨u, hu, h⟩ := run_cons_some h
    rw [outputs, hu, ← List.append_assoc]
    exact ih (hstep s e u log hs hok.1 hu) (hok.2 u hu) h

/-! ## Threads -/

/-- What each of any number of threads, or calls, does next. -/
structure Threads (ι π : Type) where
  pc : ι → π

section

variable {ι π : Type} [DecidableEq ι]

def Threads.setPc (s : Threads ι π) (c : ι) (p : π) : Threads ι π :=
  ⟨Function.update s.pc c p⟩

@[simp] theorem setPc_pc_self (s : Threads ι π) (c : ι) (p : π) : (s.setPc c p).pc c = p := by
  simp [Threads.setPc]

theorem setPc_pc_of_ne (s : Threads ι π) {c d : ι} (p : π) (h : d ≠ c) :
    (s.setPc c p).pc d = s.pc d := by
  simp [Threads.setPc, h]

end

/-! ## Computations that may raise -/

variable {α β φ : Type}

@[simp] theorem ok_bind (a : α) (f : α → Except φ β) : (Except.ok a >>= f) = f a := rfl

@[simp] theorem error_bind (e : φ) (f : α → Except φ β) :
    ((Except.error e : Except φ α) >>= f) = .error e := rfl

theorem pure_eq_ok {a b : α} : (pure a : Except φ α) = .ok b ↔ b = a := by
  simp [pure, Except.pure, eq_comm]

/-- A sequence goes through exactly when each of its parts does. -/
theorem bind_eq_ok {x : Except φ α} {f : α → Except φ β} {b : β} :
    (x >>= f) = .ok b ↔ ∃ a, x = .ok a ∧ f a = .ok b := by
  cases x with
  | error e => simp
  | ok a => simp

/-- A loop that collects goes through exactly when each of its rounds does. -/
theorem mapM_eq_ok {f : α → Except φ β} {xs : List α} {ys : List β} :
    xs.mapM f = .ok ys ↔ List.Forall₂ (fun x y => f x = .ok y) xs ys := by
  induction xs generalizing ys with
  | nil =>
    rw [List.mapM_nil, pure_eq_ok]
    constructor
    · rintro rfl
      exact .nil
    · rintro ⟨⟩
      rfl
  | cons x xs ih =>
    rw [List.mapM_cons, bind_eq_ok]
    constructor
    · rintro ⟨y, hy, h⟩
      obtain ⟨rest, hrest, heq⟩ := bind_eq_ok.mp h
      rw [pure_eq_ok.mp heq]
      exact .cons hy (ih.mp hrest)
    · rintro (_ | ⟨hy, hrest⟩)
      exact ⟨_, hy, bind_eq_ok.mpr ⟨_, ih.mpr hrest, rfl⟩⟩

/-! ## Loops over the indices of a list -/

/-- A loop over the first `n` indices whose rounds all go through folds the first `n` elements. -/
theorem foldlM_range {σ : Type} {f : σ → Nat → Except φ σ} {g : σ → α → σ} {xs : List α} {n : Nat}
    (hn : n ≤ xs.length) (h : ∀ s i x, i < n → xs[i]? = some x → f s i = .ok (g s x)) (s : σ) :
    (List.range n).foldlM f s = .ok ((xs.take n).foldl g s) := by
  induction n with
  | zero => rfl
  | succ n ih =>
    have hx : xs[n]? = some xs[n] := List.getElem?_eq_getElem hn
    have hinit := ih (by omega) fun s i x hi => h s i x (by omega)
    have htake : xs.take (n + 1) = xs.take n ++ [xs[n]] := by rw [List.take_add_one, hx]; rfl
    rw [List.range_succ, List.foldlM_append, hinit, htake, List.foldl_append, ok_bind,
      List.foldlM_cons, h _ n _ (Nat.lt_succ_self n) hx]
    rfl

/-- A loop over the indices of a list that looks up the element maps the list. -/
theorem mapM_range {f : Nat → Option β} {g : α → β} {l : List α} {n : Nat}
    (hn : n ≤ l.length) (h : ∀ i x, l[i]? = some x → f i = some (g x)) :
    (List.range n).mapM f = some ((l.take n).map g) := by
  induction n with
  | zero => rfl
  | succ n ih =>
    have hx : l[n]? = some l[n] := List.getElem?_eq_getElem hn
    have htake : l.take (n + 1) = l.take n ++ [l[n]] := by rw [List.take_add_one, hx]; rfl
    rw [List.range_succ, List.mapM_append, ih (by omega), htake, List.map_append]
    simp only [List.mapM_cons, List.mapM_nil, h n _ hx]
    rfl

end Runs
