import Mathlib.Data.List.Count
import Mathlib.Logic.Function.Basic
import Rcllean.Runs

/-!
# Locks that are taken in an order

Threads work through scripts of acquisitions and releases of mutexes, some of
which the thread that holds them may take again. When every script takes a
mutex only above those it holds, by a rank, and gives back what it takes, then
in every interleaving a thread that has not come to its end can move, or
another one can.
-/
namespace LockOrder

open Function Runs

variable {ℓ : Type} [DecidableEq ℓ]

inductive Action (ℓ : Type) where
  | acquire (l : ℓ)
  | release (l : ℓ)
  deriving DecidableEq, Repr

/-- A mutex: its owner and how often the owner has taken it. -/
structure Mutex where
  owner : Option Nat := none
  depth : Nat := 0
  deriving DecidableEq, Repr

structure State (ℓ : Type) where
  todo : Nat → List (Action ℓ)
  mutex : ℓ → Mutex

def start (scripts : Nat → List (Action ℓ)) : State ℓ := ⟨scripts, fun _ => {}⟩

section

variable (reentrant : ℓ → Bool)

/-- What taking the mutex makes of it, unless the thread has to wait. -/
def Mutex.take (m : Mutex) (reentrant : Bool) (t : Nat) : Option Mutex :=
  match m.owner with
  | none => some ⟨some t, 1⟩
  | some u => if u = t ∧ reentrant then some ⟨some t, m.depth + 1⟩ else none

/-- What giving the mutex back makes of it, if the thread holds it. -/
def Mutex.give (m : Mutex) (t : Nat) : Option Mutex :=
  if m.owner = some t then
    if m.depth = 1 then some {} else some ⟨some t, m.depth - 1⟩
  else none

/-- The next action of a thread; none when it waits or is through. -/
def step (s : State ℓ) (t : Nat) : Option (State ℓ) :=
  match s.todo t with
  | [] => none
  | .acquire l :: rest => ((s.mutex l).take (reentrant l) t).map fun m =>
      ⟨update s.todo t rest, update s.mutex l m⟩
  | .release l :: rest => ((s.mutex l).give t).map fun m =>
      ⟨update s.todo t rest, update s.mutex l m⟩

/-! ## Ordered scripts -/

variable (rank : ℓ → Nat)

/-- The mutex may be taken over those held: it is above them all, or held already and reentrant. -/
def Above (held : List ℓ) (l : ℓ) : Prop :=
  (∀ k ∈ held, rank k < rank l) ∨ l ∈ held ∧ reentrant l = true

instance (held : List ℓ) (l : ℓ) : Decidable (Above reentrant rank held l) :=
  inferInstanceAs (Decidable (_ ∨ _))

/-- What is held after the script, if it keeps to the order and releases only what it holds. -/
def after (held : List ℓ) : List (Action ℓ) → Option (List ℓ)
  | [] => some held
  | .acquire l :: rest =>
    if Above reentrant rank held l then after (l :: held) rest else none
  | .release l :: rest => if l ∈ held then after (held.erase l) rest else none

/-- The script keeps to the order and leaves what is held as it was. -/
def Balanced (held : List ℓ) (script : List (Action ℓ)) : Prop :=
  after reentrant rank held script = some held

theorem after_append (held : List ℓ) (a b : List (Action ℓ)) :
    after reentrant rank held (a ++ b) =
      (after reentrant rank held a).bind fun held' => after reentrant rank held' b := by
  induction a generalizing held with
  | nil => rfl
  | cons x a ih =>
    cases x with
    | acquire l =>
      rw [List.cons_append, after, after]
      split
      · exact ih (l :: held)
      · rfl
    | release l =>
      rw [List.cons_append, after, after]
      split
      · exact ih (held.erase l)
      · rfl

variable {reentrant rank}

theorem balanced_nil (held : List ℓ) : Balanced reentrant rank held [] := rfl

theorem Balanced.append {held : List ℓ} {a b : List (Action ℓ)}
    (ha : Balanced reentrant rank held a) (hb : Balanced reentrant rank held b) :
    Balanced reentrant rank held (a ++ b) := by
  rw [Balanced, after_append, ha]
  exact hb

theorem balanced_flatMap {α : Type} {held : List ℓ} {f : α → List (Action ℓ)} {as : List α}
    (h : ∀ a ∈ as, Balanced reentrant rank held (f a)) :
    Balanced reentrant rank held (as.flatMap f) := by
  induction as with
  | nil => exact balanced_nil held
  | cons a as ih =>
    rw [List.flatMap_cons]
    exact (h a List.mem_cons_self).append (ih fun b hb => h b (List.mem_cons_of_mem _ hb))

/-- A section under a mutex. -/
theorem Balanced.section {held : List ℓ} {l : ℓ} {a : List (Action ℓ)}
    (hl : Above reentrant rank held l) (ha : Balanced reentrant rank (l :: held) a) :
    Balanced reentrant rank held (.acquire l :: a ++ [.release l]) := by
  have hrelease : after reentrant rank (l :: held) [.release l] = some held := by
    rw [after, if_pos List.mem_cons_self, List.erase_cons_head, after]
  rw [Balanced, List.cons_append, after, if_pos hl, after_append, ha]
  exact hrelease

/-! ## What is held -/

/-- The mutexes have the owners that the threads take themselves to be. -/
structure Agrees (held : Nat → List ℓ) (s : State ℓ) : Prop where
  owner : ∀ l t, (s.mutex l).owner = some t →
    (held t).count l = (s.mutex l).depth ∧ 0 < (s.mutex l).depth
  holds : ∀ l t, l ∈ held t → (s.mutex l).owner = some t

variable (reentrant rank) in
/-- What is left of each script keeps to the order and ends with nothing held. -/
structure Inv (held : Nat → List ℓ) (s : State ℓ) : Prop where
  agrees : Agrees held s
  ordered : ∀ t, after reentrant rank (held t) (s.todo t) = some []

theorem start_inv {scripts : Nat → List (Action ℓ)}
    (h : ∀ t, Balanced reentrant rank [] (scripts t)) :
    Inv reentrant rank (fun _ => []) (start scripts) where
  agrees := ⟨by simp [start], by simp⟩
  ordered := h

theorem count_pos_of_owner {held : Nat → List ℓ} {s : State ℓ} (h : Agrees held s) {l : ℓ} {t : Nat}
    (ho : (s.mutex l).owner = some t) : l ∈ held t := by
  obtain ⟨hcount, hpos⟩ := h.owner l t ho
  exact List.count_pos_iff.mp (hcount ▸ hpos)

theorem Agrees.take {held : Nat → List ℓ} {s : State ℓ} (h : Agrees held s) {l : ℓ} {t : Nat}
    {m : Mutex} (hm : (s.mutex l).take (reentrant l) t = some m) (todo : Nat → List (Action ℓ)) :
    Agrees (update held t (l :: held t)) ⟨todo, update s.mutex l m⟩ := by
  have hothers : ∀ u, u ≠ t → l ∉ held u := by
    intro u hu hl
    rw [Mutex.take, h.holds l u hl] at hm
    simp [hu] at hm
  have hnew : m = ⟨some t, (held t).count l + 1⟩ := by
    unfold Mutex.take at hm
    split at hm
    · next hfree =>
      have hnot : l ∉ held t := fun hl => by simp [h.holds l t hl] at hfree
      rw [List.count_eq_zero_of_not_mem hnot]
      exact (Option.some.inj hm).symm
    · next u hown =>
      split at hm
      · next hu =>
        obtain rfl := hu.1
        rw [(h.owner l u hown).1]
        exact (Option.some.inj hm).symm
      · cases hm
  subst hnew
  constructor
  · intro k u hk
    by_cases hkl : k = l
    · subst hkl
      obtain rfl : t = u := by simpa using hk
      simp
    · have hk' : (s.mutex k).owner = some u := by simpa [hkl] using hk
      obtain ⟨hcount, hpos⟩ := h.owner k u hk'
      have hlk : ¬l = k := fun he => hkl he.symm
      by_cases hu : u = t
      · subst hu
        simp [hkl, hcount, hpos, hlk]
      · simp [hkl, hu, hcount, hpos]
  · intro k u hk
    by_cases hkl : k = l
    · subst hkl
      by_cases hu : u = t
      · simp [hu]
      · exact absurd (by simpa [hu] using hk) (hothers u hu)
    · have hk' : k ∈ held u := by
        by_cases hu : u = t
        · subst hu
          simpa [hkl] using hk
        · simpa [hu] using hk
      simpa [hkl] using h.holds k u hk'

theorem Agrees.give {held : Nat → List ℓ} {s : State ℓ} (h : Agrees held s) {l : ℓ} {t : Nat}
    {m : Mutex} (hm : (s.mutex l).give t = some m) (todo : Nat → List (Action ℓ)) :
    Agrees (update held t ((held t).erase l)) ⟨todo, update s.mutex l m⟩ := by
  unfold Mutex.give at hm
  split at hm
  case isFalse => cases hm
  case isTrue hown =>
    obtain ⟨hcount, hpos⟩ := h.owner l t hown
    have hself : ((held t).erase l).count l = (s.mutex l).depth - 1 := by
      rw [List.count_erase_self, hcount]
    have hothers : ∀ u, u ≠ t → l ∉ held u := by
      intro u hu hl
      exact hu (Option.some.inj ((h.holds l u hl).symm.trans hown))
    constructor
    · intro k u hk
      by_cases hkl : k = l
      · subst hkl
        split at hm
        · obtain rfl := Option.some.inj hm
          simp at hk
        · obtain rfl := Option.some.inj hm
          obtain rfl : t = u := by simpa using hk
          simp only [update_self]
          omega
      · have hk' : (s.mutex k).owner = some u := by simpa [hkl] using hk
        obtain ⟨hk₁, hk₂⟩ := h.owner k u hk'
        by_cases hu : u = t
        · subst hu
          simp [hkl, hk₁, hk₂, List.count_erase_of_ne hkl]
        · simp [hkl, hu, hk₁, hk₂]
    · intro k u hk
      by_cases hkl : k = l
      · subst hkl
        by_cases hu : u = t
        · subst hu
          have hin : 0 < ((held u).erase k).count k := List.count_pos_iff.mpr (by simpa using hk)
          have hone : (s.mutex k).depth ≠ 1 := by omega
          obtain rfl := Option.some.inj ((if_neg hone).symm.trans hm)
          simp
        · exact absurd (by simpa [hu] using hk) (hothers u hu)
      · have hk' : k ∈ held u := by
          by_cases hu : u = t
          · subst hu
            exact List.mem_of_mem_erase (by simpa using hk)
          · simpa [hu] using hk
        simpa [hkl] using h.holds k u hk'

/-- A step keeps the invariant, for what is held after it. -/
theorem step_inv {held : Nat → List ℓ} {s s' : State ℓ} {t : Nat} (hs : Inv reentrant rank held s)
    (h : step reentrant s t = some s') : ∃ held', Inv reentrant rank held' s' := by
  have hordered := hs.ordered t
  unfold step at h
  split at h
  · cases h
  · next l rest htodo =>
    obtain ⟨m, hm, rfl⟩ := Option.map_eq_some_iff.mp h
    rw [htodo, after] at hordered
    split at hordered
    · refine ⟨_, hs.agrees.take hm _, fun u => ?_⟩
      by_cases hu : u = t
      · subst hu
        simpa using hordered
      · simpa [hu] using hs.ordered u
    · cases hordered
  · next l rest htodo =>
    obtain ⟨m, hm, rfl⟩ := Option.map_eq_some_iff.mp h
    rw [htodo, after] at hordered
    split at hordered
    · refine ⟨_, hs.agrees.give hm _, fun u => ?_⟩
      by_cases hu : u = t
      · subst hu
        simpa using hordered
      · simpa [hu] using hs.ordered u
    · cases hordered

/-! ## Progress -/

/-- A thread that is not through can move, or it waits for a mutex of another, above all those it
holds. -/
theorem moves_or_waits {held : Nat → List ℓ} {s : State ℓ} (hs : Inv reentrant rank held s)
    {t : Nat} (ht : s.todo t ≠ []) : (step reentrant s t).isSome ∨
      ∃ l u, l ∈ held u ∧ ∀ k ∈ held t, rank k < rank l := by
  have hordered := hs.ordered t
  cases htodo : s.todo t with
  | nil => exact absurd htodo ht
  | cons x rest =>
    rw [htodo] at hordered
    cases x with
    | acquire l =>
      rw [after] at hordered
      split at hordered
      · next habove =>
        cases hown : (s.mutex l).owner with
        | none => exact .inl (by simp [step, htodo, Mutex.take, hown])
        | some u =>
          cases habove with
          | inl hranks => exact .inr ⟨l, u, count_pos_of_owner hs.agrees hown, hranks⟩
          | inr hagain =>
            have ht : (s.mutex l).owner = some t := hs.agrees.holds l t hagain.1
            exact .inl (by simp [step, htodo, Mutex.take, ht, hagain.2])
      · cases hordered
    | release l =>
      rw [after] at hordered
      split at hordered
      · next hl =>
        have hown := hs.agrees.holds l t hl
        left
        rw [step, htodo]
        by_cases hone : (s.mutex l).depth = 1 <;> simp [Mutex.give, hown, hone]
      · cases hordered

/-- Whoever holds a mutex can move, or someone can who holds a higher one. -/
theorem holder_progress {held : Nat → List ℓ} {s : State ℓ} (hs : Inv reentrant rank held s)
    {n : Nat} (hn : ∀ l, rank l < n) (k : Nat) {t : Nat} {l : ℓ} (hl : l ∈ held t)
    (hk : n ≤ rank l + k) : ∃ u, (step reentrant s u).isSome := by
  induction k generalizing t l with
  | zero =>
    have hlt := hn l
    omega
  | succ k ih =>
    have ht : s.todo t ≠ [] := by
      intro hnil
      have hordered := hs.ordered t
      rw [hnil, after] at hordered
      rw [Option.some.inj hordered] at hl
      cases hl
    rcases moves_or_waits hs ht with hmove | ⟨l', u, hl', habove⟩
    · exact ⟨t, hmove⟩
    · have hlt := habove l hl
      exact ih hl' (by omega)

theorem progress {held : Nat → List ℓ} {s : State ℓ} (hs : Inv reentrant rank held s) {n : Nat}
    (hn : ∀ l, rank l < n) {t : Nat} (ht : s.todo t ≠ []) :
    ∃ u, (step reentrant s u).isSome := by
  rcases moves_or_waits hs ht with hmove | ⟨l, u, hl, -⟩
  · exact ⟨t, hmove⟩
  · exact holder_progress hs hn n hl (Nat.le_add_left n _)

/-- What a thread is about to give back, it holds. -/
theorem Inv.owner_of_release {held : Nat → List ℓ} {s : State ℓ} (hs : Inv reentrant rank held s)
    {t : Nat} {l : ℓ} {rest : List (Action ℓ)} (ht : s.todo t = .release l :: rest) :
    (s.mutex l).owner = some t := by
  have hordered := hs.ordered t
  rw [ht, after] at hordered
  split at hordered
  · next hl => exact hs.agrees.holds l t hl
  · cases hordered

/-- Balanced scripts release only what they hold and never bring each other to a stop: as long as a
thread is not through, some thread can move. -/
theorem run_progress {scripts : Nat → List (Action ℓ)} {n : Nat} (hn : ∀ l, rank l < n)
    (hscripts : ∀ t, Balanced reentrant rank [] (scripts t)) {ts : List Nat} {s : State ℓ}
    (h : run (step reentrant) (start scripts) ts = some s) :
    (∀ t l rest, s.todo t = .release l :: rest → (s.mutex l).owner = some t) ∧
      ∀ t, s.todo t ≠ [] → ∃ u, (step reentrant s u).isSome := by
  have hstep : ∀ s t s', (∃ held, Inv reentrant rank held s) → step reentrant s t = some s' →
      ∃ held, Inv reentrant rank held s' := fun s t s' hs h => step_inv hs.choose_spec h
  obtain ⟨held, hinv⟩ := run_invariant hstep ⟨_, start_inv hscripts⟩ h
  exact ⟨fun t l rest ht => hinv.owner_of_release ht, fun t ht => progress hinv hn ht⟩

end

end LockOrder
