import Mathlib.Data.List.Nodup
import Mathlib.Logic.Function.Basic
import Rcllean.Runs
import Rcllean.SwapRemoval

/-!
# Contexts and signals

The handler of a signal only posts a semaphore. A thread of its own waits for
it and then shuts down every context in a table, under a lock that the
contexts take to enter the table and to leave it. The signal may come at any
point of any number of calls that create, shut down and destroy contexts, and
rcl may refuse to shut one down.
-/
namespace Signals

open Function Runs SwapRemoval

/-- `RCLLEAN_MAX_CONTEXTS`. -/
def maxContexts : Nat := 64

structure Context where
  /-- `hdr.valid`. -/
  valid : Bool
  /-- `rcl_context_is_valid`. -/
  rclValid : Bool
  /-- The constructor has returned the handle. -/
  known : Bool
  /-- `rcl_context_fini` has run; the memory goes after it. -/
  finished : Bool
  deriving DecidableEq

/-- `g_contexts` up to `g_context_count`. -/
structure Table where
  contexts : List Nat
  fits : contexts.length ≤ maxContexts

def Table.register (t : Table) (c : Nat) : Table :=
  if h : t.contexts.length < maxContexts then
    ⟨t.contexts ++ [c], by rw [List.length_append, List.length_singleton]; exact h⟩
  else t

def Table.unregister (t : Table) (c : Nat) : Table :=
  ⟨removeFirst t.contexts c, Nat.le_trans (length_removeFirst_le t.contexts c) t.fits⟩

inductive Party where
  | signal
  | call (u : Nat)
  deriving DecidableEq

/-- What a call does next. -/
inductive Pc where
  | idle
  /-- `rcllean_signal_register`: lock, append, unlock. -/
  | registering (c : Nat) (install : Bool)
  | appending (c : Nat) (install : Bool)
  | registered (c : Nat) (install : Bool)
  | installing (c : Nat)
  /-- `rcllean_context_shutdown`: the test and `rcl_shutdown`. -/
  | testing (c : Nat)
  | shutting (c : Nat)
  /-- `rcllean_context_fini`: lock, remove, unlock, shut down, finish. -/
  | unregistering (c : Nat)
  | removing (c : Nat)
  | unregistered (c : Nat)
  | finishing (c : Nat)
  | finalizing (c : Nat)
  | returned
  deriving DecidableEq

/-- What the signal thread does next. -/
inductive Thread where
  | waiting
  | woken
  | walking (i : Nat)
  | shutting (i : Nat) (c : Nat)
  deriving DecidableEq

structure State extends Threads Nat Pc where
  contexts : Nat → Option Context
  table : Table
  holder : Option Party
  /-- The handlers stand and the thread runs. -/
  installed : Bool
  /-- The value of the semaphore. -/
  posted : Nat
  thread : Thread

def start : State := ⟨⟨fun _ => .idle⟩, fun _ => none, ⟨[], by decide⟩, none, false, 0, .waiting⟩

abbrev State.setPc (s : State) (u : Nat) (p : Pc) : State :=
  { s with toThreads := s.toThreads.setPc u p }

def State.setContext (s : State) (c : Nat) (x : Context) : State :=
  { s with contexts := update s.contexts c (some x) }

/-- The next step of a call; where it is in `rcl_shutdown`, that takes effect. -/
def go (s : State) (u : Nat) : Option State :=
  match s.pc u with
  | .idle => none
  | .registering c install =>
    if s.holder = none then
      some ({ s with holder := some (.call u) }.setPc u (.appending c install))
    else none
  | .appending c install =>
    some ({ s with table := s.table.register c }.setPc u (.registered c install))
  | .registered c install =>
    if install then some ({ s with holder := none }.setPc u (.installing c))
    else (s.contexts c).map fun x =>
      ({ s with holder := none }.setContext c { x with known := true }).setPc u .returned
  | .installing c => (s.contexts c).map fun x =>
      ({ s with installed := true }.setContext c { x with known := true }).setPc u .returned
  | .testing c => (s.contexts c).map fun x =>
      s.setPc u (if x.valid && x.rclValid then .shutting c else .returned)
  | .shutting c => (s.contexts c).map fun x =>
      (s.setContext c { x with rclValid := false }).setPc u .returned
  | .unregistering c =>
    if s.holder = none then some ({ s with holder := some (.call u) }.setPc u (.removing c))
    else none
  | .removing c => some ({ s with table := s.table.unregister c }.setPc u (.unregistered c))
  | .unregistered c => some ({ s with holder := none }.setPc u (.finishing c))
  | .finishing c => (s.contexts c).map fun x =>
      (s.setContext c { x with rclValid := false }).setPc u (.finalizing c)
  | .finalizing c => (s.contexts c).map fun x =>
      (s.setContext c { x with finished := true }).setPc u .returned
  | .returned => none

/-- The next step of the signal thread, with `rcl_shutdown` as for a call. -/
def goThread (s : State) : Option State :=
  match s.thread with
  | .waiting =>
    if s.posted = 0 then none else some { s with posted := s.posted - 1, thread := .woken }
  | .woken =>
    if s.holder = none then some { s with holder := some .signal, thread := .walking 0 } else none
  | .walking i => match s.table.contexts[i]? with
    | none => some { s with holder := none, thread := .waiting }
    | some c => (s.contexts c).map fun x =>
        { s with thread := if x.valid && x.rclValid then .shutting i c else .walking (i + 1) }
  | .shutting i c => (s.contexts c).map fun x =>
      { s.setContext c { x with rclValid := false } with thread := .walking (i + 1) }

/-- `rcl_shutdown` fails and the context stays as it is: a call on a context raises, a teardown and
the signal thread drop the error. -/
def refuse (s : State) : Party → Option State
  | .call u => match s.pc u with
    | .shutting _ => some (s.setPc u .returned)
    | .finishing c => some (s.setPc u (.finalizing c))
    | _ => none
  | .signal => match s.thread with
    | .shutting i _ => some { s with thread := .walking (i + 1) }
    | _ => none

inductive Move where
  /-- `rcllean_context_init` up to `rcl_init`, which may fail; then the handle is dropped. -/
  | init (u c : Nat) (ok install : Bool)
  | shutdown (u c : Nat)
  /-- `rcllean_handle_destroy`, or the last reference going. -/
  | destroy (u c : Nat)
  | go (u : Nat)
  | signal
  | thread
  | refuse (p : Party)
  deriving DecidableEq

def step (s : State) : Move → Option State
  | .init u c ok install =>
    if s.pc u = .idle ∧ s.contexts c = none then
      if ok then some ((s.setContext c ⟨true, true, false, false⟩).setPc u (.registering c install))
      else some ((s.setContext c ⟨false, false, false, false⟩).setPc u (.unregistering c))
    else none
  | .shutdown u c => match s.contexts c with
    | some x => if s.pc u = .idle ∧ x.known = true then some (s.setPc u (.testing c)) else none
    | none => none
  | .destroy u c => match s.contexts c with
    | some x =>
      if s.pc u = .idle ∧ x.known = true then
        if x.valid then some ((s.setContext c { x with valid := false }).setPc u (.unregistering c))
        else some (s.setPc u .returned)
      else none
    | none => none
  | .go u => go s u
  | .signal => if s.installed then some { s with posted := s.posted + 1 } else none
  | .thread => if s.installed then goThread s else none
  | .refuse p => refuse s p

/-! ## What one step does -/

/-- The step of a call, one constructor a branch. -/
inductive Step (s : State) (u : Nat) : State → Prop where
  | lockIn {c install} (hpc : s.pc u = .registering c install) (hfree : s.holder = none) :
      Step s u ({ s with holder := some (.call u) }.setPc u (.appending c install))
  | append {c install} (hpc : s.pc u = .appending c install) :
      Step s u ({ s with table := s.table.register c }.setPc u (.registered c install))
  | unlockIn {c} (hpc : s.pc u = .registered c true) :
      Step s u ({ s with holder := none }.setPc u (.installing c))
  | publish {c x} (hpc : s.pc u = .registered c false) (hx : s.contexts c = some x) :
      Step s u (({ s with holder := none }.setContext c { x with known := true }).setPc u .returned)
  | install {c x} (hpc : s.pc u = .installing c) (hx : s.contexts c = some x) :
      Step s u
        (({ s with installed := true }.setContext c { x with known := true }).setPc u .returned)
  | test {c x} (hpc : s.pc u = .testing c) (hx : s.contexts c = some x) :
      Step s u (s.setPc u (if x.valid && x.rclValid then .shutting c else .returned))
  | shut {c x} (hpc : s.pc u = .shutting c) (hx : s.contexts c = some x) :
      Step s u ((s.setContext c { x with rclValid := false }).setPc u .returned)
  | lockOut {c} (hpc : s.pc u = .unregistering c) (hfree : s.holder = none) :
      Step s u ({ s with holder := some (.call u) }.setPc u (.removing c))
  | remove {c} (hpc : s.pc u = .removing c) :
      Step s u ({ s with table := s.table.unregister c }.setPc u (.unregistered c))
  | unlockOut {c} (hpc : s.pc u = .unregistered c) :
      Step s u ({ s with holder := none }.setPc u (.finishing c))
  | down {c x} (hpc : s.pc u = .finishing c) (hx : s.contexts c = some x) :
      Step s u ((s.setContext c { x with rclValid := false }).setPc u (.finalizing c))
  | finish {c x} (hpc : s.pc u = .finalizing c) (hx : s.contexts c = some x) :
      Step s u ((s.setContext c { x with finished := true }).setPc u .returned)

theorem go_step {s t : State} {u : Nat} (h : go s u = some t) : Step s u t := by
  unfold go at h
  split at h
  · cases h
  · next c install hpc =>
    split at h
    · next hfree => exact Option.some.inj h ▸ .lockIn hpc hfree
    · cases h
  · next c install hpc => exact Option.some.inj h ▸ .append hpc
  · next c install hpc =>
    split at h
    · next hinstall =>
      obtain rfl := hinstall
      exact Option.some.inj h ▸ .unlockIn hpc
    · next hno =>
      obtain ⟨x, hx, rfl⟩ := Option.map_eq_some_iff.mp h
      obtain rfl : install = false := Bool.eq_false_iff.mpr hno
      exact .publish hpc hx
  · next c hpc =>
    obtain ⟨x, hx, rfl⟩ := Option.map_eq_some_iff.mp h
    exact .install hpc hx
  · next c hpc =>
    obtain ⟨x, hx, rfl⟩ := Option.map_eq_some_iff.mp h
    exact .test hpc hx
  · next c hpc =>
    obtain ⟨x, hx, rfl⟩ := Option.map_eq_some_iff.mp h
    exact .shut hpc hx
  · next c hpc =>
    split at h
    · next hfree => exact Option.some.inj h ▸ .lockOut hpc hfree
    · cases h
  · next c hpc => exact Option.some.inj h ▸ .remove hpc
  · next c hpc => exact Option.some.inj h ▸ .unlockOut hpc
  · next c hpc =>
    obtain ⟨x, hx, rfl⟩ := Option.map_eq_some_iff.mp h
    exact .down hpc hx
  · next c hpc =>
    obtain ⟨x, hx, rfl⟩ := Option.map_eq_some_iff.mp h
    exact .finish hpc hx
  · cases h

/-! ## Who may touch a context -/

/-- The context that the call is bringing up or tearing down. -/
def Pc.owns : Pc → Option Nat
  | .registering c _ => some c
  | .appending c _ => some c
  | .registered c _ => some c
  | .installing c => some c
  | .unregistering c => some c
  | .removing c => some c
  | .unregistered c => some c
  | .finishing c => some c
  | .finalizing c => some c
  | _ => none

/-- What its owner knows of a context. -/
def Stage (x : Context) (listed : Prop) : Pc → Prop
  | .registering _ _ => x.valid = true ∧ x.known = false ∧ x.finished = false ∧ ¬listed
  | .appending _ _ => x.valid = true ∧ x.known = false ∧ x.finished = false ∧ ¬listed
  | .registered _ _ => x.valid = true ∧ x.known = false ∧ x.finished = false
  | .installing _ => x.valid = true ∧ x.known = false ∧ x.finished = false
  | .unregistering _ => x.valid = false ∧ x.finished = false
  | .removing _ => x.valid = false ∧ x.finished = false
  | .unregistered _ => x.valid = false ∧ x.finished = false ∧ ¬listed
  | .finishing _ => x.valid = false ∧ x.finished = false ∧ ¬listed
  | .finalizing _ => x.valid = false ∧ x.finished = false ∧ ¬listed
  | _ => True

/-- Whether the context is down is no concern of its owner. -/
theorem Stage.rclValid {x : Context} {listed : Prop} {p : Pc} (h : Stage x listed p) (b : Bool) :
    Stage { x with rclValid := b } listed p := by
  cases p <;> exact h

/-- Each context has at most one owner, and those in the table are alive. -/
structure Owned (s : State) : Prop where
  nodup : s.table.contexts.Nodup
  alive : ∀ c ∈ s.table.contexts, ∃ x, s.contexts c = some x ∧ x.finished = false
  stage : ∀ u c, (s.pc u).owns = some c →
    ∃ x, s.contexts c = some x ∧ Stage x (c ∈ s.table.contexts) (s.pc u)
  unique : ∀ u v c, (s.pc u).owns = some c → (s.pc v).owns = some c → u = v
  unfinished : ∀ c x, s.contexts c = some x → x.valid = true → x.finished = false

/-- A call moves on with a context that no other owns. -/
theorem Owned.own {s t : State} (hs : Owned s) {u c : Nat} {p : Pc} {x : Context}
    (hothers : ∀ v, v ≠ u → (s.pc v).owns ≠ some c) (hpc : t.pc = update s.pc u p)
    (hp : p.owns = some c ∨ p.owns = none) (hx : t.contexts c = some x)
    (hrest : ∀ d, d ≠ c → t.contexts d = s.contexts d)
    (htable : ∀ d, d ≠ c → (d ∈ t.table.contexts ↔ d ∈ s.table.contexts))
    (hnodup : t.table.contexts.Nodup) (hstage : Stage x (c ∈ t.table.contexts) p)
    (halive : c ∈ t.table.contexts ∨ x.valid = true → x.finished = false) : Owned t := by
  have hown : ∀ v d, (t.pc v).owns = some d → v = u ∧ d = c ∧ p.owns = some c ∨
      v ≠ u ∧ d ≠ c ∧ t.pc v = s.pc v ∧ (s.pc v).owns = some d := by
    intro v d hd
    by_cases hv : v = u
    · subst hv
      rw [hpc, update_self] at hd
      cases hp with
      | inl hp =>
        rw [hp] at hd
        exact .inl ⟨rfl, (Option.some.inj hd).symm, hp⟩
      | inr hp => rw [hp] at hd; cases hd
    · have hsame : t.pc v = s.pc v := by rw [hpc, update_of_ne hv]
      rw [hsame] at hd
      refine .inr ⟨hv, fun he => hothers v hv (he ▸ hd), hsame, hd⟩
  constructor
  · exact hnodup
  · intro d hd
    by_cases hdc : d = c
    · subst hdc
      exact ⟨x, hx, halive (.inl hd)⟩
    · rw [hrest d hdc]
      exact hs.alive d ((htable d hdc).mp hd)
  · intro v d hd
    rcases hown v d hd with ⟨rfl, rfl, -⟩ | ⟨-, hdc, hsame, hd⟩
    · rw [hpc, update_self]
      exact ⟨x, hx, hstage⟩
    · rw [hsame, hrest d hdc, propext (htable d hdc)]
      exact hs.stage v d hd
  · intro v w d hv hw
    rcases hown v d hv with ⟨rfl, rfl, -⟩ | ⟨hvu, hdc, -, hv⟩
    · rcases hown w d hw with ⟨rfl, -, -⟩ | ⟨-, hdc, -⟩
      · rfl
      · exact absurd rfl hdc
    · rcases hown w d hw with ⟨rfl, rfl, -⟩ | ⟨-, -, -, hw⟩
      · exact absurd rfl hdc
      · exact hs.unique v w d hv hw
  · intro d y hy hvalid
    by_cases hdc : d = c
    · subst hdc
      obtain rfl := Option.some.inj (hx.symm.trans hy)
      exact halive (.inr hvalid)
    · exact hs.unfinished d y (hrest d hdc ▸ hy) hvalid

/-- Contexts go down at most. -/
def Lowered (s t : State) : Prop := ∀ c, t.contexts c = s.contexts c ∨
  ∃ x, s.contexts c = some x ∧ t.contexts c = some { x with rclValid := false }

theorem lowered_setContext {s : State} {c : Nat} {x : Context} (hx : s.contexts c = some x) :
    Lowered s (s.setContext c { x with rclValid := false }) := by
  intro d
  by_cases hd : d = c
  · subst hd
    exact .inr ⟨x, hx, update_self ..⟩
  · exact .inl (update_of_ne hd _ _)

/-- That contexts go down concerns no owner. -/
theorem Owned.lower {s t : State} (hs : Owned s) (hctx : Lowered s t) (ht : t.table = s.table)
    (hpc : ∀ v, (t.pc v).owns ≠ none → t.pc v = s.pc v) : Owned t := by
  have hcontext : ∀ c x, s.contexts c = some x →
      ∃ b, t.contexts c = some { x with rclValid := b } := by
    intro c x hx
    rcases hctx c with hsame | ⟨y, hy, hdown⟩
    · exact ⟨x.rclValid, hsame.trans hx⟩
    · obtain rfl := Option.some.inj (hx.symm.trans hy)
      exact ⟨false, hdown⟩
  constructor
  · rw [ht]
    exact hs.nodup
  · intro c hc
    obtain ⟨x, hx, hfin⟩ := hs.alive c (ht ▸ hc)
    obtain ⟨b, hx'⟩ := hcontext c x hx
    exact ⟨_, hx', hfin⟩
  · intro v c hv
    have hsame := hpc v (by simp [hv])
    rw [hsame] at hv ⊢
    obtain ⟨x, hx, hstage⟩ := hs.stage v c hv
    obtain ⟨b, hx'⟩ := hcontext c x hx
    rw [ht]
    exact ⟨_, hx', hstage.rclValid b⟩
  · intro v w c hv hw
    rw [hpc v (by simp [hv])] at hv
    rw [hpc w (by simp [hw])] at hw
    exact hs.unique v w c hv hw
  · intro c x hx hvalid
    rcases hctx c with hsame | ⟨y, hy, hdown⟩
    · exact hs.unfinished c x (hsame ▸ hx) hvalid
    · obtain rfl := Option.some.inj (hx.symm.trans hdown)
      exact hs.unfinished c y hy hvalid

/-- A call that owns nothing afterwards is no concern either. -/
theorem owns_setPc {s : State} {u : Nat} {p : Pc} (hp : p.owns = none) (v : Nat)
    (hv : ((s.setPc u p).pc v).owns ≠ none) : (s.setPc u p).pc v = s.pc v := by
  by_cases hvu : v = u
  · subst hvu
    rw [setPc_pc_self] at hv
    exact absurd hp hv
  · exact setPc_pc_of_ne _ p hvu

theorem Owned.others {s : State} (hs : Owned s) {u c : Nat} (hu : (s.pc u).owns = some c) (v : Nat)
    (hv : v ≠ u) : (s.pc v).owns ≠ some c := fun h => hv (hs.unique v u c h hu)

theorem mem_register {t : Table} {c d : Nat} (hd : d ≠ c) :
    d ∈ (t.register c).contexts ↔ d ∈ t.contexts := by
  unfold Table.register
  split <;> simp [hd]

theorem nodup_register {t : Table} {c : Nat} (h : t.contexts.Nodup) (hc : c ∉ t.contexts) :
    (t.register c).contexts.Nodup := by
  unfold Table.register
  split
  · rw [List.nodup_append]
    exact ⟨h, List.nodup_singleton c, fun a ha b hb => by
      rintro rfl
      exact hc (List.mem_singleton.mp hb ▸ ha)⟩
  · exact h

theorem mem_unregister {t : Table} {c d : Nat} (hd : d ≠ c) :
    d ∈ (t.unregister c).contexts ↔ d ∈ t.contexts := mem_removeFirst_of_ne hd

theorem not_mem_unregister {t : Table} {c : Nat} (h : t.contexts.Nodup) :
    c ∉ (t.unregister c).contexts := by
  intro hc
  have hcount := mem_removeFirst_self.mp hc
  have hle := List.nodup_iff_count_le_one.mp h c
  omega

theorem nodup_unregister {t : Table} {c : Nat} (h : t.contexts.Nodup) :
    (t.unregister c).contexts.Nodup :=
  (removeFirst_perm_erase _ _).nodup_iff.mpr (h.erase c)

/-- Steps of calls keep each context with one owner. -/
theorem Step.owned {s t : State} {u : Nat} (hs : Owned s) (h : Step s u t) : Owned t := by
  have hstage : ∀ {c p}, s.pc u = p → p.owns = some c → (∀ v, v ≠ u → (s.pc v).owns ≠ some c) ∧
      ∃ x, s.contexts c = some x ∧ Stage x (c ∈ s.table.contexts) p := by
    intro c p hpc hp
    have hu : (s.pc u).owns = some c := hpc ▸ hp
    obtain ⟨x, hx, hstage⟩ := hs.stage u c hu
    exact ⟨hs.others hu, x, hx, hpc ▸ hstage⟩
  cases h with
  | lockIn hpc hfree =>
    obtain ⟨hothers, x, hx, hstage⟩ := hstage hpc rfl
    exact hs.own hothers rfl (.inl rfl) hx (fun _ _ => rfl) (fun _ _ => .rfl) hs.nodup hstage
      fun _ => hstage.2.2.1
  | append hpc =>
    obtain ⟨hothers, x, hx, hstage⟩ := hstage hpc rfl
    exact hs.own hothers rfl (.inl rfl) hx (fun _ _ => rfl) (fun d hd => mem_register hd)
      (nodup_register hs.nodup hstage.2.2.2) ⟨hstage.1, hstage.2.1, hstage.2.2.1⟩
      fun _ => hstage.2.2.1
  | unlockIn hpc =>
    obtain ⟨hothers, x, hx, hstage⟩ := hstage hpc rfl
    exact hs.own hothers rfl (.inl rfl) hx (fun _ _ => rfl) (fun _ _ => .rfl) hs.nodup hstage
      fun _ => hstage.2.2
  | publish hpc hx | install hpc hx =>
    obtain ⟨hothers, y, hy, hstage⟩ := hstage hpc rfl
    obtain rfl := Option.some.inj (hx.symm.trans hy)
    exact hs.own hothers rfl (.inr rfl) (update_self ..) (fun d hd => update_of_ne hd _ _)
      (fun _ _ => .rfl) hs.nodup trivial fun _ => hstage.2.2
  | test hpc hx =>
    refine hs.lower (fun _ => .inl rfl) rfl (owns_setPc ?_)
    split <;> rfl
  | shut hpc hx => exact hs.lower (lowered_setContext hx) rfl (owns_setPc rfl)
  | lockOut hpc hfree =>
    obtain ⟨hothers, x, hx, hstage⟩ := hstage hpc rfl
    exact hs.own hothers rfl (.inl rfl) hx (fun _ _ => rfl) (fun _ _ => .rfl) hs.nodup hstage
      fun _ => hstage.2
  | remove hpc =>
    obtain ⟨hothers, x, hx, hstage⟩ := hstage hpc rfl
    exact hs.own hothers rfl (.inl rfl) hx (fun _ _ => rfl) (fun d hd => mem_unregister hd)
      (nodup_unregister hs.nodup) ⟨hstage.1, hstage.2, not_mem_unregister hs.nodup⟩
      fun _ => hstage.2
  | unlockOut hpc =>
    obtain ⟨hothers, x, hx, hstage⟩ := hstage hpc rfl
    exact hs.own hothers rfl (.inl rfl) hx (fun _ _ => rfl) (fun _ _ => .rfl) hs.nodup hstage
      fun _ => hstage.2.1
  | down hpc hx =>
    obtain ⟨hothers, y, hy, hstage⟩ := hstage hpc rfl
    obtain rfl := Option.some.inj (hx.symm.trans hy)
    exact hs.own hothers rfl (.inl rfl) (update_self ..) (fun d hd => update_of_ne hd _ _)
      (fun _ _ => .rfl) hs.nodup hstage fun _ => hstage.2.1
  | finish hpc hx =>
    obtain ⟨hothers, y, hy, hstage⟩ := hstage hpc rfl
    obtain rfl := Option.some.inj (hx.symm.trans hy)
    exact hs.own hothers rfl (.inr rfl) (update_self ..) (fun d hd => update_of_ne hd _ _)
      (fun _ _ => .rfl) hs.nodup trivial fun h => h.elim (fun hc => absurd hc hstage.2.2)
        fun hvalid => by simp [hstage.1] at hvalid

/-- The step of the signal thread, one constructor a branch. -/
inductive Thread.Step (s : State) : State → Prop where
  | wake (hpc : s.thread = .waiting) (hposted : s.posted ≠ 0) :
      Step s { s with posted := s.posted - 1, thread := .woken }
  | lock (hpc : s.thread = .woken) (hfree : s.holder = none) :
      Step s { s with holder := some .signal, thread := .walking 0 }
  | unlock {i} (hpc : s.thread = .walking i) (hend : s.table.contexts[i]? = none) :
      Step s { s with holder := none, thread := .waiting }
  | test {i c x} (hpc : s.thread = .walking i) (hc : s.table.contexts[i]? = some c)
      (hx : s.contexts c = some x) : Step s
        { s with thread := if x.valid && x.rclValid then .shutting i c else .walking (i + 1) }
  | shut {i c x} (hpc : s.thread = .shutting i c) (hx : s.contexts c = some x) :
      Step s { s.setContext c { x with rclValid := false } with thread := .walking (i + 1) }

theorem goThread_step {s t : State} (h : goThread s = some t) : Thread.Step s t := by
  unfold goThread at h
  split at h
  · next hpc =>
    split at h
    · cases h
    · next hposted => exact Option.some.inj h ▸ .wake hpc hposted
  · next hpc =>
    split at h
    · next hfree => exact Option.some.inj h ▸ .lock hpc hfree
    · cases h
  · next i hpc =>
    split at h
    · next hend => exact Option.some.inj h ▸ .unlock hpc hend
    · next c hc =>
      obtain ⟨x, hx, rfl⟩ := Option.map_eq_some_iff.mp h
      exact .test hpc hc hx
  · next i c hpc =>
    obtain ⟨x, hx, rfl⟩ := Option.map_eq_some_iff.mp h
    exact .shut hpc hx

/-- The moves, one constructor a branch. -/
inductive Moved (s : State) : Move → State → Prop where
  | up {u c install} (hpc : s.pc u = .idle) (hnew : s.contexts c = none) :
      Moved s (.init u c true install)
        ((s.setContext c ⟨true, true, false, false⟩).setPc u (.registering c install))
  | failed {u c install} (hpc : s.pc u = .idle) (hnew : s.contexts c = none) :
      Moved s (.init u c false install)
        ((s.setContext c ⟨false, false, false, false⟩).setPc u (.unregistering c))
  | shutdown {u c x} (hpc : s.pc u = .idle) (hx : s.contexts c = some x) :
      Moved s (.shutdown u c) (s.setPc u (.testing c))
  | destroy {u c x} (hpc : s.pc u = .idle) (hx : s.contexts c = some x) (hknown : x.known = true)
      (hvalid : x.valid = true) : Moved s (.destroy u c)
        ((s.setContext c { x with valid := false }).setPc u (.unregistering c))
  | again {u c x} (hpc : s.pc u = .idle) (hx : s.contexts c = some x) :
      Moved s (.destroy u c) (s.setPc u .returned)
  | call {u t} (h : Step s u t) : Moved s (.go u) t
  | signal : Moved s .signal { s with posted := s.posted + 1 }
  | thread {t} (h : Thread.Step s t) : Moved s .thread t
  | raised {u c} (hpc : s.pc u = .shutting c) : Moved s (.refuse (.call u)) (s.setPc u .returned)
  | dropped {u c} (hpc : s.pc u = .finishing c) :
      Moved s (.refuse (.call u)) (s.setPc u (.finalizing c))
  | passed {i c} (hpc : s.thread = .shutting i c) :
      Moved s (.refuse .signal) { s with thread := .walking (i + 1) }

theorem step_moved {s t : State} {m : Move} (h : step s m = some t) : Moved s m t := by
  cases m with
  | init u c ok install =>
    simp only [step] at h
    split at h
    · next hfree =>
      cases ok with
      | true => exact Option.some.inj h ▸ .up hfree.1 hfree.2
      | false => exact Option.some.inj h ▸ .failed hfree.1 hfree.2
    · cases h
  | shutdown u c =>
    cases hx : s.contexts c with
    | none => simp [step, hx] at h
    | some x =>
      simp only [step, hx] at h
      split at h
      · next hidle => exact Option.some.inj h ▸ .shutdown hidle.1 hx
      · cases h
  | destroy u c =>
    cases hx : s.contexts c with
    | none => simp [step, hx] at h
    | some x =>
      simp only [step, hx] at h
      split at h
      · next hidle =>
        split at h
        · next hvalid => exact Option.some.inj h ▸ .destroy hidle.1 hx hidle.2 hvalid
        · exact Option.some.inj h ▸ .again hidle.1 hx
      · cases h
  | go u => exact .call (go_step h)
  | signal =>
    simp only [step] at h
    split at h
    · exact Option.some.inj h ▸ .signal
    · cases h
  | thread =>
    simp only [step] at h
    split at h
    · exact .thread (goThread_step h)
    · cases h
  | refuse p => cases p with
    | call u =>
      simp only [step, refuse] at h
      split at h
      · next hpc => exact Option.some.inj h ▸ .raised hpc
      · next hpc => exact Option.some.inj h ▸ .dropped hpc
      · cases h
    | signal =>
      simp only [step, refuse] at h
      split at h
      · next hpc => exact Option.some.inj h ▸ .passed hpc
      · cases h

/-- A known context that is valid has no owner. -/
theorem Owned.free {s : State} (hs : Owned s) {c : Nat} {x : Context} (hx : s.contexts c = some x)
    (hknown : x.known = true) (hvalid : x.valid = true) (v : Nat) : (s.pc v).owns ≠ some c := by
  intro hv
  obtain ⟨y, hy, hstage⟩ := hs.stage v c hv
  obtain rfl := Option.some.inj (hx.symm.trans hy)
  cases hp : s.pc v <;> simp_all [Stage, Pc.owns]

theorem Moved.owned {s t : State} {m : Move} (hs : Owned s) (h : Moved s m t) : Owned t := by
  cases h with
  | @up u c install hpc hnew =>
    have hothers : ∀ v, v ≠ u → (s.pc v).owns ≠ some c := by
      intro v _ hv
      obtain ⟨x, hx, -⟩ := hs.stage v c hv
      simp [hnew] at hx
    have hlisted : c ∉ s.table.contexts := by
      intro hc
      obtain ⟨x, hx, -⟩ := hs.alive c hc
      simp [hnew] at hx
    exact hs.own hothers rfl (.inl rfl) (update_self ..) (fun d hd => update_of_ne hd _ _)
      (fun _ _ => .rfl) hs.nodup ⟨rfl, rfl, rfl, hlisted⟩ fun _ => rfl
  | @failed u c install hpc hnew =>
    have hothers : ∀ v, v ≠ u → (s.pc v).owns ≠ some c := by
      intro v _ hv
      obtain ⟨x, hx, -⟩ := hs.stage v c hv
      simp [hnew] at hx
    exact hs.own hothers rfl (.inl rfl) (update_self ..) (fun d hd => update_of_ne hd _ _)
      (fun _ _ => .rfl) hs.nodup ⟨rfl, rfl⟩ fun _ => rfl
  | shutdown hpc | again hpc | raised hpc =>
    exact hs.lower (fun _ => .inl rfl) rfl (owns_setPc rfl)
  | @dropped u c hpc =>
    have hu : (s.pc u).owns = some c := by rw [hpc]; rfl
    obtain ⟨x, hx, hstage⟩ := hs.stage u c hu
    rw [hpc] at hstage
    exact hs.own (hs.others hu) rfl (.inl rfl) hx (fun _ _ => rfl) (fun _ _ => .rfl) hs.nodup hstage
      fun _ => hstage.2.1
  | passed hpc => exact hs.lower (fun _ => .inl rfl) rfl fun _ _ => rfl
  | @destroy u c x hpc hx hknown hvalid =>
    exact hs.own (fun v _ => hs.free hx hknown hvalid v) rfl (.inl rfl) (update_self ..)
      (fun d hd => update_of_ne hd _ _) (fun _ _ => .rfl) hs.nodup
      ⟨rfl, hs.unfinished c x hx hvalid⟩ fun _ => hs.unfinished c x hx hvalid
  | call h => exact h.owned hs
  | signal => exact ⟨hs.nodup, hs.alive, hs.stage, hs.unique, hs.unfinished⟩
  | thread h =>
    cases h with
    | shut hpc hx => exact hs.lower (lowered_setContext hx) rfl fun _ _ => rfl
    | _ => exact hs.lower (fun _ => .inl rfl) rfl fun _ _ => rfl

/-! ## The lock of the table -/

/-- The call is in its section on the table. -/
def Pc.Critical : Pc → Prop
  | .appending _ _ => True
  | .registered _ _ => True
  | .removing _ => True
  | .unregistered _ => True
  | _ => False

def Thread.Walks : Thread → Prop
  | .walking _ => True
  | .shutting _ _ => True
  | _ => False

structure Inv (s : State) : Prop where
  owned : Owned s
  held : ∀ u, s.holder = some (.call u) ↔ (s.pc u).Critical
  walks : s.holder = some .signal ↔ s.thread.Walks
  at_place : ∀ i c, s.thread = .shutting i c → s.table.contexts[i]? = some c

theorem start_inv : Inv start where
  owned := ⟨List.nodup_nil, by simp [start], by simp [start, Pc.owns], by simp [start, Pc.owns],
    by simp [start]⟩
  held u := by simp [start, Pc.Critical]
  walks := by simp [start, Thread.Walks]
  at_place i c h := by cases h

/-- A call moves on without the lock changing hands. -/
theorem held_setPc {s t : State} (hs : ∀ u, s.holder = some (.call u) ↔ (s.pc u).Critical)
    {u : Nat} {p : Pc} (hpc : t.pc = update s.pc u p) (hh : t.holder = s.holder)
    (hp : p.Critical ↔ (s.pc u).Critical) (v : Nat) :
    t.holder = some (.call v) ↔ (t.pc v).Critical := by
  rw [hh, hs v, hpc]
  by_cases hv : v = u
  · subst hv
    rw [update_self, hp]
  · rw [update_of_ne hv]

theorem held_lock {s t : State} (hs : ∀ u, s.holder = some (.call u) ↔ (s.pc u).Critical)
    (hfree : s.holder = none) {u : Nat} {p : Pc} (hpc : t.pc = update s.pc u p)
    (hh : t.holder = some (.call u)) (hp : p.Critical) (v : Nat) :
    t.holder = some (.call v) ↔ (t.pc v).Critical := by
  rw [hh, hpc]
  by_cases hv : v = u
  · subst hv
    simpa using hp
  · have hidle : ¬(s.pc v).Critical := by simp [← hs v, hfree]
    have hne : u ≠ v := fun he => hv he.symm
    simp [hv, hne, hidle]

theorem held_unlock {s t : State} (hs : ∀ u, s.holder = some (.call u) ↔ (s.pc u).Critical)
    {u : Nat} (hu : (s.pc u).Critical) {p : Pc} (hpc : t.pc = update s.pc u p)
    (hh : t.holder = none) (hp : ¬p.Critical) (v : Nat) :
    t.holder = some (.call v) ↔ (t.pc v).Critical := by
  have hholder := (hs u).mpr hu
  rw [hh, hpc]
  by_cases hv : v = u
  · subst hv
    simpa using hp
  · have hidle : ¬(s.pc v).Critical := by
      rw [← hs v, hholder]
      exact fun he => hv (Party.call.inj (Option.some.inj he)).symm
    simp [hv, hidle]

/-- While a call is in its section, the signal thread is out of its own. -/
theorem Inv.not_walks {s : State} (hs : Inv s) {u : Nat} (hu : (s.pc u).Critical) :
    ¬s.thread.Walks := by
  have hholder := (hs.held u).mpr hu
  rw [← hs.walks, hholder]
  exact fun he => by cases he

theorem Step.inv {s t : State} {u : Nat} (hs : Inv s) (h : Step s u t) : Inv t := by
  have howned := h.owned hs.owned
  cases h with
  | lockIn hpc hfree | lockOut hpc hfree =>
    have hno : ¬s.thread.Walks := by simp [← hs.walks, hfree]
    exact ⟨howned, held_lock hs.held hfree rfl rfl trivial,
      iff_of_false (fun he => by cases he) hno, hs.at_place⟩
  | append hpc | remove hpc =>
    have hu : (s.pc u).Critical := by rw [hpc]; trivial
    refine ⟨howned, held_setPc hs.held rfl rfl (iff_of_true trivial hu), hs.walks, fun i c hi => ?_⟩
    exact absurd (by rw [show s.thread = _ from hi]; trivial) (hs.not_walks hu)
  | unlockIn hpc | publish hpc hx | unlockOut hpc =>
    have hu : (s.pc u).Critical := by rw [hpc]; trivial
    exact ⟨howned, held_unlock hs.held hu rfl rfl id,
      iff_of_false (fun he => by cases he) (hs.not_walks hu), hs.at_place⟩
  | test hpc hx =>
    refine ⟨howned, held_setPc hs.held rfl rfl ?_, hs.walks, hs.at_place⟩
    rw [hpc]
    split <;> rfl
  | install hpc hx | shut hpc hx | down hpc hx | finish hpc hx =>
    refine ⟨howned, held_setPc hs.held rfl rfl ?_, hs.walks, hs.at_place⟩
    rw [hpc]
    rfl

theorem Thread.Step.inv {s t : State} (hs : Inv s) (h : Thread.Step s t) : Inv t := by
  have howned := (Moved.thread h).owned hs.owned
  cases h with
  | wake hpc hposted =>
    refine ⟨howned, hs.held, ?_, fun i c hi => by cases hi⟩
    rw [hs.walks, hpc]
    rfl
  | lock hpc hfree =>
    refine ⟨howned, fun u => ?_, iff_of_true rfl trivial, fun i c hi => by cases hi⟩
    rw [← hs.held u, hfree]
    exact iff_of_false (fun he => by cases he) (fun he => by cases he)
  | unlock hpc hend =>
    have hholder : s.holder = some .signal := hs.walks.mpr (by rw [hpc]; trivial)
    refine ⟨howned, fun u => ?_, iff_of_false (fun he => by cases he) id, fun i c hi => by cases hi⟩
    rw [← hs.held u, hholder]
    exact iff_of_false (fun he => by cases he) (fun he => by cases he)
  | @test i c x hpc hc hx =>
    refine ⟨howned, hs.held, ?_, fun j d hj => ?_⟩
    · rw [hs.walks, hpc]
      split <;> rfl
    · split at hj
      · cases hj
        exact hc
      · cases hj
  | shut hpc hx =>
    refine ⟨howned, hs.held, ?_, fun j d hj => by cases hj⟩
    rw [State.setContext, hs.walks, hpc]
    rfl

theorem Moved.inv {s t : State} {m : Move} (hs : Inv s) (h : Moved s m t) : Inv t := by
  have howned := h.owned hs.owned
  cases h with
  | up hpc hnew | failed hpc hnew | shutdown hpc hx | destroy hpc hx hknown hvalid | again hpc hx
  | raised hpc | dropped hpc =>
    refine ⟨howned, held_setPc hs.held rfl rfl ?_, hs.walks, hs.at_place⟩
    rw [hpc]
    rfl
  | call h => exact h.inv hs
  | signal => exact ⟨howned, hs.held, hs.walks, hs.at_place⟩
  | thread h => exact h.inv hs
  | passed hpc =>
    refine ⟨howned, hs.held, ?_, fun j d hj => by cases hj⟩
    rw [hs.walks, hpc]
    rfl

theorem step_inv (s : State) (m : Move) (t : State) (hs : Inv s) (h : step s m = some t) : Inv t :=
  (step_moved h).inv hs

/-- The signal thread is at a context: it tests it or shuts it down next. -/
def Touches (s : State) (c : Nat) : Prop :=
  (∃ i, s.thread = .walking i ∧ s.table.contexts[i]? = some c) ∨ ∃ i, s.thread = .shutting i c

/-- Whenever the signal comes and whatever the calls do meanwhile, the signal thread only ever
touches contexts that are not torn down. -/
theorem touches_living {ms : List Move} {s : State} (h : run step start ms = some s) {c : Nat}
    (hc : Touches s c) : ∃ x, s.contexts c = some x ∧ x.finished = false := by
  have hinv := run_invariant step_inv start_inv h
  apply hinv.owned.alive c
  rcases hc with ⟨i, -, hi⟩ | ⟨i, hi⟩
  · exact List.mem_of_getElem? hi
  · exact List.mem_of_getElem? (hinv.at_place i c hi)

/-- A context is brought up with the handlers. -/
def upRun : List Move := [.init 0 7 true true, .go 0, .go 0, .go 0, .go 0]

/-- Another thread begins to destroy the context while the signal thread is about to walk. -/
theorem touches_living_destroyed :
    ∃ s, run step start (upRun ++ [.signal, .thread, .destroy 1 7, .thread]) = some s ∧
      Touches s 7 ∧ ∃ x, s.contexts 7 = some x ∧ x.finished = false := by
  obtain ⟨s, hs, hwalk, htable⟩ : ∃ s,
      run step start (upRun ++ [.signal, .thread, .destroy 1 7, .thread]) = some s ∧
      s.thread = .walking 0 ∧ s.table.contexts[0]? = some 7 := ⟨_, rfl, rfl, rfl⟩
  have htouch : Touches s 7 := .inl ⟨0, hwalk, htable⟩
  exact ⟨s, hs, htouch, touches_living hs htouch⟩

/-! ## No signal is lost -/

/-- A context that is destroyed or down stays so. -/
def Falls (x y : Context) : Prop :=
  (x.valid = false → y.valid = false) ∧ (x.rclValid = false → y.rclValid = false)

theorem falls_update {f : Nat → Option Context} {c d : Nat} {x y : Context}
    (hd : ∀ z, f d = some z → Falls z y) (hx : f c = some x) :
    ∃ z, update f d (some y) c = some z ∧ Falls x z := by
  by_cases hcd : c = d
  · subst hcd
    exact ⟨y, update_self .., hd x hx⟩
  · exact ⟨x, by rw [update_of_ne hcd, hx], id, id⟩

theorem Moved.falls {s t : State} {m : Move} (h : Moved s m t) {c : Nat} {x : Context}
    (hx : s.contexts c = some x) : ∃ y, t.contexts c = some y ∧ Falls x y := by
  have hsame : ∃ y, s.contexts c = some y ∧ Falls x y := ⟨x, hx, id, id⟩
  cases h with
  | up hpc hnew | failed hpc hnew => exact falls_update (fun z hz => by simp [hnew] at hz) hx
  | shutdown | again | signal | raised | dropped | passed => exact hsame
  | destroy hpc hy =>
    refine falls_update (fun z hz => ?_) hx
    obtain rfl := Option.some.inj (hy.symm.trans hz)
    exact ⟨fun _ => rfl, id⟩
  | call h =>
    cases h with
    | publish hpc hy | install hpc hy | finish hpc hy =>
      refine falls_update (fun z hz => ?_) hx
      obtain rfl := Option.some.inj (hy.symm.trans hz)
      exact ⟨id, id⟩
    | shut hpc hy | down hpc hy =>
      refine falls_update (fun z hz => ?_) hx
      obtain rfl := Option.some.inj (hy.symm.trans hz)
      exact ⟨id, fun _ => rfl⟩
    | _ => exact hsame
  | thread h =>
    cases h with
    | shut hpc hy =>
      refine falls_update (fun z hz => ?_) hx
      obtain rfl := Option.some.inj (hy.symm.trans hz)
      exact ⟨id, fun _ => rfl⟩
    | _ => exact hsame

/-- Where in the table the thread is. -/
def Thread.place? : Thread → Option Nat
  | .walking i => some i
  | .shutting i _ => some i
  | _ => none

/-- The thread has still to come to the context. -/
def Coming (s : State) (c : Nat) : Prop :=
  0 < s.posted ∨ s.thread = .woken ∨
    ∃ i, s.thread.place? = some i ∧ ∃ j, i ≤ j ∧ s.table.contexts[j]? = some c

/-- The context is being destroyed, down, or soon to be. -/
def Told (c : Nat) (s : State) : Prop :=
  ∃ x, s.contexts c = some x ∧ (x.valid = false ∨ x.rclValid = false ∨
    c ∈ s.table.contexts ∧ Coming s c)

/-- The context that the signal thread fails to shut down. -/
def refused (s : State) : Move → List Nat
  | .refuse .signal => match s.thread with
    | .shutting _ c => [c]
    | _ => []
  | _ => []

/-- The contexts that the signal thread failed to shut down in a run. -/
def refusals (s : State) (ms : List Move) : List Nat := outputs step refused s ms

/-- Outside its walk only a post, or having heard one, brings the thread to a context. -/
theorem Coming.of_not_walks {s : State} {c : Nat} (h : Coming s c) (hno : ¬s.thread.Walks) :
    0 < s.posted ∨ s.thread = .woken := by
  rcases h with hposted | hwoken | ⟨i, hi, -⟩
  · exact .inl hposted
  · exact .inr hwoken
  · cases hthread : s.thread <;> simp [hthread, Thread.Walks, Thread.place?] at hno hi

theorem mem_register_of_mem {t : Table} {c d : Nat} (hc : c ∈ t.contexts) :
    c ∈ (t.register d).contexts := by
  by_cases hd : c = d
  · unfold Table.register
    split
    · exact List.mem_append_left _ hc
    · exact hc
  · exact (mem_register hd).mpr hc

/-- A context that is in the table leaves it only to be torn down, and not while the thread walks;
the thread leaves it behind only when it is down or does not let itself be shut down. -/
theorem Moved.comes {s t : State} {m : Move} (hs : Inv s) (h : Moved s m t) {c : Nat}
    (hc : c ∈ s.table.contexts) (hcoming : Coming s c) (hno : c ∉ refused s m) :
    (∃ y, t.contexts c = some y ∧ (y.valid = false ∨ y.rclValid = false)) ∨
      c ∈ t.table.contexts ∧ Coming t c := by
  cases h with
  | up | failed | shutdown | destroy | again | raised | dropped => exact .inr ⟨hc, hcoming⟩
  | @passed i d hpc =>
    rcases hcoming with hposted | hwoken | ⟨k, hk, j, hkj, hj⟩
    · exact .inr ⟨hc, .inl hposted⟩
    · simp [hpc] at hwoken
    · obtain rfl : i = k := by simpa [hpc, Thread.place?] using hk
      have hij : i ≠ j := by
        rintro rfl
        obtain rfl : d = c := Option.some.inj ((hs.at_place i d hpc).symm.trans hj)
        exact hno (by simp [refused, hpc])
      exact .inr ⟨hc, .inr (.inr ⟨i + 1, rfl, j, by omega, hj⟩)⟩
  | signal => exact .inr ⟨hc, .inl (Nat.succ_pos _)⟩
  | @call u t h =>
    cases h with
    | append hpc =>
      have hno := hs.not_walks (u := u) (by rw [hpc]; trivial)
      exact .inr ⟨mem_register_of_mem hc, (hcoming.of_not_walks hno).imp_right .inl⟩
    | @remove d hpc =>
      have hno := hs.not_walks (u := u) (by rw [hpc]; trivial)
      by_cases hd : c = d
      · subst hd
        obtain ⟨y, hy, hstage⟩ := hs.owned.stage u c (by rw [hpc]; rfl)
        rw [hpc] at hstage
        exact .inl ⟨y, hy, .inl hstage.1⟩
      · exact .inr ⟨(mem_unregister hd).mpr hc, (hcoming.of_not_walks hno).imp_right .inl⟩
    | _ => exact .inr ⟨hc, hcoming⟩
  | thread h =>
    cases h with
    | wake hpc hposted => exact .inr ⟨hc, .inr (.inl rfl)⟩
    | lock hpc hfree =>
      obtain ⟨j, hj⟩ := List.mem_iff_getElem?.mp hc
      exact .inr ⟨hc, .inr (.inr ⟨0, rfl, j, Nat.zero_le j, hj⟩)⟩
    | @unlock i hpc hend =>
      rcases hcoming with hposted | hwoken | ⟨k, hk, j, hkj, hj⟩
      · exact .inr ⟨hc, .inl hposted⟩
      · simp [hpc] at hwoken
      · obtain rfl : i = k := by simpa [hpc, Thread.place?] using hk
        have hlt := (List.getElem?_eq_some_iff.mp hj).1
        have hle := List.getElem?_eq_none_iff.mp hend
        omega
    | @test i d y hpc hd hy =>
      rcases hcoming with hposted | hwoken | ⟨k, hk, j, hkj, hj⟩
      · exact .inr ⟨hc, .inl hposted⟩
      · simp [hpc] at hwoken
      · obtain rfl : i = k := by simpa [hpc, Thread.place?] using hk
        cases hup : y.valid && y.rclValid with
        | true => exact .inr ⟨hc, .inr (.inr ⟨i, by simp [Thread.place?], j, hkj, hj⟩)⟩
        | false =>
          by_cases hij : i = j
          · obtain rfl : d = c := Option.some.inj (hd.symm.trans (hij ▸ hj))
            exact .inl ⟨y, hy, Bool.and_eq_false_iff.mp hup⟩
          · exact .inr ⟨hc, .inr (.inr ⟨i + 1, by simp [Thread.place?], j, by omega, hj⟩)⟩
    | @shut i d y hpc hy =>
      rcases hcoming with hposted | hwoken | ⟨k, hk, j, hkj, hj⟩
      · exact .inr ⟨hc, .inl hposted⟩
      · simp [hpc] at hwoken
      · obtain rfl : i = k := by simpa [hpc, Thread.place?] using hk
        by_cases hij : i = j
        · obtain rfl : d = c := Option.some.inj ((hs.at_place i d hpc).symm.trans (hij ▸ hj))
          exact .inl ⟨_, update_self .., .inr rfl⟩
        · exact .inr ⟨hc, .inr (.inr ⟨i + 1, rfl, j, by omega, hj⟩)⟩

theorem step_told {c : Nat} {s t : State} {m : Move} (hs : Inv s) (htold : Told c s)
    (h : Moved s m t) (hno : c ∉ refused s m) : Told c t := by
  obtain ⟨x, hx, hwhy⟩ := htold
  obtain ⟨y, hy, hvalid, hrcl⟩ := h.falls hx
  rcases hwhy with hdead | hdown | ⟨hc, hcoming⟩
  · exact ⟨y, hy, .inl (hvalid hdead)⟩
  · exact ⟨y, hy, .inr (.inl (hrcl hdown))⟩
  · rcases h.comes hs hc hcoming hno with ⟨z, hz, hwhy⟩ | hstill
    · exact ⟨z, hz, hwhy.imp_right .inl⟩
    · exact ⟨y, hy, .inr (.inr hstill)⟩

/-- A signal that comes while a context is in the table is not lost on it, whatever happens
afterwards: once the thread waits and the semaphore is at zero, the context is down or being torn
down, or else the thread has tried and `rcl_shutdown` has failed. -/
theorem signal_reaches_context {before after : List Move} {s t : State}
    (hbefore : run step start before = some s) {c : Nat} (hc : c ∈ s.table.contexts)
    (hafter : run step s (.signal :: after) = some t) (hposted : t.posted = 0)
    (hwaiting : t.thread = .waiting) :
    (∃ x, t.contexts c = some x ∧ (x.valid = false ∨ x.rclValid = false)) ∨
      c ∈ refusals s (.signal :: after) := by
  have hinv := run_invariant step_inv start_inv hbefore
  obtain ⟨x, hx, -⟩ := hinv.owned.alive c hc
  obtain ⟨u, hu, hrun⟩ := run_cons_some hafter
  have htold : Inv u ∧ (Told c u ∨ c ∈ refused s .signal) := by
    refine ⟨step_inv s .signal u hinv hu, .inl ?_⟩
    simp only [step] at hu
    split at hu
    · obtain rfl := Option.some.inj hu
      exact ⟨x, hx, .inr (.inr ⟨hc, .inl (Nat.succ_pos _)⟩)⟩
    · cases hu
  have hstep : ∀ s m t log, Inv s ∧ (Told c s ∨ c ∈ log) → True → step s m = some t →
      Inv t ∧ (Told c t ∨ c ∈ log ++ refused s m) := by
    rintro s m t log ⟨hs, htold | hlog⟩ - h
    · refine ⟨step_inv s m t hs h, ?_⟩
      by_cases hno : c ∈ refused s m
      · exact .inr (List.mem_append_right _ hno)
      · exact .inl (step_told hs htold (step_moved h) hno)
    · exact ⟨step_inv s m t hs h, .inr (List.mem_append_left _ hlog)⟩
  obtain ⟨-, ⟨y, hy, hwhy⟩ | hlog⟩ := run_outputs hstep htold (throughout_true step u after) hrun
  · left
    refine ⟨y, hy, ?_⟩
    rcases hwhy with hdead | hdown | ⟨-, hpost | hwoken | ⟨i, hi, -⟩⟩
    · exact .inl hdead
    · exact .inr hdown
    · omega
    · simp [hwaiting] at hwoken
    · simp [hwaiting, Thread.place?] at hi
  · right
    rw [refusals, outputs, hu]
    exact hlog

/-- For the first of two signals the context does not go down, and the second comes before the
thread is through with its walk. -/
theorem signal_reaches_context_twice : ∃ s t,
    run step start (upRun ++ [.signal, .thread, .thread, .thread, .refuse .signal]) = some s ∧
    run step s [.signal, .thread, .thread, .thread, .thread, .thread, .thread] = some t ∧
    ∃ x, t.contexts 7 = some x ∧ (x.valid = false ∨ x.rclValid = false) := by
  obtain ⟨s, hs, hc, hnone, t, ht, hposted, hwaiting⟩ : ∃ s,
      run step start (upRun ++ [.signal, .thread, .thread, .thread, .refuse .signal]) = some s ∧
      7 ∈ s.table.contexts ∧
      refusals s [.signal, .thread, .thread, .thread, .thread, .thread, .thread] = [] ∧
      ∃ t, run step s [.signal, .thread, .thread, .thread, .thread, .thread, .thread] = some t ∧
        t.posted = 0 ∧ t.thread = .waiting :=
    ⟨_, rfl, List.mem_singleton.mpr rfl, rfl, _, rfl, rfl, rfl⟩
  refine ⟨s, t, hs, ht, ?_⟩
  rcases signal_reaches_context hs hc ht hposted hwaiting with hdown | hrefused
  · exact hdown
  · simp [hnone] at hrefused

end Signals
