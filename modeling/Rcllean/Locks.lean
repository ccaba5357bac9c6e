import Rcllean.LockOrder

/-!
# The three locks of the bindings

The tree of handles, the table of contexts and the lists of shutdown guards
have a lock each. A teardown holds that of the tree through every `fini`, and
some of these take one of the others; the signal thread holds the table while
it takes the guards of one context after the other. The tree comes before the
table and the table before the guards, and only the tree is taken again by the
thread that has it.
-/
namespace Locks

open LockOrder Runs

inductive Lock where
  /-- `g_tree_mutex`, recursive. -/
  | tree
  /-- The `g_ctx_mutex` of `signal_handler.c`. -/
  | table
  /-- The `g_ctx_mutex` of `context.c`. -/
  | guards
  deriving DecidableEq, Repr

def Lock.reentrant : Lock → Bool
  | .tree => true
  | .table => false
  | .guards => false

def Lock.rank : Lock → Nat
  | .tree => 0
  | .table => 1
  | .guards => 2

/-- The kinds of handles, by what their `fini` locks. -/
inductive Kind where
  | context
  | guardCondition
  | other
  deriving DecidableEq, Repr

/-- A handle that is still valid, with its children, and the handles whose last reference its
`fini` drops, as that of a timer can its clock. -/
inductive Handle where
  | mk (kind : Kind) (children dropped : List Handle)

def underLock (l : Lock) (body : List (Action Lock)) : List (Action Lock) :=
  .acquire l :: body ++ [.release l]

/-- `rcllean_signal_unregister` and `rcllean_context_remove_shutdown_guard`. -/
def Kind.fini : Kind → List (Action Lock)
  | .context => underLock .table []
  | .guardCondition => underLock .guards []
  | .other => []

mutual

/-- `rcllean_destroy_locked`: the children, then the handle's own `fini`. -/
def destroyLocked : Handle → List (Action Lock)
  | .mk kind children dropped => destroyChildren children ++ kind.fini ++ finalize dropped

def destroyChildren : List Handle → List (Action Lock)
  | [] => []
  | h :: hs => destroyLocked h ++ destroyChildren hs

/-- `rcllean_handle_finalize`, for each handle whose last reference goes. -/
def finalize : List Handle → List (Action Lock)
  | [] => []
  | h :: hs => underLock .tree (destroyLocked h) ++ finalize hs

end

/-- What a thread calls, or the runtime for it when it drops references. -/
inductive Op where
  /-- `rcllean_alloc_handle` under a parent. -/
  | allocHandle
  /-- `rcllean_handle_destroy`. -/
  | handleDestroy (h : Handle)
  /-- The last references to these go, one handle's after the other's. -/
  | release (hs : List Handle)
  /-- `rcllean_signal_register`. -/
  | signalRegister
  | contextAddShutdownGuard
  | contextShutdown
  /-- The signal thread's walk over so many contexts. -/
  | signal (contexts : Nat)

def Op.script : Op → List (Action Lock)
  | .allocHandle => underLock .tree []
  | .handleDestroy h => underLock .tree (destroyLocked h)
  | .release hs => finalize hs
  | .signalRegister => underLock .table []
  | .contextAddShutdownGuard => underLock .guards []
  | .contextShutdown => underLock .guards []
  | .signal contexts =>
    underLock .table ((List.range contexts).flatMap fun _ => underLock .guards [])

/-- Each thread makes its calls one after the other. -/
def scripts (calls : Nat → List Op) (t : Nat) : List (Action Lock) := (calls t).flatMap Op.script

/-! ## Every call keeps to the order -/

theorem rank_lt (l : Lock) : l.rank < 3 := by cases l <;> decide

/-- At most the tree is held. -/
def OnlyTree (held : List Lock) : Prop := ∀ l ∈ held, l = .tree

theorem OnlyTree.cons {held : List Lock} (h : OnlyTree held) : OnlyTree (.tree :: held) := by
  intro l hl
  cases hl with
  | head => rfl
  | tail _ hl => exact h l hl

/-- Over the tree, or nothing, each lock may be taken. -/
theorem OnlyTree.above {held : List Lock} (h : OnlyTree held) (l : Lock) :
    Above Lock.reentrant Lock.rank held l := by
  cases l with
  | tree =>
    cases held with
    | nil => exact .inl (by simp)
    | cons k held =>
      obtain rfl := h k List.mem_cons_self
      exact .inr ⟨List.mem_cons_self, rfl⟩
  | table => exact .inl fun k hk => by rw [h k hk]; decide
  | guards => exact .inl fun k hk => by rw [h k hk]; decide

theorem underLock_balanced {held : List Lock} (h : OnlyTree held) (l : Lock) :
    Balanced Lock.reentrant Lock.rank held (underLock l []) :=
  Balanced.section (h.above l) (balanced_nil _)

theorem fini_balanced {held : List Lock} (h : OnlyTree held) (kind : Kind) :
    Balanced Lock.reentrant Lock.rank held kind.fini := by
  cases kind with
  | context => exact underLock_balanced h .table
  | guardCondition => exact underLock_balanced h .guards
  | other => exact balanced_nil held

mutual

theorem destroyLocked_balanced {held : List Lock} (hheld : OnlyTree held) : (h : Handle) →
    Balanced Lock.reentrant Lock.rank held (destroyLocked h)
  | .mk kind children dropped => by
    rw [destroyLocked]
    exact ((destroyChildren_balanced hheld children).append (fini_balanced hheld kind)).append
      (finalize_balanced hheld dropped)

theorem destroyChildren_balanced {held : List Lock} (hheld : OnlyTree held) :
    (hs : List Handle) → Balanced Lock.reentrant Lock.rank held (destroyChildren hs)
  | [] => balanced_nil held
  | h :: hs => by
    rw [destroyChildren]
    exact (destroyLocked_balanced hheld h).append (destroyChildren_balanced hheld hs)

theorem finalize_balanced {held : List Lock} (hheld : OnlyTree held) : (hs : List Handle) →
    Balanced Lock.reentrant Lock.rank held (finalize hs)
  | [] => balanced_nil held
  | h :: hs => by
    rw [finalize]
    exact (Balanced.section (hheld.above .tree) (destroyLocked_balanced hheld.cons h)).append
      (finalize_balanced hheld hs)

end

theorem script_balanced (op : Op) : Balanced Lock.reentrant Lock.rank [] op.script := by
  have hnone : OnlyTree [] := by simp [OnlyTree]
  cases op with
  | allocHandle => exact underLock_balanced hnone .tree
  | handleDestroy h =>
    exact Balanced.section (hnone.above .tree) (destroyLocked_balanced hnone.cons h)
  | release hs => exact finalize_balanced hnone hs
  | signalRegister => exact underLock_balanced hnone .table
  | contextAddShutdownGuard => exact underLock_balanced hnone .guards
  | contextShutdown => exact underLock_balanced hnone .guards
  | signal contexts =>
    refine Balanced.section (hnone.above .table) (balanced_flatMap fun _ _ => ?_)
    exact Balanced.section (.inl (by simp [Lock.rank])) (balanced_nil _)

/-- Whatever calls any number of threads make, and whatever trees of handles they tear down while
signals come, a thread gives back only locks it holds, and they never block each other for good: as
long as one is not through, some thread can move. -/
theorem never_deadlocked (calls : Nat → List Op) {ts : List Nat} {s : State Lock}
    (h : run (step Lock.reentrant) (start (scripts calls)) ts = some s) :
    (∀ t l rest, s.todo t = .release l :: rest → (s.mutex l).owner = some t) ∧
      ∀ t, s.todo t ≠ [] → ∃ u, (step Lock.reentrant s u).isSome :=
  run_progress rank_lt (fun _ => balanced_flatMap fun op _ => script_balanced op) h

/-- A context with an executor's guard condition under it is destroyed while a signal comes. -/
def destroyAndSignal : Nat → List Op
  | 0 => [.handleDestroy (.mk .context [.mk .guardCondition [] []] [])]
  | 1 => [.signal 1]
  | _ => []

/-- The signal thread waits for the guards, which the teardown has. -/
theorem never_deadlocked_signal :
    ∃ s, run (step Lock.reentrant) (start (scripts destroyAndSignal)) [0, 0, 1] = some s ∧
      step Lock.reentrant s 1 = none ∧ ∃ u, (step Lock.reentrant s u).isSome := by
  obtain ⟨s, hs, hwaits, ht⟩ :
      ∃ s, run (step Lock.reentrant) (start (scripts destroyAndSignal)) [0, 0, 1] = some s ∧
        step Lock.reentrant s 1 = none ∧ s.todo 1 ≠ [] := ⟨_, rfl, rfl, by decide⟩
  exact ⟨s, hs, hwaits, (never_deadlocked destroyAndSignal hs).2 1 ht⟩

end Locks
