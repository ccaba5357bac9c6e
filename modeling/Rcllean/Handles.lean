import Rcllean.Runs
import Rcllean.SiblingLists

/-!
# The handle tree

Every rcl entity is a handle: a struct with a validity flag, a pointer to the
handle it was created under and the links of a sibling list, owned by a
counted Lean object. Destroying a handle tears its children down first; the
finalizer of the last reference destroys the handle, gives back the reference
to its parent and frees the struct. A struct that has been freed cannot be
read: a call that would do so has no result.
-/
namespace Handles

open SiblingLists Function Runs

abbrev Handle := Nat

inductive Event where
  | fini (h : Handle)
  | free (h : Handle)
  deriving DecidableEq, Repr

structure Heap where
  /-- How many handles have been created; they are numbered in that order. -/
  fresh : Nat
  allocated : Handle → Bool
  parent : Handle → Option Handle
  /-- The clock a timer holds a reference to until its fini. -/
  clock : Handle → Option Handle
  links : Links Handle
  valid : Handle → Bool
  rc : Handle → Nat
  /-- How many of the references the program itself holds. -/
  refs : Handle → Nat
  /-- The handle each was created under. -/
  origin : Handle → Option Handle
  /-- The root of the tree each was created in. -/
  root : Handle → Handle
  log : List Event

def Heap.empty : Heap where
  fresh := 0
  allocated := fun _ => false
  parent := fun _ => none
  clock := fun _ => none
  links := .empty
  valid := fun _ => false
  rc := fun _ => 0
  refs := fun _ => 0
  origin := fun _ => none
  root := id
  log := []

namespace Heap

def invalidate (σ : Heap) (h : Handle) : Heap := { σ with valid := update σ.valid h false }

def record (σ : Heap) (e : Event) : Heap := { σ with log := σ.log ++ [e] }

def setRc (σ : Heap) (h : Handle) (n : Nat) : Heap := { σ with rc := update σ.rc h n }

def clearClock (σ : Heap) (h : Handle) : Heap := { σ with clock := update σ.clock h none }

/-- `h->parent = NULL; free(h)`. -/
def free (σ : Heap) (h : Handle) : Heap := { σ with
  parent := update σ.parent h none
  allocated := update σ.allocated h false
  log := σ.log ++ [.free h] }

def linkChild (σ : Heap) (parent child : Handle) : Option Heap :=
  if ([parent, child] ++ (σ.links.first parent).toList).all σ.allocated then
    some { σ with links := σ.links.pushFront parent child }
  else none

def unlinkChild (σ : Heap) (parent child : Handle) : Option Heap :=
  if ([parent, child] ++ (σ.links.prev child).toList ++ (σ.links.next child).toList).all
      σ.allocated then
    some { σ with links := σ.links.remove parent child }
  else none

end Heap

mutual

/-- Children first, then this handle's fini; then it leaves its parent's list. -/
def destroyLocked : Nat → Heap → Handle → Option Heap
  | 0, _, _ => none
  | n + 1, σ, h =>
    if σ.allocated h then
      if !σ.valid h then some σ
      else do
        let σ ← destroyChildren n (σ.invalidate h) h
        let σ ← fini n σ h
        match σ.parent h with
        | some p => σ.unlinkChild p h
        | none => some σ
    else none
termination_by structural n => n

/-- The loop over the children, which ends when the list is empty. -/
def destroyChildren : Nat → Heap → Handle → Option Heap
  | 0, _, _ => none
  | n + 1, σ, h =>
    if σ.allocated h then
      match σ.links.first h with
      | some c => do
        let σ ← destroyLocked n σ c
        destroyChildren n σ h
      | none => some σ
    else none
termination_by structural n => n

/-- The fini of a handle's type; a timer's releases its clock. -/
def fini : Nat → Heap → Handle → Option Heap
  | 0, _, _ => none
  | n + 1, σ, h =>
    if σ.allocated h then
      match σ.clock h with
      | some c => do
        let σ ← decRef n (σ.record (.fini h)) c
        if σ.allocated h then some (σ.clearClock h) else none
      | none => some (σ.record (.fini h))
    else none
termination_by structural n => n

/-- `lean_dec`: the last reference runs the finalizer. -/
def decRef : Nat → Heap → Handle → Option Heap
  | 0, _, _ => none
  | n + 1, σ, h =>
    if σ.allocated h then
      if 1 < σ.rc h then some (σ.setRc h (σ.rc h - 1))
      else finalize n (σ.setRc h 0) h
    else none
termination_by structural n => n

def finalize : Nat → Heap → Handle → Option Heap
  | 0, _, _ => none
  | n + 1, σ, h => do
    let σ ← destroyLocked n σ h
    let σ ← match σ.parent h with
      | some p => decRef n σ p
      | none => some σ
    if σ.allocated h then some (σ.free h) else none
termination_by structural n => n

end

/-- A zeroed handle, valid, with one reference, the caller's. -/
def Heap.alloc (σ : Heap) (parent clock : Option Handle) : Heap := { σ with
  fresh := σ.fresh + 1
  allocated := update σ.allocated σ.fresh true
  parent := update σ.parent σ.fresh parent
  clock := update σ.clock σ.fresh clock
  valid := update σ.valid σ.fresh true
  rc := update σ.rc σ.fresh 1
  refs := update σ.refs σ.fresh 1
  origin := update σ.origin σ.fresh parent
  root := update σ.root σ.fresh (parent.elim σ.fresh σ.root) }

/-- `lean_inc`. -/
def Heap.incRef (σ : Heap) (h : Handle) : Heap := σ.setRc h (σ.rc h + 1)

/-- What every constructor does: refuse a parent or clock that has been destroyed, allocate,
take the references and link the handle to its parent. A constructor that fails later on drops
the handle again. -/
def create (σ : Heap) (parent clock : Option Handle) : Option Heap :=
  if (parent.toList ++ clock.toList).all σ.valid then do
    let h := σ.fresh
    let σ := (parent.toList ++ clock.toList).foldl Heap.incRef (σ.alloc parent clock)
    match parent with
    | some p => σ.linkChild p h
    | none => some σ
  else some σ

inductive Op where
  | create (parent clock : Option Handle)
  | destroy (h : Handle)
  | dup (h : Handle)
  | drop (h : Handle)
  deriving DecidableEq, Repr

/-- Enough for the calls of any operation. -/
def Heap.fuel (σ : Heap) : Nat := 4 * σ.fresh + 2

def apply (σ : Heap) : Op → Option Heap
  | .create parent clock => create σ parent clock
  | .destroy h => destroyLocked σ.fuel σ h
  | .dup h => some { σ.incRef h with refs := update σ.refs h (σ.refs h + 1) }
  | .drop h => decRef σ.fuel { σ with refs := update σ.refs h (σ.refs h - 1) } h

/-- The program holds what it passes; a clock is a root of a tree of its own, and no timer. -/
def Allowed (σ : Heap) : Op → Prop
  | .create parent clock => (∀ p ∈ parent, 0 < σ.refs p) ∧ ∀ c ∈ clock, 0 < σ.refs c ∧
      σ.origin c = none ∧ σ.clock c = none ∧ ∀ p ∈ parent, σ.root p ≠ c
  | .destroy h => 0 < σ.refs h
  | .dup h => 0 < σ.refs h
  | .drop h => 0 < σ.refs h

instance (σ : Heap) (op : Op) : Decidable (Allowed σ op) := by
  cases op <;> unfold Allowed <;> infer_instance

end Handles
