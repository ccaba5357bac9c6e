import Rcllean.ShimCalls

/-!
# The shim's memory under many threads

Any number of threads send, serialize, take, create and destroy, and between
any two instructions of one call the others may make theirs. What a call that
keeps nothing allocates it has to itself. The buffer of an entity is lent to a
take or to the fini and, unless it has been freed, is given back. The objects
of rcl behind nodes, publishers and the other entities are no memory of the
shim's, and nothing is said of them.
-/
namespace ShimMemory

open Ownership WaitSets ShimCalls Function Runs

variable {V : Type}

structure Entity where
  kind : EntityKind
  valid : Bool
  /-- `NULL` once the fini has freed it. -/
  buffer : Option Nat
  /-- A take or the fini is at work on the buffer. -/
  lent : Bool
  deriving DecidableEq, Repr

/-- What a call is about: nothing that stays, an entity to come, or the buffer `b` of `h`. -/
inductive Task where
  | passing
  | creating (kind : EntityKind)
  | taking (h b : Nat)
  | finalizing (h b : Nat)
  deriving DecidableEq, Repr

structure Running (V : Type) where
  task : Task
  code : Call V

structure Sys (V : Type) where
  memory : Cells Content
  entities : Nat → Option Entity
  /-- The call each thread is in. -/
  calls : Nat → Option (Running V)
  /-- An instruction has come upon a cell that did not hold what it works on. -/
  misused : Bool

def Sys.start : Sys V := ⟨Cells.empty, fun _ => none, fun _ => none, false⟩

/-- The calls. What a call sends or creates goes through memory of its own or of the entity to come,
whatever it is sent on or created under: of the handle there only whether it is valid is told. -/
inductive Request where
  | publish (valid : Bool)
  | sendRequest (valid : Bool)
  | sendResponse (valid : Bool) (guid : List UInt8)
  | serialize (typed : Bool)
  | deserialize (typed : Bool)
  | nodeCreate (contextOk : Bool) (argc : Nat)
  | removeRosArguments (argc : Nat)
  | create (kind : EntityKind) (nodeValid typed : Bool)
  | take (h : Nat)
  | destroy (h : Nat)

inductive Move (V : Type) where
  /-- A thread that is in no call makes one. -/
  | begin (i : Nat) (r : Request)
  | act (i : Nat) (e : Event (Answer V))
  /-- The call of a thread returns; an entity it has made becomes `h`. -/
  | finish (i h : Nat)

def Sys.enter (s : Sys V) (i : Nat) (task : Task) (code : Call V) : Sys V :=
  { s with calls := update s.calls i (some ⟨task, code⟩) }

def beginTake (s : Sys V) (i h : Nat) : Option (Sys V) :=
  match s.entities h with
  | none => none
  | some e => match requireValid e.valid (takeFn e.kind), e.buffer with
    | .error why, _ => some (s.enter i .passing (.ret (.error why)))
    | .ok _, none => some (s.enter i .passing (fail (takeFn e.kind) "message init failed"))
    | .ok _, some b => some ({ s with
        entities := update s.entities h (some { e with lent := true }) }.enter i (.taking h b)
          (takeOf e.kind b))

/-- The tree lock lets one destroy of an entity come to its fini. -/
def beginDestroy (s : Sys V) (i h : Nat) : Option (Sys V) :=
  match s.entities h with
  | none => none
  | some e => if e.valid then
      match e.buffer with
      | none => some ({ s with
          entities := update s.entities h (some { e with valid := false }) }.enter i .passing
            (.ret (.ok .unit)))
      | some b => some ({ s with
          entities := update s.entities h (some { e with valid := false, lent := true }) }.enter i
            (.finalizing h b) (entityFini b))
    else some (s.enter i .passing (.ret (.ok .unit)))

def begin (s : Sys V) (i : Nat) : Request → Option (Sys V)
  | .publish valid => some (s.enter i .passing (publisherPublish valid))
  | .sendRequest valid => some (s.enter i .passing (clientSendRequest valid))
  | .sendResponse valid guid => some (s.enter i .passing (serviceSendResponse valid guid))
  | .serialize typed => some (s.enter i .passing (msgSerialize typed))
  | .deserialize typed => some (s.enter i .passing (msgDeserialize typed))
  | .nodeCreate contextOk argc => some (s.enter i .passing (nodeCreate contextOk argc))
  | .removeRosArguments argc => some (s.enter i .passing (removeRosArguments argc))
  | .create kind nodeValid typed =>
    some (s.enter i (.creating kind) (createOf kind nodeValid typed))
  | .take h => beginTake s i h
  | .destroy h => beginDestroy s i h

def Sys.leave (s : Sys V) (i : Nat) : Sys V := { s with calls := update s.calls i none }

def settle (s : Sys V) (i h : Nat) (r : Outcome V) : Task → Option (Sys V)
  | .passing => some (s.leave i)
  | .creating kind => match r with
    | .ok (.entity b) =>
      if s.entities h = none then
        some { s.leave i with entities := update s.entities h (some ⟨kind, true, some b, false⟩) }
      else none
    | _ => some (s.leave i)
  | .taking g _ => some { s.leave i with
      entities := update s.entities g ((s.entities g).map fun e => { e with lent := false }) }
  | .finalizing g _ => some { s.leave i with
      entities := update s.entities g
        ((s.entities g).map fun e => { e with buffer := none, lent := false }) }

def step (s : Sys V) : Move V → Option (Sys V)
  | .begin i r => match s.calls i with
    | none => begin s i r
    | some _ => none
  | .act i e => match s.calls i with
    | none => none
    | some ⟨task, code⟩ => (advance s.memory code e).map fun p => { s with
        memory := p.2.1
        calls := update s.calls i (some ⟨task, p.2.2⟩)
        misused := s.misused || !p.1 }
  | .finish i h => match s.calls i with
    | some ⟨task, .ret r⟩ => settle s i h r task
    | _ => none

def Free (s : Sys V) (h : Nat) : Prop :=
  match s.entities h with
  | some e => e.valid = true → e.lent = false
  | none => True

/-- No take and no destroy of an entity begins while a take is at work on its buffer. -/
def Alone (s : Sys V) : Move V → Prop
  | .begin _ (.take h) | .begin _ (.destroy h) => Free s h
  | _ => True

instance (s : Sys V) (h : Nat) : Decidable (Free s h) := by
  unfold Free
  split <;> infer_instance

instance (s : Sys V) (m : Move V) : Decidable (Alone s m) := by
  unfold Alone
  split <;> infer_instance

/-- What the threads leave behind: memory is with the living entities, a blank buffer each. -/
def Balanced (s : Sys V) : Prop :=
  ∀ b c, s.memory b = some c ↔
    c = .blank ∧ ∃ h e, s.entities h = some e ∧ e.valid = true ∧ e.buffer = some b

/-! ## Whose memory it is -/

inductive Owner where
  | call (i : Nat)
  | entity (h : Nat)
  deriving DecidableEq

/-- The buffer an entity has to itself. -/
def resting : Option Entity → Cells Content
  | some ⟨_, _, some b, false⟩ => single b
  | _ => Cells.empty

/-- What a call has of an entity: its buffer, for a take or for the fini. -/
structure Loan where
  entity : Nat
  buffer : Nat
  taking : Bool

def Task.loan : Task → Option Loan
  | .taking h b => some ⟨h, b, true⟩
  | .finalizing h b => some ⟨h, b, false⟩
  | _ => none

def loans (calls : Nat → Option (Running V)) (i : Nat) : Option Loan :=
  (calls i).bind fun c => c.task.loan

/-- What a call of the task ends with. -/
def Ends : Task → Outcome V → Cells Content → Prop
  | .passing | .finalizing .. => Leaves Cells.empty
  | .creating _ => Kept
  | .taking _ b => Leaves (single b)

structure Owned (memory : Cells Content) (calls : Nat → Option (Running V))
    (entities : Nat → Option Entity) (owner : Nat → Owner) : Prop where
  codes : ∀ i c, calls i = some c → Safe (Ends c.task) c.code (owned memory owner (.call i))
  idle : ∀ i, calls i = none → owned memory owner (.call i) = Cells.empty
  entities : ∀ h, owned memory owner (.entity h) = resting (entities h)

/-- An entity is lent to one call at a time, and one that is not has its buffer while it lives. -/
structure Tied (loans : Nat → Option Loan) (entities : Nat → Option Entity) : Prop where
  linked : ∀ i l, loans i = some l →
    ∃ kind, entities l.entity = some ⟨kind, l.taking, some l.buffer, true⟩
  unique : ∀ i j l k, loans i = some l → loans j = some k → l.entity = k.entity → i = j
  lent : ∀ h e, entities h = some e → e.lent = true → ∃ i l, loans i = some l ∧ l.entity = h
  buffered : ∀ h e, entities h = some e → e.lent = false → e.valid = e.buffer.isSome

structure Inv (s : Sys V) : Prop where
  proper : s.misused = false
  tied : Tied (loans s.calls) s.entities
  owned : ∃ owner, Owned s.memory s.calls s.entities owner

/-! ## What one step can do -/

/-- The entity once it is given back. -/
def Loan.after (kind : EntityKind) (l : Loan) : Entity :=
  if l.taking then ⟨kind, true, some l.buffer, false⟩ else ⟨kind, false, none, false⟩

inductive Step (s : Sys V) : Sys V → Prop where
  | enter {i task code} : s.calls i = none → task.loan = none →
    Safe (Ends task) code Cells.empty → Step s (s.enter i task code)
  | lend {i kind task code l} : s.calls i = none →
    s.entities l.entity = some ⟨kind, true, some l.buffer, false⟩ → task.loan = some l →
    Safe (Ends task) code (single l.buffer) → Step s ({ s with
      entities := update s.entities l.entity (some ⟨kind, l.taking, some l.buffer, true⟩) }.enter
        i task code)
  | act {i task code e proper m rest} : s.calls i = some ⟨task, code⟩ →
    advance s.memory code e = some (proper, m, rest) → Step s { s with
      memory := m
      calls := update s.calls i (some ⟨task, rest⟩)
      misused := s.misused || !proper }
  | leave {i task r} : s.calls i = some ⟨task, .ret r⟩ → task.loan = none →
    (∀ own, Ends task r own → own = Cells.empty) → Step s (s.leave i)
  | made {i h b kind} : s.calls i = some ⟨.creating kind, .ret (.ok (.entity b))⟩ →
    s.entities h = none → Step s { s.leave i with
      entities := update s.entities h (some ⟨kind, true, some b, false⟩) }
  | back {i kind task r l} : s.calls i = some ⟨task, .ret r⟩ → task.loan = some l →
    s.entities l.entity = some ⟨kind, l.taking, some l.buffer, true⟩ → Step s { s.leave i with
      entities := update s.entities l.entity (some (l.after kind)) }

theorem createOf_safe (kind : EntityKind) (nodeValid typed : Bool) :
    Safe Kept (createOf (V := V) kind nodeValid typed) Cells.empty := by
  cases kind <;> exact create_safe _ _ _ _

theorem takeOf_safe (kind : EntityKind) (b : Nat) :
    Safe (Leaves (single b)) (takeOf (V := V) kind b) (single b) := by
  cases kind <;> exact take_safe _ _ _ _

theorem serviceSendResponse_safe (valid : Bool) (guid : List UInt8) :
    Safe (Leaves Cells.empty) (serviceSendResponse (V := V) valid guid) Cells.empty := by
  refine requiring_safe (fun why => rfl) ?_ valid _
  exact safe_ite (fun _ => rfl) fun _ => send_safe _ _ _

/-- An entity that is not lent and still exists has its buffer. -/
theorem Tied.exists_buffer {loans : Nat → Option Loan} {entities : Nat → Option Entity}
    (ht : Tied loans entities) {h : Nat} {e : Entity} (he : entities h = some e)
    (hv : e.valid = true) (hlent : e.lent = false) :
    ∃ kind b, e = ⟨kind, true, some b, false⟩ := by
  have hb := ht.buffered h e he hlent
  obtain ⟨kind, valid, buffer, lent⟩ := e
  cases buffer with
  | none =>
    rw [hv] at hb
    cases hb
  | some b =>
    obtain rfl : valid = true := hv
    obtain rfl : lent = false := hlent
    exact ⟨kind, b, rfl⟩

section

variable {s t : Sys V} (ht : Tied (loans s.calls) s.entities) {i h : Nat}
include ht

theorem beginTake_cases (hi : s.calls i = none) (halone : Free s h)
    (hs : beginTake s i h = some t) : Step s t := by
  unfold beginTake at hs
  cases he : s.entities h with
  | none =>
    rw [he] at hs
    cases hs
  | some e =>
    rw [he] at hs
    rw [Free, he] at halone
    by_cases hv : e.valid = true
    · obtain ⟨kind, b, rfl⟩ := ht.exists_buffer he hv (halone hv)
      have hloan : (Task.taking h b).loan = some ⟨h, b, true⟩ := rfl
      cases hs
      exact .lend hi he hloan (takeOf_safe kind b)
    · simp only [requireValid, hv, Bool.false_eq_true, if_false] at hs
      cases hs
      exact .enter hi rfl rfl

theorem beginDestroy_cases (hi : s.calls i = none) (halone : Free s h)
    (hs : beginDestroy s i h = some t) : Step s t := by
  unfold beginDestroy at hs
  cases he : s.entities h with
  | none =>
    rw [he] at hs
    cases hs
  | some e =>
    rw [he] at hs
    rw [Free, he] at halone
    by_cases hv : e.valid = true
    · obtain ⟨kind, b, rfl⟩ := ht.exists_buffer he hv (halone hv)
      have hloan : (Task.finalizing h b).loan = some ⟨h, b, false⟩ := rfl
      cases hs
      exact .lend hi he hloan (entityFini_safe b)
    · simp only [hv, Bool.false_eq_true, if_false] at hs
      cases hs
      exact .enter hi rfl rfl

theorem begin_cases {r : Request} (hi : s.calls i = none) (halone : Alone s (.begin i r))
    (hs : begin s i r = some t) : Step s t := by
  cases r with
  | publish valid =>
    cases hs
    exact .enter hi rfl (requiring_safe (fun why => rfl) (send_safe _ _ _) valid _)
  | sendRequest valid =>
    cases hs
    exact .enter hi rfl (requiring_safe (fun why => rfl) (send_safe _ _ _) valid _)
  | sendResponse valid guid =>
    cases hs
    exact .enter hi rfl (serviceSendResponse_safe valid guid)
  | serialize typed =>
    cases hs
    exact .enter hi rfl (msgSerialize_safe typed)
  | deserialize typed =>
    cases hs
    exact .enter hi rfl (msgDeserialize_safe typed)
  | nodeCreate contextOk argc =>
    cases hs
    exact .enter hi rfl (nodeCreate_safe contextOk argc)
  | removeRosArguments argc =>
    cases hs
    exact .enter hi rfl (removeRosArguments_safe argc)
  | create kind nodeValid typed =>
    cases hs
    exact .enter hi rfl (createOf_safe kind nodeValid typed)
  | take h => exact beginTake_cases ht hi halone hs
  | destroy h => exact beginDestroy_cases ht hi halone hs

theorem settle_cases {task : Task} {r : Outcome V} (hi : s.calls i = some ⟨task, .ret r⟩)
    (hs : settle s i h r task = some t) : Step s t := by
  have hlinked : ∀ l, task.loan = some l →
      ∃ kind, s.entities l.entity = some ⟨kind, l.taking, some l.buffer, true⟩ :=
    fun l hl => ht.linked i l (by simp [loans, hi, hl])
  cases task with
  | passing =>
    cases hs
    exact .leave hi rfl fun own hown => hown
  | creating kind =>
    simp only [settle] at hs
    split at hs
    · split at hs
      · rename_i b hnone
        cases hs
        exact .made hi hnone
      · cases hs
    · rename_i hnot
      cases hs
      refine .leave hi rfl fun own hown => ?_
      cases r with
      | error why => exact hown
      | ok r => cases r with
        | entity b => exact absurd rfl (hnot b)
        | _ => exact hown
  | taking g b =>
    have hloan : (Task.taking g b).loan = some ⟨g, b, true⟩ := rfl
    obtain ⟨kind, he⟩ := hlinked _ hloan
    simp only [settle, he, Option.map_some] at hs
    cases hs
    exact .back hi hloan he
  | finalizing g b =>
    have hloan : (Task.finalizing g b).loan = some ⟨g, b, false⟩ := rfl
    obtain ⟨kind, he⟩ := hlinked _ hloan
    simp only [settle, he, Option.map_some] at hs
    cases hs
    exact .back hi hloan he

/-- Every step under the condition is one of the branches. -/
theorem step_cases {m : Move V} (halone : Alone s m) (hs : step s m = some t) : Step s t := by
  cases m with
  | begin i r =>
    simp only [step] at hs
    split at hs
    · rename_i hi
      exact begin_cases ht hi halone hs
    · cases hs
  | act i e =>
    simp only [step] at hs
    split at hs
    · cases hs
    · rename_i task code hi
      obtain ⟨⟨proper, m, rest⟩, hp, rfl⟩ := Option.map_eq_some_iff.mp hs
      exact .act hi hp
  | finish i h =>
    simp only [step] at hs
    split at hs
    · rename_i task r hi
      exact settle_cases ht hi hs
    · cases hs

end

/-! ## What one step preserves -/

theorem loans_update (calls : Nat → Option (Running V)) (i : Nat) (x : Option (Running V)) :
    loans (update calls i x) = update (loans calls) i (x.bind fun c => c.task.loan) := by
  funext j
  by_cases hj : j = i
  · subst hj
    simp [loans]
  · simp [loans, hj]

section

variable {loans : Nat → Option Loan} {entities : Nat → Option Entity}

theorem Tied.lend (ht : Tied loans entities) {i : Nat} {l : Loan} {kind : EntityKind}
    (hi : loans i = none) (he : entities l.entity = some ⟨kind, true, some l.buffer, false⟩) :
    Tied (update loans i (some l))
      (update entities l.entity (some ⟨kind, l.taking, some l.buffer, true⟩)) := by
  have hfree : ∀ j k, loans j = some k → k.entity ≠ l.entity := by
    intro j k hj heq
    obtain ⟨kind', hk⟩ := ht.linked j k hj
    rw [heq, he] at hk
    simp at hk
  constructor
  · intro j k hj
    by_cases hji : j = i
    · subst hji
      obtain rfl : l = k := by simpa using hj
      exact ⟨kind, by simp⟩
    · rw [update_of_ne hji] at hj
      rw [update_of_ne (hfree j k hj)]
      exact ht.linked j k hj
  · intro j j' k k' hj hj' heq
    by_cases hji : j = i
    · by_cases hji' : j' = i
      · rw [hji, hji']
      · subst hji
        obtain rfl : l = k := by simpa using hj
        rw [update_of_ne hji'] at hj'
        exact absurd heq.symm (hfree j' k' hj')
    · rw [update_of_ne hji] at hj
      by_cases hji' : j' = i
      · subst hji'
        obtain rfl : l = k' := by simpa using hj'
        exact absurd heq (hfree j k hj)
      · rw [update_of_ne hji'] at hj'
        exact ht.unique j j' k k' hj hj' heq
  · intro h e heq hlent
    by_cases hh : h = l.entity
    · exact ⟨i, l, by simp, hh.symm⟩
    · rw [update_of_ne hh] at heq
      obtain ⟨j, k, hj, hk⟩ := ht.lent h e heq hlent
      have hji : j ≠ i := by
        rintro rfl
        rw [hi] at hj
        cases hj
      exact ⟨j, k, by rw [update_of_ne hji]; exact hj, hk⟩
  · intro h e heq hlent
    by_cases hh : h = l.entity
    · subst hh
      rw [update_self] at heq
      obtain rfl := Option.some.inj heq
      cases hlent
    · rw [update_of_ne hh] at heq
      exact ht.buffered h e heq hlent

theorem Tied.made (ht : Tied loans entities) {h b : Nat} (kind : EntityKind)
    (hnone : entities h = none) :
    Tied loans (update entities h (some ⟨kind, true, some b, false⟩)) := by
  constructor
  · intro i l hi
    obtain ⟨kind', he⟩ := ht.linked i l hi
    have hne : l.entity ≠ h := by
      intro heq
      rw [heq, hnone] at he
      cases he
    exact ⟨kind', by rw [update_of_ne hne]; exact he⟩
  · exact ht.unique
  · intro g e he hlent
    by_cases hg : g = h
    · subst hg
      rw [update_self] at he
      obtain rfl := Option.some.inj he
      cases hlent
    · rw [update_of_ne hg] at he
      exact ht.lent g e he hlent
  · intro g e he hlent
    by_cases hg : g = h
    · subst hg
      rw [update_self] at he
      obtain rfl := Option.some.inj he
      rfl
    · rw [update_of_ne hg] at he
      exact ht.buffered g e he hlent

theorem Loan.after_lent (kind : EntityKind) (l : Loan) : (l.after kind).lent = false := by
  unfold Loan.after
  split <;> rfl

theorem Loan.after_buffered (kind : EntityKind) (l : Loan) :
    (l.after kind).valid = (l.after kind).buffer.isSome := by
  unfold Loan.after
  split <;> rfl

theorem Tied.back (ht : Tied loans entities) {i : Nat} {l : Loan} (hi : loans i = some l)
    (kind : EntityKind) :
    Tied (update loans i none) (update entities l.entity (some (l.after kind))) := by
  have hother : ∀ j k, update loans i none j = some k → loans j = some k ∧ j ≠ i := by
    intro j k hj
    by_cases hji : j = i
    · rw [hji, update_self] at hj
      cases hj
    · rw [update_of_ne hji] at hj
      exact ⟨hj, hji⟩
  constructor
  · intro j k hj
    obtain ⟨hj, hji⟩ := hother j k hj
    have hne : k.entity ≠ l.entity := fun heq => hji (ht.unique j i k l hj hi heq)
    rw [update_of_ne hne]
    exact ht.linked j k hj
  · intro j j' k k' hj hj' heq
    exact ht.unique j j' k k' (hother j k hj).1 (hother j' k' hj').1 heq
  · intro h e he hlent
    by_cases hh : h = l.entity
    · subst hh
      rw [update_self] at he
      obtain rfl := Option.some.inj he
      rw [Loan.after_lent] at hlent
      cases hlent
    · rw [update_of_ne hh] at he
      obtain ⟨j, k, hj, hk⟩ := ht.lent h e he hlent
      have hji : j ≠ i := by
        rintro rfl
        obtain rfl := Option.some.inj (hi.symm.trans hj)
        exact hh hk.symm
      exact ⟨j, k, by rw [update_of_ne hji]; exact hj, hk⟩
  · intro h e he hlent
    by_cases hh : h = l.entity
    · subst hh
      rw [update_self] at he
      obtain rfl := Option.some.inj he
      exact l.after_buffered kind
    · rw [update_of_ne hh] at he
      exact ht.buffered h e he hlent

end

/-- Where no loan is made or given back the entities stay as they are. -/
theorem loans_update_of_eq {calls : Nat → Option (Running V)} {i : Nat} {x : Option (Running V)}
    (h : (x.bind fun c => c.task.loan) = loans calls i) :
    loans (update calls i x) = loans calls := by
  rw [loans_update, h, update_eq_self]

theorem step_tied {s t : Sys V} (ht : Tied (loans s.calls) s.entities) (hs : Step s t) :
    Tied (loans t.calls) t.entities := by
  cases hs with
  | enter hi hloan _ =>
    rw [Sys.enter, loans_update_of_eq (by simp [loans, hi, hloan])]
    exact ht
  | lend hi he hloan _ =>
    rw [Sys.enter, loans_update, Option.bind_some, hloan]
    exact ht.lend (by simp [loans, hi]) he
  | act hi hadv =>
    rw [loans_update_of_eq (by simp [loans, hi])]
    exact ht
  | leave hi hloan _ =>
    rw [Sys.leave, loans_update_of_eq (by simp [loans, hi, hloan])]
    exact ht
  | made hi he =>
    rw [Sys.leave, loans_update_of_eq (by simp [loans, hi, Task.loan])]
    exact ht.made _ he
  | back hi hloan he =>
    rw [Sys.leave, loans_update, Option.bind_none]
    exact ht.back (by simp [loans, hi, hloan]) _

section

variable {memory : Cells Content} {calls : Nat → Option (Running V)}
  {entities : Nat → Option Entity} {owner : Nat → Owner}
  (h : Owned memory calls entities owner) {i g : Nat}
include h

/-- A call that begins with nothing, -/
theorem Owned.enter {task : Task} {code : Call V} (hi : calls i = none)
    (hsafe : Safe (Ends task) code Cells.empty) :
    Owned memory (update calls i (some ⟨task, code⟩)) entities owner where
  codes := by
    intro j c hj
    by_cases hji : j = i
    · subst hji
      rw [update_self] at hj
      obtain rfl := Option.some.inj hj
      rw [h.idle j hi]
      exact hsafe
    · rw [update_of_ne hji] at hj
      exact h.codes j c hj
  idle := by
    intro j hj
    by_cases hji : j = i
    · subst hji
      exact h.idle j hi
    · rw [update_of_ne hji] at hj
      exact h.idle j hj
  entities := h.entities

/-- and one that begins with what an entity had to itself. -/
theorem Owned.lend {b : Nat} {e : Entity} {task : Task} {code : Call V} (hi : calls i = none)
    (hrest : resting (entities g) = single b) (hlent : resting (some e) = Cells.empty)
    (hsafe : Safe (Ends task) code (single b)) :
    Owned memory (update calls i (some ⟨task, code⟩)) (update entities g (some e))
      (give owner (.entity g) (.call i)) where
  codes := by
    intro j c hj
    by_cases hji : j = i
    · subst hji
      rw [update_self] at hj
      obtain rfl := Option.some.inj hj
      have hown : owned memory (give owner (.entity g) (.call j)) (.call j) = single b := by
        rw [owned_give_to (h.idle j hi), h.entities g, hrest]
      rw [hown]
      exact hsafe
    · rw [update_of_ne hji] at hj
      rw [owned_give_of_ne (by simp) (by simpa using hji)]
      exact h.codes j c hj
  idle := by
    intro j hj
    by_cases hji : j = i
    · subst hji
      rw [update_self] at hj
      cases hj
    · rw [update_of_ne hji] at hj
      rw [owned_give_of_ne (by simp) (by simpa using hji)]
      exact h.idle j hj
  entities := by
    intro f
    by_cases hf : f = g
    · subst hf
      rw [owned_give_from (by simp), update_self, hlent]
    · rw [owned_give_of_ne (by simpa using hf) (by simp), update_of_ne hf]
      exact h.entities f

/-- An instruction finds what it needs with its own call and changes nothing elsewhere. -/
theorem Owned.act {task : Task} {code rest : Call V} {e : Event (Answer V)} {proper : Bool}
    {m : Cells Content} (hi : calls i = some ⟨task, code⟩)
    (hs : advance memory code e = some (proper, m, rest)) :
    proper = true ∧
      ∃ owner', Owned m (update calls i (some ⟨task, rest⟩)) entities owner' := by
  obtain ⟨hproper, owner', hsafe, hothers⟩ := (h.codes i _ hi).advance hs
  refine ⟨hproper, owner', ?_, ?_, ?_⟩
  · intro j c hj
    by_cases hji : j = i
    · subst hji
      rw [update_self] at hj
      obtain rfl := Option.some.inj hj
      exact hsafe
    · rw [update_of_ne hji] at hj
      rw [hothers _ (by simpa using hji)]
      exact h.codes j c hj
  · intro j hj
    by_cases hji : j = i
    · subst hji
      rw [update_self] at hj
      cases hj
    · rw [update_of_ne hji] at hj
      rw [hothers _ (by simpa using hji)]
      exact h.idle j hj
  · intro f
    rw [hothers _ (by simp)]
    exact h.entities f

/-- A call that ends with nothing, -/
theorem Owned.leave (hown : owned memory owner (.call i) = Cells.empty) :
    Owned memory (update calls i none) entities owner where
  codes := by
    intro j c hj
    by_cases hji : j = i
    · subst hji
      rw [update_self] at hj
      cases hj
    · rw [update_of_ne hji] at hj
      exact h.codes j c hj
  idle := by
    intro j hj
    by_cases hji : j = i
    · subst hji
      exact hown
    · rw [update_of_ne hji] at hj
      exact h.idle j hj
  entities := h.entities

/-- and one that ends with what an entity, new or lent to it, has to itself from then on. -/
theorem Owned.back {e : Entity} (hnone : resting (entities g) = Cells.empty)
    (hrest : resting (some e) = owned memory owner (.call i)) :
    Owned memory (update calls i none) (update entities g (some e))
      (give owner (.call i) (.entity g)) where
  codes := by
    intro j c hj
    by_cases hji : j = i
    · subst hji
      rw [update_self] at hj
      cases hj
    · rw [update_of_ne hji] at hj
      rw [owned_give_of_ne (by simpa using hji) (by simp)]
      exact h.codes j c hj
  idle := by
    intro j hj
    by_cases hji : j = i
    · subst hji
      exact owned_give_from (by simp)
    · rw [update_of_ne hji] at hj
      rw [owned_give_of_ne (by simpa using hji) (by simp)]
      exact h.idle j hj
  entities := by
    intro f
    by_cases hf : f = g
    · subst hf
      have hempty : owned memory owner (.entity f) = Cells.empty := by rw [h.entities f, hnone]
      rw [owned_give_to hempty, update_self, hrest]
    · rw [owned_give_of_ne (by simp) (by simpa using hf), update_of_ne hf]
      exact h.entities f

end

/-- A take gives the buffer back and a fini has freed it. -/
theorem resting_after {task : Task} {l : Loan} (hl : task.loan = some l) (kind : EntityKind)
    {r : Outcome V} {own : Cells Content} (h : Ends task r own) :
    resting (some (l.after kind)) = own := by
  cases task with
  | taking g b =>
    obtain rfl := Option.some.inj hl
    exact h.symm
  | finalizing g b =>
    obtain rfl := Option.some.inj hl
    exact h.symm
  | _ => cases hl

theorem step_inv {s t : Sys V} {m : Move V} (h : Inv s) (halone : Alone s m)
    (hs : step s m = some t) : Inv t := by
  obtain ⟨owner, howned⟩ := h.owned
  have hcases := step_cases h.tied halone hs
  have htied := step_tied h.tied hcases
  cases hcases with
  | enter hi hloan hsafe => exact ⟨h.proper, htied, owner, howned.enter hi hsafe⟩
  | lend hi he hloan hsafe =>
    exact ⟨h.proper, htied, _, howned.lend hi (by rw [he]; rfl) rfl hsafe⟩
  | act hi hadv =>
    obtain ⟨rfl, hact⟩ := howned.act hi hadv
    exact ⟨by simpa using h.proper, htied, hact⟩
  | leave hi hloan hends =>
    exact ⟨h.proper, htied, owner, howned.leave (hends _ (howned.codes _ _ hi))⟩
  | made hi he =>
    exact ⟨h.proper, htied, _, howned.back (by rw [he]; rfl) (howned.codes _ _ hi).symm⟩
  | back hi hloan he =>
    exact ⟨h.proper, htied, _, howned.back (by rw [he]; rfl)
      (resting_after hloan _ (howned.codes _ _ hi))⟩

theorem start_inv : Inv (Sys.start : Sys V) where
  proper := rfl
  tied := ⟨nofun, nofun, nofun, nofun⟩
  owned := by
    refine ⟨fun _ => .call 0, nofun, fun i _ => ?_, fun h => ?_⟩
    · funext b
      simp [owned, Sys.start]
    · funext b
      simp [owned, Sys.start, resting]

/-! ## Runs -/

def answer (ret : Nat) (converted : Bool) (value : Except Failure Nat) : Event (Answer Nat) :=
  .answered ⟨ret, converted, [], 0, [], [], value⟩

end ShimMemory
