import Rcllean.Executor

/-!
# Passes begun inside callbacks

A callback may spin the executor it runs under, to any depth, and every pass
uses the same wait set. A run is what one thread does: passes begun and taken
through entry by entry, callbacks entered and left, exceptions on their way
out. rcl may refuse any call of a fill, and a wait may fail. Beside the state a
run keeps what the most recent wait assigned and reported.
-/
namespace Nested

open WaitSets Executors Function Runs

/-- What the thread is in the middle of. -/
inductive Frame where
  /-- The loop of a pass over the entities and slots it has not come to yet. -/
  | takes (pending : List (Waitable × Nat))
  | callback (w : Waitable)
  | untilComplete

structure State where
  valid : Handle → Bool
  running : Running
  executor : Executor
  /-- The innermost frame first; below the last one is the program itself. -/
  stack : List Frame
  /-- An exception is on its way out. -/
  raising : Bool
  /-- The slots the most recent wait was given, each with its entity. -/
  assigned : List (Held × Nat)
  /-- The slots the most recent wait reported ready. -/
  report : WaitableKind → Nat → Bool

/-- What the outside decides about the first part of a pass. -/
structure Beginning where
  codes : FillCodes
  waitRet : Option Nat
  woken : Bool
  ready : WaitableKind → Nat → Bool
  contextOk : Bool

/-- A pass that is refused nothing, with what its wait reports. -/
def waking (ready : WaitableKind → Nat → Bool) : Beginning :=
  ⟨.granted, none, true, ready, true⟩

inductive Move where
  /-- `spinOnce` or `spinSome`, up to the loop over the slots. Where rcl refuses a call, `left` is
  the wait set as it is then: rcl does not say what it leaves of it. -/
  | spinOnce (out : Beginning) (left : WaitSet)
  /-- The next entry of the loop, with what its take comes back with. -/
  | next (answer : Answer)
  | finish
  | destroy (h : Handle)
  | add (w : Waitable)
  /-- The callback is over, with what stops the response when it is a service's handler. -/
  | callbackReturns (refused : Option Failure)
  /-- User code raises, or the clock of `spinUntilComplete` does. -/
  | raise
  | catchIt
  | unwind
  | enterUntilComplete
  | leaveUntilComplete

/-- User code is running: a callback or the program itself. -/
def State.inUser (s : State) : Bool :=
  match s.stack with
  | [] => !s.raising
  | .callback _ :: _ => !s.raising
  | _ => false

/-- A pass may begin: from user code or from the loop of `spinUntilComplete`. -/
def State.maySpin (s : State) : Bool :=
  match s.stack with
  | .untilComplete :: _ => !s.raising
  | _ => s.inUser

def State.eligible (s : State) : List Waitable :=
  s.executor.eligible s.valid s.running

def entriesOf (eligible : List Waitable) (slots : List Nat) : List (Held × Nat) :=
  (eligible.zip slots).map fun p => (p.1.held, p.2)

/-- The first part of a pass. It returns at once when the wait timed out or the context is down,
and raises where rcl refuses a call; a wait that fails has been given its slots and reports none. -/
def beginPass (s : State) (out : Beginning) (left : WaitSet) : State :=
  let ex := (s.executor.liveWaitables s.valid).1
  match fill s.valid ex.wakeup out.codes s.eligible ex.waitSet with
  | .error _ => { s with executor := { ex with waitSet := left }, raising := true }
  | .ok (ws, _, slots) =>
    match ws.wait out.waitRet out.woken out.ready with
    | .error _ => { s with
        executor := { ex with waitSet := left }
        raising := true
        assigned := entriesOf s.eligible slots
        report := fun _ _ => false }
    | .ok (result, ws) => { s with
        executor := { ex with waitSet := ws }
        stack := if result && out.contextOk then .takes (s.eligible.zip slots) :: s.stack
          else s.stack
        assigned := entriesOf s.eligible slots
        report := fun k i => out.woken && out.ready k i }

/-- The next entry of the innermost loop: skipped, passed over, or its callback entered. -/
def takeNext (s : State) (w : Waitable) (slot : Nat) (answer : Answer) : State :=
  if canRun s.running w.group then
    match w.takeIfReady s.executor.waitSet slot (s.valid w.handle) answer with
    | .error _ => { s with raising := true }
    | .ok false => s
    | .ok true => { s with running := enter s.running w.group, stack := .callback w :: s.stack }
  else s

/-- The callback is over; a service still has its response to send. -/
def callbackReturns (s : State) (w : Waitable) (stack : List Frame) (refused : Option Failure) :
    State :=
  let sent := if w.kind = .service then serviceSendResponse (s.valid w.handle) refused else .ok ()
  match sent with
  | .error _ => { s with raising := true }
  | .ok _ => { s with running := leave s.running w.group, stack }

/-- A guard condition has no destroy, so the wakeup stays; arrays have fewer than 2^64 entries. -/
def step (s : State) : Move → Option State
  | .spinOnce out left => if s.maySpin then some (beginPass s out left) else none
  | .next answer => match s.raising, s.stack with
    | false, .takes ((w, slot) :: rest) :: stack =>
      some (takeNext { s with stack := .takes rest :: stack } w slot answer)
    | _, _ => none
  | .finish => match s.raising, s.stack with
    | false, .takes [] :: stack => some { s with stack }
    | _, _ => none
  | .destroy h =>
    if s.inUser ∧ h ≠ s.executor.wakeup then some { s with valid := update s.valid h false }
    else none
  | .add w =>
    if s.inUser ∧ s.executor.waitables.entries.length + 2 < 2 ^ 64 then
      some { s with executor := s.executor.add w }
    else none
  | .callbackReturns refused => match s.raising, s.stack with
    | false, .callback w :: stack => some (callbackReturns s w stack refused)
    | _, _ => none
  | .raise => if s.maySpin then some { s with raising := true } else none
  | .catchIt => match s.raising, s.stack with
    | true, [] => some { s with raising := false }
    | true, .callback _ :: _ => some { s with raising := false }
    | _, _ => none
  | .unwind => match s.raising, s.stack with
    | true, .takes _ :: stack => some { s with stack }
    | true, .callback w :: stack => some { s with running := leave s.running w.group, stack }
    | true, .untilComplete :: stack => some { s with stack }
    | _, _ => none
  | .enterUntilComplete =>
    if s.inUser then some { s with stack := .untilComplete :: s.stack } else none
  | .leaveUntilComplete => match s.raising, s.stack with
    | false, .untilComplete :: stack => some { s with stack }
    | _, _ => none

/-- A program that has made an executor. -/
def start (ex : Executor) (valid : Handle → Bool) : State where
  valid := valid
  running := fun _ => 0
  executor := ex
  stack := []
  raising := false
  assigned := []
  report := fun _ _ => false

/-- The entries all loops on the stack have still to come to. -/
def pendingOf (stack : List Frame) : List (Waitable × Nat) :=
  stack.flatMap fun
    | .takes pending => pending
    | _ => []

/-- The slots a pass begun now would assign. -/
def State.plan (s : State) : List (Held × Nat) := entriesOf s.eligible (slotsOf s.eligible)

/-- Neither a call of the fill nor the wait of a pass begun now raises. -/
def Goes (s : State) (out : Beginning) : Prop :=
  (fill s.valid s.executor.wakeup out.codes s.eligible s.executor.waitSet).isOk = true ∧
    out.waitRet = none

instance (s : State) (out : Beginning) : Decidable (Goes s out) :=
  inferInstanceAs (Decidable (_ ∧ _))

/-- A pass begun now goes through to its loop and gives every entry still to come the slot that
entry already has. -/
def KeepsSlots (s : State) : Move → Prop
  | .spinOnce out _ => ∀ p ∈ pendingOf s.stack, Goes s out ∧ (p.1.held, p.2) ∈ s.plan
  | _ => True

instance (s : State) : ∀ m, Decidable (KeepsSlots s m)
  | .spinOnce out _ => inferInstanceAs (Decidable (∀ p ∈ pendingOf s.stack, Goes s out ∧ _))
  | .next _ | .finish | .destroy _ | .add _ | .callbackReturns _ | .raise | .catchIt | .unwind
  | .enterUntilComplete | .leaveUntilComplete => isTrue trivial

/-- A query is for a slot that the most recent wait assigned to that entity, so what it finds
ready is what that wait reported. -/
def FreshSlot (s : State) : Move → Prop
  | .next _ => ∀ w slot rest stack, s.stack = .takes ((w, slot) :: rest) :: stack →
    canRun s.running w.group = true → (w.held, slot) ∈ s.assigned ∧
      (s.executor.waitSet.ready w.kind slot = true → s.report w.kind slot = true)
  | _ => True

/-! ## The invariant -/

/-- The slots of the wait set are those assigned, and ready only as reported. -/
structure Assigned (s : State) (records : List Record) : Prop where
  entered : Entered s.executor.waitSet records
  lt : ∀ r ∈ records, r.slot < 2 ^ 64
  kept : ∀ r ∈ records, r.kept = true → s.report r.held.kind r.slot = true
  assigned : ∀ a ∈ s.assigned, ∃ r ∈ records, r.held = a.1 ∧ r.slot = a.2

/-- Nothing is known of the wait set while no entry is still to come: the next pass fills it
anew. -/
structure Inv (s : State) : Prop where
  short : s.executor.waitables.entries.length + 1 < 2 ^ 64
  pending : ∀ p ∈ pendingOf s.stack, (p.1.held, p.2) ∈ s.assigned
  books : pendingOf s.stack ≠ [] → ∃ records, Assigned s records

theorem pendingOf_cons (f : Frame) (stack : List Frame) {p : Waitable × Nat}
    (hp : p ∈ pendingOf stack) : p ∈ pendingOf (f :: stack) := by
  rw [pendingOf, List.flatMap_cons]
  exact List.mem_append_right _ hp

theorem Inv.freshSlot {s : State} (h : Inv s) (m : Move) : FreshSlot s m := by
  cases m with
  | next answer =>
    intro w slot rest stack hstack _
    have hp : (w, slot) ∈ pendingOf s.stack := by
      rw [hstack, pendingOf, List.flatMap_cons]
      exact List.mem_append_left _ (List.mem_cons_self ..)
    have hassigned := h.pending _ hp
    refine ⟨hassigned, fun hready => ?_⟩
    obtain ⟨records, hbooks⟩ := h.books (List.ne_nil_of_mem hp)
    obtain ⟨r, hr, hheld, hslot⟩ := hbooks.assigned _ hassigned
    have hkind : r.held.kind = w.kind := congrArg Held.kind hheld
    have hreport := hbooks.kept r hr
    rw [← hbooks.entered.ready_slot hr (hbooks.lt r hr), hkind, hslot] at hreport
    exact hreport hready
  | _ => trivial

/-- Popping frames and changing what the invariant does not read keeps it. -/
theorem Inv.of_stack {s t : State} (h : Inv s) (hex : t.executor = s.executor)
    (hassigned : t.assigned = s.assigned) (hreport : t.report = s.report)
    (hstack : ∀ p ∈ pendingOf t.stack, p ∈ pendingOf s.stack) : Inv t := by
  constructor
  · rw [hex]
    exact h.short
  · intro p hp
    rw [hassigned]
    exact h.pending p (hstack p hp)
  · intro hne
    obtain ⟨p, hp⟩ := List.exists_mem_of_ne_nil _ hne
    obtain ⟨records, hb⟩ := h.books (List.ne_nil_of_mem (hstack p hp))
    refine ⟨records, ?_, hb.lt, ?_, ?_⟩
    · rw [hex]
      exact hb.entered
    · rw [hreport]
      exact hb.kept
    · rw [hassigned]
      exact hb.assigned

theorem length_live_le (ex : Executor) (valid : Handle → Bool) :
    (ex.liveWaitables valid).1.waitables.entries.length ≤ ex.waitables.entries.length := by
  rw [liveWaitables_entries]
  exact List.length_filter_le ..

/-- With no entry still to come nothing has to be known of the wait set. -/
theorem Inv.spoilt {s t : State} (h : Inv s) (hnone : pendingOf s.stack = [])
    (hstack : t.stack = s.stack)
    (hlive : t.executor.waitables = (s.executor.liveWaitables s.valid).1.waitables) : Inv t := by
  refine ⟨?_, ?_, ?_⟩
  · rw [hlive]
    exact Nat.lt_of_le_of_lt (Nat.succ_le_succ (length_live_le ..)) h.short
  · intro p hp
    rw [hstack, hnone] at hp
    cases hp
  · intro hne
    rw [hstack] at hne
    exact absurd hnone hne

/-- Where the wait has returned the slots are those of the fill. -/
theorem assigned_of_wait {s : State} {ws ws' : WaitSet} {out : Beginning}
    (hshort : s.eligible.length + 1 < 2 ^ 64)
    (he : Entered ws (filledRecords s.executor.wakeup s.eligible)) {result : Bool}
    (hwait : ws.wait out.waitRet out.woken out.ready = .ok (result, ws')) {t : State}
    (hset : t.executor.waitSet = ws') (hassigned : t.assigned = s.plan)
    (hreport : t.report = fun k i => out.woken && out.ready k i) :
    Assigned t ((filledRecords s.executor.wakeup s.eligible).map
      (settle out.woken out.ready)) := by
  constructor
  · rw [hset]
    exact wait_entered he hwait
  · intro r hr
    obtain ⟨q, hq, rfl⟩ := List.mem_map.mp hr
    have hlt := he.slot_lt hq
    have hcount := countOf_le q.held.kind s.eligible
    rw [recordsOf_filled, capacityFor_count] at hlt
    have hone : (if q.held.kind = .guardCondition then 1 else 0) ≤ 1 := by split <;> simp
    exact Nat.lt_of_lt_of_le hlt (by omega)
  · intro r hr hk
    obtain ⟨q, -, rfl⟩ := List.mem_map.mp hr
    rw [hreport]
    exact (Bool.and_eq_true_iff.mp hk).2
  · intro a ha
    rw [hassigned] at ha
    obtain ⟨p, hp, rfl⟩ := List.mem_map.mp ha
    have hmem : (⟨p.1.held, p.2, true⟩ : Record) ∈ filledRecords s.executor.wakeup s.eligible :=
      List.mem_cons_of_mem _ (List.mem_map_of_mem hp)
    exact ⟨_, List.mem_map_of_mem hmem, rfl, rfl⟩

/-- A pass raises with no entry still to come, or it gets to its loop and assigns what was
planned. -/
theorem beginPass_inv {s : State} (h : Inv s) (out : Beginning) (left : WaitSet)
    (hkeep : KeepsSlots s (.spinOnce out left)) : Inv (beginPass s out left) := by
  have hshort : s.eligible.length + 1 < 2 ^ 64 :=
    Nat.lt_of_le_of_lt (Nat.succ_le_succ (length_eligible_le ..)) h.short
  have hnone : ¬ Goes s out → pendingOf s.stack = [] := by
    intro hgoes
    by_contra hne
    obtain ⟨p, hp⟩ := List.exists_mem_of_ne_nil _ hne
    exact hgoes (hkeep p hp).1
  unfold beginPass
  simp only [liveWaitables_wakeup, liveWaitables_waitSet]
  cases hfill : fill s.valid s.executor.wakeup out.codes s.eligible s.executor.waitSet with
  | error why =>
    refine h.spoilt (hnone fun hgoes => ?_) rfl rfl
    rw [Goes, hfill] at hgoes
    cases hgoes.1
  | ok filled =>
    obtain ⟨ws, idx, slots⟩ := filled
    obtain ⟨-, rfl, he⟩ := fill_entered hshort hfill
    dsimp only
    cases hwait : ws.wait out.waitRet out.woken out.ready with
    | error why =>
      refine h.spoilt (hnone fun hgoes => ?_) rfl rfl
      have hok := (@wait_eq_ok ws _ _ _ out.woken out.ready).mpr ⟨⟨he.valid, hgoes.2⟩, rfl, rfl⟩
      rw [hwait] at hok
      cases hok
    | ok waited =>
      obtain ⟨result, ws'⟩ := waited
      constructor
      · exact Nat.lt_of_le_of_lt (Nat.succ_le_succ (length_live_le ..)) h.short
      · intro p hp
        have hp : p ∈ pendingOf s.stack ∨ p ∈ s.eligible.zip (slotsOf s.eligible) := by
          dsimp only at hp
          split at hp
          · rw [pendingOf, List.flatMap_cons] at hp
            exact (List.mem_append.mp hp).symm
          · exact .inl hp
        rcases hp with hp | hp
        · exact (hkeep p hp).2
        · exact List.mem_map_of_mem hp
      · exact fun _ => ⟨_, assigned_of_wait hshort he hwait rfl rfl rfl⟩

theorem takeNext_inv {s : State} (h : Inv s) (w : Waitable) (slot : Nat) (answer : Answer) :
    Inv (takeNext s w slot answer) := by
  unfold takeNext
  split
  · split
    · exact h.of_stack rfl rfl rfl fun _ hp => hp
    · exact h
    · exact h.of_stack rfl rfl rfl fun _ hp => hp
  · exact h

theorem Inv.pop {s : State} (h : Inv s) {f : Frame} {stack : List Frame}
    (hstack : s.stack = f :: stack) (running : Running) : Inv { s with running, stack } := by
  refine h.of_stack rfl rfl rfl fun p hp => ?_
  rw [hstack]
  exact pendingOf_cons _ _ hp

theorem Inv.raising {s : State} (h : Inv s) (raising : Bool) : Inv { s with raising } :=
  h.of_stack rfl rfl rfl fun _ hp => hp

theorem callbackReturns_inv {s : State} (h : Inv s) {w : Waitable} {stack : List Frame}
    (hstack : s.stack = .callback w :: stack) (refused : Option Failure) :
    Inv (callbackReturns s w stack refused) := by
  unfold callbackReturns
  dsimp only
  split
  · exact h.raising true
  · exact h.pop hstack _

theorem step_inv (s : State) (m : Move) (t : State) (h : Inv s) (hm : KeepsSlots s m)
    (hs : step s m = some t) : Inv t := by
  cases m with
  | spinOnce out left =>
    simp only [step, Option.ite_none_right_eq_some, Option.some.injEq] at hs
    obtain ⟨-, rfl⟩ := hs
    exact beginPass_inv h out left hm
  | next answer =>
    simp only [step] at hs
    split at hs
    · rename_i w slot rest stack _ hstack
      obtain rfl := Option.some.inj hs
      have hpop : Inv { s with stack := .takes rest :: stack } := by
        refine h.of_stack rfl rfl rfl fun p hp => ?_
        rw [hstack]
        rcases List.mem_append.mp hp with hp | hp
        · exact List.mem_append_left _ (List.mem_cons_of_mem _ hp)
        · exact List.mem_append_right _ hp
      exact takeNext_inv hpop w slot answer
    · cases hs
  | finish =>
    simp only [step] at hs
    split at hs
    · rename_i hstack
      obtain rfl := Option.some.inj hs
      exact h.pop hstack s.running
    · cases hs
  | destroy d =>
    simp only [step, Option.ite_none_right_eq_some, Option.some.injEq] at hs
    obtain ⟨-, rfl⟩ := hs
    exact h.of_stack rfl rfl rfl fun _ hp => hp
  | add w =>
    simp only [step, Option.ite_none_right_eq_some, Option.some.injEq] at hs
    obtain ⟨⟨-, hshort⟩, rfl⟩ := hs
    refine ⟨?_, h.pending, fun hne => ?_⟩
    · simpa [Executor.add, Registry.push] using hshort
    · obtain ⟨records, hb⟩ := h.books hne
      exact ⟨records, hb.entered, hb.lt, hb.kept, hb.assigned⟩
  | callbackReturns refused =>
    simp only [step] at hs
    split at hs
    · rename_i hstack
      obtain rfl := Option.some.inj hs
      exact callbackReturns_inv h hstack refused
    · cases hs
  | raise =>
    simp only [step, Option.ite_none_right_eq_some, Option.some.injEq] at hs
    obtain ⟨-, rfl⟩ := hs
    exact h.raising true
  | catchIt =>
    simp only [step] at hs
    split at hs
    · obtain rfl := Option.some.inj hs
      exact h.raising false
    · obtain rfl := Option.some.inj hs
      exact h.raising false
    · cases hs
  | unwind =>
    simp only [step] at hs
    split at hs
    · rename_i hstack
      obtain rfl := Option.some.inj hs
      exact h.pop hstack s.running
    · rename_i hstack
      obtain rfl := Option.some.inj hs
      exact h.pop hstack _
    · rename_i hstack
      obtain rfl := Option.some.inj hs
      exact h.pop hstack s.running
    · cases hs
  | enterUntilComplete =>
    simp only [step, Option.ite_none_right_eq_some, Option.some.injEq] at hs
    obtain ⟨-, rfl⟩ := hs
    exact h.of_stack rfl rfl rfl fun _ hp => hp
  | leaveUntilComplete =>
    simp only [step] at hs
    split at hs
    · rename_i hstack
      obtain rfl := Option.some.inj hs
      exact h.pop hstack s.running
    · cases hs

theorem start_inv {ctxValid : Bool} {wakeup : Handle} {ex : Executor}
    (hcreate : Executor.create ctxValid wakeup = .ok ex) (valid : Handle → Bool) :
    Inv (start ex valid) := by
  obtain ⟨-, hempty, -⟩ := Executor.books_of_create hcreate
  refine ⟨?_, ?_, ?_⟩
  · rw [start, hempty]
    decide
  · intro p hp
    cases hp
  · intro hne
    exact absurd rfl hne

/-- In every run whose nested passes go through and keep the slots still to be read, to any depth,
each query is for a slot the most recent wait assigned to that entity. -/
theorem slots_fresh {ctxValid : Bool} {wakeup : Handle} {ex : Executor}
    (hcreate : Executor.create ctxValid wakeup = .ok ex) (valid : Handle → Bool)
    (ms : List Move) (hms : Throughout step KeepsSlots (start ex valid) ms) :
    Throughout step FreshSlot (start ex valid) ms :=
  throughout_of_invariant step_inv (fun _ m h _ => h.freshSlot m) (start_inv hcreate valid) hms

/-! ### Entities in groups of their own -/

/-- A wait of the program's own fails. Then a subscription's callback spins once while the timer's
slot is still to be read; the timer keeps slot zero. -/
def keepingRun (left : WaitSet) : List Move :=
  [.add (subscription 1 1), .add (timer 2 2),
    .spinOnce { waking (fun _ _ => true) with waitRet := some 1 } left, .catchIt,
    .spinOnce (waking fun _ _ => true) left, .next .data, .spinOnce (waking fun _ _ => true) left]

theorem slots_fresh_keeping : ∃ ex, Executor.create true 0 = .ok ex ∧
    Throughout step FreshSlot (start ex fun _ => true) (keepingRun ex.waitSet) := by
  obtain ⟨ex, hex⟩ := Executor.exists_create 0
  have hkeep : Throughout step KeepsSlots (start ex fun _ => true) (keepingRun ex.waitSet) := by
    obtain rfl := Except.ok.inj hex
    decide
  exact ⟨ex, hex, slots_fresh hex _ _ hkeep⟩

def onlyTimer (slot : Nat) (k : WaitableKind) (i : Nat) : Bool := k = .timer && i = slot

/-- Timer 1 is ready in the outer pass; its callback spins once, and timer 3 is ready there. -/
def nestedRun (left : WaitSet) : List Move :=
  [.add (timer 1 1), .add (timer 2 2), .add (timer 3 3), .spinOnce (waking (onlyTimer 0)) left,
    .next .data, .spinOnce (waking (onlyTimer 1)) left, .next .nothing, .next .data,
    .callbackReturns none, .finish, .callbackReturns none]

/-- Back in the outer pass timer 2 is called on the slot in which the last wait found timer 3; that
wait had given timer 2 slot 0 and did not report it. -/
theorem nested_pass_calls_wrong_timer : ∃ ex, Executor.create true 0 = .ok ex ∧
    ∃ s, run step (start ex fun _ => true) (nestedRun ex.waitSet) = some s ∧
      s.assigned = [(⟨.timer, 2⟩, 0), (⟨.timer, 3⟩, 1)] ∧ s.report .timer 0 = false ∧
      ¬ FreshSlot s (.next .data) ∧
      (step s (.next .data)).map (fun t => t.stack) =
        some [.callback (timer 2 2), .takes [(timer 3 3, 2)]] := by
  obtain ⟨ex, hex⟩ := Executor.exists_create 0
  have hrun : ∃ s, run step (start ex fun _ => true) (nestedRun ex.waitSet) = some s ∧
      s.assigned = [(⟨.timer, 2⟩, 0), (⟨.timer, 3⟩, 1)] ∧ s.report .timer 0 = false ∧
      s.stack = [.takes [(timer 2 2, 1), (timer 3 3, 2)]] ∧
      canRun s.running (timer 2 2).group = true ∧ (step s (.next .data)).map (fun t => t.stack) =
        some [.callback (timer 2 2), .takes [(timer 3 3, 2)]] := by
    obtain rfl := Except.ok.inj hex
    refine ⟨_, rfl, ?_⟩
    exact ⟨rfl, rfl, rfl, rfl, rfl⟩
  obtain ⟨s, hs, hassigned, hreport, hstack, hcan, hnext⟩ := hrun
  refine ⟨ex, hex, s, hs, hassigned, hreport, fun hfresh => ?_, hnext⟩
  have hmem := (hfresh _ _ _ _ hstack hcan).1
  rw [hassigned] at hmem
  exact absurd hmem (by decide)

end Nested
