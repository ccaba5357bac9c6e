import Mathlib.Data.List.Nodup
import Rcllean.WaitSet

/-!
# The executor's pass

A pass drops what was destroyed, leaves out what belongs to a busy group,
fills the wait set, waits, and takes from every slot found ready. The pass is
written over what the outside decides: which calls rcl refuses, what it reports
ready, what it answers each take, and what each callback destroys.
-/
namespace Executors

open WaitSets Function Runs

/-! ## Callback groups -/

inductive CallbackGroupKind where
  | mutuallyExclusive | reentrant
  deriving DecidableEq, Repr

structure CallbackGroup where
  kind : CallbackGroupKind
  /-- Which group it is; its count of running callbacks is kept under it. -/
  id : Nat
  deriving DecidableEq, Repr

/-- Callbacks currently running, by group. -/
abbrev Running := CallbackGroup → Nat

/-- Whether a callback from this group may start now. -/
def canRun (running : Running) (g : CallbackGroup) : Bool :=
  match g.kind with
  | .reentrant => true
  | .mutuallyExclusive => running g == 0

def enter (running : Running) (g : CallbackGroup) : Running :=
  update running g (running g + 1)

def leave (running : Running) (g : CallbackGroup) : Running :=
  update running g (running g - 1)

theorem leave_enter (running : Running) (g : CallbackGroup) :
    leave (enter running g) g = running := by
  funext k
  by_cases hk : k = g
  · subst hk
    simp [leave, enter]
  · simp [leave, enter, hk]

/-! ## Entities -/

/-- Something an executor can wait on and run. -/
structure Waitable where
  kind : WaitableKind
  group : CallbackGroup
  handle : Handle
  deriving DecidableEq, Repr

def Waitable.held (w : Waitable) : Held := ⟨w.kind, w.handle⟩

/-- A timer of the mutually exclusive group of the number. -/
def timer (group : Nat) (h : Handle) : Waitable := ⟨.timer, ⟨.mutuallyExclusive, group⟩, h⟩

def subscription (group : Nat) (h : Handle) : Waitable :=
  ⟨.subscription, ⟨.mutuallyExclusive, group⟩, h⟩

/-- What a take from an entity that still exists comes back with. -/
inductive Answer where
  | nothing
  | data
  | refused (why : Failure)
  deriving DecidableEq, Repr

/-- The one body of the takes: whether there is data, and with it a callback to run. -/
def takeFrom (fn : String) (valid : Bool) (answer : Answer) : Except Failure Bool := do
  requireValid valid fn
  match answer with
  | .nothing => return false
  | .data => return true
  | .refused why => throw why

def subscriptionTake := takeFrom "rcl_take"
def timerCall := takeFrom "rcl_timer_call"
def serviceTakeRequest := takeFrom "rcl_take_request"
def clientTakeResponse := takeFrom "rcl_take_response"
def eventTake := takeFrom "rcl_take_event"

/-- `refused` is what stops the response of a service that still exists: its header, the memory for
it, its initialization or conversion, or the code of rcl's send. -/
def serviceSendResponse (valid : Bool) (refused : Option Failure) : Except Failure Unit := do
  requireValid valid "rcl_send_response"
  match refused with
  | none => return ()
  | some why => throw why

theorem serviceSendResponse_ok_iff {valid : Bool} {refused : Option Failure} {u : Unit} :
    serviceSendResponse valid refused = .ok u ↔ valid = true ∧ refused = none := by
  cases valid with
  | false => simp [serviceSendResponse, requireValid]
  | true => cases refused with
    | none => simp [serviceSendResponse, pure, Except.pure]
    | some why => simp [serviceSendResponse, throw, throwThe, MonadExceptOf.throw]

/-- Register in a wait set, returning the slot index. -/
def Waitable.add (w : Waitable) (ws : WaitSet) (valid : Bool) (ret : Option Nat) :
    Except Failure (WaitSet × Nat) :=
  match w.kind with
  | .subscription => ws.addSubscription w.handle valid ret
  | .timer => ws.addTimer w.handle valid ret
  | .guardCondition => ws.addGuardCondition w.handle valid ret
  | .client => ws.addClient w.handle valid ret
  | .service => ws.addService w.handle valid ret
  | .event => ws.addEvent w.handle valid ret

/-- If the slot is ready, take: whether there is a callback to run. A guard's action needs no
take, so nothing looks at whether the guard still exists. -/
def Waitable.takeIfReady (w : Waitable) (ws : WaitSet) (slot : Nat) (valid : Bool)
    (answer : Answer) : Except Failure Bool :=
  match w.kind with
  | .subscription => if ws.subscriptionReady slot then subscriptionTake valid answer else .ok false
  | .timer => if ws.timerReady slot then timerCall valid answer else .ok false
  | .guardCondition => if ws.guardConditionReady slot then .ok true else .ok false
  | .client => if ws.clientReady slot then clientTakeResponse valid answer else .ok false
  | .service => if ws.serviceReady slot then serviceTakeRequest valid answer else .ok false
  | .event => if ws.eventReady slot then eventTake valid answer else .ok false

/-- The name a take raises under. -/
def takeName : WaitableKind → String
  | .subscription => "rcl_take"
  | .timer => "rcl_timer_call"
  | .guardCondition => ""
  | .client => "rcl_take_response"
  | .service => "rcl_take_request"
  | .event => "rcl_take_event"

/-- What a take comes to, and with what it cannot go through. -/
theorem takeFrom_ok_iff {fn : String} {valid : Bool} {answer : Answer} {b : Bool} :
    takeFrom fn valid answer = .ok b ↔ (valid = true ∧ ∀ why, answer ≠ .refused why) ∧
      b = decide (answer = .data) := by
  cases valid with
  | false => simp [takeFrom, requireValid]
  | true => cases answer with
    | nothing => simp [takeFrom, pure, Except.pure, eq_comm]
    | data => simp [takeFrom, pure, Except.pure, eq_comm]
    | refused why => simp [takeFrom, throw, throwThe, MonadExceptOf.throw]

theorem Waitable.add_eq (w : Waitable) (ws : WaitSet) (valid : Bool) (ret : Option Nat) :
    w.add ws valid ret = ws.add w.kind w.handle valid ret := by
  unfold Waitable.add
  cases w.kind <;> rfl

/-- A slot that is not ready is passed over; one that is ready is taken from. -/
theorem Waitable.takeIfReady_eq (w : Waitable) (ws : WaitSet) (slot : Nat) (valid : Bool)
    (answer : Answer) : w.takeIfReady ws slot valid answer =
      if ws.ready w.kind slot then
        if w.kind = .guardCondition then .ok true else takeFrom (takeName w.kind) valid answer
      else .ok false := by
  unfold Waitable.takeIfReady
  cases w.kind <;> rfl

/-! ## Registration -/

/-- The registered entities, each under a number of its own. -/
structure Registry where
  entries : List (Nat × Waitable)
  nextId : Nat
  numbered : ∀ p ∈ entries, p.1 < nextId
  distinct : (entries.map Prod.fst).Nodup

def Registry.empty : Registry := ⟨[], 0, by simp, by simp⟩

def Registry.push (r : Registry) (w : Waitable) : Registry where
  entries := r.entries ++ [(r.nextId, w)]
  nextId := r.nextId + 1
  numbered := by
    intro p hp
    rcases List.mem_append.mp hp with hp | hp
    · exact Nat.lt_succ_of_lt (r.numbered p hp)
    · obtain rfl := List.mem_singleton.mp hp
      exact Nat.lt_succ_self _
  distinct := by
    rw [List.map_append]
    refine List.nodup_append.mpr ⟨r.distinct, List.nodup_singleton _, ?_⟩
    intro a ha b hb
    obtain ⟨p, hp, rfl⟩ := List.mem_map.mp ha
    obtain rfl := List.mem_singleton.mp hb
    exact Nat.ne_of_lt (r.numbered p hp)

def Registry.filter (r : Registry) (keep : Nat × Waitable → Bool) : Registry where
  entries := r.entries.filter keep
  nextId := r.nextId
  numbered := fun p hp => r.numbered p (List.mem_of_mem_filter hp)
  distinct := r.distinct.sublist ((List.filter_sublist).map _)

structure Executor where
  waitables : Registry
  waitSet : WaitSet
  /-- Triggered when the entity set changes and when a callback group frees up. -/
  wakeup : Handle

/-- An executor with no entities; `wakeup` is the guard condition made for it. -/
def Executor.create (ctxValid : Bool) (wakeup : Handle) : Except Failure Executor := do
  let waitSet ← WaitSet.create ctxValid {}
  return ⟨.empty, waitSet, wakeup⟩

def Executor.add (ex : Executor) (w : Waitable) : Executor :=
  { ex with waitables := ex.waitables.push w }

/-- The numbers of the registered entities that have been destroyed. -/
def deadIds (valid : Handle → Bool) (all : List (Nat × Waitable)) : List Nat :=
  all.filterMap fun p => if valid p.2.handle then none else some p.1

/-- The entities not under one of the numbers. -/
def survivors (dead : List Nat) (all : List (Nat × Waitable)) : List Waitable :=
  all.filterMap fun p => if dead.contains p.1 then none else some p.2

/-- The registered entities that still exist, forgetting the rest. -/
def Executor.liveWaitables (ex : Executor) (valid : Handle → Bool) : Executor × List Waitable :=
  let all := ex.waitables.entries
  let dead := deadIds valid all
  let ex := if !dead.isEmpty then
      { ex with waitables := ex.waitables.filter fun p => !dead.contains p.1 }
    else ex
  (ex, survivors dead all)

/-- The entities a pass begun now waits for: those of a busy group stay out. -/
def Executor.eligible (ex : Executor) (valid : Handle → Bool) (running : Running) :
    List Waitable :=
  (ex.liveWaitables valid).2.filter fun w => canRun running w.group

theorem mem_deadIds (valid : Handle → Bool) {all : List (Nat × Waitable)}
    (hall : (all.map Prod.fst).Nodup) {p : Nat × Waitable} (hp : p ∈ all) :
    p.1 ∈ deadIds valid all ↔ valid p.2.handle = false := by
  constructor
  · intro h
    obtain ⟨q, hq, hdead⟩ := List.mem_filterMap.mp h
    have hqp : q = p := by
      have hfst : q.1 = p.1 := by
        split at hdead
        · cases hdead
        · exact Option.some.inj hdead
      exact List.inj_on_of_nodup_map hall hq hp hfst
    subst hqp
    split at hdead
    · cases hdead
    · exact Bool.eq_false_iff.mpr ‹_›
  · intro h
    exact List.mem_filterMap.mpr ⟨p, hp, by simp [h]⟩

/-- With distinct numbers, what survives is what is valid. -/
theorem survivors_deadIds (valid : Handle → Bool) {all : List (Nat × Waitable)}
    (hall : (all.map Prod.fst).Nodup) :
    survivors (deadIds valid all) all = (all.filter fun p => valid p.2.handle).map Prod.snd := by
  rw [survivors, ← List.filterMap_eq_map, List.filterMap_filter]
  apply List.filterMap_congr
  intro p hp
  have hmem := mem_deadIds valid hall hp
  cases hv : valid p.2.handle <;> simp [hv] at hmem ⊢ <;> simp [hmem]

theorem filter_deadIds (valid : Handle → Bool) {all : List (Nat × Waitable)}
    (hall : (all.map Prod.fst).Nodup) :
    all.filter (fun p => !(deadIds valid all).contains p.1) =
      all.filter fun p => valid p.2.handle := by
  apply List.filter_congr
  intro p hp
  have hmem := mem_deadIds valid hall hp
  cases hv : valid p.2.handle <;> simp [hv] at hmem ⊢ <;> simp [hmem]

theorem liveWaitables_snd (ex : Executor) (valid : Handle → Bool) :
    (ex.liveWaitables valid).2 =
      (ex.waitables.entries.filter fun p => valid p.2.handle).map Prod.snd :=
  survivors_deadIds valid ex.waitables.distinct

theorem liveWaitables_waitSet (ex : Executor) (valid : Handle → Bool) :
    (ex.liveWaitables valid).1.waitSet = ex.waitSet := by
  unfold Executor.liveWaitables
  dsimp only
  split <;> rfl

theorem liveWaitables_wakeup (ex : Executor) (valid : Handle → Bool) :
    (ex.liveWaitables valid).1.wakeup = ex.wakeup := by
  unfold Executor.liveWaitables
  dsimp only
  split <;> rfl

/-- What stays registered is what is valid. -/
theorem liveWaitables_entries (ex : Executor) (valid : Handle → Bool) :
    (ex.liveWaitables valid).1.waitables.entries =
      ex.waitables.entries.filter fun p => valid p.2.handle := by
  rw [← filter_deadIds valid ex.waitables.distinct]
  unfold Executor.liveWaitables
  dsimp only
  split
  · rfl
  · rename_i h
    have hnil : deadIds valid ex.waitables.entries = [] := by simpa using h
    simp [hnil]

/-! ## Filling the wait set -/

def tally (cap : WaitSetCapacity) (w : Waitable) : WaitSetCapacity :=
  match w.kind with
  | .subscription => { cap with subscriptions := cap.subscriptions + 1 }
  | .timer => { cap with timers := cap.timers + 1 }
  | .guardCondition => { cap with guardConditions := cap.guardConditions + 1 }
  | .client => { cap with clients := cap.clients + 1 }
  | .service => { cap with services := cap.services + 1 }
  | .event => { cap with events := cap.events + 1 }

/-- The slots a set of entities needs, plus one guard condition for the executor's own wakeup. -/
def capacityFor (waitables : List Waitable) : WaitSetCapacity :=
  waitables.foldl tally { guardConditions := 1 }

/-- The codes of the calls that rcl refuses while a pass fills the wait set. The adds are counted
from that of the wakeup guard. -/
structure FillCodes where
  resize : Option Nat
  clear : Option Nat
  add : Nat → Option Nat

/-- No call is refused. -/
def FillCodes.granted : FillCodes := ⟨none, none, fun _ => none⟩

/-- Add every entity, collecting the slots. -/
def addAll (valid : Handle → Bool) (ret : Nat → Option Nat) :
    Nat → List Waitable → WaitSet → Except Failure (WaitSet × List Nat)
  | _, [], ws => .ok (ws, [])
  | i, w :: rest, ws => do
    let (ws, slot) ← w.add ws (valid w.handle) (ret i)
    let (ws, slots) ← addAll valid ret (i + 1) rest ws
    return (ws, slot :: slots)

/-- Make room, empty the set and add the wakeup guard, returning its slot. -/
def prepare (valid : Handle → Bool) (wakeup : Handle) (codes : FillCodes)
    (eligible : List Waitable) (ws : WaitSet) : Except Failure (WaitSet × Nat) := do
  let ws ← ws.ensureCapacity (capacityFor eligible) codes.resize
  let ws ← ws.clear codes.clear
  ws.addGuardCondition wakeup (valid wakeup) (codes.add 0)

/-- Prepare the wait set and add every eligible entity. -/
def fill (valid : Handle → Bool) (wakeup : Handle) (codes : FillCodes) (eligible : List Waitable)
    (ws : WaitSet) : Except Failure (WaitSet × Nat × List Nat) := do
  let (ws, wakeupIdx) ← prepare valid wakeup codes eligible ws
  let (ws, slots) ← addAll valid codes.add 1 eligible ws
  return (ws, wakeupIdx, slots)

/-- rcl refuses none of the calls that filling `ws` with the entities makes. -/
def Grants (codes : FillCodes) (eligible : List Waitable) (ws : WaitSet) : Prop :=
  (ws.capacity ≠ capacityFor eligible → codes.resize = none) ∧ codes.clear = none ∧
    ∀ i ≤ eligible.length, codes.add i = none

instance (codes : FillCodes) (eligible : List Waitable) (ws : WaitSet) :
    Decidable (Grants codes eligible ws) :=
  inferInstanceAs (Decidable (_ ∧ _ ∧ ∀ i ≤ _, _))

theorem grants_granted (eligible : List Waitable) (ws : WaitSet) : Grants .granted eligible ws :=
  ⟨fun _ => rfl, rfl, fun _ _ => rfl⟩

def countOf (k : WaitableKind) (waitables : List Waitable) : Nat :=
  (waitables.filter (·.kind = k)).length

/-- The slots entities get one after the other, `used` being how many their kinds have given out. -/
def slotsFrom (used : WaitableKind → Nat) : List Waitable → List Nat
  | [] => []
  | w :: rest => used w.kind :: slotsFrom (update used w.kind (used w.kind + 1)) rest

/-- The slots of a pass: the wakeup guard has taken the first one of its kind. -/
def slotsOf (eligible : List Waitable) : List Nat :=
  slotsFrom (update (fun _ => 0) .guardCondition 1) eligible

def recordAll (eligible : List Waitable) (slots : List Nat) : List Record :=
  (eligible.zip slots).map fun p => ⟨p.1.held, p.2, true⟩

/-- What is on the books once a pass has filled the wait set. -/
def filledRecords (wakeup : Handle) (eligible : List Waitable) : List Record :=
  ⟨⟨.guardCondition, wakeup⟩, 0, true⟩ :: recordAll eligible (slotsOf eligible)

theorem countOf_cons (k : WaitableKind) (w : Waitable) (rest : List Waitable) :
    countOf k (w :: rest) = (if w.kind = k then 1 else 0) + countOf k rest := by
  by_cases hk : w.kind = k <;> simp [countOf, hk, Nat.add_comm]

theorem countOf_le (k : WaitableKind) (waitables : List Waitable) :
    countOf k waitables ≤ waitables.length :=
  List.length_filter_le ..

theorem tally_count (cap : WaitSetCapacity) (w : Waitable) (k : WaitableKind) :
    (tally cap w).count k = cap.count k + if w.kind = k then 1 else 0 := by
  unfold tally
  cases w.kind <;> cases k <;> rfl

theorem foldl_tally_count (k : WaitableKind) (waitables : List Waitable) (cap : WaitSetCapacity) :
    (waitables.foldl tally cap).count k = cap.count k + countOf k waitables := by
  induction waitables generalizing cap with
  | nil => rfl
  | cons w rest ih =>
    rw [List.foldl_cons, ih, tally_count, countOf_cons, Nat.add_assoc]

theorem capacityFor_count (waitables : List Waitable) (k : WaitableKind) :
    (capacityFor waitables).count k =
      (if k = .guardCondition then 1 else 0) + countOf k waitables := by
  rw [capacityFor, foldl_tally_count]
  cases k <;> rfl

theorem length_slotsFrom (used : WaitableKind → Nat) (waitables : List Waitable) :
    (slotsFrom used waitables).length = waitables.length := by
  induction waitables generalizing used with
  | nil => rfl
  | cons w rest ih => simp [slotsFrom, ih]

theorem length_slotsOf (eligible : List Waitable) : (slotsOf eligible).length = eligible.length :=
  length_slotsFrom ..

theorem used_nextRecord (records : List Record) (h : Held) :
    (fun k => (recordsOf k (records ++ [nextRecord records h])).length) =
      update (fun k => (recordsOf k records).length) h.kind
        ((recordsOf h.kind records).length + 1) := by
  funext k
  rw [recordsOf_append]
  by_cases hk : k = h.kind
  · subst hk
    simp [recordsOf, nextRecord]
  · simp [recordsOf, nextRecord, hk, Ne.symm hk]

/-- There is room for the entities still to be added. -/
def Room (ws : WaitSet) (records : List Record) (todo : List Waitable) : Prop :=
  ∀ k, (recordsOf k records).length + countOf k todo ≤ ws.capacity.count k

theorem Room.head {ws : WaitSet} {records : List Record} {w : Waitable} {todo : List Waitable}
    (h : Room ws records (w :: todo)) :
    (recordsOf w.kind records).length < ws.capacity.count w.kind := by
  have hk := h w.kind
  rw [countOf_cons, if_pos rfl] at hk
  omega

theorem Room.tail {ws ws' : WaitSet} {records : List Record} {w : Waitable} {todo : List Waitable}
    (h : Room ws records (w :: todo)) (hcap : ws'.capacity = ws.capacity) :
    Room ws' (records ++ [nextRecord records w.held]) todo := by
  intro k
  have hk := h k
  have hused := congrFun (used_nextRecord records w.held) k
  rw [countOf_cons] at hk
  rw [hcap, hused]
  by_cases hw : k = w.kind
  · subst hw
    rw [if_pos rfl] at hk
    simp only [Waitable.held, update_self]
    omega
  · rw [if_neg (Ne.symm hw)] at hk
    simp only [Waitable.held, ne_eq, hw, not_false_eq_true, update_of_ne]
    omega

/-- Where there is room for all of them, the entities are added one after the other. -/
theorem addAll_books {valid : Handle → Bool} {ret : Nat → Option Nat} {i : Nat}
    {eligible : List Waitable} {ws : WaitSet} {records : List Record} (hb : Books ws records)
    (hvalid : ∀ w ∈ eligible, valid w.handle = true) (hroom : Room ws records eligible)
    (hret : ∀ j < eligible.length, ret (i + j) = none) :
    ∃ ws' slots, slots = slotsFrom (fun k => (recordsOf k records).length) eligible ∧
      addAll valid ret i eligible ws = .ok (ws', slots) ∧ ws'.capacity = ws.capacity ∧
      ws'.held = ws.held ++ eligible.map Waitable.held ∧
      Books ws' (records ++ recordAll eligible slots) := by
  induction eligible generalizing ws records i with
  | nil => exact ⟨ws, [], rfl, rfl, rfl, by simp, by simpa [recordAll] using hb⟩
  | cons w rest ih =>
    have hfirst : ret i = none := hret 0 (Nat.zero_lt_succ _)
    have hrest : ∀ j < rest.length, ret (i + 1 + j) = none := by
      intro j hj
      rw [Nat.add_assoc, Nat.add_comm 1 j]
      exact hret (j + 1) (Nat.succ_lt_succ hj)
    obtain ⟨ws₁, hadd, hcap, hheld, hb₁⟩ := add_books (h := w.handle) hb hroom.head
    obtain ⟨ws₂, slots, hslots, hall, hcap₂, hheld₂, hb₂⟩ :=
      ih hb₁ (fun v hv => hvalid v (List.mem_cons_of_mem _ hv)) (hroom.tail hcap) hrest
    refine ⟨ws₂, (recordsOf w.kind records).length :: slots, ?_, ?_, hcap₂.trans hcap, ?_, ?_⟩
    · rw [slotsFrom, hslots]
      congr 2
      exact used_nextRecord records w.held
    · rw [addAll, w.add_eq, hvalid w (List.mem_cons_self ..), hfirst, hadd]
      simp only [ok_bind, hall]
      rfl
    · rw [hheld₂, hheld]
      simp [Waitable.held]
    · rw [List.append_assoc] at hb₂
      exact hb₂

theorem length_recordsOf_le (k : WaitableKind) (records : List Record) :
    (recordsOf k records).length ≤ records.length := List.length_filter_le ..

/-- Adds that all go through give the slots one after the other, wherever the sizes stand. -/
theorem addAll_entered {valid : Handle → Bool} {ret : Nat → Option Nat} {i : Nat}
    {eligible : List Waitable} {ws ws' : WaitSet} {records : List Record} {slots : List Nat}
    (he : Entered ws records) (hshort : records.length + eligible.length < 2 ^ 64)
    (h : addAll valid ret i eligible ws = .ok (ws', slots)) :
    (∀ j < eligible.length, ret (i + j) = none) ∧
      slots = slotsFrom (fun k => (recordsOf k records).length) eligible ∧
      Entered ws' (records ++ recordAll eligible slots) := by
  induction eligible generalizing ws records i slots with
  | nil =>
    obtain ⟨rfl, rfl⟩ := Prod.mk.inj (Except.ok.inj h)
    exact ⟨fun j hj => absurd hj (Nat.not_lt_zero j), rfl, by simpa [recordAll] using he⟩
  | cons w rest ih =>
    rw [List.length_cons] at hshort
    obtain ⟨⟨ws₁, slot⟩, hadd, h⟩ := bind_eq_ok.mp h
    obtain ⟨⟨ws₂, rest'⟩, hall, hend⟩ := bind_eq_ok.mp h
    obtain ⟨rfl, rfl⟩ := Prod.mk.inj (pure_eq_ok.mp hend)
    have hlt : (recordsOf w.kind records).length < 2 ^ 64 := by
      have := length_recordsOf_le w.kind records
      omega
    obtain ⟨hret, rfl, he₁⟩ := add_entered he hlt ((w.add_eq ..).symm.trans hadd)
    have hshort₁ : (records ++ [nextRecord records w.held]).length + rest.length < 2 ^ 64 := by
      rw [List.length_append, List.length_singleton]
      omega
    obtain ⟨hrets, hslots, he₂⟩ := ih he₁ hshort₁ hall
    refine ⟨?_, ?_, ?_⟩
    · rintro (_ | j) hj
      · exact hret
      · rw [Nat.add_comm j 1, ← Nat.add_assoc]
        exact hrets j (Nat.lt_of_succ_lt_succ hj)
    · rw [slotsFrom, hslots]
      congr 2
      exact used_nextRecord records w.held
    · rw [List.append_assoc] at he₂
      exact he₂

theorem recordsOf_filled (wakeup : Handle) (eligible : List Waitable) (k : WaitableKind) :
    (recordsOf k (filledRecords wakeup eligible)).length = (capacityFor eligible).count k := by
  have hall : ∀ (ws : List Waitable) (slots : List Nat), slots.length = ws.length →
      (recordsOf k (recordAll ws slots)).length = countOf k ws := by
    intro ws
    induction ws with
    | nil => intro slots _; rfl
    | cons w rest ih =>
      intro slots hlen
      obtain ⟨slot, slots, rfl⟩ := List.exists_cons_of_length_eq_add_one hlen
      have hrest := ih slots (by simpa using hlen)
      rw [countOf_cons, ← hrest]
      by_cases hw : w.kind = k <;> simp [recordAll, recordsOf, Waitable.held, hw, Nat.add_comm]
  rw [capacityFor_count, ← hall eligible _ (length_slotsOf eligible)]
  by_cases hk : k = .guardCondition
  · subst hk
    simp [filledRecords, recordsOf, Nat.add_comm]
  · simp [filledRecords, recordsOf, hk, Ne.symm hk]

theorem prepare_books (valid : Handle → Bool) (wakeup : Handle) {codes : FillCodes}
    {eligible : List Waitable} {ws : WaitSet} {records : List Record} (hb : Books ws records)
    (hshort : eligible.length + 1 < 2 ^ 64) (hwakeup : valid wakeup = true)
    (hgrants : Grants codes eligible ws) :
    ∃ ws', prepare valid wakeup codes eligible ws = .ok (ws', 0) ∧
      ws'.capacity = capacityFor eligible ∧ ws'.held = [⟨.guardCondition, wakeup⟩] ∧
      Books ws' [nextRecord [] ⟨.guardCondition, wakeup⟩] ∧
      Room ws' [nextRecord [] ⟨.guardCondition, wakeup⟩] eligible := by
  obtain ⟨hresize, hclears, hadds⟩ := hgrants
  have hcap : ∀ k, (capacityFor eligible).count k < 2 ^ 64 := by
    intro k
    have := countOf_le k eligible
    rw [capacityFor_count]
    split <;> omega
  obtain ⟨ws₁, hens, hcap₁, hb₁⟩ := ensureCapacity_books hb hcap hresize
  obtain ⟨ws₂, hclear, hcap₂, hb₂, hheld₂⟩ := clear_books hb₁
  have hcap₂ := hcap₂.trans hcap₁
  have hspace : (recordsOf .guardCondition []).length < ws₂.capacity.count .guardCondition := by
    rw [hcap₂, capacityFor_count, if_pos rfl]
    exact Nat.lt_of_lt_of_le Nat.zero_lt_one (Nat.le_add_right ..)
  obtain ⟨ws₃, hadd, hcap₃, hheld₃, hb₃⟩ := add_books (h := wakeup) hb₂ hspace
  have hcap₃ := hcap₃.trans hcap₂
  refine ⟨ws₃, ?_, hcap₃, ?_, hb₃, ?_⟩
  · rw [prepare, hens]
    simp only [ok_bind, hclears, hclear, hwakeup, hadds 0 (Nat.zero_le _)]
    exact hadd
  · rw [hheld₃, hheld₂]
    rfl
  · intro k
    have hused := congrFun (used_nextRecord [] ⟨.guardCondition, wakeup⟩) k
    rw [hcap₃, capacityFor_count]
    by_cases hg : k = .guardCondition
    · subst hg
      rw [update_self] at hused
      rw [if_pos rfl]
      exact Nat.le_of_eq (congrArg (· + _) hused)
    · rw [update_of_ne hg] at hused
      rw [if_neg hg]
      exact Nat.le_of_eq (congrArg (· + _) hused)

/-- Unless rcl refuses a call, filling never fails for lack of a slot: it gives the wakeup guard
slot zero and every entity the next slot of its kind. -/
theorem fill_books (valid : Handle → Bool) (wakeup : Handle) {codes : FillCodes}
    {eligible : List Waitable} {ws : WaitSet} {records : List Record} (hb : Books ws records)
    (hshort : eligible.length + 1 < 2 ^ 64) (hwakeup : valid wakeup = true)
    (hvalid : ∀ w ∈ eligible, valid w.handle = true) (hgrants : Grants codes eligible ws) :
    ∃ ws', fill valid wakeup codes eligible ws = .ok (ws', 0, slotsOf eligible) ∧
      ws'.capacity = capacityFor eligible ∧
      ws'.held = ⟨.guardCondition, wakeup⟩ :: eligible.map Waitable.held ∧
      Books ws' (filledRecords wakeup eligible) := by
  obtain ⟨ws₁, hprep, hcap₁, hheld₁, hb₁, hroom⟩ :=
    prepare_books valid wakeup hb hshort hwakeup hgrants
  have hret : ∀ j < eligible.length, codes.add (1 + j) = none := by
    intro j hj
    exact hgrants.2.2 (1 + j) (by omega)
  obtain ⟨ws₂, slots, hslots, hall, hcap₂, hheld₂, hb₂⟩ := addAll_books hb₁ hvalid hroom hret
  have hslots : slots = slotsOf eligible := by
    rw [hslots]
    exact congrArg (slotsFrom · eligible) (used_nextRecord [] ⟨.guardCondition, wakeup⟩)
  subst hslots
  refine ⟨ws₂, ?_, hcap₂.trans hcap₁, ?_, hb₂⟩
  · rw [fill, hprep]
    simp only [ok_bind, hall]
    rfl
  · rw [hheld₂, hheld₁]
    rfl

/-- A fill that goes through has been refused no call. Whatever set it was given, even one that an
earlier refusal left half done, the wakeup and every entity have the next slot of their kind. -/
theorem fill_entered {valid : Handle → Bool} {wakeup : Handle} {codes : FillCodes}
    {eligible : List Waitable} {ws ws' : WaitSet} {wakeupIdx : Nat} {slots : List Nat}
    (hshort : eligible.length + 1 < 2 ^ 64)
    (h : fill valid wakeup codes eligible ws = .ok (ws', wakeupIdx, slots)) :
    Grants codes eligible ws ∧ slots = slotsOf eligible ∧
      Entered ws' (filledRecords wakeup eligible) := by
  obtain ⟨⟨ws₃, idx⟩, hprep, h⟩ := bind_eq_ok.mp h
  obtain ⟨ws₁, hens, hprep⟩ := bind_eq_ok.mp hprep
  obtain ⟨ws₂, hclear, hadd⟩ := bind_eq_ok.mp hprep
  obtain ⟨⟨ws₄, rest⟩, hall, hend⟩ := bind_eq_ok.mp h
  obtain ⟨rfl, hpair⟩ := Prod.mk.inj (pure_eq_ok.mp hend)
  obtain ⟨-, rfl⟩ := Prod.mk.inj hpair
  obtain ⟨hclears, he₂⟩ := clear_entered hclear
  have hguard : ws₂.add .guardCondition wakeup (valid wakeup) (codes.add 0) = .ok (ws₃, idx) := hadd
  obtain ⟨hret, -, he₃⟩ := add_entered he₂ (by simp [recordsOf]) hguard
  obtain ⟨hrets, hslots, he₄⟩ := addAll_entered he₃ (by simpa [Nat.add_comm] using hshort) hall
  have hslots : slots = slotsOf eligible := by
    rw [hslots]
    exact congrArg (slotsFrom · eligible) (used_nextRecord [] ⟨.guardCondition, wakeup⟩)
  subst hslots
  refine ⟨⟨ret_of_ensureCapacity hens, hclears, ?_⟩, rfl, he₄⟩
  rintro (_ | j) hj
  · exact hret
  · rw [Nat.add_comm]
    exact hrets j (by omega)

/-- A pass gets past its wait with the slots it gave out on the books, kept where rcl found them
ready. -/
theorem fill_wait_books (valid : Handle → Bool) (wakeup : Handle) {codes : FillCodes}
    {eligible : List Waitable} {ws : WaitSet} {records : List Record} (hb : Books ws records)
    (hshort : eligible.length + 1 < 2 ^ 64) (hwakeup : valid wakeup = true)
    (hvalid : ∀ w ∈ eligible, valid w.handle = true) (hgrants : Grants codes eligible ws)
    (woken : Bool) (ready : WaitableKind → Nat → Bool) :
    ∃ ws₁ ws₂, fill valid wakeup codes eligible ws = .ok (ws₁, 0, slotsOf eligible) ∧
      ws₁.wait none woken ready = .ok (woken, ws₂) ∧
      Books ws₂ ((filledRecords wakeup eligible).map (settle woken ready)) := by
  obtain ⟨ws₁, hfill, -, -, hb₁⟩ := fill_books valid wakeup hb hshort hwakeup hvalid hgrants
  obtain ⟨ws₂, hwait, -, -, hb₂⟩ := wait_books hb₁ woken ready
  exact ⟨ws₁, ws₂, hfill, hwait, hb₂⟩

theorem Executor.exists_create (wakeup : Handle) :
    ∃ ex, Executor.create true wakeup = .ok ex := ⟨_, rfl⟩

/-- An executor is made with nothing registered and its wait set in order. -/
theorem Executor.books_of_create {ctxValid : Bool} {wakeup : Handle} {ex : Executor}
    (h : Executor.create ctxValid wakeup = .ok ex) :
    Books ex.waitSet [] ∧ ex.waitables = .empty ∧ ex.wakeup = wakeup := by
  obtain ⟨ws, hws, hmade⟩ := bind_eq_ok.mp h
  obtain rfl := pure_eq_ok.mp hmade
  exact ⟨(create_books default_count_lt hws).1, rfl, rfl⟩

/-! ## A pass -/

/-- An entity of a pass with its slot, in its place in the order of the takes. -/
structure Turn where
  waitable : Waitable
  slot : Nat
  place : Nat
  deriving DecidableEq, Repr

/-- Entities zipped with their slots, counting the places. -/
def turnsFrom : Nat → List Waitable → List Nat → List Turn
  | place, w :: ws, slot :: slots => ⟨w, slot, place⟩ :: turnsFrom (place + 1) ws slots
  | _, _, _ => []

/-- What the outside decides about one pass, for takes and callbacks by their place. -/
structure Outside where
  /-- Which of the calls that fill the wait set rcl refuses. -/
  codes : FillCodes
  /-- The code of a wait that fails. -/
  waitRet : Option Nat
  /-- Whether the wait returns before its timeout. -/
  woken : Bool
  /-- The slots the wait finds ready. -/
  ready : WaitableKind → Nat → Bool
  /-- Whether the context is still up when the wait has returned. -/
  contextOk : Bool
  answer : Nat → Answer
  /-- What stops the response of a service's handler. -/
  response : Nat → Option Failure
  /-- The handles a callback destroys, those torn down with their parents included. -/
  destroys : Nat → List Handle

inductive Event where
  | taken (place : Nat)
  | ran (place : Nat)
  deriving DecidableEq, Repr

structure World where
  valid : Handle → Bool
  running : Running
  executor : Executor
  /-- What the last pass did, in order. -/
  log : List Event

/-- The callback, for a service the handler and then the response. -/
def runAction (out : Outside) (t : Turn) (s : World) : Except Failure World := do
  let valid := fun h => s.valid h && !(out.destroys t.place).contains h
  if t.waitable.kind = .service then
    serviceSendResponse (valid t.waitable.handle) (out.response t.place)
  return { s with valid, log := s.log ++ [.ran t.place] }

/-- Run `act` as a member of the group. -/
def withMembership (g : CallbackGroup) (act : World → Except Failure World) (s : World) :
    Except Failure World := do
  let s ← act { s with running := enter s.running g }
  return { s with running := leave s.running g }

/-- One turn of the loop over the slots. The group is rechecked before the take. -/
def takeTurn (out : Outside) (dispatch : Turn → World → Except Failure World) (t : Turn)
    (s : World) : Except Failure World :=
  if canRun s.running t.waitable.group then do
    let ws := s.executor.waitSet
    let taken := if ws.ready t.waitable.kind t.slot then [.taken t.place] else []
    let found ← t.waitable.takeIfReady ws t.slot (s.valid t.waitable.handle) (out.answer t.place)
    let s := { s with log := s.log ++ taken }
    if found then dispatch t s else return s
  else return s

def takeTurns (out : Outside) (dispatch : Turn → World → Except Failure World) :
    List Turn → World → Except Failure World
  | [], s => .ok s
  | t :: rest, s => do
    let s ← takeTurn out dispatch t s
    takeTurns out dispatch rest s

def World.eligible (s : World) : List Waitable :=
  s.executor.eligible s.valid s.running

/-- One pass: wait for something to be ready, then hand each ready callback to `dispatch`. -/
def pass (out : Outside) (dispatch : Turn → World → Except Failure World) (s : World) :
    Except Failure (World × Bool) := do
  let ex := (s.executor.liveWaitables s.valid).1
  let (ws, wakeupIdx, slots) ← fill s.valid ex.wakeup out.codes s.eligible ex.waitSet
  let (woken, ws) ← ws.wait out.waitRet out.woken out.ready
  let after := { s with executor := { ex with waitSet := ws }, log := [] }
  if !woken then return (after, false)
  if !out.contextOk then return (after, false)
  let _ := ws.guardConditionReady wakeupIdx
  let after ← takeTurns out dispatch (turnsFrom 0 s.eligible slots) after
  return (after, true)

/-- Wait once and run whatever became ready, one callback at a time. -/
def spinOnce (out : Outside) (s : World) : Except Failure (World × Bool) :=
  Executors.pass out (fun t => withMembership t.waitable.group (runAction out t)) s

/-! ### The turns of a pass -/

theorem le_place {i : Nat} {ws : List Waitable} {slots : List Nat} {t : Turn}
    (ht : t ∈ turnsFrom i ws slots) : i ≤ t.place := by
  induction ws generalizing i slots with
  | nil => cases ht
  | cons w ws ih => cases slots with
    | nil => cases ht
    | cons slot slots =>
      rcases List.mem_cons.mp ht with rfl | ht
      · exact Nat.le_refl i
      · exact Nat.le_of_succ_le (ih ht)

theorem turnsFrom_sorted (i : Nat) (ws : List Waitable) (slots : List Nat) :
    (turnsFrom i ws slots).Pairwise fun t u => t.place < u.place := by
  induction ws generalizing i slots with
  | nil => exact List.Pairwise.nil
  | cons w ws ih => cases slots with
    | nil => exact List.Pairwise.nil
    | cons slot slots =>
      rw [turnsFrom]
      exact List.Pairwise.cons (fun u hu => Nat.lt_of_succ_le (le_place hu)) (ih (i + 1) slots)

theorem mem_zip_of_mem_turnsFrom {i : Nat} {ws : List Waitable} {slots : List Nat} {t : Turn}
    (ht : t ∈ turnsFrom i ws slots) : (t.waitable, t.slot) ∈ ws.zip slots := by
  induction ws generalizing i slots with
  | nil => cases ht
  | cons w ws ih => cases slots with
    | nil => cases ht
    | cons slot slots =>
      rcases List.mem_cons.mp ht with rfl | ht
      · exact List.mem_cons_self ..
      · exact List.mem_cons_of_mem _ (ih ht)

theorem eligible_valid {ex : Executor} {valid : Handle → Bool} {running : Running} {w : Waitable}
    (hw : w ∈ ex.eligible valid running) : valid w.handle = true := by
  have hlive := List.mem_of_mem_filter hw
  rw [liveWaitables_snd] at hlive
  obtain ⟨p, hp, rfl⟩ := List.mem_map.mp hlive
  exact (List.mem_filter.mp hp).2

theorem eligible_canRun {ex : Executor} {valid : Handle → Bool} {running : Running} {w : Waitable}
    (hw : w ∈ ex.eligible valid running) : canRun running w.group = true :=
  (List.mem_filter.mp hw).2

theorem length_eligible_le (ex : Executor) (valid : Handle → Bool) (running : Running) :
    (ex.eligible valid running).length ≤ ex.waitables.entries.length := by
  refine Nat.le_trans (List.length_filter_le ..) ?_
  rw [liveWaitables_snd, List.length_map]
  exact List.length_filter_le ..

end Executors
