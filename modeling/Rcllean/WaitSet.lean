import Mathlib.Algebra.Group.Nat.Defs
import Mathlib.Logic.Function.Basic
import Rcllean.Runs
import Rcllean.Slots

/-!
# Wait sets

A wait set has slots for six kinds of entity. An entry point refuses handles
that have been torn down; rcl gives an added entity the next slot of its kind
and a wait empties the slots of what is not ready. Any call that reaches rcl
may come back with a code, which is raised. The library caches the capacity
rcl was last given and holds every entity rcl points to.
-/
namespace WaitSets

open Slots Function Runs

abbrev Handle := Nat

/-- Why an entry point raises: a message of its own, or the code rcl returned. -/
inductive Failure where
  | message (fn text : String)
  | code (fn : String) (ret : Nat)
  deriving DecidableEq, Repr

/-- Refuse to touch an rcl struct that has already been torn down. -/
def requireValid (valid : Bool) (fn : String) : Except Failure Unit :=
  if valid then .ok () else .error (.message fn "handle has been destroyed")

@[simp] theorem requireValid_true (fn : String) : requireValid true fn = .ok () := rfl

theorem requireValid_ok_iff {valid : Bool} {fn : String} {u : Unit} :
    requireValid valid fn = .ok u ↔ valid = true := by
  cases valid <;> simp [requireValid]

/-- Raise under the function's name what rcl returns other than OK. -/
def tryRcl (fn : String) (ret : Option Nat) : Except Failure Unit :=
  match ret with
  | none => .ok ()
  | some code => .error (.code fn code)

@[simp] theorem tryRcl_none (fn : String) : tryRcl fn none = .ok () := rfl

@[simp] theorem tryRcl_some (fn : String) (code : Nat) :
    tryRcl fn (some code) = .error (.code fn code) := rfl

theorem tryRcl_ok_iff {fn : String} {ret : Option Nat} {u : Unit} :
    tryRcl fn ret = .ok u ↔ ret = none := by
  cases ret <;> simp

inductive WaitableKind where
  | subscription | timer | guardCondition | client | service | event
  deriving DecidableEq, Repr

/-! ## The entry points -/

/-- `rcl_wait_set_t` under its handle. -/
structure RclWaitSet where
  valid : Bool
  slots : WaitableKind → Block Handle

/-- Empty slots of the sizes given, in the order rcl takes them. -/
def emptySlots (nSubs nGuards nTimers nClients nServices nEvents : UInt64) :
    WaitableKind → Block Handle
  | .subscription => .ofSize nSubs.toNat
  | .guardCondition => .ofSize nGuards.toNat
  | .timer => .ofSize nTimers.toNat
  | .client => .ofSize nClients.toNat
  | .service => .ofSize nServices.toNat
  | .event => .ofSize nEvents.toNat

def waitSetCreate (ctxValid : Bool) (nSubs nGuards nTimers nClients nServices nEvents : UInt64) :
    Except Failure RclWaitSet := do
  requireValid ctxValid "rcl_wait_set_init"
  return ⟨true, emptySlots nSubs nGuards nTimers nClients nServices nEvents⟩

/-- Resizing empties the set, as clearing does. -/
def waitSetResize (ws : RclWaitSet) (ret : Option Nat)
    (nSubs nGuards nTimers nClients nServices nEvents : UInt64) : Except Failure RclWaitSet := do
  requireValid ws.valid "rcl_wait_set_resize"
  tryRcl "rcl_wait_set_resize" ret
  return { ws with slots := emptySlots nSubs nGuards nTimers nClients nServices nEvents }

def waitSetClear (ws : RclWaitSet) (ret : Option Nat) : Except Failure RclWaitSet := do
  requireValid ws.valid "rcl_wait_set_clear"
  tryRcl "rcl_wait_set_clear" ret
  return { ws with slots := fun k => (ws.slots k).clear }

/-- `ret` is a code other than OK and the timeout's; `woken` is whether rcl returns before the
timeout, `ready` the slots it finds ready. -/
def waitSetWait (ws : RclWaitSet) (ret : Option Nat) (woken : Bool)
    (ready : WaitableKind → Nat → Bool) : Except Failure (Bool × RclWaitSet) := do
  requireValid ws.valid "rcl_wait"
  tryRcl "rcl_wait" ret
  return (woken, { ws with slots := fun k => (ws.slots k).mask fun i => woken && ready k i })

/-- `RCL_RET_WAIT_SET_FULL`. -/
def waitSetFull : Nat := 902

/-- The one body of the six adds: a destroyed entity is refused rather than handed to rcl. rcl
itself refuses when the slots are full, and with `ret` for reasons of its own. -/
def waitSetAdd (rclFn : String) (kind : WaitableKind) (ws : RclWaitSet) (h : Handle)
    (valid : Bool) (ret : Option Nat) : Except Failure (RclWaitSet × UInt64) := do
  requireValid ws.valid rclFn
  requireValid valid rclFn
  tryRcl rclFn ret
  match (ws.slots kind).add h with
  | none => throw (.code rclFn waitSetFull)
  | some (b, index) => return ({ ws with slots := update ws.slots kind b }, UInt64.ofNat index)

def waitSetAddSubscription := waitSetAdd "rcl_wait_set_add_subscription" .subscription
def waitSetAddTimer := waitSetAdd "rcl_wait_set_add_timer" .timer
def waitSetAddGuardCondition := waitSetAdd "rcl_wait_set_add_guard_condition" .guardCondition
def waitSetAddService := waitSetAdd "rcl_wait_set_add_service" .service
def waitSetAddClient := waitSetAdd "rcl_wait_set_add_client" .client
def waitSetAddEvent := waitSetAdd "rcl_wait_set_add_event" .event

/-- The name an add raises under. -/
def addName : WaitableKind → String
  | .subscription => "rcl_wait_set_add_subscription"
  | .timer => "rcl_wait_set_add_timer"
  | .guardCondition => "rcl_wait_set_add_guard_condition"
  | .client => "rcl_wait_set_add_client"
  | .service => "rcl_wait_set_add_service"
  | .event => "rcl_wait_set_add_event"

/-- The one body of the six queries; after a wait a slot is empty unless its entity is ready. -/
def waitSetReady (kind : WaitableKind) (ws : RclWaitSet) (index : UInt64) : Bool :=
  ws.valid && (ws.slots kind).occupied index.toNat

def waitSetSubscriptionReady := waitSetReady .subscription
def waitSetTimerReady := waitSetReady .timer
def waitSetGuardConditionReady := waitSetReady .guardCondition
def waitSetServiceReady := waitSetReady .service
def waitSetClientReady := waitSetReady .client
def waitSetEventReady := waitSetReady .event

/-! ## The library's wait set -/

structure WaitSetCapacity where
  subscriptions : Nat := 0
  guardConditions : Nat := 0
  timers : Nat := 0
  clients : Nat := 0
  services : Nat := 0
  events : Nat := 0
  deriving DecidableEq, Repr

def WaitSetCapacity.count (cap : WaitSetCapacity) : WaitableKind → Nat
  | .subscription => cap.subscriptions
  | .timer => cap.timers
  | .guardCondition => cap.guardConditions
  | .client => cap.clients
  | .service => cap.services
  | .event => cap.events

/-- A handle the wait set is holding a pointer to. -/
structure Held where
  kind : WaitableKind
  handle : Handle
  deriving DecidableEq, Repr

structure WaitSet where
  handle : RclWaitSet
  /-- What the wait set is sized for. -/
  capacity : WaitSetCapacity
  /-- Everything added since the last `clear`. -/
  held : List Held

namespace WaitSet

def create (ctxValid : Bool) (cap : WaitSetCapacity) : Except Failure WaitSet := do
  let handle ← waitSetCreate ctxValid
    (UInt64.ofNat cap.subscriptions) (UInt64.ofNat cap.guardConditions)
    (UInt64.ofNat cap.timers) (UInt64.ofNat cap.clients)
    (UInt64.ofNat cap.services) (UInt64.ofNat cap.events)
  return ⟨handle, cap, []⟩

/-- Keep a handle alive until the next `clear`, returning its slot. -/
def hold (ws : WaitSet) (h : Held) (added : Except Failure (RclWaitSet × UInt64)) :
    Except Failure (WaitSet × Nat) := do
  let (handle, slot) ← added
  return ({ ws with handle, held := ws.held ++ [h] }, slot.toNat)

/-- Resize only if the requested capacity differs from the current one. -/
def ensureCapacity (ws : WaitSet) (cap : WaitSetCapacity) (ret : Option Nat) :
    Except Failure WaitSet :=
  if ws.capacity ≠ cap then do
    let handle ← waitSetResize ws.handle ret
      (UInt64.ofNat cap.subscriptions) (UInt64.ofNat cap.guardConditions)
      (UInt64.ofNat cap.timers) (UInt64.ofNat cap.clients)
      (UInt64.ofNat cap.services) (UInt64.ofNat cap.events)
    return { ws with handle, capacity := cap }
  else return ws

def clear (ws : WaitSet) (ret : Option Nat) : Except Failure WaitSet := do
  let handle ← waitSetClear ws.handle ret
  return { ws with handle, held := [] }

def addSubscription (ws : WaitSet) (h : Handle) (valid : Bool) (ret : Option Nat) :
    Except Failure (WaitSet × Nat) :=
  ws.hold ⟨.subscription, h⟩ (waitSetAddSubscription ws.handle h valid ret)

def addTimer (ws : WaitSet) (h : Handle) (valid : Bool) (ret : Option Nat) :
    Except Failure (WaitSet × Nat) :=
  ws.hold ⟨.timer, h⟩ (waitSetAddTimer ws.handle h valid ret)

def addGuardCondition (ws : WaitSet) (h : Handle) (valid : Bool) (ret : Option Nat) :
    Except Failure (WaitSet × Nat) :=
  ws.hold ⟨.guardCondition, h⟩ (waitSetAddGuardCondition ws.handle h valid ret)

def addService (ws : WaitSet) (h : Handle) (valid : Bool) (ret : Option Nat) :
    Except Failure (WaitSet × Nat) :=
  ws.hold ⟨.service, h⟩ (waitSetAddService ws.handle h valid ret)

def addClient (ws : WaitSet) (h : Handle) (valid : Bool) (ret : Option Nat) :
    Except Failure (WaitSet × Nat) :=
  ws.hold ⟨.client, h⟩ (waitSetAddClient ws.handle h valid ret)

def addEvent (ws : WaitSet) (h : Handle) (valid : Bool) (ret : Option Nat) :
    Except Failure (WaitSet × Nat) :=
  ws.hold ⟨.event, h⟩ (waitSetAddEvent ws.handle h valid ret)

/-- The add of a kind. -/
def add (ws : WaitSet) :
    WaitableKind → Handle → Bool → Option Nat → Except Failure (WaitSet × Nat)
  | .subscription => ws.addSubscription
  | .timer => ws.addTimer
  | .guardCondition => ws.addGuardCondition
  | .client => ws.addClient
  | .service => ws.addService
  | .event => ws.addEvent

def wait (ws : WaitSet) (ret : Option Nat) (woken : Bool) (ready : WaitableKind → Nat → Bool) :
    Except Failure (Bool × WaitSet) := do
  let (result, handle) ← waitSetWait ws.handle ret woken ready
  return (result, { ws with handle })

def subscriptionReady (ws : WaitSet) (index : Nat) : Bool :=
  waitSetSubscriptionReady ws.handle (UInt64.ofNat index)

def timerReady (ws : WaitSet) (index : Nat) : Bool :=
  waitSetTimerReady ws.handle (UInt64.ofNat index)

def guardConditionReady (ws : WaitSet) (index : Nat) : Bool :=
  waitSetGuardConditionReady ws.handle (UInt64.ofNat index)

def serviceReady (ws : WaitSet) (index : Nat) : Bool :=
  waitSetServiceReady ws.handle (UInt64.ofNat index)

def clientReady (ws : WaitSet) (index : Nat) : Bool :=
  waitSetClientReady ws.handle (UInt64.ofNat index)

def eventReady (ws : WaitSet) (index : Nat) : Bool :=
  waitSetEventReady ws.handle (UInt64.ofNat index)

/-- The query of a kind. -/
def ready (ws : WaitSet) : WaitableKind → Nat → Bool
  | .subscription => ws.subscriptionReady
  | .timer => ws.timerReady
  | .guardCondition => ws.guardConditionReady
  | .client => ws.clientReady
  | .service => ws.serviceReady
  | .event => ws.eventReady

end WaitSet

/-! ## The books of a wait set -/

/-- A slot handed out since the set was last emptied, and whether every wait since kept it. -/
structure Record where
  held : Held
  slot : Nat
  kept : Bool
  deriving DecidableEq, Repr

def Record.content (r : Record) : Option Handle :=
  if r.kept then some r.held.handle else none

def recordsOf (k : WaitableKind) (records : List Record) : List Record :=
  records.filter (·.held.kind = k)

/-- The record of the next entity added. -/
def nextRecord (records : List Record) (h : Held) : Record :=
  ⟨h, (recordsOf h.kind records).length, true⟩

/-- What a wait makes of a record. -/
def settle (woken : Bool) (ready : WaitableKind → Nat → Bool) (r : Record) : Record :=
  { r with kept := r.kept && (woken && ready r.held.kind r.slot) }

/-- The cached capacity is the size rcl was last given, and no count overflows. -/
structure Sized (ws : WaitSet) : Prop where
  size : ∀ k, (ws.handle.slots k).size = ws.capacity.count k
  lt : ∀ k, ws.capacity.count k < 2 ^ 64

/-- The slots of every kind hold what was recorded there, in order and without a gap. -/
structure Entered (ws : WaitSet) (records : List Record) : Prop where
  valid : ws.handle.valid = true
  entries : ∀ k, (ws.handle.slots k).entries = (recordsOf k records).map Record.content
  numbered : ∀ k, (recordsOf k records).map Record.slot =
    List.range (recordsOf k records).length
  holds : ∀ r ∈ records, r.held ∈ ws.held

/-- The books of a wait set that no refused call has left half done. -/
structure Books (ws : WaitSet) (records : List Record) : Prop
  extends Sized ws, Entered ws records

theorem recordsOf_append (k : WaitableKind) (rs ss : List Record) :
    recordsOf k (rs ++ ss) = recordsOf k rs ++ recordsOf k ss := List.filter_append ..

theorem mem_recordsOf {k : WaitableKind} {records : List Record} {r : Record} :
    r ∈ recordsOf k records ↔ r ∈ records ∧ r.held.kind = k := by
  simp [recordsOf]

theorem emptySlots_ofNat {cap : WaitSetCapacity} (h : ∀ k, cap.count k < 2 ^ 64) :
    emptySlots (UInt64.ofNat cap.subscriptions) (UInt64.ofNat cap.guardConditions)
      (UInt64.ofNat cap.timers) (UInt64.ofNat cap.clients)
      (UInt64.ofNat cap.services) (UInt64.ofNat cap.events) =
    fun k => Block.ofSize (cap.count k) := by
  funext k
  have hk := h k
  cases k <;> exact congrArg Block.ofSize (Nat.mod_eq_of_lt hk)

/-- A set whose slots are all empty has nothing on its books. -/
theorem entered_of_empty {ws : WaitSet} (hvalid : ws.handle.valid = true)
    (h : ∀ k, (ws.handle.slots k).entries = []) : Entered ws [] where
  valid := hvalid
  entries := h
  numbered := fun _ => rfl
  holds := fun r hr => by cases hr

theorem books_of_empty {ws : WaitSet} (hvalid : ws.handle.valid = true)
    (hlt : ∀ k, ws.capacity.count k < 2 ^ 64)
    (hslots : ws.handle.slots = fun k => Block.ofSize (ws.capacity.count k)) : Books ws [] := by
  constructor
  · constructor
    · intro k
      rw [hslots]
      rfl
    · exact hlt
  · refine entered_of_empty hvalid fun k => ?_
    rw [hslots]
    rfl

theorem default_count_lt (k : WaitableKind) : ({} : WaitSetCapacity).count k < 2 ^ 64 := by
  cases k <;> decide

theorem create_books {ctxValid : Bool} {cap : WaitSetCapacity} {ws : WaitSet}
    (hcap : ∀ k, cap.count k < 2 ^ 64) (h : WaitSet.create ctxValid cap = .ok ws) :
    Books ws [] ∧ ws.capacity = cap := by
  cases ctxValid with
  | false => cases h
  | true =>
    obtain rfl := Except.ok.inj h
    exact ⟨books_of_empty rfl hcap (emptySlots_ofNat hcap), rfl⟩

theorem ensureCapacity_books {ws : WaitSet} {records : List Record} {cap : WaitSetCapacity}
    {ret : Option Nat} (hb : Books ws records) (hcap : ∀ k, cap.count k < 2 ^ 64)
    (hret : ws.capacity ≠ cap → ret = none) :
    ∃ ws', ws.ensureCapacity cap ret = .ok ws' ∧ ws'.capacity = cap ∧
      Books ws' (if ws.capacity = cap then records else []) := by
  unfold WaitSet.ensureCapacity
  by_cases hc : ws.capacity = cap
  · rw [if_neg (not_not_intro hc), if_pos hc]
    exact ⟨ws, rfl, hc, hb⟩
  · rw [if_pos hc, if_neg hc]
    simp only [waitSetResize, hb.valid, hret hc, requireValid_true, tryRcl_none, ok_bind]
    exact ⟨_, rfl, rfl, books_of_empty rfl hcap (emptySlots_ofNat hcap)⟩

/-- Only a resize that is needed can be refused. -/
theorem ret_of_ensureCapacity {ws ws' : WaitSet} {cap : WaitSetCapacity} {ret : Option Nat}
    (h : ws.ensureCapacity cap ret = .ok ws') (hc : ws.capacity ≠ cap) : ret = none := by
  rw [WaitSet.ensureCapacity, if_pos hc] at h
  obtain ⟨_, hresize, -⟩ := bind_eq_ok.mp h
  obtain ⟨_, -, htry⟩ := bind_eq_ok.mp hresize
  obtain ⟨_, hret, -⟩ := bind_eq_ok.mp htry
  exact tryRcl_ok_iff.mp hret

theorem clear_books {ws : WaitSet} {records : List Record} (hb : Books ws records) :
    ∃ ws', ws.clear none = .ok ws' ∧ ws'.capacity = ws.capacity ∧ Books ws' [] ∧
      ws'.held = [] := by
  simp only [WaitSet.clear, waitSetClear, hb.valid, requireValid_true, tryRcl_none, ok_bind]
  refine ⟨_, rfl, rfl, books_of_empty rfl hb.lt (funext fun k => ?_), rfl⟩
  exact congrArg Block.ofSize (hb.size k)

/-- Whatever was in the set, a clear that goes through leaves nothing in it. -/
theorem clear_entered {ws ws' : WaitSet} {ret : Option Nat} (h : ws.clear ret = .ok ws') :
    ret = none ∧ Entered ws' [] := by
  obtain ⟨handle, hclear, hws⟩ := bind_eq_ok.mp h
  obtain ⟨_, hvalid, htry⟩ := bind_eq_ok.mp hclear
  obtain ⟨_, hret, hhandle⟩ := bind_eq_ok.mp htry
  obtain rfl := pure_eq_ok.mp hhandle
  obtain rfl := pure_eq_ok.mp hws
  exact ⟨tryRcl_ok_iff.mp hret,
    entered_of_empty (requireValid_ok_iff.mp hvalid) fun _ => rfl⟩

/-- All six adds fail in the same cases and enter the handle in the same way. -/
theorem add_eq (ws : WaitSet) (kind : WaitableKind) (h : Handle) (valid : Bool)
    (ret : Option Nat) : ws.add kind h valid ret =
      ws.hold ⟨kind, h⟩ (waitSetAdd (addName kind) kind ws.handle h valid ret) := by
  cases kind <;> rfl

/-- The set once a block of its slots has a new entry. -/
def entering (ws : WaitSet) (kind : WaitableKind) (h : Handle) (b : Block Handle) : WaitSet :=
  { ws with
    handle := { ws.handle with slots := update ws.handle.slots kind b }
    held := ws.held ++ [⟨kind, h⟩] }

theorem add_eq_ok {ws ws' : WaitSet} {kind : WaitableKind} {h : Handle} {valid : Bool}
    {ret : Option Nat} {slot : Nat} : ws.add kind h valid ret = .ok (ws', slot) ↔
      (ws.handle.valid = true ∧ valid = true ∧ ret = none) ∧
      ∃ b i, (ws.handle.slots kind).add h = some (b, i) ∧ ws' = entering ws kind h b ∧
        slot = (UInt64.ofNat i).toNat := by
  rw [add_eq, WaitSet.hold, waitSetAdd]
  constructor
  · intro hok
    obtain ⟨⟨handle, index⟩, hadd, hws⟩ := bind_eq_ok.mp hok
    obtain ⟨_, hset, hadd⟩ := bind_eq_ok.mp hadd
    obtain ⟨_, hentity, hadd⟩ := bind_eq_ok.mp hadd
    obtain ⟨_, hret, hadd⟩ := bind_eq_ok.mp hadd
    refine ⟨⟨requireValid_ok_iff.mp hset, requireValid_ok_iff.mp hentity,
      tryRcl_ok_iff.mp hret⟩, ?_⟩
    cases hblock : (ws.handle.slots kind).add h with
    | none =>
      rw [hblock] at hadd
      cases hadd
    | some p =>
      rw [hblock] at hadd
      obtain ⟨rfl, rfl⟩ := Prod.mk.inj (pure_eq_ok.mp hadd)
      obtain ⟨rfl, rfl⟩ := Prod.mk.inj (pure_eq_ok.mp hws)
      exact ⟨_, _, rfl, rfl, rfl⟩
  · rintro ⟨⟨hset, rfl, rfl⟩, b, i, hblock, rfl, rfl⟩
    refine bind_eq_ok.mpr ⟨({ ws.handle with slots := update ws.handle.slots kind b },
      UInt64.ofNat i), bind_eq_ok.mpr ⟨(), requireValid_ok_iff.mpr hset, ?_⟩, rfl⟩
    simp only [requireValid_true, tryRcl_none, ok_bind, hblock]
    rfl

/-- A new entry is on the books as the next record. -/
theorem Entered.entering {ws : WaitSet} {records : List Record} (he : Entered ws records)
    {kind : WaitableKind} (h : Handle) {b : Block Handle}
    (hb : b.entries = (ws.handle.slots kind).entries ++ [some h]) :
    Entered (entering ws kind h b) (records ++ [nextRecord records ⟨kind, h⟩]) := by
  have hnew : ∀ k, recordsOf k (records ++ [nextRecord records ⟨kind, h⟩]) =
      recordsOf k records ++ if kind = k then [nextRecord records ⟨kind, h⟩] else [] := by
    intro k
    rw [recordsOf_append]
    by_cases hk : kind = k <;> simp [recordsOf, nextRecord, hk]
  constructor
  · exact he.valid
  · intro k
    rw [hnew]
    by_cases hk : kind = k
    · subst hk
      simp [WaitSets.entering, hb, he.entries, nextRecord, Record.content]
    · simp [WaitSets.entering, hk, Ne.symm hk, he.entries]
  · intro k
    rw [hnew]
    by_cases hk : kind = k
    · subst hk
      simp [he.numbered, nextRecord, List.range_succ]
    · simp [hk, he.numbered]
  · intro r hr
    rcases List.mem_append.mp hr with hr | hr
    · exact List.mem_append_left _ (he.holds r hr)
    · obtain rfl := List.mem_singleton.mp hr
      exact List.mem_append_right _ (List.mem_singleton.mpr rfl)

/-- An add that goes through gives the next slot of its kind, wherever the sizes stand. -/
theorem add_entered {ws ws' : WaitSet} {records : List Record} {kind : WaitableKind} {h : Handle}
    {valid : Bool} {ret : Option Nat} {slot : Nat} (he : Entered ws records)
    (hlt : (recordsOf kind records).length < 2 ^ 64)
    (hadd : ws.add kind h valid ret = .ok (ws', slot)) :
    ret = none ∧ slot = (recordsOf kind records).length ∧
      Entered ws' (records ++ [nextRecord records ⟨kind, h⟩]) := by
  obtain ⟨⟨-, -, hret⟩, b, i, hblock, rfl, rfl⟩ := add_eq_ok.mp hadd
  obtain ⟨-, -, hentries, rfl⟩ := Block.add_eq_some.mp hblock
  refine ⟨hret, ?_, he.entering h hentries⟩
  rw [he.entries, List.length_map]
  exact Nat.mod_eq_of_lt hlt

theorem add_books {ws : WaitSet} {records : List Record} {kind : WaitableKind} {h : Handle}
    (hb : Books ws records) (hroom : (recordsOf kind records).length < ws.capacity.count kind) :
    ∃ ws', ws.add kind h true none = .ok (ws', (recordsOf kind records).length) ∧
      ws'.capacity = ws.capacity ∧ ws'.held = ws.held ++ [⟨kind, h⟩] ∧
      Books ws' (records ++ [nextRecord records ⟨kind, h⟩]) := by
  have hlen : (ws.handle.slots kind).entries.length = (recordsOf kind records).length := by
    rw [hb.entries, List.length_map]
  obtain ⟨b, hblock, hsize, hentries⟩ := Block.exists_add h (by rw [hlen, hb.size]; exact hroom)
  have hslot : (UInt64.ofNat (recordsOf kind records).length).toNat =
      (recordsOf kind records).length :=
    Nat.mod_eq_of_lt (Nat.lt_trans hroom (hb.lt kind))
  rw [hlen] at hblock
  refine ⟨entering ws kind h b, ?_, rfl, rfl, ?_, hb.toEntered.entering h hentries⟩
  · exact add_eq_ok.mpr ⟨⟨hb.valid, rfl, rfl⟩, b, _, hblock, rfl, hslot.symm⟩
  · constructor
    · intro k
      by_cases hk : k = kind
      · subst hk
        simp [entering, hsize, hb.size]
      · simp [entering, hk, hb.size]
    · exact hb.lt

/-- Records numbered from zero on stand at the places their slots say. -/
theorem slot_of_getElem? {l : List Record} (hl : l.map Record.slot = List.range l.length)
    {i : Nat} {r : Record} (h : l[i]? = some r) : r.slot = i := by
  have hm : (l.map Record.slot)[i]? = some r.slot := by
    rw [List.getElem?_map, h]
    rfl
  rw [hl] at hm
  obtain ⟨hi, hg⟩ := List.getElem?_eq_some_iff.mp hm
  rw [List.getElem_range] at hg
  exact hg.symm

theorem recordsOf_settle (woken : Bool) (ready : WaitableKind → Nat → Bool) (k : WaitableKind)
    (records : List Record) :
    recordsOf k (records.map (settle woken ready)) =
      (recordsOf k records).map (settle woken ready) := by
  simp only [recordsOf, List.filter_map]
  rfl

theorem wait_eq_ok {ws ws' : WaitSet} {ret : Option Nat} {woken result : Bool}
    {ready : WaitableKind → Nat → Bool} : ws.wait ret woken ready = .ok (result, ws') ↔
      (ws.handle.valid = true ∧ ret = none) ∧ result = woken ∧ ws' = { ws with
        handle := { ws.handle with
          slots := fun k => (ws.handle.slots k).mask fun i => woken && ready k i } } := by
  simp only [WaitSet.wait, waitSetWait, bind_eq_ok, requireValid_ok_iff, tryRcl_ok_iff, pure_eq_ok]
  constructor
  · rintro ⟨⟨r, handle⟩, ⟨_, hvalid, _, hret, hhandle⟩, hws⟩
    obtain ⟨rfl, rfl⟩ := Prod.mk.inj hhandle
    obtain ⟨rfl, rfl⟩ := Prod.mk.inj hws
    exact ⟨⟨hvalid, hret⟩, rfl, rfl⟩
  · rintro ⟨⟨hvalid, hret⟩, rfl, rfl⟩
    exact ⟨_, ⟨(), hvalid, (), hret, rfl⟩, rfl⟩

/-- A wait that returns settles every record. -/
theorem wait_entered {ws ws' : WaitSet} {records : List Record} (he : Entered ws records)
    {ret : Option Nat} {woken result : Bool} {ready : WaitableKind → Nat → Bool}
    (hwait : ws.wait ret woken ready = .ok (result, ws')) :
    Entered ws' (records.map (settle woken ready)) := by
  obtain ⟨-, -, rfl⟩ := wait_eq_ok.mp hwait
  constructor
  · exact he.valid
  · intro k
    rw [recordsOf_settle]
    -- the slot of the i-th record of a kind is i, so the mask looks up its own report
    refine List.ext_getElem? fun i => ?_
    simp only [Block.mask, List.getElem?_mapIdx, he.entries, List.getElem?_map]
    cases hr : (recordsOf k records)[i]? with
    | none => rfl
    | some r =>
      have hk : r.held.kind = k := (mem_recordsOf.mp (List.mem_of_getElem? hr)).2
      have hs : r.slot = i := slot_of_getElem? (he.numbered k) hr
      cases hkept : r.kept <;> simp [Record.content, settle, hs, hk, hkept]
  · intro k
    rw [recordsOf_settle, List.map_map, List.length_map]
    exact he.numbered k
  · intro r hr
    obtain ⟨q, hq, rfl⟩ := List.mem_map.mp hr
    exact he.holds q hq

theorem wait_books {ws : WaitSet} {records : List Record} (hb : Books ws records) (woken : Bool)
    (ready : WaitableKind → Nat → Bool) :
    ∃ ws', ws.wait none woken ready = .ok (woken, ws') ∧ ws'.capacity = ws.capacity ∧
      ws'.held = ws.held ∧ Books ws' (records.map (settle woken ready)) := by
  have hwait := (@wait_eq_ok ws _ none woken woken ready).mpr ⟨⟨hb.valid, rfl⟩, rfl, rfl⟩
  exact ⟨_, hwait, rfl, rfl, ⟨hb.size, hb.lt⟩, wait_entered hb.toEntered hwait⟩

/-! ### What the books say -/

section

variable {ws : WaitSet} {records : List Record}

theorem Entered.slots_nodup (he : Entered ws records) (k : WaitableKind) :
    ((recordsOf k records).map Record.slot).Nodup := by
  rw [he.numbered]
  exact List.nodup_range

/-- What a slot holds was recorded there. -/
theorem Entered.getElem?_entries (he : Entered ws records) {k : WaitableKind} {i : Nat}
    {e : Option Handle} (h : (ws.handle.slots k).entries[i]? = some e) :
    ∃ r ∈ records, r.held.kind = k ∧ r.slot = i ∧ r.content = e := by
  rw [he.entries, List.getElem?_map] at h
  obtain ⟨r, hr, rfl⟩ := Option.map_eq_some_iff.mp h
  have hmem := mem_recordsOf.mp (List.mem_of_getElem? hr)
  exact ⟨r, hmem.1, hmem.2, slot_of_getElem? (he.numbered k) hr, rfl⟩

/-- What was recorded at a slot is what it holds. -/
theorem Entered.entry_slot (he : Entered ws records) {r : Record} (hr : r ∈ records) :
    (ws.handle.slots r.held.kind).entry r.slot = r.content := by
  obtain ⟨i, hi⟩ := List.mem_iff_getElem?.mp (mem_recordsOf.mpr ⟨hr, rfl⟩)
  obtain rfl : r.slot = i := slot_of_getElem? (he.numbered _) hi
  apply Block.entry_of_getElem?
  rw [he.entries, List.getElem?_map, hi]
  rfl

/-- Every entity rcl points to is held. -/
theorem Entered.pointer_held (he : Entered ws records) {k : WaitableKind} {i : Nat} {h : Handle}
    (hentry : (ws.handle.slots k).entry i = some h) : ⟨k, h⟩ ∈ ws.held := by
  rw [Block.entry, Option.join_eq_some_iff] at hentry
  obtain ⟨r, hr, rfl, -, hc⟩ := he.getElem?_entries hentry
  have hh : r.held.handle = h := by
    unfold Record.content at hc
    split at hc
    · exact Option.some.inj hc
    · cases hc
  have hheld : r.held = ⟨r.held.kind, h⟩ := by rw [← hh]
  exact hheld ▸ he.holds r hr

theorem Entered.slot_lt (he : Entered ws records) {r : Record} (hr : r ∈ records) :
    r.slot < (recordsOf r.held.kind records).length := by
  have hmem : r.slot ∈ (recordsOf r.held.kind records).map Record.slot :=
    List.mem_map_of_mem (mem_recordsOf.mpr ⟨hr, rfl⟩)
  rw [he.numbered] at hmem
  exact List.mem_range.mp hmem

theorem Books.length_le (hb : Books ws records) (k : WaitableKind) :
    (recordsOf k records).length ≤ ws.capacity.count k := by
  have hfits := (ws.handle.slots k).fits
  rwa [hb.entries, List.length_map, hb.size] at hfits

/-- The query of a recorded slot answers whether every wait kept it. -/
theorem Entered.ready_slot (he : Entered ws records) {r : Record} (hr : r ∈ records)
    (hlt : r.slot < 2 ^ 64) : ws.ready r.held.kind r.slot = r.kept := by
  have hquery : ∀ k, ws.ready k r.slot = waitSetReady k ws.handle (UInt64.ofNat r.slot) := by
    intro k
    cases k <;> rfl
  have hindex : (UInt64.ofNat r.slot).toNat = r.slot := Nat.mod_eq_of_lt hlt
  rw [hquery, waitSetReady, he.valid, hindex, Block.occupied_iff, he.entry_slot hr,
    Record.content]
  cases r.kept <;> rfl

theorem Books.ready_slot (hb : Books ws records) {r : Record} (hr : r ∈ records) :
    ws.ready r.held.kind r.slot = r.kept := by
  have hlt : r.slot < 2 ^ 64 :=
    Nat.lt_of_lt_of_le (hb.slot_lt hr) (Nat.le_of_lt
      (Nat.lt_of_le_of_lt (hb.length_le _) (hb.lt _)))
  exact hb.toEntered.ready_slot hr hlt

end

end WaitSets
