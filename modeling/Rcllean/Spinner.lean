import Rcllean.Executor

/-!
# The multi-threaded executor

Three kinds of thread take part: the one that waits and takes, the workers
that run callbacks, and threads that add entities. Between any two steps of
one of them the others may take any number of theirs, and anyone may destroy
entities or shut the context down. Reads of an entity's validity and of a
group's count are steps of their own. rcl may refuse any call the waiting
thread makes on the wait set.
-/
namespace Spinner

open WaitSets Executors Runs

/-- How far a worker is: in its callback, out of its group, or past its trigger. -/
inductive Stage where
  | running | left | finished
  deriving DecidableEq, Repr

structure Worker where
  group : CallbackGroup
  stage : Stage
  deriving DecidableEq, Repr

/-- Where the waiting thread is, with what it keeps in its variables. -/
inductive Pc where
  | loop
  | snapshot
  /-- Looking for destroyed entities among `all`; `dead` are the numbers found so far. -/
  | checking (all todo : List (Nat × Waitable)) (dead : List Nat)
  | forgetting (all : List (Nat × Waitable)) (dead : List Nat)
  /-- Asking each group whether it can run. -/
  | screening (todo eligible : List Waitable)
  | filling (eligible : List Waitable)
  | adding (todo : List Waitable) (added : List (Waitable × Nat))
  /-- `w` has been found valid and is about to be given to rcl. -/
  | pointing (w : Waitable) (todo : List Waitable) (added : List (Waitable × Nat))
  | waiting (added : List (Waitable × Nat))
  | woken (added : List (Waitable × Nat)) (result : Bool)
  | taking (todo : List (Waitable × Nat))
  /-- Dropping the tasks that have finished. -/
  | reaping (todo kept : List Nat)
  /-- Out of the loop, waiting for the tasks. -/
  | draining (todo : List Nat)
  | returned
  | raised (why : Failure)
  deriving DecidableEq, Repr

structure Sys where
  valid : Handle → Bool
  /-- The handles whose rcl object has been finalized. -/
  finalized : Handle → Bool
  /-- The handles created under a handle. -/
  children : Handle → List Handle
  contextOk : Bool
  waitables : List (Nat × Waitable)
  nextId : Nat
  running : Running
  waitSet : WaitSet
  wakeup : Handle
  /-- The wakeup guard is triggered and no wait has observed it yet. -/
  triggered : Bool
  pc : Pc
  /-- Every worker ever started. -/
  workers : List Worker
  /-- The workers whose tasks are kept, by their places. -/
  tasks : List Nat
  /-- What threads inside `add` have a number for and have not pushed yet. -/
  numbered : List (Nat × Waitable)
  /-- The numbers of what has been pushed by threads that have not triggered yet. -/
  pushed : List Nat

inductive Move where
  /-- The next step of the waiting thread, outside the wait and the takes; what it calls of rcl does
  as asked. -/
  | main
  /-- rcl refuses a call that the waiting thread makes at this step, or fails its wait. -/
  | refuse (fn : String) (code : Nat)
  /-- The wait returns with what rcl found ready; it may observe the wakeup guard. -/
  | wake (woken : Bool) (ready : WaitableKind → Nat → Bool) (observed : Bool)
  /-- The next entry of the loop over the slots, with what its take comes back with. -/
  | take (answer : Answer)
  | leave (i : Nat)
  | trigger (i : Nat)
  | addBegin (w : Waitable)
  | addPush (i : Nat)
  | addTrigger (i : Nat)
  /-- A handle's teardown begins, or comes to it from its parent. -/
  | invalidate (h : Handle)
  /-- The fini of a handle in teardown runs, after those of its children. -/
  | fini (h : Handle)
  | shutdown
  /-- The wakeup guard is triggered from elsewhere, as a shutdown does. -/
  | notify

def Sys.finished (s : Sys) (i : Nat) : Bool :=
  match s.workers[i]? with
  | some w => w.stage = .finished
  | none => true

/-- The calls of rcl that the next step of the waiting thread makes. -/
def Sys.refusable (s : Sys) : List String :=
  match s.pc with
  | .filling eligible =>
    (if s.waitSet.capacity ≠ capacityFor eligible then ["rcl_wait_set_resize"] else []) ++
      ["rcl_wait_set_clear", addName .guardCondition]
  | .pointing w _ _ => [addName w.kind]
  | .waiting _ => ["rcl_wait"]
  | _ => []

/-- The next step of the waiting thread. No array reaches 2^64 entries. -/
def mainStep (s : Sys) : Option Sys :=
  match s.pc with
  | .loop => some { s with pc := if s.contextOk then .snapshot else .draining s.tasks }
  | .snapshot => some { s with pc := .checking s.waitables s.waitables [] }
  | .checking all [] dead => some { s with pc := .forgetting all dead }
  | .checking all (p :: todo) dead => some { s with
      pc := .checking all todo (if s.valid p.2.handle then dead else dead ++ [p.1]) }
  | .forgetting all dead => some { s with
      waitables := if !dead.isEmpty then s.waitables.filter fun p => !dead.contains p.1
        else s.waitables
      pc := .screening (survivors dead all) [] }
  | .screening [] eligible => some { s with pc := .filling eligible }
  | .screening (w :: todo) eligible => some { s with
      pc := .screening todo (if canRun s.running w.group then eligible ++ [w] else eligible) }
  | .filling eligible =>
    if eligible.length + 1 < 2 ^ 64 then
      match prepare s.valid s.wakeup .granted eligible s.waitSet with
      | .error why => some { s with pc := .raised why }
      | .ok (ws, _) => some { s with waitSet := ws, pc := .adding eligible [] }
    else none
  | .adding [] added => some { s with pc := .waiting added }
  | .adding (w :: todo) added =>
    match requireValid (s.valid w.handle) (addName w.kind) with
    | .error why => some { s with pc := .raised why }
    | .ok _ => some { s with pc := .pointing w todo added }
  | .pointing w todo added =>
    match w.add s.waitSet true none with
    | .error why => some { s with pc := .raised why }
    | .ok (ws, slot) => some { s with waitSet := ws, pc := .adding todo (added ++ [(w, slot)]) }
  | .woken added result => some { s with
      pc := if result && s.contextOk then .taking added else .reaping s.tasks [] }
  | .taking [] => some { s with pc := .reaping s.tasks [] }
  | .reaping [] kept => some { s with tasks := kept, pc := .loop }
  | .reaping (i :: todo) kept => some { s with
      pc := .reaping todo (if s.finished i then kept else kept ++ [i]) }
  | .draining [] => some { s with pc := .returned }
  | .draining (i :: todo) => if s.finished i then some { s with pc := .draining todo } else none
  | .waiting _ | .taking (_ :: _) | .returned | .raised _ => none

/-- The group is entered and a task started for the callback. -/
def dispatch (s : Sys) (w : Waitable) (todo : List (Waitable × Nat)) : Sys :=
  { s with
    running := enter s.running w.group
    workers := s.workers ++ [⟨w.group, .running⟩]
    tasks := s.tasks ++ [s.workers.length]
    pc := .taking todo }

def takeStep (s : Sys) (w : Waitable) (slot : Nat) (todo : List (Waitable × Nat))
    (answer : Answer) : Sys :=
  if canRun s.running w.group then
    match w.takeIfReady s.waitSet slot (s.valid w.handle) answer with
    | .error why => { s with pc := .raised why }
    | .ok false => { s with pc := .taking todo }
    | .ok true => dispatch s w todo
  else { s with pc := .taking todo }

def wakeStep (s : Sys) (added : List (Waitable × Nat)) (woken : Bool)
    (ready : WaitableKind → Nat → Bool) (observed : Bool) : Sys :=
  match s.waitSet.wait none woken ready with
  | .error why => { s with pc := .raised why }
  | .ok (result, ws) => { s with
      waitSet := ws
      triggered := s.triggered && !observed
      pc := .woken added result }

/-- A worker leaves its group whether or not its callback raised, and then triggers. Only a
triggered guard is observed. The wakeup has no destroy and is not under anything that has. -/
def step (s : Sys) : Move → Option Sys
  | .main => mainStep s
  -- once the thread has raised nothing reads what the refused call has left of the wait set
  | .refuse fn code =>
    if fn ∈ s.refusable then some { s with pc := .raised (.code fn code) } else none
  | .wake woken ready observed => match s.pc with
    | .waiting added =>
      if observed && !s.triggered then none else some (wakeStep s added woken ready observed)
    | _ => none
  | .take answer => match s.pc with
    | .taking ((w, slot) :: todo) => some (takeStep s w slot todo answer)
    | _ => none
  | .leave i => match s.workers[i]? with
    | some ⟨g, .running⟩ => some { s with
        running := leave s.running g, workers := s.workers.set i ⟨g, .left⟩ }
    | _ => none
  | .trigger i => match s.workers[i]? with
    | some ⟨g, .left⟩ => some { s with
        workers := s.workers.set i ⟨g, .finished⟩, triggered := true }
    | _ => none
  | .addBegin w => some { s with
      nextId := s.nextId + 1, numbered := s.numbered ++ [(s.nextId, w)] }
  | .addPush i => match s.numbered[i]? with
    | some e => some { s with
        waitables := s.waitables ++ [e]
        numbered := s.numbered.eraseIdx i
        pushed := s.pushed ++ [e.1] }
    | none => none
  | .addTrigger i =>
    if i < s.pushed.length then some { s with pushed := s.pushed.eraseIdx i, triggered := true }
    else none
  | .invalidate h =>
    if h = s.wakeup then none
    else some { s with valid := Function.update s.valid h false }
  | .fini h =>
    if !s.valid h && !s.finalized h && (s.children h).all s.finalized then
      some { s with finalized := Function.update s.finalized h true }
    else none
  | .shutdown => some { s with contextOk := false }
  | .notify => some { s with triggered := true }

/-- `spinMultiThreaded` is called on an executor that may have been used before: with entities, its
wait set as an earlier pass left it and the wakeup triggered or not. Nothing of an earlier run is
under way, so no callback is running. -/
def start (ex : Executor) (valid : Handle → Bool) (children : Handle → List Handle)
    (triggered : Bool) : Sys where
  valid := valid
  finalized := fun h => !valid h
  children := children
  contextOk := true
  waitables := ex.waitables.entries
  nextId := ex.waitables.nextId
  running := fun _ => 0
  waitSet := ex.waitSet
  wakeup := ex.wakeup
  triggered := triggered
  pc := .loop
  workers := []
  tasks := []
  numbered := []
  pushed := []

/-! ## The wait set of a pass -/

/-- What is on the books when the wakeup and the entities in `added` have been added. -/
def recorded (wakeup : Handle) (added : List (Waitable × Nat)) : List Record :=
  ⟨⟨.guardCondition, wakeup⟩, 0, true⟩ :: added.map fun p => ⟨p.1.held, p.2, true⟩

/-- The books of the wait set at each place of the waiting thread, the only one to use it. -/
def Track (wakeup : Handle) (ws : WaitSet) : Pc → Prop
  | .adding todo added =>
    Books ws (recorded wakeup added) ∧ Room ws (recorded wakeup added) todo
  | .pointing w todo added =>
    Books ws (recorded wakeup added) ∧ Room ws (recorded wakeup added) (w :: todo)
  | .waiting added => Books ws (recorded wakeup added)
  | _ => ∃ records, Books ws records

theorem Track.books {wakeup : Handle} {ws : WaitSet} {pc : Pc} (h : Track wakeup ws pc) :
    ∃ records, Books ws records := by
  cases pc <;> first | exact h | exact ⟨_, h⟩ | exact ⟨_, h.1⟩

structure Base (s : Sys) : Prop where
  wakeup : s.valid s.wakeup = true
  track : Track s.wakeup s.waitSet s.pc

/-- The steps of the waiting thread outside its waits and takes, one constructor a branch. -/
inductive MainStep (s : Sys) : Sys → Prop where
  | go : s.pc = .loop → s.contextOk = true → MainStep s { s with pc := .snapshot }
  | stop : s.pc = .loop → MainStep s { s with pc := .draining s.tasks }
  | snapshot : s.pc = .snapshot →
    MainStep s { s with pc := .checking s.waitables s.waitables [] }
  | live {all todo dead} {p : Nat × Waitable} : s.pc = .checking all (p :: todo) dead →
    s.valid p.2.handle = true → MainStep s { s with pc := .checking all todo dead }
  | dead {all todo dead} {p : Nat × Waitable} : s.pc = .checking all (p :: todo) dead →
    s.valid p.2.handle = false → MainStep s { s with pc := .checking all todo (dead ++ [p.1]) }
  | checked {all dead} : s.pc = .checking all [] dead →
    MainStep s { s with pc := .forgetting all dead }
  | forget {all dead kept} : s.pc = .forgetting all dead → kept.Sublist s.waitables →
    MainStep s { s with waitables := kept, pc := .screening (survivors dead all) [] }
  | free {w todo eligible} : s.pc = .screening (w :: todo) eligible →
    canRun s.running w.group = true →
    MainStep s { s with pc := .screening todo (eligible ++ [w]) }
  | busy {w todo eligible} : s.pc = .screening (w :: todo) eligible →
    canRun s.running w.group = false → MainStep s { s with pc := .screening todo eligible }
  | screened {eligible} : s.pc = .screening [] eligible →
    MainStep s { s with pc := .filling eligible }
  | fill {eligible ws} : s.pc = .filling eligible → Books ws (recorded s.wakeup []) →
    Room ws (recorded s.wakeup []) eligible →
    MainStep s { s with waitSet := ws, pc := .adding eligible [] }
  | refuse {w todo added why} : s.pc = .adding (w :: todo) added →
    s.valid w.handle = false → MainStep s { s with pc := .raised why }
  | check {w todo added} : s.pc = .adding (w :: todo) added → s.valid w.handle = true →
    MainStep s { s with pc := .pointing w todo added }
  | point {w todo added ws slot} : s.pc = .pointing w todo added →
    Books ws (recorded s.wakeup (added ++ [(w, slot)])) →
    Room ws (recorded s.wakeup (added ++ [(w, slot)])) todo →
    MainStep s { s with waitSet := ws, pc := .adding todo (added ++ [(w, slot)]) }
  | wait {added} : s.pc = .adding [] added → MainStep s { s with pc := .waiting added }
  | proceed {added result} : s.pc = .woken added result →
    MainStep s { s with pc := .taking added }
  | skip {added result} : s.pc = .woken added result →
    MainStep s { s with pc := .reaping s.tasks [] }
  | taken : s.pc = .taking [] → MainStep s { s with pc := .reaping s.tasks [] }
  | drop {i todo kept} : s.pc = .reaping (i :: todo) kept → s.finished i = true →
    MainStep s { s with pc := .reaping todo kept }
  | keep {i todo kept} : s.pc = .reaping (i :: todo) kept → s.finished i = false →
    MainStep s { s with pc := .reaping todo (kept ++ [i]) }
  | reaped {kept} : s.pc = .reaping [] kept → MainStep s { s with tasks := kept, pc := .loop }
  | awaited {i todo} : s.pc = .draining (i :: todo) → s.finished i = true →
    MainStep s { s with pc := .draining todo }
  | drained : s.pc = .draining [] → MainStep s { s with pc := .returned }

theorem recorded_append (wakeup : Handle) (added : List (Waitable × Nat)) (w : Waitable)
    (slot : Nat) : recorded wakeup (added ++ [(w, slot)]) =
      recorded wakeup added ++ [⟨w.held, slot, true⟩] := by
  simp [recorded]

/-- Where there is room for it, an entity found valid is added in the next slot of its kind. -/
theorem add_recorded {wakeup : Handle} {ws : WaitSet} {added : List (Waitable × Nat)}
    {w : Waitable} {todo : List Waitable} (hb : Books ws (recorded wakeup added))
    (hroom : Room ws (recorded wakeup added) (w :: todo)) :
    ∃ ws' slot, w.add ws true none = .ok (ws', slot) ∧
      Books ws' (recorded wakeup (added ++ [(w, slot)])) ∧
      Room ws' (recorded wakeup (added ++ [(w, slot)])) todo := by
  obtain ⟨ws', hadd, hcap, -, hb'⟩ := add_books (h := w.handle) hb hroom.head
  refine ⟨ws', _, by rw [w.add_eq, hadd], ?_, ?_⟩
  · rw [recorded_append]
    exact hb'
  · rw [recorded_append]
    exact hroom.tail hcap

/-- Every step of the waiting thread is one of the branches; where rcl does as asked, filling and
adding do not raise. -/
theorem mainStep_cases {s t : Sys} (hb : Base s) (h : mainStep s = some t) : MainStep s t := by
  have htrack := hb.track
  unfold mainStep at h
  cases hpc : s.pc with
  | loop =>
    rw [hpc] at h
    obtain rfl := Option.some.inj h
    by_cases hok : s.contextOk = true
    · rw [if_pos hok]
      exact .go hpc hok
    · rw [if_neg hok]
      exact .stop hpc
  | snapshot =>
    rw [hpc] at h
    obtain rfl := Option.some.inj h
    exact .snapshot hpc
  | checking all todo dead => cases todo with
    | nil =>
      rw [hpc] at h
      obtain rfl := Option.some.inj h
      exact .checked hpc
    | cons p todo =>
      rw [hpc] at h
      obtain rfl := Option.some.inj h
      by_cases hv : s.valid p.2.handle = true
      · rw [if_pos hv]
        exact .live hpc hv
      · rw [if_neg hv]
        exact .dead hpc (Bool.eq_false_iff.mpr hv)
  | forgetting all dead =>
    rw [hpc] at h
    obtain rfl := Option.some.inj h
    refine .forget hpc ?_
    split
    · exact List.filter_sublist
    · exact List.Sublist.refl _
  | screening todo eligible => cases todo with
    | nil =>
      rw [hpc] at h
      obtain rfl := Option.some.inj h
      exact .screened hpc
    | cons w todo =>
      rw [hpc] at h
      obtain rfl := Option.some.inj h
      by_cases hr : canRun s.running w.group = true
      · rw [if_pos hr]
        exact .free hpc hr
      · rw [if_neg hr]
        exact .busy hpc (Bool.eq_false_iff.mpr hr)
  | filling eligible =>
    rw [hpc] at h htrack
    simp only [Option.ite_none_right_eq_some] at h
    obtain ⟨records, hbooks⟩ := htrack
    obtain ⟨ws, hprep, -, -, hb', hroom⟩ := prepare_books s.valid s.wakeup hbooks h.1 hb.wakeup
      (grants_granted eligible s.waitSet)
    rw [hprep] at h
    obtain rfl := Option.some.inj h.2
    exact .fill hpc hb' hroom
  | adding todo added => cases todo with
    | nil =>
      rw [hpc] at h
      obtain rfl := Option.some.inj h
      exact .wait hpc
    | cons w todo =>
      rw [hpc] at h
      cases hv : s.valid w.handle with
      | true =>
        simp only [hv, requireValid_true] at h
        obtain rfl := Option.some.inj h
        exact .check hpc hv
      | false =>
        simp only [hv, requireValid, Bool.false_eq_true, if_false] at h
        obtain rfl := Option.some.inj h
        exact .refuse hpc hv
  | pointing w todo added =>
    rw [hpc] at h htrack
    obtain ⟨ws, slot, hadd, hb', hroom⟩ := add_recorded htrack.1 htrack.2
    simp only [hadd] at h
    obtain rfl := Option.some.inj h
    exact .point hpc hb' hroom
  | waiting added =>
    rw [hpc] at h
    cases h
  | woken added result =>
    rw [hpc] at h
    obtain rfl := Option.some.inj h
    split
    · exact .proceed hpc
    · exact .skip hpc
  | taking todo => cases todo with
    | nil =>
      rw [hpc] at h
      obtain rfl := Option.some.inj h
      exact .taken hpc
    | cons p todo =>
      rw [hpc] at h
      cases h
  | reaping todo kept => cases todo with
    | nil =>
      rw [hpc] at h
      obtain rfl := Option.some.inj h
      exact .reaped hpc
    | cons i todo =>
      rw [hpc] at h
      obtain rfl := Option.some.inj h
      by_cases hf : s.finished i = true
      · rw [if_pos hf]
        exact .drop hpc hf
      · rw [if_neg hf]
        exact .keep hpc (Bool.eq_false_iff.mpr hf)
  | draining todo => cases todo with
    | nil =>
      rw [hpc] at h
      obtain rfl := Option.some.inj h
      exact .drained hpc
    | cons i todo =>
      rw [hpc] at h
      simp only [Option.ite_none_right_eq_some, Option.some.injEq] at h
      obtain ⟨hf, rfl⟩ := h
      exact .awaited hpc hf
  | returned =>
    rw [hpc] at h
    cases h
  | raised why =>
    rw [hpc] at h
    cases h

/-- The steps of all threads, one constructor a branch. -/
inductive Step (s : Sys) : Move → Sys → Prop where
  | main {t} : MainStep s t → Step s .main t
  | refused {fn code} : fn ∈ s.refusable →
    Step s (.refuse fn code) { s with pc := .raised (.code fn code) }
  | wake {woken ready observed added ws} : s.pc = .waiting added → (∃ records, Books ws records) →
    Step s (.wake woken ready observed) { s with
      waitSet := ws, triggered := s.triggered && !observed, pc := .woken added woken }
  | passed {answer w slot todo} : s.pc = .taking ((w, slot) :: todo) →
    Step s (.take answer) { s with pc := .taking todo }
  | dispatched {answer w slot todo} : s.pc = .taking ((w, slot) :: todo) →
    canRun s.running w.group = true → Step s (.take answer) (dispatch s w todo)
  | raised {answer w slot todo why} : s.pc = .taking ((w, slot) :: todo) →
    Step s (.take answer) { s with pc := .raised why }
  | leave {i g} : s.workers[i]? = some ⟨g, .running⟩ → Step s (.leave i) { s with
      running := leave s.running g, workers := s.workers.set i ⟨g, .left⟩ }
  | trigger {i g} : s.workers[i]? = some ⟨g, .left⟩ → Step s (.trigger i) { s with
      workers := s.workers.set i ⟨g, .finished⟩, triggered := true }
  | addBegin {w} : Step s (.addBegin w) { s with
      nextId := s.nextId + 1, numbered := s.numbered ++ [(s.nextId, w)] }
  | addPush {i e} : s.numbered[i]? = some e → Step s (.addPush i) { s with
      waitables := s.waitables ++ [e]
      numbered := s.numbered.eraseIdx i
      pushed := s.pushed ++ [e.1] }
  | addTrigger {i} : Step s (.addTrigger i) { s with
      pushed := s.pushed.eraseIdx i, triggered := true }
  | invalidate {h} : h ≠ s.wakeup → Step s (.invalidate h) { s with
      valid := Function.update s.valid h false }
  | fini {h} : s.valid h = false → Step s (.fini h) { s with
      finalized := Function.update s.finalized h true }
  | shutdown : Step s .shutdown { s with contextOk := false }
  | notify : Step s .notify { s with triggered := true }

/-- A turn is passed over, dispatches its callback, or raises. -/
theorem takeStep_cases {s : Sys} {w : Waitable} {slot : Nat} {todo : List (Waitable × Nat)}
    (answer : Answer) (hpc : s.pc = .taking ((w, slot) :: todo)) :
    Step s (.take answer) (takeStep s w slot todo answer) := by
  unfold takeStep
  split
  · rename_i hrun
    split
    · exact .raised hpc
    · exact .passed hpc
    · exact .dispatched hpc hrun
  · exact .passed hpc

/-- Every step is one of the branches; a wait that rcl does not fail does not raise. -/
theorem step_cases {s t : Sys} {m : Move} (hb : Base s) (h : step s m = some t) : Step s m t := by
  cases m with
  | main => exact .main (mainStep_cases hb h)
  | refuse fn code =>
    simp only [step, Option.ite_none_right_eq_some, Option.some.injEq] at h
    obtain ⟨hfn, rfl⟩ := h
    exact .refused hfn
  | wake woken ready observed =>
    simp only [step] at h
    split at h
    · rename_i added hpc
      have htrack := hb.track
      rw [hpc] at htrack
      obtain ⟨ws, hwait, -, -, hb'⟩ := wait_books htrack woken ready
      simp only [Option.ite_none_left_eq_some, wakeStep, hwait] at h
      obtain rfl := Option.some.inj h.2
      exact .wake hpc ⟨_, hb'⟩
    · cases h
  | take answer =>
    simp only [step] at h
    split at h
    · rename_i w slot todo hpc
      obtain rfl := Option.some.inj h
      exact takeStep_cases answer hpc
    · cases h
  | leave i =>
    simp only [step] at h
    split at h
    · rename_i g hi
      obtain rfl := Option.some.inj h
      exact .leave hi
    · cases h
  | trigger i =>
    simp only [step] at h
    split at h
    · rename_i g hi
      obtain rfl := Option.some.inj h
      exact .trigger hi
    · cases h
  | addBegin w =>
    obtain rfl := Option.some.inj h
    exact .addBegin
  | addPush i =>
    simp only [step] at h
    split at h
    · rename_i e hi
      obtain rfl := Option.some.inj h
      exact .addPush hi
    · cases h
  | addTrigger i =>
    simp only [step, Option.ite_none_right_eq_some, Option.some.injEq] at h
    obtain ⟨-, rfl⟩ := h
    exact .addTrigger
  | invalidate d =>
    simp only [step, Option.ite_none_left_eq_some, Option.some.injEq] at h
    obtain ⟨hd, rfl⟩ := h
    exact .invalidate hd
  | fini d =>
    simp only [step, Option.ite_none_right_eq_some, Option.some.injEq, Bool.and_eq_true,
      Bool.not_eq_true'] at h
    obtain ⟨⟨⟨hd, -⟩, -⟩, rfl⟩ := h
    exact .fini hd
  | shutdown =>
    obtain rfl := Option.some.inj h
    exact .shutdown
  | notify =>
    obtain rfl := Option.some.inj h
    exact .notify

theorem Base.mainStep {s t : Sys} (hb : Base s) (h : MainStep s t) : Base t := by
  have hbooks := hb.track.books
  have htrack := hb.track
  cases h with
  | fill hpc hb' hroom => exact ⟨hb.wakeup, hb', hroom⟩
  | point hpc hb' hroom => exact ⟨hb.wakeup, hb', hroom⟩
  | check hpc hv =>
    rw [hpc] at htrack
    exact ⟨hb.wakeup, htrack⟩
  | wait hpc =>
    rw [hpc] at htrack
    exact ⟨hb.wakeup, htrack.1⟩
  | _ => exact ⟨hb.wakeup, hbooks⟩

theorem step_base (s : Sys) (m : Move) (t : Sys) (hb : Base s) (h : step s m = some t) :
    Base t := by
  cases step_cases hb h with
  | main hmain => exact hb.mainStep hmain
  | wake _ hbooks => exact ⟨hb.wakeup, hbooks⟩
  | passed => exact ⟨hb.wakeup, hb.track.books⟩
  | dispatched => exact ⟨hb.wakeup, hb.track.books⟩
  | raised => exact ⟨hb.wakeup, hb.track.books⟩
  | refused => exact ⟨hb.wakeup, hb.track.books⟩
  | invalidate hd =>
    refine ⟨?_, hb.track⟩
    simpa [Ne.symm hd] using hb.wakeup
  | _ => exact ⟨hb.wakeup, hb.track⟩

theorem start_base {ex : Executor} {valid : Handle → Bool} (hwakeup : valid ex.wakeup = true)
    (hbooks : ∃ records, Books ex.waitSet records) (children : Handle → List Handle)
    (triggered : Bool) : Base (start ex valid children triggered) :=
  ⟨hwakeup, hbooks⟩

/-! ## The callbacks still awaited -/

/-- The tasks the thread still looks at or keeps. -/
def pending (tasks : List Nat) : Pc → List Nat
  | .reaping todo kept => kept ++ todo
  | .draining todo => todo
  | .returned => []
  | _ => tasks

/-- A callback that has not finished is among them. -/
def Awaited (s : Sys) : Prop :=
  ∀ i w, s.workers[i]? = some w → w.stage ≠ .finished → i ∈ pending s.tasks s.pc

theorem finished_eq {s : Sys} {i : Nat} {w : Worker} (h : s.workers[i]? = some w) :
    s.finished i = decide (w.stage = .finished) := by
  simp [Sys.finished, h]

/-- No task is lost between the loop that takes and the wait at the end. -/
theorem Awaited.mainStep {s t : Sys} (h : Awaited s) (hs : MainStep s t) : Awaited t := by
  intro i w hi hw
  have hold : s.workers[i]? = some w := by cases hs <;> exact hi
  have hp := h i w hold hw
  have hnot : s.finished i = false := by simp [finished_eq hold, hw]
  cases hs with
  | @drop j todo kept hpc hf =>
    rw [hpc, pending, List.mem_append, List.mem_cons] at hp
    rcases hp with hp | rfl | hp
    · exact List.mem_append_left _ hp
    · rw [hnot] at hf
      cases hf
    · exact List.mem_append_right _ hp
  | @awaited j todo hpc hf =>
    rw [hpc, pending, List.mem_cons] at hp
    rcases hp with rfl | hp
    · rw [hnot] at hf
      cases hf
    · exact hp
  | keep hpc | reaped hpc | go hpc | stop hpc | snapshot hpc | live hpc | dead hpc | checked hpc
  | forget hpc | free hpc | busy hpc | screened hpc | fill hpc | refuse hpc | check hpc | point hpc
  | wait hpc | proceed hpc | skip hpc | taken hpc =>
    simpa [hpc, pending, or_assoc] using hp
  | drained hpc =>
    rw [hpc] at hp
    cases hp

/-- A new callback's task is kept. -/
theorem Awaited.dispatch {s : Sys} (h : Awaited s) {w : Waitable} {slot : Nat}
    {todo : List (Waitable × Nat)} (hpc : s.pc = .taking ((w, slot) :: todo)) :
    Awaited (dispatch s w todo) := by
  intro i v hi hv
  by_cases hlt : i < s.workers.length
  · have hold : s.workers[i]? = some v := by rwa [← List.getElem?_append_left hlt]
    have hp := h i v hold hv
    rw [hpc] at hp
    exact List.mem_append_left _ hp
  · have hle := (List.getElem?_eq_some_iff.mp hi).1
    rw [Spinner.dispatch, List.length_append, List.length_singleton] at hle
    obtain rfl : i = s.workers.length := by omega
    exact List.mem_append_right _ (List.mem_singleton.mpr rfl)

theorem step_awaited {s t : Sys} {m : Move} (hb : Base s) (h : Awaited s)
    (hs : step s m = some t) : Awaited t := by
  cases step_cases hb hs with
  | main hmain => exact h.mainStep hmain
  | dispatched hpc => exact h.dispatch hpc
  | wake hpc | passed hpc | raised hpc =>
    intro i w hi hw
    simpa [hpc, pending] using h i w hi hw
  | refused hfn =>
    intro i w hi hw
    have hp := h i w hi hw
    unfold Sys.refusable at hfn
    split at hfn <;> simp_all [pending]
  | @leave j g hj =>
    intro i w hi hw
    by_cases hij : j = i
    · subst hij
      exact h j _ hj fun hrunning => by cases hrunning
    · exact h i w (by rwa [List.getElem?_set_ne hij] at hi) hw
  | @trigger j g hj =>
    intro i w hi hw
    by_cases hij : j = i
    · subst hij
      rw [List.getElem?_set_self (List.getElem?_eq_some_iff.mp hj).1] at hi
      obtain rfl := Option.some.inj hi
      exact absurd rfl hw
    · exact h i w (by rwa [List.getElem?_set_ne hij] at hi) hw
  | _ => exact h

/-- A thread that has returned has waited for every callback it dispatched. -/
theorem Awaited.finished {s : Sys} (h : Awaited s) (hpc : s.pc = .returned) :
    ∀ w ∈ s.workers, w.stage = .finished := by
  intro w hw
  by_contra hne
  obtain ⟨i, hi⟩ := List.mem_iff_getElem?.mp hw
  have hp := h i w hi hne
  rw [hpc] at hp
  cases hp

/-! ### Subscriptions of mutually exclusive groups -/

/-- An executor, the wakeup guard being 0. -/
theorem exists_start :
    ∃ ex, Executor.create true 0 = .ok ex ∧ ∃ records, Books ex.waitSet records := by
  obtain ⟨ex, hex⟩ := Executor.exists_create 0
  exact ⟨ex, hex, [], (Executor.books_of_create hex).1⟩

/-- Another thread adds the entity from first to last. -/
def register (w : Waitable) : List Move := [.addBegin w, .addPush 0, .addTrigger 0]

/-- A pass over `n` entities, all alive and of free groups, up to its wait. -/
def untilWait (n : Nat) : List Move := List.replicate (7 + 4 * n) .main

/-- An entity is added, waited for, found ready and its callback dispatched. -/
def dispatching (w : Waitable) : List Move :=
  register w ++ untilWait 1 ++ [.wake true (fun _ _ => true) true, .main, .take .data]

end Spinner
