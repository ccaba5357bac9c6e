import Rcllean.Listings
import Rcllean.Overrides

/-!
# The parameters of a node

A store keeps the declared parameters in a table and the order of their
declaration beside it. Setting a batch checks it, consults the callbacks and
writes one parameter after the other. Calls of any number of threads take
their steps in any order, and a callback may make calls of its own: each read
or write of a cell of the store is a step.
-/
namespace ParameterStore

open Parameters ParamOverrides Overrides WaitSets Runs Function Listings

structure SetResult where
  successful : Bool
  reason : String := ""
  deriving DecidableEq, Repr

def SetResult.ok : SetResult := { successful := true }

def SetResult.refuse (reason : String) : SetResult := { successful := false, reason }

structure Store where
  /-- Declared parameters, by name. -/
  params : String → Option Parameter
  /-- Declaration order, so that listings are stable. -/
  order : List String
  overrides : String → Option ParameterValue
  /-- How many callbacks are registered; each is known by its place. -/
  onSet : Nat
  allowUndeclared : Bool

def Store.create (p : RclParams) (nodeFqn : String) (allowUndeclared : Bool) :
    Except Failure Store := do
  let overrides ← collectOverrides p nodeFqn
  return ⟨fun _ => none, [], fun name => overrides[name]?, 0, allowUndeclared⟩

/-! ## Reads -/

def Store.has (s : Store) (name : String) : Bool := (s.params name).isSome

def Store.get (s : Store) (name : String) : Except String ParameterValue :=
  match s.params name with
  | some p => .ok p.value
  | none =>
    if s.allowUndeclared then .ok .notSet else .error s!"parameter '{name}' is not declared"

/-- Every declared parameter, in declaration order. -/
def Store.all (s : Store) : List Parameter := s.order.filterMap s.params

/-! ## Checks -/

/-- What `declare` comes to before it writes. An override wins over the default. -/
def Store.declaration (s : Store) (name : String) (defaultValue : ParameterValue)
    (descriptor : ParameterDescriptor) : Except String Parameter := do
  if s.has name then
    throw s!"parameter '{name}' is already declared"
  let declaredType := if descriptor.type == .notSet then defaultValue.type else descriptor.type
  let descriptor := { descriptor with name := name, type := declaredType }
  let value := (s.overrides name).getD defaultValue
  match descriptor.check value with
  | .error e => throw s!"declaring '{name}': {e}"
  | .ok _ => return { name, value, descriptor }

/-- What `undeclare` checks. -/
def Store.removal (s : Store) (name : String) : Except String Unit :=
  match s.params name with
  | none => .error s!"parameter '{name}' is not declared"
  | some p => if p.descriptor.readOnly then .error s!"parameter '{name}' is read-only" else .ok ()

/-- A round of the loop over a batch: the record to be written, or why the batch is refused. -/
def Store.proposeOne (s : Store) (u : String × ParameterValue) : Except String Parameter :=
  match s.params u.1 with
  | none =>
    if !s.allowUndeclared then .error s!"parameter '{u.1}' is not declared"
    else .ok { name := u.1, value := u.2 }
  | some p =>
    if p.descriptor.readOnly then .error s!"parameter '{u.1}' is read-only"
    else match p.descriptor.check u.2 with
      | .error e => .error e
      | .ok _ => .ok { p with value := u.2 }

def Store.propose (s : Store) (updates : List (String × ParameterValue)) :
    Except String (List Parameter) :=
  updates.mapM s.proposeOne

/-! ## Writes -/

def Store.insert (s : Store) (p : Parameter) : Store :=
  { s with params := update s.params p.name (some p) }

def Store.push (s : Store) (name : String) : Store := { s with order := s.order ++ [name] }

def Store.erase (s : Store) (name : String) : Store :=
  { s with params := update s.params name none }

def Store.forget (s : Store) (name : String) : Store :=
  { s with order := s.order.filter (· ≠ name) }

/-! ## Calls -/

/-- `rcl_interfaces/msg/ParameterEvent`: the names and values in it. -/
structure ParameterEvent where
  new_parameters : List (String × WireValue)
  changed_parameters : List (String × WireValue)

def Parameter.toEvent (p : Parameter) : String × WireValue := (p.name, p.value.toWire)

/-- A call on the store, or on the server over it, which announces what the call did. -/
inductive Op where
  | declare (announce : Bool) (name : String) (defaultValue : ParameterValue)
      (descriptor : ParameterDescriptor)
  | undeclare (name : String)
  | set (announce : Bool) (updates : List (String × ParameterValue))

inductive Outcome where
  | raised (text : String)
  /-- Raised on the way to the publisher, when all else was done. -/
  | unannounced (text : String)
  | declared (value : ParameterValue)
  | undeclared
  | set (result : SetResult)

/-- What a call does next. -/
inductive Pc where
  | idle
  | inserting (announce : Bool) (p : Parameter)
  | listing (announce : Bool) (p : Parameter)
  | erasing (name : String)
  | forgetting (name : String)
  /-- The batch has passed the checks. -/
  | checked (announce : Bool) (updates : List (String × ParameterValue))
      (proposed : List Parameter)
  | consulting (announce : Bool) (updates : List (String × ParameterValue))
      (proposed : List Parameter) (left : List Nat)
  | writing (announce : Bool) (updates : List (String × ParameterValue)) (todo : List Parameter)
  | pushing (announce : Bool) (updates : List (String × ParameterValue)) (p : Parameter)
      (todo : List Parameter)
  | storing (announce : Bool) (updates : List (String × ParameterValue)) (p : Parameter)
      (todo : List Parameter)
  /-- Reading what to announce. -/
  | reading (updates : List (String × ParameterValue))
  | publishing (outcome : Outcome) (event : ParameterEvent)
  | returned (outcome : Outcome)

structure Sys extends Threads Nat Pc where
  store : Store
  /-- What the server's publisher has taken. -/
  events : List ParameterEvent

def start (store : Store) : Sys := ⟨⟨fun _ => .idle⟩, store, []⟩

abbrev Sys.setPc (s : Sys) (c : Nat) (pc : Pc) : Sys :=
  { s with toThreads := s.toThreads.setPc c pc }

/-- The first step of a call reads the table. -/
def begin (s : Store) : Op → Pc
  | .declare announce name defaultValue descriptor =>
    match s.declaration name defaultValue descriptor with
    | .error e => .returned (.raised e)
    | .ok p => .inserting announce p
  | .undeclare name => match s.removal name with
    | .error e => .returned (.raised e)
    | .ok _ => .erasing name
  | .set announce updates => match s.propose updates with
    | .error e => .returned (.set (.refuse e))
    | .ok proposed => .checked announce updates proposed

/-- The next step of a call, unless a callback has it. -/
def go (s : Sys) (c : Nat) : Option Sys :=
  match s.pc c with
  | .idle => none
  | .inserting announce p =>
    some ({ s with store := s.store.insert p }.setPc c (.listing announce p))
  | .listing announce p =>
    some ({ s with store := s.store.push p.name }.setPc c
      (if announce then .publishing (.declared p.value) ⟨[Parameter.toEvent p], []⟩
        else .returned (.declared p.value)))
  | .erasing name => some ({ s with store := s.store.erase name }.setPc c (.forgetting name))
  | .forgetting name =>
    some ({ s with store := s.store.forget name }.setPc c (.returned .undeclared))
  | .checked announce updates proposed =>
    some (s.setPc c (.consulting announce updates proposed (List.range s.store.onSet)))
  | .consulting announce updates proposed [] =>
    some (s.setPc c (.writing announce updates proposed))
  | .consulting _ _ _ (_ :: _) => none
  | .writing announce updates [] =>
    some (s.setPc c (if announce then .reading updates else .returned (.set .ok)))
  | .writing announce updates (p :: todo) =>
    some (s.setPc c (if s.store.has p.name then .storing announce updates p todo
      else .pushing announce updates p todo))
  | .pushing announce updates p todo =>
    some ({ s with store := s.store.push p.name }.setPc c (.storing announce updates p todo))
  | .storing announce updates p todo =>
    some ({ s with store := s.store.insert p }.setPc c (.writing announce updates todo))
  | .reading updates =>
    let changed := updates.filterMap fun u => s.store.params u.1
    some (s.setPc c (if changed.isEmpty then .returned (.set .ok)
      else .publishing (.set .ok) ⟨[], changed.map Parameter.toEvent⟩))
  | .publishing outcome event =>
    some ({ s with events := s.events ++ [event] }.setPc c (.returned outcome))
  | .returned _ => none

inductive Move where
  | call (c : Nat) (op : Op)
  | go (c : Nat)
  /-- Publishing fails, which is ignored, or the clock or the name of the node raises before. -/
  | publishFails (c : Nat) (raised : Option String)
  /-- The callback whose turn it is returns or raises. -/
  | verdict (c : Nat) (result : Except String SetResult)
  | addOnSetCallback

def step (s : Sys) : Move → Option Sys
  | .call c op => match s.pc c with
    | .idle => some (s.setPc c (begin s.store op))
    | _ => none
  | .go c => go s c
  | .publishFails c raised => match s.pc c with
    | .publishing outcome _ => some (s.setPc c (.returned (match raised with
      | none => outcome
      | some e => .unannounced e)))
    | _ => none
  | .verdict c result => match s.pc c with
    | .consulting announce updates proposed (_ :: left) =>
      some (s.setPc c (match result with
        | .error e => .returned (.raised e)
        | .ok r => if r.successful then .consulting announce updates proposed left
          else .returned (.set r)))
    | _ => none
  | .addOnSetCallback => some { s with store := { s.store with onSet := s.store.onSet + 1 } }

/-! ## What one step does -/

@[simp] theorem setPc_store (s : Sys) (c : Nat) (pc : Pc) : (s.setPc c pc).store = s.store := rfl

@[simp] theorem setPc_events (s : Sys) (c : Nat) (pc : Pc) : (s.setPc c pc).events = s.events := rfl

/-- What a call goes on to when it has written. -/
def written (s : Store) (announce : Bool) (updates : List (String × ParameterValue)) :
    List Parameter → Pc
  | [] => if announce then .reading updates else .returned (.set .ok)
  | p :: todo => if s.has p.name then .storing announce updates p todo
    else .pushing announce updates p todo

/-- The steps of the calls, one constructor a branch. -/
inductive Step (s : Sys) : Move → Sys → Prop where
  | call {c op} : s.pc c = .idle → Step s (.call c op) (s.setPc c (begin s.store op))
  | inserting {c announce p} : s.pc c = .inserting announce p →
    Step s (.go c) ({ s with store := s.store.insert p }.setPc c (.listing announce p))
  | listing {c announce p} : s.pc c = .listing announce p →
    Step s (.go c) ({ s with store := s.store.push p.name }.setPc c
      (if announce then .publishing (.declared p.value) ⟨[Parameter.toEvent p], []⟩
        else .returned (.declared p.value)))
  | erasing {c name} : s.pc c = .erasing name →
    Step s (.go c) ({ s with store := s.store.erase name }.setPc c (.forgetting name))
  | forgetting {c name} : s.pc c = .forgetting name →
    Step s (.go c) ({ s with store := s.store.forget name }.setPc c (.returned .undeclared))
  | checked {c announce updates proposed} : s.pc c = .checked announce updates proposed →
    Step s (.go c) (s.setPc c (.consulting announce updates proposed (List.range s.store.onSet)))
  | accepted {c announce updates proposed} : s.pc c = .consulting announce updates proposed [] →
    Step s (.go c) (s.setPc c (.writing announce updates proposed))
  | writing {c announce updates todo} : s.pc c = .writing announce updates todo →
    Step s (.go c) (s.setPc c (written s.store announce updates todo))
  | pushing {c announce updates p todo} : s.pc c = .pushing announce updates p todo →
    Step s (.go c) ({ s with store := s.store.push p.name }.setPc c
      (.storing announce updates p todo))
  | storing {c announce updates p todo} : s.pc c = .storing announce updates p todo →
    Step s (.go c) ({ s with store := s.store.insert p }.setPc c (.writing announce updates todo))
  | silent {c updates} : s.pc c = .reading updates →
    (updates.filterMap fun u => s.store.params u.1) = [] →
    Step s (.go c) (s.setPc c (.returned (.set .ok)))
  | reading {c updates} : s.pc c = .reading updates →
    Step s (.go c) (s.setPc c (.publishing (.set .ok)
      ⟨[], (updates.filterMap fun u => s.store.params u.1).map Parameter.toEvent⟩))
  | publishing {c outcome event} : s.pc c = .publishing outcome event →
    Step s (.go c) ({ s with events := s.events ++ [event] }.setPc c (.returned outcome))
  | unheard {c outcome event} : s.pc c = .publishing outcome event →
    Step s (.publishFails c none) (s.setPc c (.returned outcome))
  | unannounced {c outcome event e} : s.pc c = .publishing outcome event →
    Step s (.publishFails c (some e)) (s.setPc c (.returned (.unannounced e)))
  | agreed {c announce updates proposed cb left r} :
    s.pc c = .consulting announce updates proposed (cb :: left) → r.successful = true →
    Step s (.verdict c (.ok r)) (s.setPc c (.consulting announce updates proposed left))
  | refused {c announce updates proposed cb left r} :
    s.pc c = .consulting announce updates proposed (cb :: left) → r.successful = false →
    Step s (.verdict c (.ok r)) (s.setPc c (.returned (.set r)))
  | raised {c announce updates proposed cb left e} :
    s.pc c = .consulting announce updates proposed (cb :: left) →
    Step s (.verdict c (.error e)) (s.setPc c (.returned (.raised e)))
  | addOnSetCallback : Step s .addOnSetCallback
      { s with store := { s.store with onSet := s.store.onSet + 1 } }

theorem go_cases {s t : Sys} {c : Nat} (h : go s c = some t) : Step s (.go c) t := by
  unfold go at h
  cases hpc : s.pc c with
  | idle => simp [hpc] at h
  | returned o => simp [hpc] at h
  | inserting announce p =>
    rw [hpc] at h
    exact Option.some.inj h ▸ .inserting hpc
  | listing announce p =>
    rw [hpc] at h
    exact Option.some.inj h ▸ .listing hpc
  | erasing name =>
    rw [hpc] at h
    exact Option.some.inj h ▸ .erasing hpc
  | forgetting name =>
    rw [hpc] at h
    exact Option.some.inj h ▸ .forgetting hpc
  | checked announce updates proposed =>
    rw [hpc] at h
    exact Option.some.inj h ▸ .checked hpc
  | consulting announce updates proposed left =>
    rw [hpc] at h
    cases left with
    | nil => exact Option.some.inj h ▸ .accepted hpc
    | cons cb left => cases h
  | writing announce updates todo =>
    rw [hpc] at h
    cases todo <;> exact Option.some.inj h ▸ .writing hpc
  | pushing announce updates p todo =>
    rw [hpc] at h
    exact Option.some.inj h ▸ .pushing hpc
  | storing announce updates p todo =>
    rw [hpc] at h
    exact Option.some.inj h ▸ .storing hpc
  | reading updates =>
    simp only [hpc] at h
    obtain rfl := Option.some.inj h
    split
    · next hempty => exact .silent hpc (by simpa using hempty)
    · exact .reading hpc
  | publishing outcome event =>
    rw [hpc] at h
    exact Option.some.inj h ▸ .publishing hpc

/-- Every step is one of the branches. -/
theorem step_cases {s t : Sys} {m : Move} (h : step s m = some t) : Step s m t := by
  cases m with
  | call c op =>
    simp only [step] at h
    split at h
    · next hpc => exact Option.some.inj h ▸ .call hpc
    · cases h
  | go c => exact go_cases h
  | publishFails c raised =>
    simp only [step] at h
    split at h
    · next hpc =>
      obtain rfl := Option.some.inj h
      cases raised with
      | none => exact .unheard hpc
      | some e => exact .unannounced hpc
    · cases h
  | verdict c result =>
    simp only [step] at h
    split at h
    · next hpc =>
      obtain rfl := Option.some.inj h
      cases result with
      | error e => exact .raised hpc
      | ok r =>
        cases hr : r.successful with
        | true => simpa [hr] using Step.agreed hpc hr
        | false => simpa [hr] using Step.refused hpc hr
    · cases h
  | addOnSetCallback => exact Option.some.inj h ▸ .addOnSetCallback

/-! ## What the checks let through -/

theorem declaration_ok {s : Store} {name : String} {defaultValue : ParameterValue}
    {descriptor : ParameterDescriptor} {p : Parameter}
    (h : s.declaration name defaultValue descriptor = .ok p) :
    s.params name = none ∧ p.name = name ∧ p.value = (s.overrides name).getD defaultValue ∧
      p.descriptor.Admits p.value := by
  unfold Store.declaration at h
  cases hhas : s.params name with
  | some q => simp [Store.has, hhas, throw, throwThe, MonadExceptOf.throw] at h
  | none =>
    simp only [Store.has, hhas, Option.isSome_none, Bool.false_eq_true, if_false] at h
    split at h
    · cases h
    · next hcheck =>
      obtain rfl := pure_eq_ok.mp h
      exact ⟨rfl, rfl, rfl, (check_ok_iff _ _).mp hcheck⟩

theorem removal_ok {s : Store} {name : String} (h : s.removal name = .ok ()) :
    ∃ p, s.params name = some p ∧ p.descriptor.readOnly = false := by
  unfold Store.removal at h
  cases hp : s.params name with
  | none => simp [hp] at h
  | some p =>
    cases hr : p.descriptor.readOnly with
    | true => simp [hp, hr] at h
    | false => exact ⟨p, rfl, hr⟩

/-- A record to be written is new, or one that is not read-only with an admitted value in it. -/
theorem proposeOne_ok {s : Store} {u : String × ParameterValue} {p : Parameter}
    (h : s.proposeOne u = .ok p) :
    (s.params u.1 = none ∧ s.allowUndeclared = true ∧ p = { name := u.1, value := u.2 }) ∨
    ∃ q, s.params u.1 = some q ∧ q.descriptor.readOnly = false ∧ q.descriptor.Admits u.2 ∧
      p = { q with value := u.2 } := by
  unfold Store.proposeOne at h
  cases hq : s.params u.1 with
  | none =>
    cases hallow : s.allowUndeclared with
    | false => simp [hq, hallow] at h
    | true =>
      left
      simpa [hq, hallow, eq_comm] using h
  | some q =>
    right
    cases hr : q.descriptor.readOnly with
    | true => simp [hq, hr] at h
    | false =>
      simp only [hq, hr, Bool.false_eq_true, if_false] at h
      split at h
      · cases h
      · next hcheck =>
        exact ⟨q, rfl, hr, (check_ok_iff _ _).mp hcheck, (Except.ok.inj h).symm⟩

theorem propose_ok {s : Store} {updates : List (String × ParameterValue)} {ps : List Parameter}
    (h : s.propose updates = .ok ps) :
    List.Forall₂ (fun u p => s.proposeOne u = .ok p) updates ps :=
  mapM_eq_ok.mp h

/-- Each record to be written came of one of the updates. -/
theorem exists_of_forall₂ {α β : Type} {R : α → β → Prop} {xs : List α} {ys : List β}
    (h : List.Forall₂ R xs ys) {y : β} (hy : y ∈ ys) : ∃ x ∈ xs, R x y := by
  induction h with
  | nil => cases hy
  | cons hr _ ih =>
    rcases List.mem_cons.mp hy with rfl | hy
    · exact ⟨_, List.mem_cons_self, hr⟩
    · obtain ⟨x, hx, hxy⟩ := ih hy
      exact ⟨x, List.mem_cons_of_mem _ hx, hxy⟩

/-! ## What the table holds -/

/-- The records a call has still to write. -/
def carries : Pc → List Parameter
  | .inserting _ p => [p]
  | .checked _ _ proposed => proposed
  | .consulting _ _ proposed _ => proposed
  | .writing _ _ todo => todo
  | .pushing _ _ p todo => p :: todo
  | .storing _ _ p todo => p :: todo
  | _ => []

/-- Each record stands under its own name and holds a value its descriptor admits. -/
def Sound (s : Store) : Prop :=
  ∀ name p, s.params name = some p → p.name = name ∧ p.descriptor.Admits p.value

theorem proposeOne_admits {s : Store} (hs : Sound s) {u : String × ParameterValue} {p : Parameter}
    (h : s.proposeOne u = .ok p) : p.name = u.1 ∧ p.descriptor.Admits p.value := by
  rcases proposeOne_ok h with ⟨-, -, rfl⟩ | ⟨q, hq, -, hadmits, rfl⟩
  · exact ⟨rfl, admits_default _⟩
  · exact ⟨(hs _ q hq).1, hadmits⟩

/-- The parameter is one that the call is about. -/
def Op.Names (name : String) : Op → Prop
  | .declare _ declared _ _ => declared = name
  | .undeclare gone => gone = name
  | .set _ updates => ∃ u ∈ updates, u.1 = name

/-- A record that a call sets out to write is admitted, one that the call is about, and replaces
no read-only one. -/
theorem begin_carries {s : Store} (hs : Sound s) {op : Op} {p : Parameter}
    (hp : p ∈ carries (begin s op)) : p.descriptor.Admits p.value ∧ op.Names p.name ∧
      ∀ q, s.params p.name = some q → q.descriptor.readOnly = false := by
  cases op with
  | declare announce name defaultValue descriptor =>
    simp only [begin] at hp
    split at hp
    · cases hp
    · next hok =>
      obtain rfl := List.mem_singleton.mp hp
      obtain ⟨hfree, hname, -, hadmits⟩ := declaration_ok hok
      exact ⟨hadmits, hname.symm, fun q hq => by rw [hname, hfree] at hq; cases hq⟩
  | undeclare name =>
    simp only [begin] at hp
    split at hp <;> cases hp
  | set announce updates =>
    simp only [begin] at hp
    split at hp
    · cases hp
    · next hok =>
      obtain ⟨u, hmem, hu⟩ := exists_of_forall₂ (propose_ok hok) hp
      obtain ⟨hname, hadmits⟩ := proposeOne_admits hs hu
      refine ⟨hadmits, ⟨u, hmem, hname.symm⟩, fun q hq => ?_⟩
      rw [hname] at hq
      rcases proposeOne_ok hu with ⟨hfree, -⟩ | ⟨q', hq', hwritable, -⟩
      · rw [hfree] at hq
        cases hq
      · rw [hq'] at hq
        cases hq
        exact hwritable

theorem begin_erases {s : Store} {op : Op} {name : String} (h : begin s op = .erasing name) :
    op.Names name ∧ ∃ p, s.params name = some p ∧ p.descriptor.readOnly = false := by
  cases op with
  | declare announce declared defaultValue descriptor =>
    simp only [begin] at h
    split at h <;> cases h
  | undeclare gone =>
    simp only [begin] at h
    split at h
    · cases h
    · next hok =>
      cases h
      exact ⟨rfl, removal_ok hok⟩
  | set announce updates =>
    simp only [begin] at h
    split at h <;> cases h

/-- A call stays where it is, begins, or goes on with nothing more to write than before. -/
theorem Step.pc_cases {s t : Sys} {m : Move} (h : Step s m t) (d : Nat) :
    t.pc d = s.pc d ∨ (∃ op, m = .call d op ∧ t.pc d = begin s.store op) ∨
      (carries (t.pc d) ⊆ carries (s.pc d) ∧ ∀ name, t.pc d ≠ .erasing name) := by
  have hmoved : t.pc = s.pc ∨ ∃ c pc, t.pc = update s.pc c pc ∧
      ((∃ op, m = .call c op ∧ pc = begin s.store op) ∨
        (carries pc ⊆ carries (s.pc c) ∧ ∀ name, pc ≠ .erasing name)) := by
    cases h with
    | addOnSetCallback => exact .inl rfl
    | call hpc => exact .inr ⟨_, _, rfl, .inl ⟨_, rfl, rfl⟩⟩
    | @listing c announce p hpc =>
      cases announce <;> exact .inr ⟨c, _, rfl, .inr (by simp [carries])⟩
    | @writing c announce updates todo hpc =>
      refine .inr ⟨c, _, rfl, .inr ?_⟩
      cases todo with
      | nil => cases announce <;> simp [carries, written]
      | cons p todo =>
        cases hhas : s.store.has p.name <;> simp [carries, written, hpc, hhas]
    | inserting hpc | erasing hpc | forgetting hpc | checked hpc | accepted hpc | pushing hpc
    | storing hpc | silent hpc | reading hpc | publishing hpc | unheard hpc | unannounced hpc
    | agreed hpc | refused hpc | raised hpc =>
      exact .inr ⟨_, _, rfl, .inr (by simp [carries, hpc])⟩
  rcases hmoved with hsame | ⟨c, pc, hpc, hnext⟩
  · exact .inl (congrFun hsame d)
  · rw [hpc]
    by_cases hd : d = c
    · subst hd
      simpa using .inr hnext
    · exact .inl (update_of_ne hd _ _)

/-- A step leaves the table, writes a record its call carried, or erases. -/
theorem Step.params_cases {s t : Sys} {m : Move} (h : Step s m t) :
    t.store.params = s.store.params ∨
      (∃ c p, p ∈ carries (s.pc c) ∧ t.store.params = update s.store.params p.name (some p)) ∨
      ∃ c name, s.pc c = .erasing name ∧ t.store.params = update s.store.params name none := by
  cases h with
  | @inserting c announce p hpc => exact .inr (.inl ⟨c, p, by simp [hpc, carries], rfl⟩)
  | @storing c announce updates p todo hpc => exact .inr (.inl ⟨c, p, by simp [hpc, carries], rfl⟩)
  | erasing hpc => exact .inr (.inr ⟨_, _, hpc, rfl⟩)
  | _ => exact .inl rfl

/-- The table is sound, and so is every record still to be written. -/
structure Inv (s : Sys) : Prop where
  sound : Sound s.store
  carried : ∀ c, ∀ p ∈ carries (s.pc c), p.descriptor.Admits p.value

theorem step_inv {s t : Sys} {m : Move} (hs : Inv s) (h : step s m = some t) : Inv t := by
  have hstep := step_cases h
  constructor
  · intro name p hp
    rcases hstep.params_cases with hsame | ⟨c, q, hq, hput⟩ | ⟨c, gone, -, hput⟩
    · exact hs.sound name p (hsame ▸ hp)
    · rw [hput] at hp
      by_cases hname : name = q.name
      · subst hname
        obtain rfl : q = p := by simpa using hp
        exact ⟨rfl, hs.carried c q hq⟩
      · exact hs.sound name p (by simpa [hname] using hp)
    · rw [hput] at hp
      by_cases hname : name = gone
      · simp [hname] at hp
      · exact hs.sound name p (by simpa [hname] using hp)
  · intro c p hp
    rcases hstep.pc_cases c with hsame | ⟨op, -, hbegin⟩ | ⟨hless, -⟩
    · exact hs.carried c p (hsame ▸ hp)
    · exact (begin_carries hs.sound (hbegin ▸ hp)).1
    · exact hs.carried c p (hless hp)

theorem start_inv {store : Store} (h : Sound store) : Inv (start store) :=
  ⟨h, fun c p hp => by simp [start, carries] at hp⟩

theorem create_sound {p : RclParams} {nodeFqn : String} {allowUndeclared : Bool} {store : Store}
    (h : Store.create p nodeFqn allowUndeclared = .ok store) : Sound store := by
  obtain ⟨overrides, -, h⟩ := bind_eq_ok.mp h
  rw [pure_eq_ok.mp h]
  rintro name q ⟨⟩

/-- Whatever calls are made on a node's parameters, nested in one another's callbacks or from any
threads, each parameter stands under its own name and its value passes its own check. -/
theorem values_pass_check {p : RclParams} {nodeFqn : String} {allowUndeclared : Bool}
    {store : Store} {ms : List Move} {t : Sys}
    (hcreate : Store.create p nodeFqn allowUndeclared = .ok store)
    (h : run step (start store) ms = some t) {name : String} {q : Parameter}
    (hq : t.store.params name = some q) : q.name = name ∧ q.descriptor.check q.value = .ok () := by
  have hinv := run_invariant (fun _ _ _ hs h => step_inv hs h) (start_inv (create_sound hcreate)) h
  obtain ⟨hname, hadmits⟩ := hinv.sound name q hq
  exact ⟨hname, (check_ok_iff _ _).mpr hadmits⟩

/-- A store without overrides that lets undeclared parameters be set. -/
def openStore : Store :=
  ⟨fun _ => none, [], fun name => (∅ : Std.HashMap String ParameterValue)[name]?, 0, true⟩

theorem create_openStore : Store.create none "/n" true = .ok openStore := rfl

/-- Two batches for the same new parameter, one checked before the other wrote. -/
theorem values_pass_check_twice : ∃ t p q, run step (start openStore) [
      .call 0 (.set true [("rate", .integer 3)]), .call 1 (.set false [("rate", .bool true)]),
      .go 0, .go 1, .go 0, .go 1, .go 0, .go 0, .go 0, .go 1, .go 1] = some t ∧
    t.store.params p = some q ∧ q.name = p ∧ q.descriptor.check q.value = .ok () := by
  obtain ⟨t, ht, hq⟩ : ∃ t, run step (start openStore) [
      .call 0 (.set true [("rate", .integer 3)]), .call 1 (.set false [("rate", .bool true)]),
      .go 0, .go 1, .go 0, .go 1, .go 0, .go 0, .go 0, .go 1, .go 1] = some t ∧
    t.store.params "rate" = some { name := "rate", value := .bool true } := ⟨_, rfl, rfl⟩
  exact ⟨t, _, _, ht, hq, values_pass_check create_openStore ht hq⟩

/-! ## Parameters that no call touches -/

/-- The call may still write or remove the parameter. -/
def Touches (name : String) (pc : Pc) : Prop :=
  (∃ p ∈ carries pc, p.name = name) ∨ pc = .erasing name

/-- What the table holds under the name, which no call under way may touch. -/
structure Fixed (name : String) (held : Option Parameter) (s : Sys) : Prop where
  inv : Inv s
  stands : s.store.params name = held
  untouched : ∀ c, ¬Touches name (s.pc c)

theorem step_fixed {name : String} {held : Option Parameter} {s t : Sys} {m : Move}
    (hs : Fixed name held s)
    (hcall : ∀ c op, m = .call c op → ¬Touches name (begin s.store op))
    (h : step s m = some t) : Fixed name held t := by
  have hstep := step_cases h
  refine ⟨step_inv hs.inv h, ?_, fun c => ?_⟩
  · rcases hstep.params_cases with hsame | ⟨c, q, hq, hput⟩ | ⟨c, gone, hpc, hput⟩
    · rw [hsame, hs.stands]
    · have hne : name ≠ q.name := fun hname => hs.untouched c (.inl ⟨q, hq, hname.symm⟩)
      rw [hput, update_of_ne hne, hs.stands]
    · have hne : name ≠ gone := fun hname => hs.untouched c (.inr (hname ▸ hpc))
      rw [hput, update_of_ne hne, hs.stands]
  · rcases hstep.pc_cases c with hsame | ⟨op, hm, hbegin⟩ | ⟨hless, hnot⟩
    · rw [hsame]
      exact hs.untouched c
    · rw [hbegin]
      exact hcall c op hm
    · rintro (⟨q, hq, hname⟩ | herase)
      · exact hs.untouched c (.inl ⟨q, hless hq, hname⟩)
      · exact hnot name herase

/-- A call that is not about the parameter does not touch it. -/
theorem begin_unnamed {s : Store} (hs : Sound s) {name : String} {op : Op} (h : ¬op.Names name) :
    ¬Touches name (begin s op) := by
  rintro (⟨q, hq, rfl⟩ | herase)
  · exact h (begin_carries hs hq).2.1
  · exact h (begin_erases herase).1

/-- A run none of whose calls is about the parameter. -/
theorem throughout_unnamed {name : String} {ms : List Move}
    (h : ∀ c op, Move.call c op ∈ ms → ¬op.Names name) (s : Sys) :
    Throughout step (fun _ m => ∀ c op, m = .call c op → ¬op.Names name) s ms := by
  have hcalls : ∀ m ∈ ms, ∀ c op, m = .call c op → ¬op.Names name :=
    fun m hm c op heq => h c op (heq ▸ hm)
  exact ((throughout_true step s ms).and_of_forall hcalls).imp fun _ _ hok => hok.2

/-- What is stored under a name, or that nothing is, is none of the business of calls that are not
about it, however they are nested and interleaved. -/
theorem unnamed_stays {p : RclParams} {nodeFqn : String} {allowUndeclared : Bool} {store : Store}
    {before after : List Move} {s t : Sys}
    (hcreate : Store.create p nodeFqn allowUndeclared = .ok store)
    (hbefore : run step (start store) before = some s) {name : String}
    (huntouched : ∀ c, ¬Touches name (s.pc c))
    (hunnamed : ∀ c op, Move.call c op ∈ after → ¬op.Names name)
    (hafter : run step s after = some t) : t.store.params name = s.store.params name := by
  have hinv := run_invariant (fun _ _ _ hs h => step_inv hs h) (start_inv (create_sound hcreate))
    hbefore
  have hfixed : Fixed name (s.store.params name) s := ⟨hinv, rfl, huntouched⟩
  exact (run_invariant_of_throughout (fun _ _ _ hs hok h => step_fixed hs
    (fun c op hm => begin_unnamed hs.inv.sound (hok c op hm)) h) hfixed
    (throughout_unnamed hunnamed s) hafter).stands

def setRate : List Move := .call 0 (.set false [("rate", .integer 3)]) :: List.replicate 6 (.go 0)

/-- Another parameter is set and a third undeclared, which is not there. -/
def besideRate : List Move :=
  [.call 1 (.set false [("speed", .integer 4)]), .call 2 (.undeclare "arm")] ++
    List.replicate 6 (.go 1)

theorem unnamed_stays_beside : ∃ s t, run step (start openStore) setRate = some s ∧
    run step s besideRate = some t ∧ s.store.has "rate" = true ∧ t.store.has "speed" = true ∧
    t.store.params "rate" = s.store.params "rate" := by
  obtain ⟨s, hs, hhas, hzero, hrest, t, ht, hspeed⟩ : ∃ s,
      run step (start openStore) setRate = some s ∧ s.store.has "rate" = true ∧
      s.pc 0 = .returned (.set .ok) ∧ (∀ c, s.pc (c + 1) = .idle) ∧
      ∃ t, run step s besideRate = some t ∧ t.store.has "speed" = true :=
    ⟨_, rfl, rfl, rfl, fun _ => rfl, _, rfl, rfl⟩
  have huntouched : ∀ c, ¬Touches "rate" (s.pc c) := by
    intro c
    cases c <;> simp [hzero, hrest, Touches, carries]
  have hunnamed : ∀ c op, Move.call c op ∈ besideRate → ¬op.Names "rate" := by
    intro c op hm
    simp only [besideRate, List.mem_append, List.mem_cons, Move.call.injEq, List.mem_replicate,
      reduceCtorEq, List.not_mem_nil, and_false, or_false] at hm
    rcases hm with ⟨-, rfl⟩ | ⟨-, rfl⟩ <;> simp [Op.Names]
  exact ⟨s, t, hs, ht, hhas, hspeed, unnamed_stays create_openStore hs huntouched hunnamed ht⟩

/-! ## Read-only parameters -/

theorem begin_untouched {s : Store} (hs : Sound s) {name : String} {p : Parameter}
    (hp : s.params name = some p) (hr : p.descriptor.readOnly = true) (op : Op) :
    ¬Touches name (begin s op) := by
  rintro (⟨q, hq, rfl⟩ | herase)
  · simp [(begin_carries hs hq).2.2 p hp] at hr
  · obtain ⟨-, q, hq, hwritable⟩ := begin_erases herase
    obtain rfl : p = q := Option.some.inj (hp.symm.trans hq)
    simp [hwritable] at hr

/-- Once a read-only parameter is declared and no call that began before may still touch it, no
calls whatsoever change or remove it. -/
theorem read_only_stays {p : RclParams} {nodeFqn : String} {allowUndeclared : Bool}
    {store : Store} {before after : List Move} {s t : Sys}
    (hcreate : Store.create p nodeFqn allowUndeclared = .ok store)
    (hbefore : run step (start store) before = some s) {name : String} {q : Parameter}
    (hq : s.store.params name = some q) (hr : q.descriptor.readOnly = true)
    (huntouched : ∀ c, ¬Touches name (s.pc c)) (hafter : run step s after = some t) :
    t.store.params name = some q := by
  have hinv := run_invariant (fun _ _ _ hs h => step_inv hs h) (start_inv (create_sound hcreate))
    hbefore
  have hfixed : Fixed name (some q) s := ⟨hinv, hq, huntouched⟩
  exact (run_invariant (fun _ _ _ hs h => step_fixed hs
    (fun _ op _ => begin_untouched hs.inv.sound hs.stands hr op) h) hfixed hafter).stands

/-- A parameter declared read-only is neither set nor undeclared. -/
theorem read_only_stays_set : ∃ s t q, run step (start openStore)
      [.call 0 (.declare true "rate" (.integer 3) { readOnly := true, dynamicTyping := true }),
        .go 0, .go 0, .go 0] =
        some s ∧
    run step s [.call 1 (.set false [("rate", .integer 4)]), .call 2 (.undeclare "rate")] = some t ∧
    t.store.params "rate" = some q := by
  obtain ⟨s, q, hs, hq, hr, hpc, t, ht⟩ : ∃ s q, run step (start openStore)
      [.call 0 (.declare true "rate" (.integer 3) { readOnly := true, dynamicTyping := true }),
        .go 0, .go 0, .go 0] =
        some s ∧ s.store.params "rate" = some q ∧ q.descriptor.readOnly = true ∧
    (s.pc 0 = .returned (.declared q.value) ∧ ∀ c, s.pc (c + 1) = .idle) ∧
    ∃ t, run step s [.call 1 (.set false [("rate", .integer 4)]), .call 2 (.undeclare "rate")] =
      some t := ⟨_, _, rfl, rfl, rfl, ⟨rfl, fun _ => rfl⟩, _, rfl⟩
  refine ⟨s, t, q, hs, ht, read_only_stays create_openStore hs hq hr (fun c => ?_) ht⟩
  cases c <;> simp [hpc, Touches, carries]

end ParameterStore
