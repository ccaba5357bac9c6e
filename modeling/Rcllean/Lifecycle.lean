import Mathlib.Data.List.Basic
import Mathlib.Logic.Function.Basic
import Rcllean.Runs

/-!
# Managed nodes

An attempt reads the state, runs the handler of the transition and, when that
succeeds, sets the state it has computed and announces the move, which may
fail. Attempts come over a service, from other threads and from inside
handlers. Where the state is still the one an attempt read when it sets the
next, and each move is announced before another is made, a listener that knows
the state machine follows the node by its announcements. However attempts
cross, each answers for what it has done.
-/
namespace Lifecycle

open Function Runs

inductive PrimaryState where
  | unconfigured | inactive | active | finalized
  deriving DecidableEq, Repr

namespace PrimaryState

def toUInt8 : PrimaryState → UInt8
  | .unconfigured => 1 | .inactive => 2 | .active => 3 | .finalized => 4

def ofUInt8? : UInt8 → Option PrimaryState
  | 1 => some .unconfigured | 2 => some .inactive | 3 => some .active
  | 4 => some .finalized | _ => none

@[simp] theorem ofUInt8?_toUInt8 (s : PrimaryState) : ofUInt8? s.toUInt8 = some s := by
  cases s <;> rfl

def label : PrimaryState → String
  | .unconfigured => "unconfigured" | .inactive => "inactive"
  | .active => "active" | .finalized => "finalized"

def all : List PrimaryState := [.unconfigured, .inactive, .active, .finalized]

end PrimaryState

inductive TransitionId where
  | configure | cleanup | activate | deactivate | shutdown
  deriving DecidableEq, Repr

namespace TransitionId

def label : TransitionId → String
  | .configure => "configure" | .cleanup => "cleanup"
  | .activate => "activate" | .deactivate => "deactivate"
  | .shutdown => "shutdown"

/-- The code of a shutdown depends on the state it starts from. -/
def toUInt8 (t : TransitionId) (source : PrimaryState) : UInt8 :=
  match t with
  | .configure => 1
  | .cleanup => 2
  | .activate => 3
  | .deactivate => 4
  | .shutdown =>
    match source with
    | .unconfigured => 5
    | .inactive => 6
    | .active => 7
    | .finalized => 8

def ofUInt8? : UInt8 → Option TransitionId
  | 1 => some .configure | 2 => some .cleanup | 3 => some .activate
  | 4 => some .deactivate | 5 => some .shutdown | 6 => some .shutdown
  | 7 => some .shutdown | _ => none

end TransitionId

/-- Where a requested move lands, if it is legal. -/
def next (s : PrimaryState) (t : TransitionId) : Option PrimaryState :=
  match s, t with
  | .unconfigured, .configure => some .inactive
  | .inactive, .cleanup => some .unconfigured
  | .inactive, .activate => some .active
  | .active, .deactivate => some .inactive
  | .unconfigured, .shutdown => some .finalized
  | .inactive, .shutdown => some .finalized
  | .active, .shutdown => some .finalized
  | _, _ => none

def available : PrimaryState → List TransitionId
  | .unconfigured => [.configure, .shutdown]
  | .inactive => [.cleanup, .activate, .shutdown]
  | .active => [.deactivate, .shutdown]
  | .finalized => []

theorem next_finalized (t : TransitionId) : next .finalized t = none := by cases t <;> rfl

theorem mem_available_iff (s : PrimaryState) (t : TransitionId) :
    t ∈ available s ↔ (next s t).isSome = true := by
  cases s <;> cases t <;> decide

/-- A legal move is read back from its code. -/
theorem ofUInt8?_toUInt8 {s u : PrimaryState} {t : TransitionId} (h : next s t = some u) :
    TransitionId.ofUInt8? (t.toUInt8 s) = some t := by
  cases s <;> cases t <;> simp [next] at h <;> rfl

/-! ## Messages -/

structure StateMsg where
  id : UInt8
  label : String
  deriving DecidableEq, Repr

structure TransitionMsg where
  id : UInt8
  label : String
  deriving DecidableEq, Repr

/-- `lifecycle_msgs/msg/TransitionEvent` and `TransitionDescription`. -/
structure TransitionEvent where
  transition : TransitionMsg
  start_state : StateMsg
  goal_state : StateMsg
  deriving DecidableEq, Repr

def stateMsg (s : PrimaryState) : StateMsg := { id := s.toUInt8, label := s.label }

def transitionMsg (t : TransitionId) (source : PrimaryState) : TransitionMsg :=
  { id := t.toUInt8 source, label := t.label }

def eventMsg (t : TransitionId) (current target : PrimaryState) : TransitionEvent :=
  { transition := transitionMsg t current
    start_state := stateMsg current
    goal_state := stateMsg target }

/-- What `get_available_transitions` answers. -/
def getAvailableTransitions (current : PrimaryState) : List TransitionEvent :=
  (available current).filterMap fun t => (next current t).map (eventMsg t current)

/-- What `get_transition_graph` answers. -/
def getTransitionGraph : List TransitionEvent := PrimaryState.all.flatMap getAvailableTransitions

/-! ## Attempts -/

inductive TransitionResult where
  | success
  | failure
  deriving DecidableEq, Repr

/-- What an attempt does next. -/
inductive Pc where
  | idle
  /-- The handler of the transition runs. -/
  | handling (t : TransitionId) (current target : PrimaryState)
  | setting (t : TransitionId) (current target : PrimaryState)
  | publishing (t : TransitionId) (current target : PrimaryState)
  | returned (result : Except String Bool)

structure Sys extends Threads Nat Pc where
  state : PrimaryState
  /-- What the publisher has taken. -/
  events : List TransitionEvent

def start : Sys := ⟨⟨fun _ => .idle⟩, .unconfigured, []⟩

abbrev Sys.setPc (s : Sys) (c : Nat) (pc : Pc) : Sys :=
  { s with toThreads := s.toThreads.setPc c pc }

/-- Where an attempt goes on from its read; a request may stand for no transition at all. -/
def begin (current : PrimaryState) (asked : Option TransitionId) : Pc :=
  match asked with
  | none => .returned (.ok false)
  | some t => match next current t with
    | none => .returned (.ok false)
    | some target => .handling t current target

/-- Where an attempt goes on from its handler. -/
def decided (t : TransitionId) (current target : PrimaryState) : Except String TransitionResult → Pc
  | .error e => .returned (.error e)
  | .ok .failure => .returned (.ok false)
  | .ok .success => .setting t current target

inductive Move where
  | attempt (c : Nat) (t : TransitionId)
  /-- A request of `change_state`. -/
  | changeState (c : Nat) (id : UInt8)
  /-- The handler returns or raises. -/
  | handler (c : Nat) (result : Except String TransitionResult)
  | go (c : Nat)
  /-- Publishing fails, which does not undo the move. -/
  | publishFails (c : Nat)

def step (s : Sys) : Move → Option Sys
  | .attempt c t => match s.pc c with
    | .idle => some (s.setPc c (begin s.state (some t)))
    | _ => none
  | .changeState c id => match s.pc c with
    | .idle => some (s.setPc c (begin s.state (TransitionId.ofUInt8? id)))
    | _ => none
  | .handler c result => match s.pc c with
    | .handling t current target => some (s.setPc c (decided t current target result))
    | _ => none
  | .go c => match s.pc c with
    | .setting t current target =>
      some ({ s with state := target }.setPc c (.publishing t current target))
    | .publishing t current target =>
      some ({ s with events := s.events ++ [eventMsg t current target] }.setPc c
        (.returned (.ok true)))
    | _ => none
  | .publishFails c => match s.pc c with
    | .publishing _ _ _ => some (s.setPc c (.returned (.ok true)))
    | _ => none

/-! ## What one step does -/

/-- The attempt that begins with the move, and what it asks for. -/
def Move.asks? : Move → Option (Nat × Option TransitionId)
  | .attempt c t => some (c, some t)
  | .changeState c id => some (c, TransitionId.ofUInt8? id)
  | _ => none

/-- The steps of the attempts, one constructor a branch. -/
inductive Step (s : Sys) : Move → Sys → Prop where
  | begin {m c asked} (hm : m.asks? = some (c, asked)) (hpc : s.pc c = .idle) :
      Step s m (s.setPc c (begin s.state asked))
  | handled {c t current target result} (hpc : s.pc c = .handling t current target) :
      Step s (.handler c result) (s.setPc c (decided t current target result))
  | set {c t current target} (hpc : s.pc c = .setting t current target) : Step s (.go c)
      ({ s with state := target }.setPc c (.publishing t current target))
  | publish {c t current target} (hpc : s.pc c = .publishing t current target) : Step s (.go c)
      ({ s with events := s.events ++ [eventMsg t current target] }.setPc c (.returned (.ok true)))
  | unheard {c t current target} (hpc : s.pc c = .publishing t current target) :
      Step s (.publishFails c) (s.setPc c (.returned (.ok true)))

theorem step_cases {s s' : Sys} {m : Move} (h : step s m = some s') : Step s m s' := by
  cases m with
  | attempt c t =>
    simp only [step] at h
    split at h
    · next hpc => exact Option.some.inj h ▸ .begin rfl hpc
    · cases h
  | changeState c id =>
    simp only [step] at h
    split at h
    · next hpc => exact Option.some.inj h ▸ .begin rfl hpc
    · cases h
  | handler c result =>
    simp only [step] at h
    split at h
    · next t current target hpc => exact Option.some.inj h ▸ .handled hpc
    · cases h
  | go c =>
    simp only [step] at h
    split at h
    · next t current target hpc => exact Option.some.inj h ▸ .set hpc
    · next t current target hpc => exact Option.some.inj h ▸ .publish hpc
    · cases h
  | publishFails c =>
    simp only [step] at h
    split at h
    · next t current target hpc => exact Option.some.inj h ▸ .unheard hpc
    · cases h

/-- The attempt that the move is of. -/
def Move.caller : Move → Nat
  | .attempt c _ | .changeState c _ | .handler c _ | .go c | .publishFails c => c

theorem caller_of_asks {m : Move} {c : Nat} {asked : Option TransitionId}
    (h : m.asks? = some (c, asked)) : m.caller = c := by
  cases m <;> simp [Move.asks?, Move.caller] at h ⊢ <;> exact h.1

/-- A step moves no attempt but its own. -/
theorem Step.pc_of_ne {s s' : Sys} {m : Move} (h : Step s m s') {d : Nat} (hd : d ≠ m.caller) :
    s'.pc d = s.pc d := by
  cases h with
  | begin hm hpc => exact setPc_pc_of_ne _ _ (caller_of_asks hm ▸ hd)
  | handled hpc | set hpc | publish hpc | unheard hpc => exact setPc_pc_of_ne _ _ hd

/-- The attempt has found its move legal. -/
def Pc.Legal : Pc → Prop
  | .handling t current target => next current t = some target
  | .setting t current target => next current t = some target
  | .publishing t current target => next current t = some target
  | _ => True

theorem begin_legal (current : PrimaryState) (asked : Option TransitionId) :
    (begin current asked).Legal := by
  unfold begin
  split
  · trivial
  · split
    · trivial
    · next h => exact h

/-- Whatever else is going on, an attempt keeps to the move it found legal. -/
theorem Step.legal {s s' : Sys} {m : Move} (h : Step s m s') (hs : ∀ c, (s.pc c).Legal) (d : Nat) :
    (s'.pc d).Legal := by
  by_cases hd : d = m.caller
  · have hlegal := hs d
    cases h with
    | begin hm hpc =>
      obtain rfl := hd.trans (caller_of_asks hm)
      rw [setPc_pc_self]
      exact begin_legal _ _
    | @handled c t current target result hpc =>
      obtain rfl : d = c := hd
      rw [hpc] at hlegal
      rw [setPc_pc_self]
      cases result with
      | error e => trivial
      | ok r => cases r with
        | success => exact hlegal
        | failure => trivial
    | set hpc =>
      obtain rfl := hd
      rw [hpc] at hlegal
      rw [setPc_pc_self]
      exact hlegal
    | publish hpc | unheard hpc =>
      obtain rfl := hd
      rw [setPc_pc_self]
      trivial
  · rw [h.pc_of_ne hd]
    exact hs d

/-! ## Following the announcements -/

/-- What a listener makes of an announcement: a move of the state machine. -/
def Announces (e : TransitionEvent) (current target : PrimaryState) : Prop :=
  ∃ t, TransitionId.ofUInt8? e.transition.id = some t ∧
    PrimaryState.ofUInt8? e.start_state.id = some current ∧
    PrimaryState.ofUInt8? e.goal_state.id = some target ∧ next current t = some target

/-- Read one after the other, the announcements lead from one state to the other. -/
def Path (s : PrimaryState) : List TransitionEvent → PrimaryState → Prop
  | [], u => u = s
  | e :: es, u => ∃ mid, Announces e s mid ∧ Path mid es u

theorem announces_eventMsg {t : TransitionId} {current target : PrimaryState}
    (h : next current t = some target) : Announces (eventMsg t current target) current target :=
  ⟨t, ofUInt8?_toUInt8 h, PrimaryState.ofUInt8?_toUInt8 current,
    PrimaryState.ofUInt8?_toUInt8 target, h⟩

theorem Path.snoc {s mid u : PrimaryState} {es : List TransitionEvent} {e : TransitionEvent}
    (hpath : Path s es mid) (he : Announces e mid u) : Path s (es ++ [e]) u := by
  induction es generalizing s with
  | nil =>
    obtain rfl : mid = s := hpath
    exact ⟨u, he, rfl⟩
  | cons first es ih =>
    obtain ⟨next, hfirst, hrest⟩ := hpath
    exact ⟨next, hfirst, ih hrest⟩

/-- Nothing is announced after the node is finalized. -/
theorem Path.finalized_last {s u : PrimaryState} {es rest : List TransitionEvent}
    {e : TransitionEvent} (hpath : Path s (es ++ e :: rest) u)
    (he : PrimaryState.ofUInt8? e.goal_state.id = some .finalized) :
    rest = [] ∧ u = .finalized := by
  induction es generalizing s with
  | nil =>
    obtain ⟨mid, ⟨t, -, -, hgoal, -⟩, hrest⟩ := hpath
    obtain rfl : PrimaryState.finalized = mid := Option.some.inj (he.symm.trans hgoal)
    cases rest with
    | nil => exact ⟨rfl, hrest⟩
    | cons e' rest =>
      obtain ⟨mid', ⟨t', -, -, -, hnext⟩, -⟩ := hrest
      rw [next_finalized] at hnext
      cases hnext
  | cons first es ih =>
    obtain ⟨mid, -, hrest⟩ := hpath
    exact ih hrest

def Pc.Publishing (pc : Pc) : Prop := ∃ t current target, pc = .publishing t current target

/-- An attempt sets the state only where it finds the one it read, and only when each move made
before has been announced; no announcement fails. -/
def Undisturbed (s : Sys) : Move → Prop
  | .go c => match s.pc c with
    | .setting _ current _ => s.state = current ∧ ∀ d, ¬(s.pc d).Publishing
    | _ => True
  | .publishFails _ => False
  | _ => True

theorem begin_not_publishing (current : PrimaryState) (asked : Option TransitionId) :
    ¬(begin current asked).Publishing := by
  rintro ⟨t, cur, target, h⟩
  unfold begin at h
  split at h
  · cases h
  · split at h <;> cases h

theorem decided_not_publishing (t : TransitionId) (current target : PrimaryState)
    (result : Except String TransitionResult) : ¬(decided t current target result).Publishing := by
  rintro ⟨t', cur, target', h⟩
  cases result with
  | error e => cases h
  | ok r => cases r <;> cases h

/-- The announcements lead to the state, up to the one move that is still to be announced. -/
structure Inv (s : Sys) : Prop where
  legal : ∀ c, (s.pc c).Legal
  quiet : (∀ c, ¬(s.pc c).Publishing) → Path .unconfigured s.events s.state
  pending : ∀ c t current target, s.pc c = .publishing t current target →
    Path .unconfigured s.events current ∧ s.state = target ∧
      ∀ d, (s.pc d).Publishing → d = c

theorem start_inv : Inv start where
  legal _ := trivial
  quiet _ := rfl
  pending c t current target h := by cases h

/-- An attempt that neither was to announce anything nor is now concerns no listener. -/
theorem Inv.aside {s : Sys} (hs : Inv s) {c : Nat} {pc : Pc} (hold : ¬(s.pc c).Publishing)
    (hnew : ¬pc.Publishing) (hlegal : ∀ d, ((s.setPc c pc).pc d).Legal) : Inv (s.setPc c pc) := by
  have hsame : ∀ d, ((s.setPc c pc).pc d).Publishing ↔ (s.pc d).Publishing := by
    intro d
    by_cases hd : d = c
    · rw [hd, setPc_pc_self]
      exact iff_of_false hnew hold
    · rw [setPc_pc_of_ne _ pc hd]
  refine ⟨hlegal, fun hquiet => hs.quiet fun d hd => hquiet d ((hsame d).mpr hd), ?_⟩
  intro d t current target hd
  have hdc : d ≠ c := by
    rintro rfl
    exact hold ((hsame d).mp ⟨t, current, target, hd⟩)
  rw [setPc_pc_of_ne _ pc hdc] at hd
  obtain ⟨hpath, hstate, hone⟩ := hs.pending d t current target hd
  exact ⟨hpath, hstate, fun e he => hone e ((hsame e).mp he)⟩

theorem step_inv {s s' : Sys} {m : Move} (hs : Inv s) (hok : Undisturbed s m)
    (h : step s m = some s') : Inv s' := by
  have hstep := step_cases h
  have hkept := hstep.legal hs.legal
  cases hstep with
  | begin hm hpc =>
    exact hs.aside (by simp [hpc, Pc.Publishing]) (begin_not_publishing _ _) hkept
  | handled hpc =>
    exact hs.aside (by simp [hpc, Pc.Publishing]) (decided_not_publishing _ _ _ _) hkept
  | @set c t current target hpc =>
    simp only [Undisturbed, hpc] at hok
    obtain ⟨rfl, hnone⟩ := hok
    have hpc' : ∀ d, d ≠ c →
        (({ s with state := target }.setPc c (.publishing t s.state target)).pc d) = s.pc d :=
      fun d hd => setPc_pc_of_ne _ _ hd
    refine ⟨hkept, ?_, ?_⟩
    · intro hquiet
      exact absurd ⟨t, s.state, target, setPc_pc_self _ c _⟩ (hquiet c)
    · intro d t' current' target' hd
      by_cases hdc : d = c
      · subst hdc
        have heq := (setPc_pc_self _ d _).symm.trans hd
        cases heq
        refine ⟨hs.quiet hnone, rfl, fun e he => ?_⟩
        by_cases hed : e = d
        · exact hed
        · rw [hpc' e hed] at he
          exact absurd he (hnone e)
      · rw [hpc' d hdc] at hd
        exact absurd ⟨t', current', target', hd⟩ (hnone d)
  | @publish c t current target hpc =>
    obtain ⟨hpath, rfl, hone⟩ := hs.pending c t current target hpc
    have hlegal := hs.legal c
    rw [hpc] at hlegal
    have hnone : ∀ d, ¬(({ s with events := s.events ++ [eventMsg t current s.state] }.setPc c
        (.returned (.ok true))).pc d).Publishing := by
      rintro d ⟨t', current', target', hd⟩
      by_cases hdc : d = c
      · subst hdc
        cases (setPc_pc_self _ d _).symm.trans hd
      · rw [setPc_pc_of_ne _ _ hdc] at hd
        exact hdc (hone d ⟨t', current', target', hd⟩)
    refine ⟨hkept, ?_, ?_⟩
    · intro _
      exact hpath.snoc (announces_eventMsg hlegal)
    · intro d t' current' target' hd
      exact absurd ⟨t', current', target', hd⟩ (hnone d)
  | unheard hpc => exact hok.elim

/-- Where attempts do not disturb each other, a listener that starts from the unconfigured state
and reads the announcements finds each a legal move from where it is, and is where the node is
whenever no move is still to be announced; what finalizes the node is announced last. -/
theorem announcements_lead {ms : List Move} {s : Sys} (hok : Throughout step Undisturbed start ms)
    (h : run step start ms = some s) (hquiet : ∀ c, ¬(s.pc c).Publishing) :
    Path .unconfigured s.events s.state ∧
      ∀ es e rest, s.events = es ++ e :: rest →
        PrimaryState.ofUInt8? e.goal_state.id = some .finalized →
        rest = [] ∧ s.state = .finalized := by
  have hinv := run_invariant_of_throughout (fun _ _ _ hs hok h => step_inv hs hok h) start_inv hok h
  have hpath := hinv.quiet hquiet
  refine ⟨hpath, fun es e rest hsplit hfinal => ?_⟩
  rw [hsplit] at hpath
  exact hpath.finalized_last hfinal

/-- A node is configured and activated; the handler of the activation tries to clean up on the side,
which fails. -/
def activatedRun : List Move :=
  [.changeState 0 1, .handler 0 (.ok .success), .go 0, .go 0, .attempt 1 .activate,
    .attempt 2 .cleanup, .handler 2 (.ok .failure), .handler 1 (.ok .success), .go 1, .go 1]

theorem announcements_lead_activated : ∃ s, run step start activatedRun = some s ∧
    s.state = .active ∧ Path .unconfigured s.events s.state := by
  obtain ⟨s, hs, hstate, hzero, hone, htwo, hrest⟩ : ∃ s, run step start activatedRun = some s ∧
      s.state = .active ∧ s.pc 0 = .returned (.ok true) ∧ s.pc 1 = .returned (.ok true) ∧
      s.pc 2 = .returned (.ok false) ∧ ∀ c, s.pc (c + 3) = .idle :=
    ⟨_, rfl, rfl, rfl, rfl, rfl, fun _ => rfl⟩
  have hquiet : ∀ c, ¬(s.pc c).Publishing
    | 0 => by simp [Pc.Publishing, hzero]
    | 1 => by simp [Pc.Publishing, hone]
    | 2 => by simp [Pc.Publishing, htwo]
    | c + 3 => by simp [Pc.Publishing, hrest]
  have hok : Throughout step Undisturbed start activatedRun := by
    have hfirst : ∀ d t current target,
        (if d = 0 then Pc.setting .configure .unconfigured .inactive else .idle) ≠
          .publishing t current target := by
      intro d t current target
      split <;> simp
    have hsecond : ∀ d t current target,
        (if d = 1 then Pc.setting .activate .inactive .active
          else if d = 2 then .returned (.ok false)
          else if d = 1 then .handling .activate .inactive .active
          else if d = 0 then .returned (.ok true) else .idle) ≠ .publishing t current target := by
      intro d t current target
      split_ifs <;> simp
    simp [Throughout, step, start, begin, decided, next, Threads.setPc, Undisturbed, Pc.Publishing,
      activatedRun, TransitionId.ofUInt8?, update_apply, hfirst, hsecond]
  exact ⟨s, hs, hstate, (announcements_lead hok hs hquiet).1⟩

/-! ## Offers -/

theorem mem_getAvailableTransitions {s : PrimaryState} {e : TransitionEvent} :
    e ∈ getAvailableTransitions s ↔ ∃ t u, next s t = some u ∧ e = eventMsg t s u := by
  simp only [getAvailableTransitions, List.mem_filterMap, mem_available_iff,
    Option.map_eq_some_iff, Option.isSome_iff_exists]
  constructor
  · rintro ⟨t, -, u, hu, rfl⟩
    exact ⟨t, u, hu, rfl⟩
  · rintro ⟨t, u, hu, rfl⟩
    exact ⟨t, ⟨u, hu⟩, u, hu, rfl⟩

/-- The graph lists the moves that some state offers. -/
theorem mem_getTransitionGraph {e : TransitionEvent} :
    e ∈ getTransitionGraph ↔ ∃ s, e ∈ getAvailableTransitions s := by
  have hall : ∀ s, s ∈ PrimaryState.all := fun s => by cases s <;> decide
  simp [getTransitionGraph, hall]

/-- Attempts are at legal moves, and what has been announced are edges of the graph. -/
structure Drawn (s : Sys) : Prop where
  legal : ∀ c, (s.pc c).Legal
  drawn : ∀ e ∈ s.events, e ∈ getTransitionGraph

theorem step_drawn {s s' : Sys} {m : Move} (hs : Drawn s) (h : step s m = some s') : Drawn s' := by
  have hstep := step_cases h
  refine ⟨hstep.legal hs.legal, ?_⟩
  cases hstep with
  | begin | handled | set | unheard => exact hs.drawn
  | @publish c t current target hpc =>
    intro e he
    rcases List.mem_append.mp he with he | he
    · exact hs.drawn e he
    · obtain rfl := List.mem_singleton.mp he
      have hlegal := hs.legal c
      rw [hpc] at hlegal
      exact mem_getTransitionGraph.mpr
        ⟨current, mem_getAvailableTransitions.mpr ⟨t, target, hlegal, rfl⟩⟩

/-- Even where attempts disturb each other, only moves that `get_transition_graph` lists are
announced. -/
theorem announced_drawn {ms : List Move} {s : Sys} (h : run step start ms = some s) :
    ∀ e ∈ s.events, e ∈ getTransitionGraph := by
  have hstart : Drawn start := ⟨fun _ => trivial, fun e he => by cases he⟩
  exact (run_invariant (fun _ _ _ hs h => step_drawn hs h) hstart h).drawn

/-! ## What an attempt answers for -/

inductive Entry where
  /-- An attempt begins, in the state it reads. -/
  | asked (c : Nat) (t : Option TransitionId) (current : PrimaryState)
  | handled (c : Nat) (result : Except String TransitionResult)
  | set (c : Nat) (target : PrimaryState)
  | announced (c : Nat) (e : TransitionEvent)

def Entry.caller : Entry → Nat
  | .asked c _ _ | .handled c _ | .set c _ | .announced c _ => c

def entries (s : Sys) : Move → List Entry
  | .attempt c t => [.asked c (some t) s.state]
  | .changeState c id => [.asked c (TransitionId.ofUInt8? id) s.state]
  | .handler c result => [.handled c result]
  | .go c => match s.pc c with
    | .setting _ _ target => [.set c target]
    | .publishing t current target => [.announced c (eventMsg t current target)]
    | _ => []
  | .publishFails _ => []

/-- The account of a run. -/
def account (s : Sys) (ms : List Move) : List Entry := outputs step entries s ms

/-- What the account says of an attempt. -/
def entriesOf (c : Nat) (log : List Entry) : List Entry := log.filter fun e => e.caller == c

def Entry.land (s : PrimaryState) : Entry → PrimaryState
  | .set _ target => target
  | _ => s

/-- Where the account leaves the node. -/
def landing (log : List Entry) : PrimaryState := log.foldl Entry.land .unconfigured

def Entry.event? : Entry → Option TransitionEvent
  | .announced _ e => some e
  | _ => none

/-- What is on offer is the transition that was asked for. -/
def TransitionEvent.Meets (e : TransitionEvent) (asked : Option TransitionId) : Prop :=
  asked = TransitionId.ofUInt8? e.transition.id

/-- What an attempt answers by what it has done. -/
inductive Answered (c : Nat) (t : Option TransitionId) (current : PrimaryState) :
    List Entry → Except String Bool → Prop where
  | unoffered (h : ∀ e ∈ getAvailableTransitions current, ¬e.Meets t) :
      Answered c t current [.asked c t current] (.ok false)
  | failed {e} (he : e ∈ getAvailableTransitions current) (ht : e.Meets t) :
      Answered c t current [.asked c t current, .handled c (.ok .failure)] (.ok false)
  | raised {e text} (he : e ∈ getAvailableTransitions current) (ht : e.Meets t) :
      Answered c t current [.asked c t current, .handled c (.error text)] (.error text)
  /-- The announcement is missing where publishing has failed. -/
  | moved {e target announced} (he : e ∈ getAvailableTransitions current) (ht : e.Meets t)
      (hgoal : PrimaryState.ofUInt8? e.goal_state.id = some target)
      (hannounced : announced <+: [.announced c e]) : Answered c t current
        ([.asked c t current, .handled c (.ok .success), .set c target] ++ announced) (.ok true)

/-- How far an attempt has come by what it has done. -/
def Course (c : Nat) (t : Option TransitionId) (current : PrimaryState) (done : List Entry) :
    Pc → Prop
  | .idle => False
  | .handling u from_ target => (from_ = current ∧ t = some u ∧ next current u = some target) ∧
      done = [.asked c t current]
  | .setting u from_ target => (from_ = current ∧ t = some u ∧ next current u = some target) ∧
      done = [.asked c t current, .handled c (.ok .success)]
  | .publishing u from_ target => (from_ = current ∧ t = some u ∧ next current u = some target) ∧
      done = [.asked c t current, .handled c (.ok .success), .set c target]
  | .returned r => Answered c t current done r

/-- A legal move is on offer. -/
theorem meets_eventMsg {current target : PrimaryState} {t : TransitionId}
    (h : next current t = some target) : eventMsg t current target ∈
      getAvailableTransitions current ∧ (eventMsg t current target).Meets (some t) :=
  ⟨mem_getAvailableTransitions.mpr ⟨t, target, h, rfl⟩, (ofUInt8?_toUInt8 h).symm⟩

theorem begin_course (c : Nat) (t : Option TransitionId) (current : PrimaryState) :
    Course c t current [.asked c t current] (begin current t) := by
  have hoffered : ∀ e ∈ getAvailableTransitions current, e.Meets t →
      ∃ u target, t = some u ∧ next current u = some target := by
    intro e he hmeets
    obtain ⟨u, target, hnext, rfl⟩ := mem_getAvailableTransitions.mp he
    exact ⟨u, target, hmeets.trans (ofUInt8?_toUInt8 hnext), hnext⟩
  unfold begin
  split
  · refine .unoffered fun e he hmeets => ?_
    obtain ⟨u, -, hu, -⟩ := hoffered e he hmeets
    cases hu
  · next u =>
    split
    · next hnone =>
      refine .unoffered fun e he hmeets => ?_
      obtain ⟨v, target, hv, hnext⟩ := hoffered e he hmeets
      obtain rfl := Option.some.inj hv
      rw [hnone] at hnext
      cases hnext
    · next target hnext => exact ⟨⟨rfl, rfl, hnext⟩, rfl⟩

/-- A step of the attempt carries it on and adds what it does. -/
theorem Step.course {s s' : Sys} {m : Move} (h : Step s m s') {t : Option TransitionId}
    {current : PrimaryState} {done : List Entry}
    (hs : Course m.caller t current done (s.pc m.caller)) :
    Course m.caller t current (done ++ entries s m) (s'.pc m.caller) := by
  cases h with
  | begin hm hpc =>
    rw [caller_of_asks hm, hpc] at hs
    exact hs.elim
  | @handled c u from_ target result hpc =>
    simp only [Move.caller, hpc] at hs
    obtain ⟨⟨rfl, rfl, hnext⟩, rfl⟩ := hs
    obtain ⟨hoffer, hmeets⟩ := meets_eventMsg hnext
    simp only [Move.caller, setPc_pc_self]
    cases result with
    | error e => exact .raised hoffer hmeets
    | ok r => cases r with
      | success => exact ⟨⟨rfl, rfl, hnext⟩, rfl⟩
      | failure => exact .failed hoffer hmeets
  | @set c u from_ target hpc =>
    simp only [Move.caller, hpc] at hs
    obtain ⟨⟨rfl, rfl, hnext⟩, rfl⟩ := hs
    simp only [Move.caller, setPc_pc_self, entries, hpc]
    exact ⟨⟨rfl, rfl, hnext⟩, rfl⟩
  | @publish c u from_ target hpc =>
    simp only [Move.caller, hpc] at hs
    obtain ⟨⟨rfl, rfl, hnext⟩, rfl⟩ := hs
    obtain ⟨hoffer, hmeets⟩ := meets_eventMsg hnext
    simp only [Move.caller, setPc_pc_self, entries, hpc]
    exact .moved hoffer hmeets (PrimaryState.ofUInt8?_toUInt8 target) (List.prefix_refl _)
  | @unheard c u from_ target hpc =>
    simp only [Move.caller, hpc] at hs
    obtain ⟨⟨rfl, rfl, hnext⟩, rfl⟩ := hs
    obtain ⟨hoffer, hmeets⟩ := meets_eventMsg hnext
    simp only [Move.caller, setPc_pc_self, entries]
    exact .moved hoffer hmeets (PrimaryState.ofUInt8?_toUInt8 target) List.nil_prefix

theorem caller_of_mem_entries {s : Sys} {m : Move} {e : Entry} (he : e ∈ entries s m) :
    e.caller = m.caller := by
  cases m with
  | attempt | changeState | handler =>
    obtain rfl := List.mem_singleton.mp he
    rfl
  | publishFails c => cases he
  | go c =>
    simp only [entries] at he
    split at he
    · obtain rfl := List.mem_singleton.mp he
      rfl
    · obtain rfl := List.mem_singleton.mp he
      rfl
    · cases he

theorem entriesOf_self (s : Sys) (m : Move) : entriesOf m.caller (entries s m) = entries s m :=
  List.filter_eq_self.mpr fun _ he => by simp [caller_of_mem_entries he]

theorem entriesOf_of_ne (s : Sys) {m : Move} {c : Nat} (hc : c ≠ m.caller) :
    entriesOf c (entries s m) = [] :=
  List.filter_eq_nil_iff.mpr fun _ he => by simpa [caller_of_mem_entries he] using hc.symm

/-- The account agrees with the node, and with where each attempt stands. -/
structure Kept (s : Sys) (log : List Entry) : Prop where
  state : s.state = landing log
  events : s.events = log.filterMap Entry.event?
  idle : ∀ c, s.pc c = .idle → entriesOf c log = []
  course : ∀ c t current, Entry.asked c t current ∈ log →
    Course c t current (entriesOf c log) (s.pc c)

theorem begin_ne_idle (current : PrimaryState) (asked : Option TransitionId) :
    begin current asked ≠ .idle := by
  unfold begin
  split
  · simp
  · split <;> simp

theorem decided_ne_idle (t : TransitionId) (current target : PrimaryState)
    (result : Except String TransitionResult) : decided t current target result ≠ .idle := by
  cases result with
  | error e => simp [decided]
  | ok r => cases r <;> simp [decided]

/-- Once begun an attempt is never idle again. -/
theorem Step.not_idle {s s' : Sys} {m : Move} (h : Step s m s') : s'.pc m.caller ≠ .idle := by
  cases h with
  | begin hm hpc =>
    rw [caller_of_asks hm, setPc_pc_self]
    exact begin_ne_idle _ _
  | handled hpc =>
    simp only [Move.caller, setPc_pc_self]
    exact decided_ne_idle _ _ _ _
  | set | publish | unheard => simp [Move.caller]

theorem entries_of_asks {s : Sys} {m : Move} {c : Nat} {asked : Option TransitionId}
    (h : m.asks? = some (c, asked)) : entries s m = [.asked c asked s.state] := by
  cases m with
  | attempt d t | changeState d id =>
    obtain ⟨rfl, rfl⟩ := Prod.mk.inj (Option.some.inj h)
    rfl
  | _ => cases h

theorem Step.landing_eq {s s' : Sys} {m : Move} (h : Step s m s') :
    s'.state = (entries s m).foldl Entry.land s.state ∧
      s'.events = s.events ++ (entries s m).filterMap Entry.event? := by
  cases h with
  | begin hm hpc => simp [entries_of_asks hm, Entry.land, Entry.event?]
  | handled hpc | set hpc | publish hpc | unheard hpc =>
    simp [entries, hpc, Entry.land, Entry.event?]

theorem step_kept {s s' : Sys} {m : Move} {log : List Entry} (hs : Kept s log)
    (h : step s m = some s') : Kept s' (log ++ entries s m) := by
  have hstep := step_cases h
  have hsplit : ∀ c, entriesOf c (log ++ entries s m) =
      entriesOf c log ++ entriesOf c (entries s m) := fun c => List.filter_append ..
  constructor
  · rw [landing, List.foldl_append, ← landing, ← hs.state]
    exact hstep.landing_eq.1
  · rw [List.filterMap_append, ← hs.events]
    exact hstep.landing_eq.2
  · intro c hc
    have hne : c ≠ m.caller := fun he => hstep.not_idle (he ▸ hc)
    rw [hsplit, entriesOf_of_ne s hne, List.append_nil]
    exact hs.idle c (hstep.pc_of_ne hne ▸ hc)
  · intro c t current hmem
    rw [hsplit]
    by_cases hc : c = m.caller
    · subst hc
      rw [entriesOf_self]
      rcases List.mem_append.mp hmem with hlog | hnew
      · exact hstep.course (hs.course _ t current hlog)
      · cases hstep with
        | begin hm hpc =>
          rw [entries_of_asks hm] at hnew ⊢
          rw [caller_of_asks hm] at hnew ⊢
          cases List.mem_singleton.mp hnew
          rw [hs.idle _ hpc, setPc_pc_self]
          exact begin_course _ _ _
        | handled hpc | set hpc | publish hpc | unheard hpc => simp [entries, hpc] at hnew
    · rw [entriesOf_of_ne s hc, List.append_nil, hstep.pc_of_ne hc]
      rcases List.mem_append.mp hmem with hlog | hnew
      · exact hs.course c t current hlog
      · exact absurd (caller_of_mem_entries hnew) hc

end Lifecycle
