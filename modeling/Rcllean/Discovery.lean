import Rcllean.Runs
import Rcllean.Topics

/-!
# Waiting for the graph

The nodes on the graph come from rcl as names and namespaces and are asked for
by their fully qualified names. Discovery is asynchronous: a program that
waits for a node or for a publisher asks again and again until it is there or
the time is up, while the graph changes and the clock goes on.
-/
namespace Discovery

open Names OverrideKeys Runs

/-! ## Nodes by name -/

/-- A name and a namespace, joined as `ros2 node list` prints them; both may be `NULL`. -/
def joined (name ns : Option String) : String :=
  ns.getD "/" ++ (if ns.getD "/" = "/" then "" else "/") ++ name.getD ""

/-- `format` is `rcutils_format_string`, with what `rcllean_mk_string` makes of its result. -/
def nodeNames (format : String → String) (reported : List (Option String × Option String)) :
    List String :=
  reported.map fun p => format (joined p.1 p.2)

def hasNode (names : List String) (name : String) : Bool := names.contains name

/-- `rcutils_format_string` leaves texts alone that are shorter than its limit. -/
def Formats (format : String → String) : Prop :=
  ∀ text : String, text.utf8ByteSize < 2048 → format text = text

/-- What rcl reports of the nodes there are; it may leave out the root namespace. Its own limits
on names are far below those of the formatting. -/
def Reports (reported : List (Option String × Option String))
    (nodes : List (NodeName × Namespace)) : Prop :=
  List.Forall₂ (fun r n => r.1 = some n.1.toString ∧
    (r.2 = some n.2.toString ∨ r.2 = none ∧ n.2.toString = "/") ∧
    (fullyQualifiedName n.1 n.2).utf8ByteSize < 2048) reported nodes

theorem joined_eq {name ns : Option String} {n : NodeName × Namespace}
    (hname : name = some n.1.toString)
    (hns : ns = some n.2.toString ∨ ns = none ∧ n.2.toString = "/") :
    joined name ns = fullyQualifiedName n.1 n.2 := by
  have hget : ns.getD "/" = n.2.toString := by
    rcases hns with h | ⟨h, hroot⟩
    · simp [h]
    · simp [h, hroot]
  rw [joined, hget, hname, Option.getD_some, fullyQualifiedName]
  by_cases hroot : n.2.toString = "/"
  · simp [hroot]
  · simp [hroot]

theorem nodeNames_eq {format : String → String} (hformat : Formats format)
    {reported : List (Option String × Option String)} {nodes : List (NodeName × Namespace)}
    (h : Reports reported nodes) :
    nodeNames format reported = nodes.map fun n => fullyQualifiedName n.1 n.2 := by
  induction h with
  | nil => rfl
  | @cons r n _ _ hr _ ih =>
    have hfirst : format (joined r.1 r.2) = fullyQualifiedName n.1 n.2 := by
      rw [joined_eq hr.1 hr.2.1]
      exact hformat _ hr.2.2
    rw [List.map_cons, ← ih, ← hfirst]
    rfl

/-- No two nodes have one fully qualified name. -/
theorem fullyQualifiedName_inj {node node' : NodeName} {ns ns' : Namespace} :
    fullyQualifiedName node ns = fullyQualifiedName node' ns' ↔ node = node' ∧ ns = ns' := by
  constructor
  · intro h
    have htokens := splitOnSlash_fullyQualifiedName node ns
    rw [h, splitOnSlash_fullyQualifiedName node' ns', List.cons.injEq] at htokens
    obtain ⟨hns, hnode⟩ := List.append_inj' htokens.2 rfl
    exact ⟨Topics.node_eq_iff.mpr (List.cons.inj hnode).1.symm,
      (Topics.namespaceTokens_inj hns).symm⟩
  · rintro ⟨rfl, rfl⟩
    rfl

/-- A node is found under its fully qualified name when it is on the graph and not otherwise. -/
theorem hasNode_iff {format : String → String} (hformat : Formats format)
    {reported : List (Option String × Option String)} {nodes : List (NodeName × Namespace)}
    (h : Reports reported nodes) (node : NodeName) (ns : Namespace) :
    hasNode (nodeNames format reported) (fullyQualifiedName node ns) = true ↔
      (node, ns) ∈ nodes := by
  rw [hasNode, nodeNames_eq hformat h, List.contains_iff_mem, List.mem_map]
  constructor
  · rintro ⟨n, hn, heq⟩
    obtain ⟨rfl, rfl⟩ := fullyQualifiedName_inj.mp heq
    exact hn
  · exact fun hn => ⟨_, hn, rfl⟩

/-- One node reported without its namespace and one with it. -/
def reported : List (Option String × Option String) :=
  [(some "talker", none), (some "listener", some "/robot")]

theorem hasNode_iff_namespaced :
    hasNode (nodeNames id reported) "/talker" = true ∧
      hasNode (nodeNames id reported) "/robot/listener" = true ∧
      hasNode (nodeNames id reported) "/listener" = false := by
  have talker : isValidNodeName "talker" = true := by decide
  have listener : isValidNodeName "listener" = true := by decide
  have root : isValidNamespace "/" = true := by decide
  have robot : isValidNamespace "/robot" = true := by decide
  have hreports : Reports reported
      [(⟨"talker", talker⟩, ⟨"/", root⟩), (⟨"listener", listener⟩, ⟨"/robot", robot⟩)] :=
    .cons ⟨rfl, .inr ⟨rfl, rfl⟩, (by decide : "/talker".utf8ByteSize < 2048)⟩
      (.cons ⟨rfl, .inl rfl, (by decide : "/robot/listener".utf8ByteSize < 2048)⟩ .nil)
  have hiff := hasNode_iff (fun _ _ => rfl) hreports
  refine ⟨(hiff ⟨_, talker⟩ ⟨_, root⟩).mpr (by simp),
    (hiff ⟨_, listener⟩ ⟨_, robot⟩).mpr (by simp), ?_⟩
  rw [Bool.eq_false_iff]
  exact fun h => by simpa using (hiff ⟨_, listener⟩ ⟨_, root⟩).mp h

/-! ## Waiting -/

/-- What the queries return. -/
structure Graph where
  nodeNames : List String
  publishers : String → UInt64

inductive Query where
  | node (name : String)
  | publisher (topic : String)

/-- What the loop tests. -/
def Graph.answers (g : Graph) : Query → Bool
  | .node name => hasNode g.nodeNames name
  | .publisher topic => !(g.publishers topic == 0)

/-- Where the loop is, with the graph its last query has seen. -/
inductive Pc where
  | begun
  | asking
  | looking (seen : Graph)
  /-- In `sleepFor`, since `since`. -/
  | sleeping (since : Int64)
  | returned (found : Bool) (seen : Graph)
  | raised (text : String)

structure State where
  graph : Graph
  /-- The steady clock. -/
  clock : Int64
  start : Int64
  pc : Pc

/-- `Duration.ofMillis 100`. -/
def pause : Int64 := 100 * 1000000

inductive Move where
  | go
  /-- A query raises, as it does once its node is destroyed. -/
  | refuse (text : String)
  /-- The sleep ends. -/
  | wake (clock : Int64)
  | tick (clock : Int64)
  | change (graph : Graph)

/-- The next step of the loop, outside its sleeps. -/
def go (query : Query) (timeout : Int64) (s : State) : Option State :=
  match s.pc with
  | .begun => some { s with start := s.clock, pc := .asking }
  | .asking => some { s with
      pc := if s.graph.answers query then .returned true s.graph else .looking s.graph }
  | .looking seen => some { s with
      pc := if s.clock - s.start > timeout then .returned false seen else .sleeping s.clock }
  | _ => none

/-- `waitForNode` and `waitForPublisher`. A sleep lasts at least as long as it was asked to. -/
def step (query : Query) (timeout : Int64) (s : State) : Move → Option State
  | .go => go query timeout s
  | .refuse text => match s.pc with
    | .asking => some { s with pc := .raised text }
    | _ => none
  | .wake clock => match s.pc with
    | .sleeping since =>
      if s.clock ≤ clock ∧ since.toInt + pause.toInt ≤ clock.toInt then
        some { s with clock, pc := .asking }
      else none
    | _ => none
  | .tick clock => if s.clock ≤ clock then some { s with clock } else none
  | .change graph => some { s with graph }

def isWake : Move → Bool
  | .wake _ => true
  | _ => false

/-- The pauses that fit in the time left of the limit at `now`. -/
def pauses (timeout start now : Int64) : Nat :=
  (timeout.toInt + pause.toInt - (now.toInt - start.toInt)).toNat / pause.toInt.toNat

/-- The sleeps there are still to come. -/
def sleepsLeft (timeout : Int64) (s : State) : Nat :=
  match s.pc with
  | .begun => pauses timeout s.clock s.clock
  | .asking | .looking _ => pauses timeout s.start s.clock
  | .sleeping since => pauses timeout s.start since
  | .returned .. | .raised _ => 0

/-! ## What one step preserves -/

/-- What holds at each place of the loop. -/
def At (query : Query) (timeout : Int64) (s : State) : Pc → Prop
  | .begun => True
  | .looking seen => s.start.toInt ≤ s.clock.toInt ∧ seen.answers query = false
  | .sleeping since => s.start.toInt ≤ since.toInt ∧ since.toInt ≤ s.clock.toInt ∧
      since.toInt - s.start.toInt ≤ timeout.toInt
  | .returned true seen => s.start.toInt ≤ s.clock.toInt ∧ seen.answers query = true
  | .returned false seen => s.start.toInt ≤ s.clock.toInt ∧ seen.answers query = false ∧
      timeout.toInt < s.clock.toInt - s.start.toInt
  | .asking | .raised _ => s.start.toInt ≤ s.clock.toInt

structure Inv (query : Query) (timeout : Int64) (s : State) : Prop where
  start : 0 ≤ s.start.toInt
  clock : 0 ≤ s.clock.toInt
  at_pc : At query timeout s s.pc

/-- The time that has gone by since the start fits in 64 bits. -/
theorem toInt_elapsed {start clock : Int64} (hstart : 0 ≤ start.toInt)
    (hclock : start.toInt ≤ clock.toInt) :
    (clock - start).toInt = clock.toInt - start.toInt := by
  have hmax := clock.toInt_lt
  rw [Int64.toInt_sub]
  exact Int.bmod_eq_of_le (by omega) (by omega)

section

variable {query : Query} {timeout : Int64} {s t : State}

/-- The steps of the loop and of the outside, one constructor a branch. -/
inductive Step (query : Query) (timeout : Int64) (s : State) : Move → State → Prop where
  | start (hpc : s.pc = .begun) :
    Step query timeout s .go { s with start := s.clock, pc := .asking }
  | found (hpc : s.pc = .asking) (h : s.graph.answers query = true) :
    Step query timeout s .go { s with pc := .returned true s.graph }
  | missed (hpc : s.pc = .asking) (h : s.graph.answers query = false) :
    Step query timeout s .go { s with pc := .looking s.graph }
  | timeUp {seen} (hpc : s.pc = .looking seen) (h : timeout < s.clock - s.start) :
    Step query timeout s .go { s with pc := .returned false seen }
  | sleep {seen} (hpc : s.pc = .looking seen) (h : ¬ timeout < s.clock - s.start) :
    Step query timeout s .go { s with pc := .sleeping s.clock }
  | refuse {text} (hpc : s.pc = .asking) :
    Step query timeout s (.refuse text) { s with pc := .raised text }
  | wake {since clock} (hpc : s.pc = .sleeping since) (hle : s.clock.toInt ≤ clock.toInt)
    (hslept : since.toInt + pause.toInt ≤ clock.toInt) :
    Step query timeout s (.wake clock) { s with clock, pc := .asking }
  | tick {clock} (hle : s.clock.toInt ≤ clock.toInt) :
    Step query timeout s (.tick clock) { s with clock }
  | change {graph} : Step query timeout s (.change graph) { s with graph }

theorem go_cases (hs : go query timeout s = some t) : Step query timeout s .go t := by
  unfold go at hs
  cases hpc : s.pc with
  | begun =>
    rw [hpc] at hs
    exact Option.some.inj hs ▸ .start hpc
  | asking =>
    rw [hpc] at hs
    obtain rfl := Option.some.inj hs
    cases hfound : s.graph.answers query with
    | true => exact .found hpc hfound
    | false => exact .missed hpc hfound
  | looking seen =>
    rw [hpc] at hs
    obtain rfl := Option.some.inj hs
    by_cases hup : timeout < s.clock - s.start
    · simpa [hup] using Step.timeUp hpc hup
    · simpa [hup] using Step.sleep hpc hup
  | sleeping | returned | raised =>
    rw [hpc] at hs
    cases hs

theorem step_cases {m : Move} (hs : step query timeout s m = some t) :
    Step query timeout s m t := by
  cases m with
  | go => exact go_cases hs
  | refuse text =>
    simp only [step] at hs
    split at hs
    · next hpc => exact Option.some.inj hs ▸ .refuse hpc
    · cases hs
  | wake clock =>
    simp only [step] at hs
    split at hs
    · next since hpc =>
      simp only [Option.ite_none_right_eq_some, Option.some.injEq, Int64.le_iff_toInt_le] at hs
      obtain ⟨⟨hle, hslept⟩, rfl⟩ := hs
      exact .wake hpc hle hslept
    · cases hs
  | tick clock =>
    simp only [step, Option.ite_none_right_eq_some, Option.some.injEq,
      Int64.le_iff_toInt_le] at hs
    obtain ⟨hle, rfl⟩ := hs
    exact .tick hle
  | change graph => exact Option.some.inj hs ▸ .change

/-- Time goes by. -/
theorem At.later {pc : Pc} {clock : Int64} (h : At query timeout s pc)
    (hle : s.clock.toInt ≤ clock.toInt) : At query timeout { s with clock } pc := by
  cases pc with
  | begun => trivial
  | asking => exact Int.le_trans h hle
  | looking seen => exact ⟨Int.le_trans h.1 hle, h.2⟩
  | sleeping since => exact ⟨h.1, Int.le_trans h.2.1 hle, h.2.2⟩
  | returned found seen => cases found with
    | true => exact ⟨Int.le_trans h.1 hle, h.2⟩
    | false => exact ⟨Int.le_trans h.1 hle, h.2.1, Int.lt_of_lt_of_le h.2.2 (by gcongr)⟩
  | raised text => exact Int.le_trans h hle

theorem At.changed {pc : Pc} (h : At query timeout s pc) (graph : Graph) :
    At query timeout { s with graph } pc := by
  cases pc with
  | returned found seen => cases found <;> exact h
  | _ => exact h

theorem step_inv (s : State) (m : Move) (t : State) (h : Inv query timeout s)
    (hs : step query timeout s m = some t) : Inv query timeout t := by
  have hat := h.at_pc
  cases step_cases hs with
  | start hpc => exact ⟨h.clock, h.clock, Int.le_refl _⟩
  | found hpc hfound =>
    rw [hpc] at hat
    exact ⟨h.start, h.clock, hat, hfound⟩
  | missed hpc hmissed =>
    rw [hpc] at hat
    exact ⟨h.start, h.clock, hat, hmissed⟩
  | timeUp hpc hup =>
    rw [hpc] at hat
    rw [Int64.lt_iff_toInt_lt, toInt_elapsed h.start hat.1] at hup
    exact ⟨h.start, h.clock, hat.1, hat.2, hup⟩
  | sleep hpc hup =>
    rw [hpc] at hat
    rw [Int64.lt_iff_toInt_lt, toInt_elapsed h.start hat.1] at hup
    exact ⟨h.start, h.clock, hat.1, Int.le_refl _, Int.not_lt.mp hup⟩
  | refuse hpc =>
    rw [hpc] at hat
    exact ⟨h.start, h.clock, hat⟩
  | wake hpc hle =>
    rw [hpc] at hat
    exact ⟨h.start, Int.le_trans h.clock hle, (hat.1.trans hat.2.1).trans hle⟩
  | tick hle => exact ⟨h.start, Int.le_trans h.clock hle, hat.later hle⟩
  | @change graph => exact ⟨h.start, h.clock, hat.changed graph⟩

/-! ## How long it lasts -/

theorem toInt_pause : pause.toInt = 100000000 := rfl

theorem pauses_later {timeout start now now' : Int64} (h : now.toInt ≤ now'.toInt) :
    pauses timeout start now' ≤ pauses timeout start now := by
  apply Nat.div_le_div_right
  omega

/-- A sleep that was started in time takes one off. -/
theorem pauses_slept {timeout start since clock : Int64}
    (htime : since.toInt - start.toInt ≤ timeout.toInt)
    (hslept : since.toInt + pause.toInt ≤ clock.toInt) :
    pauses timeout start clock + 1 ≤ pauses timeout start since := by
  have hle : (timeout.toInt + pause.toInt - (clock.toInt - start.toInt)).toNat +
      pause.toInt.toNat ≤ (timeout.toInt + pause.toInt - (since.toInt - start.toInt)).toNat := by
    rw [toInt_pause] at hslept ⊢
    omega
  have hpos : 0 < pause.toInt.toNat := by
    rw [toInt_pause]
    decide
  unfold pauses
  rw [← Nat.add_div_right _ hpos]
  exact Nat.div_le_div_right hle

theorem step_sleepsLeft (s : State) (m : Move) (t : State) (h : Inv query timeout s)
    (hs : step query timeout s m = some t) :
    sleepsLeft timeout t + (isWake m).toNat ≤ sleepsLeft timeout s + 0 * false.toNat := by
  have hat := h.at_pc
  cases step_cases hs with
  | start hpc | found hpc | missed hpc | timeUp hpc | sleep hpc | refuse hpc =>
    simp [sleepsLeft, hpc, isWake]
  | wake hpc hle hslept =>
    rw [hpc] at hat
    have hless := pauses_slept hat.2.2 hslept
    simpa [sleepsLeft, hpc, isWake] using hless
  | tick hle =>
    unfold sleepsLeft
    cases s.pc with
    | begun => simp [isWake, pauses]
    | asking | looking => exact pauses_later hle
    | sleeping | returned | raised => exact Nat.le_refl _
  | change => exact Nat.le_refl _

end

/-! ## Runs -/

def Settled (query : Query) (timeout : Int64) (s : State) : Prop :=
  ∀ found seen, s.pc = .returned found seen →
    seen.answers query = found ∧
      (found = false → timeout.toInt < s.clock.toInt - s.start.toInt)

theorem Inv.settled {query : Query} {timeout : Int64} {s : State} (h : Inv query timeout s) :
    Settled query timeout s := by
  intro found seen hpc
  have hat := h.at_pc
  rw [hpc] at hat
  cases found with
  | true => exact ⟨hat.2, fun hfalse => by cases hfalse⟩
  | false => exact ⟨hat.2.1, fun _ => hat.2.2⟩

/-- However the graph changes and the clock goes on: the loop sleeps at most once for each pause
that has begun when the limit is up, and what it returns is what its last query has seen, `false`
only after the limit. -/
theorem wait_settles (query : Query) (timeout : Int64) (graph : Graph) (clock : Int64)
    (hclock : 0 ≤ clock.toInt) (ms : List Move) (s : State)
    (hs : run (step query timeout) ⟨graph, clock, 0, .begun⟩ ms = some s) :
    (ms.countP isWake : Int) * 100000000 ≤ max 0 (timeout.toInt + 100000000) ∧
      Settled query timeout s := by
  have hstart : Inv query timeout ⟨graph, clock, 0, .begun⟩ := ⟨Int.le_refl _, hclock, trivial⟩
  refine ⟨?_, (run_invariant step_inv hstart hs).settled⟩
  have hsleeps := run_measure step_inv step_sleepsLeft hstart hs
  have hfit : ms.countP isWake ≤ (timeout.toInt + 100000000).toNat / 100000000 := by
    simpa [sleepsLeft, pauses, toInt_pause] using le_of_add_le_right hsleeps
  have hmul := Nat.mul_le_of_le_div _ _ _ hfit
  omega

/-- A node that comes up during the first sleep. -/
def appearing : List Move :=
  [.go, .go, .go, .change ⟨["/talker"], fun _ => 0⟩, .wake 100000000, .go]

theorem wait_settles_appearing :
    ∃ s seen, run (step (.node "/talker") 10000000000) ⟨⟨[], fun _ => 0⟩, 0, 0, .begun⟩ appearing =
        some s ∧ s.pc = .returned true seen ∧ seen.answers (.node "/talker") = true := by
  have hrun : ∃ s seen, run (step (.node "/talker") 10000000000) ⟨⟨[], fun _ => 0⟩, 0, 0, .begun⟩
      appearing = some s ∧ s.pc = .returned true seen := ⟨_, _, rfl, rfl⟩
  obtain ⟨s, seen, hs, hpc⟩ := hrun
  exact ⟨s, seen, hs, hpc, ((wait_settles _ _ _ _ (by decide) _ s hs).2 _ _ hpc).1⟩

end Discovery
