import Mathlib.Data.List.Basic
import Rcllean.ParamOverrides
import Rcllean.Runs
import Std.Data.HashMap.Lemmas

/-!
# The overrides of a node

The blocks that apply to a node are sorted into two buffers, one for wildcard
blocks, and the buffers are replayed into one table. The loops over blocks and
entries have a closed form, from which the table is read off: it holds the last
value given by a block of the node's own, then the last one of a wildcard.
-/
namespace Overrides

open Parameters ParamOverrides WaitSets Runs

def isWildcard (name : String) : Bool := name == "/**" || name == "/*" || name == "**"

/-- rcl reports names with or without the leading slash, as they were written. -/
def applies (name nodeFqn : String) : Bool :=
  isWildcard name || name == nodeFqn || "/" ++ name == nodeFqn ||
    name.toList == nodeFqn.toList.drop 1

/-- The two buffers. -/
structure Gathered where
  wildcards : List (String × ParameterValue) := []
  exact : List (String × ParameterValue) := []

/-- A round of the loop over the entries of a block. -/
def gatherEntry (p : RclParams) (wildcard : Bool) (idx : UInt32) (g : Gathered) (j : Nat) :
    Except Failure Gathered := do
  let jdx := UInt32.ofNat j
  let pname ← paramOverrideName p idx jdx
  let value := ParameterValue.ofWire (← paramOverrideValue p idx jdx)
  if wildcard then
    return { g with wildcards := g.wildcards ++ [(pname, value)] }
  else
    return { g with exact := g.exact ++ [(pname, value)] }

/-- A round of the loop over the blocks. -/
def gatherNode (p : RclParams) (nodeFqn : String) (g : Gathered) (i : Nat) :
    Except Failure Gathered := do
  let idx := UInt32.ofNat i
  let name ← paramOverrideNodeName p idx
  if !applies name nodeFqn then
    return g
  let count := paramOverrideCount p idx
  (List.range count.toNat).foldlM (gatherEntry p (isWildcard name) idx) g

def gather (p : RclParams) (nodeFqn : String) : Except Failure Gathered :=
  (List.range (paramOverrideNodeCount p).toNat).foldlM (gatherNode p nodeFqn) {}

/-- Insert the entries in their order. -/
def replay (out : Std.HashMap String ParameterValue) (es : List (String × ParameterValue)) :
    Std.HashMap String ParameterValue :=
  es.foldl (fun out e => out.insert e.1 e.2) out

def collectOverrides (p : RclParams) (nodeFqn : String) :
    Except Failure (Std.HashMap String ParameterValue) := do
  let g ← gather p nodeFqn
  return replay (replay {} g.wildcards) g.exact

/-! ## The loops in closed form -/

/-- What a 32-bit count lets through of a list. -/
def counted {α : Type} (xs : List α) : List α := xs.take (xs.length % 2 ^ 32)

theorem counted_of_lt {α : Type} {xs : List α} (h : xs.length < 2 ^ 32) : counted xs = xs := by
  rw [counted, Nat.mod_eq_of_lt h, List.take_length]

/-- The entries of a block, each with the value its variant holds. -/
def entries (b : NodeParams) : List (String × ParameterValue) :=
  b.params.map fun e => (e.name, e.payload)

/-- What the loops come to of a block. -/
def readNode (b : NodeParams) : NodeParams := { b with params := counted b.params }

@[simp] theorem readNode_nodeName (b : NodeParams) : (readNode b).nodeName = b.nodeName := rfl

/-- The blocks of the node's own name. -/
def ownBlocks (nodeFqn : String) (bs : List NodeParams) : List NodeParams :=
  bs.filter fun b => applies b.nodeName nodeFqn && !isWildcard b.nodeName

def wildcardBlocks (bs : List NodeParams) : List NodeParams :=
  bs.filter fun b => isWildcard b.nodeName

/-- Entries go to the end of the buffer of their block. -/
def addEntries (wildcard : Bool) (g : Gathered) (es : List (String × ParameterValue)) : Gathered :=
  if wildcard then { g with wildcards := g.wildcards ++ es } else { g with exact := g.exact ++ es }

/-- What a block adds. -/
def addNode (nodeFqn : String) (g : Gathered) (b : NodeParams) : Gathered :=
  if !applies b.nodeName nodeFqn then g
  else addEntries (isWildcard b.nodeName) g (entries (readNode b))

theorem addEntries_nil (wildcard : Bool) (g : Gathered) : addEntries wildcard g [] = g := by
  cases wildcard <;> simp [addEntries]

theorem addEntries_append (wildcard : Bool) (g : Gathered)
    (xs ys : List (String × ParameterValue)) :
    addEntries wildcard g (xs ++ ys) = addEntries wildcard (addEntries wildcard g xs) ys := by
  cases wildcard <;> simp [addEntries]

theorem toNat_ofNat_length {α : Type} (xs : List α) :
    (UInt32.ofNat xs.length).toNat = xs.length % 2 ^ 32 := by
  simp

theorem toNat_ofNat_of_lt {i n : Nat} (h : i < n % 2 ^ 32) : (UInt32.ofNat i).toNat = i := by
  have hlt : n % 2 ^ 32 < 2 ^ 32 := Nat.mod_lt _ (by decide)
  have hi : i < 2 ^ 32 := by omega
  rw [UInt32.toNat_ofNat', Nat.mod_eq_of_lt hi]

/-- A round over the entries appends the entry to the buffer of its block. -/
theorem gatherEntry_eq {p : RclParams} {idx : UInt32} {b : NodeParams} {j : Nat} {e : ParamEntry}
    (hb : p.node? idx = some b) (hj : j < b.params.length % 2 ^ 32) (he : b.params[j]? = some e)
    (wildcard : Bool) (g : Gathered) :
    gatherEntry p wildcard idx g j = .ok (addEntries wildcard g [(e.name, e.payload)]) := by
  have hentry : p.entry? idx (UInt32.ofNat j) = some e := by
    simp [RclParams.entry?, hb, toNat_ofNat_of_lt hj, he]
  have hname : paramOverrideName p idx (UInt32.ofNat j) = .ok e.name := by
    simp [paramOverrideName, hentry]
  have hvalue : paramOverrideValue p idx (UInt32.ofNat j) = .ok e.payload.toWire := by
    simp [paramOverrideValue, hentry, overrideValue_entry]
  simp only [gatherEntry, hname, hvalue, ok_bind, ofWire_toWire]
  cases wildcard <;> rfl

theorem foldl_addEntries (wildcard : Bool) (es : List ParamEntry) (g : Gathered) :
    es.foldl (fun g e => addEntries wildcard g [(e.name, e.payload)]) g =
      addEntries wildcard g (es.map fun e => (e.name, e.payload)) := by
  induction es generalizing g with
  | nil => exact (addEntries_nil wildcard g).symm
  | cons e es ih =>
    rw [List.foldl_cons, ih, ← addEntries_append, List.map_cons, List.singleton_append]

/-- A round over the blocks adds what the block it comes to adds. -/
theorem gatherNode_eq {nodes : List NodeParams} {i : Nat} {b : NodeParams}
    (hi : i < nodes.length % 2 ^ 32) (hb : nodes[i]? = some b) (nodeFqn : String) (g : Gathered) :
    gatherNode (some nodes) nodeFqn g i = .ok (addNode nodeFqn g b) := by
  have hnode : RclParams.node? (some nodes) (UInt32.ofNat i) = some b := by
    simp [RclParams.node?, toNat_ofNat_of_lt hi, hb]
  have hname : paramOverrideNodeName (some nodes) (UInt32.ofNat i) = .ok b.nodeName := by
    simp [paramOverrideNodeName, hnode]
  have hcount : (paramOverrideCount (some nodes) (UInt32.ofNat i)).toNat =
      b.params.length % 2 ^ 32 := by
    simp [paramOverrideCount, hnode]
  have hloop := foldlM_range (Nat.mod_le b.params.length (2 ^ 32))
    (fun g j e hj he => gatherEntry_eq hnode hj he (isWildcard b.nodeName) g) g
  simp only [gatherNode, hname, hcount, hloop, ok_bind, addNode]
  cases happ : applies b.nodeName nodeFqn with
  | false => rfl
  | true =>
    rw [foldl_addEntries]
    rfl

theorem gather_nodes (nodes : List NodeParams) (nodeFqn : String) :
    gather (some nodes) nodeFqn = .ok ((counted nodes).foldl (addNode nodeFqn) {}) := by
  have hloop := foldlM_range (Nat.mod_le nodes.length (2 ^ 32))
    (fun g i b hi hb => gatherNode_eq hi hb nodeFqn g) {}
  rw [gather, paramOverrideNodeCount, toNat_ofNat_length, hloop]
  rfl

/-- The buffers after all blocks. -/
theorem foldl_addNode (nodeFqn : String) (bs : List NodeParams) (g : Gathered) :
    bs.foldl (addNode nodeFqn) g =
      { wildcards := g.wildcards ++ (wildcardBlocks (bs.map readNode)).flatMap entries
        exact := g.exact ++ (ownBlocks nodeFqn (bs.map readNode)).flatMap entries } := by
  induction bs generalizing g with
  | nil => simp [wildcardBlocks, ownBlocks]
  | cons b bs ih =>
    rw [List.foldl_cons, ih]
    cases hw : isWildcard b.nodeName with
    | true =>
      have happ : applies b.nodeName nodeFqn = true := by simp [applies, hw]
      simp [addNode, addEntries, wildcardBlocks, ownBlocks, hw, happ]
    | false => cases happ : applies b.nodeName nodeFqn with
      | true => simp [addNode, addEntries, wildcardBlocks, ownBlocks, hw, happ]
      | false => simp [addNode, wildcardBlocks, ownBlocks, hw, happ]

/-- What the loops come to: the blocks the 32-bit count lets through, each cut likewise. -/
def reached (p : RclParams) : List NodeParams := (counted (p.getD [])).map readNode

/-- The loops go through, and this is what they gather. -/
theorem gather_eq (p : RclParams) (nodeFqn : String) : gather p nodeFqn = .ok
    { wildcards := (wildcardBlocks (reached p)).flatMap entries
      exact := (ownBlocks nodeFqn (reached p)).flatMap entries } := by
  cases p with
  | none => rfl
  | some nodes =>
    rw [gather_nodes, foldl_addNode]
    simp [reached]

/-! ## The table -/

/-- The last value that the blocks give a parameter. -/
def lastGiven (bs : List NodeParams) (pname : String) : Option ParameterValue :=
  (bs.flatMap entries).reverse.lookup pname

/-- Of equal keys the one inserted last stays. -/
theorem getElem?_replay (out : Std.HashMap String ParameterValue)
    (es : List (String × ParameterValue)) (pname : String) :
    (replay out es)[pname]? = (es.reverse.lookup pname).or out[pname]? := by
  induction es generalizing out with
  | nil => rfl
  | cons e es ih =>
    obtain ⟨k, v⟩ := e
    have hcons : replay out ((k, v) :: es) = replay (out.insert k v) es := rfl
    rw [hcons, ih, List.reverse_cons, List.lookup_append, Option.or_assoc,
      Std.HashMap.getElem?_insert]
    by_cases hk : k = pname
    · simp [hk, List.lookup_cons_self]
    · have hbeq : (pname == k) = false := beq_eq_false_iff_ne.mpr (Ne.symm hk)
      rw [List.lookup_cons, hbeq]
      simp [hk]

theorem collectOverrides_eq (p : RclParams) (nodeFqn : String) :
    ∃ t, collectOverrides p nodeFqn = .ok t ∧ ∀ pname, t[pname]? =
      (lastGiven (ownBlocks nodeFqn (reached p)) pname).or
        (lastGiven (wildcardBlocks (reached p)) pname) := by
  refine ⟨_, by rw [collectOverrides, gather_eq]; rfl, fun pname => ?_⟩
  simp [getElem?_replay, lastGiven]

theorem reached_of_small {p : RclParams} (hp : (p.getD []).length < 2 ^ 32)
    (hb : ∀ b ∈ p.getD [], b.params.length < 2 ^ 32) : reached p = p.getD [] := by
  have hread : ∀ b ∈ p.getD [], readNode b = b := by
    intro b hm
    rw [readNode, counted_of_lt (hb b hm)]
  rw [reached, counted_of_lt hp, List.map_congr_left hread, List.map_id']

/-- A name maps to the last value a block of the node's own gives it, else to the last one of a
wildcard block, among what the loops reach: everything, as long as the counts fit 32 bits. -/
theorem own_then_wildcard (p : RclParams) (nodeFqn : String) :
    (∃ t, collectOverrides p nodeFqn = .ok t ∧ ∀ pname, t[pname]? =
      (lastGiven (ownBlocks nodeFqn (reached p)) pname).or
        (lastGiven (wildcardBlocks (reached p)) pname)) ∧
    ((p.getD []).length < 2 ^ 32 → (∀ b ∈ p.getD [], b.params.length < 2 ^ 32) →
      reached p = p.getD []) :=
  ⟨collectOverrides_eq p nodeFqn, reached_of_small⟩

/-- The block that sets `rate` to 3 for the node `/n`. -/
def rateBlock : NodeParams := ⟨"/n", [⟨"rate", { integer_value := some 3 }, by decide⟩]⟩

/-- A block that names the node, before one for all nodes. -/
theorem own_then_wildcard_rate :
    reached (some [rateBlock, { rateBlock with nodeName := "/**" }]) =
      [rateBlock, { rateBlock with nodeName := "/**" }] :=
  (own_then_wildcard (some [rateBlock, { rateBlock with nodeName := "/**" }]) "/n").2
    (by simp) (by simp [rateBlock])

theorem reached_replicate (b : NodeParams) : reached (some (List.replicate (2 ^ 32) b)) = [] := by
  have hcounted : counted (List.replicate (2 ^ 32) b) = [] := by
    rw [counted, List.length_replicate, Nat.mod_self, List.take_zero]
  rw [reached, Option.getD_some, hcounted, List.map_nil]

/-- Of `2 ^ 32` blocks the count is zero, and the table stays empty. -/
theorem full_count_reads_nothing : ¬ ∀ (p : RclParams) (nodeFqn : String),
    ∃ t, collectOverrides p nodeFqn = .ok t ∧ ∀ pname, t[pname]? =
      (lastGiven (ownBlocks nodeFqn (p.getD [])) pname).or
        (lastGiven (wildcardBlocks (p.getD [])) pname) := by
  intro h
  obtain ⟨t, ht, hclaim⟩ := h (some (List.replicate (2 ^ 32) rateBlock)) "/n"
  obtain ⟨u, hu, htable⟩ := collectOverrides_eq (some (List.replicate (2 ^ 32) rateBlock)) "/n"
  obtain rfl : t = u := Except.ok.inj (ht.symm.trans hu)
  have hnone : t["rate"]? = none := by
    rw [htable, reached_replicate]
    rfl
  rw [hclaim, Option.or_eq_none_iff] at hnone
  have hown : rateBlock ∈ ownBlocks "/n" (List.replicate (2 ^ 32) rateBlock) := by
    refine List.mem_filter.mpr ⟨List.mem_replicate.mpr ⟨by decide, rfl⟩, by decide⟩
  have hmem : ("rate", .integer 3) ∈
      ((ownBlocks "/n" (List.replicate (2 ^ 32) rateBlock)).flatMap entries).reverse :=
    List.mem_reverse.mpr (List.mem_flatMap.mpr ⟨_, hown, List.mem_singleton.mpr rfl⟩)
  simpa using List.lookup_eq_none_iff.mp hnone.1 _ hmem

end Overrides
