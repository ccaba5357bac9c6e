import Mathlib.Algebra.Group.Nat.Defs
import Rcllean.Parameters
import Rcllean.WaitSet

/-!
# Command-line overrides as rcl reports them

rcl parses overrides into blocks, one for each node name written, and each
block holds named variants with a pointer for every kind of value. They are
handed over one by one through 32-bit indices, each variant rebuilt as the
message a parameter value would be written to.
-/
namespace ParamOverrides

open Parameters ParameterValue WaitSets

/-- `rcl_variant_t`: a pointer for each kind, NULL where it is not set. -/
structure RclVariant where
  bool_value : Option Bool := none
  integer_value : Option Int64 := none
  double_value : Option Float := none
  string_value : Option String := none
  byte_array_value : Option (Array UInt8) := none
  bool_array_value : Option (Array Bool) := none
  integer_array_value : Option (Array Int64) := none
  double_array_value : Option (Array Float) := none
  string_array_value : Option (Array String) := none

/-- The values that the members which are set hold, in the order of the fields. -/
def RclVariant.members (v : RclVariant) : List ParameterValue :=
  [v.bool_value.map .bool, v.integer_value.map .integer, v.double_value.map .double,
    v.string_value.map .string, v.byte_array_value.map (.byteArray ⟨·⟩),
    v.bool_array_value.map .boolArray, v.integer_array_value.map .integerArray,
    v.double_array_value.map .doubleArray, v.string_array_value.map .stringArray].filterMap id

/-! ## Building the message -/

/-- `rcllean_param_value_t`. -/
structure ParamValue where
  type : UInt8
  bool_value : UInt8
  integer_value : Int64
  double_value : Float
  string_value : String
  byte_array_value : ByteArray
  bool_array_value : Array Bool
  integer_array_value : Array Int64
  double_array_value : Array Float
  string_array_value : Array String

def mkRawBytes (data : Array UInt8) : ByteArray := ⟨data⟩

def paramValueInit (type : UInt8) : ParamValue where
  type
  bool_value := 0
  integer_value := 0
  double_value := 0.0
  string_value := ""
  byte_array_value := mkRawBytes #[]
  bool_array_value := #[]
  integer_array_value := #[]
  double_array_value := #[]
  string_array_value := #[]

/-- The generated constructor, which stores its arguments; scalars cross as machine words. -/
def wireValueMk (type bool_value : UInt8) (integer_value : UInt64) (double_value : Float)
    (string_value : String) (byte_array_value : ByteArray) (bool_array_value : Array Bool)
    (integer_array_value : Array Int64) (double_array_value : Array Float)
    (string_array_value : Array String) : WireValue where
  type
  bool_value := bool_value != 0
  integer_value := integer_value.toInt64
  double_value
  string_value
  byte_array_value
  bool_array_value
  integer_array_value
  double_array_value
  string_array_value

def paramValueMk (v : ParamValue) : WireValue :=
  wireValueMk v.type v.bool_value v.integer_value.toUInt64 v.double_value v.string_value
    v.byte_array_value v.bool_array_value v.integer_array_value v.double_array_value
    v.string_array_value

/-- Allocate as many slots as there are values, then fill them from the first to the last. -/
def copyValues {α β : Type} (blank : β) (f : α → β) (values : Array α) : Array β :=
  (List.range values.size).foldl
    (fun out k => match values[k]? with
      | some x => out.setIfInBounds k (f x)
      | none => out)
    (Array.replicate values.size blank)

/-- The first member that is set decides. -/
def overrideValue (v : RclVariant) : Except Failure WireValue :=
  match v.bool_value with
  | some b => .ok (paramValueMk { paramValueInit 1 with bool_value := if b then 1 else 0 })
  | none => match v.integer_value with
  | some i => .ok (paramValueMk { paramValueInit 2 with integer_value := i })
  | none => match v.double_value with
  | some d => .ok (paramValueMk { paramValueInit 3 with double_value := d })
  | none => match v.string_value with
  | some s => .ok (paramValueMk { paramValueInit 4 with string_value := s })
  | none => match v.byte_array_value with
  | some bs => .ok (paramValueMk { paramValueInit 5 with byte_array_value := mkRawBytes bs })
  | none => match v.bool_array_value with
  | some bs =>
    .ok (paramValueMk { paramValueInit 6 with bool_array_value := copyValues false id bs })
  | none => match v.integer_array_value with
  | some is => .ok (paramValueMk { paramValueInit 7 with
      integer_array_value := copyValues 0 (fun i => i.toUInt64.toInt64) is })
  | none => match v.double_array_value with
  | some ds => .ok (paramValueMk { paramValueInit 8 with
      double_array_value := copyValues 0.0 id ds })
  | none => match v.string_array_value with
  | some ss => .ok (paramValueMk { paramValueInit 9 with
      string_array_value := copyValues "" id ss })
  | none => .error (.message "paramOverrideValue" "override has no value set")

/-- After `n` rounds the first `n` slots are filled and the others as allocated. -/
theorem copyValues_loop {α β : Type} (blank : β) (f : α → β) (values : Array α) {n : Nat}
    (hn : n ≤ values.size) :
    (List.range n).foldl
      (fun out k => match values[k]? with
        | some x => out.setIfInBounds k (f x)
        | none => out)
      (Array.replicate values.size blank) =
    ((values.toList.take n).map f ++ List.replicate (values.size - n) blank).toArray := by
  induction n with
  | zero => simp
  | succ n ih =>
    have hlt : n < values.size := hn
    have hget : values[n]? = some values[n] := Array.getElem?_eq_getElem hlt
    have hrest : values.size - n = (values.size - (n + 1)) + 1 := by omega
    have htake : values.toList.take (n + 1) = values.toList.take n ++ [values[n]] := by
      simp [List.take_add_one, hget]
    rw [List.range_succ, List.foldl_append, ih (by omega), hrest, List.replicate_succ, htake]
    simp [hget, hlt.le]

theorem copyValues_eq {α β : Type} (blank : β) (f : α → β) (values : Array α) :
    copyValues blank f values = values.map f := by
  rw [copyValues, copyValues_loop blank f values (Nat.le_refl _)]
  apply Array.toList_inj.mp
  have htake : values.toList.take values.size = values.toList :=
    List.take_of_length_le (by simp)
  simp [htake]

/-- The message is the one that the first member which is set would be written to. -/
theorem overrideValue_eq (v : RclVariant) : overrideValue v = match v.members with
    | [] => .error (.message "paramOverrideValue" "override has no value set")
    | p :: _ => .ok p.toWire := by
  unfold overrideValue
  split
  · next b hb => cases b <;> simp [RclVariant.members, hb] <;> rfl
  split
  · next i hi => simp [RclVariant.members, *]; rfl
  split
  · next d hd => simp [RclVariant.members, *]; rfl
  split
  · next s hs => simp [RclVariant.members, *]; rfl
  split
  · next bs hbs => simp [RclVariant.members, *]; rfl
  split
  · next bs hbs => simp [RclVariant.members, copyValues_eq, *]; rfl
  split
  · next is his => simp [RclVariant.members, copyValues_eq, *]; rfl
  split
  · next ds hds => simp [RclVariant.members, copyValues_eq, *]; rfl
  split
  · next ss hss => simp [RclVariant.members, copyValues_eq, *]; rfl
  · simp [RclVariant.members, *]

/-! ## The queries -/

/-- An entry of `rcl_node_params_t`: a name and a variant in which a member is set. -/
structure ParamEntry where
  name : String
  value : RclVariant
  isSet : value.members ≠ []

def ParamEntry.payload (e : ParamEntry) : ParameterValue := e.value.members.head e.isSet

/-- The node name an override block is written for, and its parameters. -/
structure NodeParams where
  nodeName : String
  params : List ParamEntry

/-- `rcl_params_t`; there is none when the context is torn down or rcl reports no overrides. -/
abbrev RclParams := Option (List NodeParams)

def RclParams.node? (p : RclParams) (i : UInt32) : Option NodeParams := p.bind (·[i.toNat]?)

def RclParams.entry? (p : RclParams) (i j : UInt32) : Option ParamEntry :=
  (p.node? i).bind (·.params[j.toNat]?)

/-- The number of blocks is cast to 32 bits. -/
def paramOverrideNodeCount : RclParams → UInt32
  | none => 0
  | some nodes => UInt32.ofNat nodes.length

def paramOverrideNodeName (p : RclParams) (i : UInt32) : Except Failure String :=
  match p.node? i with
  | none => .error (.message "paramOverrideNodeName" "index out of range")
  | some b => .ok b.nodeName

/-- The number of parameters is cast to 32 bits. -/
def paramOverrideCount (p : RclParams) (i : UInt32) : UInt32 :=
  match p.node? i with
  | none => 0
  | some b => UInt32.ofNat b.params.length

def paramOverrideName (p : RclParams) (i j : UInt32) : Except Failure String :=
  match p.entry? i j with
  | none => .error (.message "paramOverrideName" "index out of range")
  | some e => .ok e.name

def paramOverrideValue (p : RclParams) (i j : UInt32) : Except Failure WireValue :=
  match p.entry? i j with
  | none => .error (.message "paramOverrideValue" "index out of range")
  | some e => overrideValue e.value

theorem overrideValue_entry (e : ParamEntry) : overrideValue e.value = .ok e.payload.toWire := by
  rw [overrideValue_eq]
  cases h : e.value.members with
  | nil => exact absurd h e.isSet
  | cons p ps => simp [ParamEntry.payload, h]

/-- Reading undoes writing, writing undoes reading on the messages that could have been written,
and a variant with one member set crosses as the message its value would be written to. -/
theorem parameter_values_survive :
    (∀ v : ParameterValue, ofWire v.toWire = v) ∧
    (∀ w : WireValue, (ofWire w).toWire = w ↔ w.type ≤ 9 ∧ w.OnlySelected) ∧
    ∀ (p : RclParams) (i j : UInt32) (e : ParamEntry) (v : ParameterValue),
      p.entry? i j = some e → e.value.members = [v] →
      paramOverrideValue p i j = .ok v.toWire ∧
        (paramOverrideValue p i j).map ofWire = .ok v := by
  refine ⟨ofWire_toWire, toWire_ofWire_iff, fun p i j e v he hv => ?_⟩
  have hvalue : paramOverrideValue p i j = .ok v.toWire := by
    simp [paramOverrideValue, he, overrideValue_eq, hv]
  constructor
  · exact hvalue
  · rw [hvalue, Except.map, ofWire_toWire]

/-- An override `rate:=3`, the only one on the command line. -/
theorem parameter_values_survive_integer :
    paramOverrideValue (some [⟨"/n", [⟨"rate", { integer_value := some 3 }, by decide⟩]⟩]) 0 0 =
        .ok (ParameterValue.integer 3).toWire ∧
      (paramOverrideValue (some [⟨"/n", [⟨"rate", { integer_value := some 3 }, by decide⟩]⟩])
        0 0).map ofWire = .ok (.integer 3) :=
  parameter_values_survive.2.2 _ 0 0 _ _ rfl rfl

end ParamOverrides
