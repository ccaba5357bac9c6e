import Mathlib.Tactic.IntervalCases

/-!
# Parameter values and their wire form

A value is one of nine kinds or unset; the message that carries it has a
numeric tag and a field for each kind. Reading undoes writing on every value,
and writing undoes reading on exactly the messages in which only the field
that the tag selects is filled.
-/
namespace Parameters

inductive ParameterType where
  | notSet | bool | integer | double | string
  | byteArray | boolArray | integerArray | doubleArray | stringArray
  deriving DecidableEq, Repr

namespace ParameterType

/-- The codes of the middleware's parameter types. -/
def toUInt8 : ParameterType → UInt8
  | .notSet => 0 | .bool => 1 | .integer => 2 | .double => 3 | .string => 4
  | .byteArray => 5 | .boolArray => 6 | .integerArray => 7
  | .doubleArray => 8 | .stringArray => 9

def ofUInt8? : UInt8 → Option ParameterType
  | 0 => some .notSet | 1 => some .bool | 2 => some .integer
  | 3 => some .double | 4 => some .string | 5 => some .byteArray
  | 6 => some .boolArray | 7 => some .integerArray | 8 => some .doubleArray
  | 9 => some .stringArray | _ => none

@[simp] theorem ofUInt8?_toUInt8 (t : ParameterType) : ofUInt8? t.toUInt8 = some t := by
  cases t <;> rfl

theorem toUInt8_le (t : ParameterType) : t.toUInt8 ≤ 9 := by cases t <;> decide

/-- The codes up to nine are all in use. -/
theorem exists_toUInt8 {n : UInt8} (h : n ≤ 9) : ∃ t : ParameterType, t.toUInt8 = n := by
  have hn : n.toNat ≤ 9 := UInt8.le_iff_toNat_le.mp h
  have hof : UInt8.ofNat n.toNat = n := UInt8.ofNat_toNat
  rw [← hof]
  interval_cases n.toNat
  · exact ⟨.notSet, rfl⟩
  · exact ⟨.bool, rfl⟩
  · exact ⟨.integer, rfl⟩
  · exact ⟨.double, rfl⟩
  · exact ⟨.string, rfl⟩
  · exact ⟨.byteArray, rfl⟩
  · exact ⟨.boolArray, rfl⟩
  · exact ⟨.integerArray, rfl⟩
  · exact ⟨.doubleArray, rfl⟩
  · exact ⟨.stringArray, rfl⟩

end ParameterType

/-- The constructors in the order of their codes. -/
inductive ParameterValue where
  | notSet
  | bool (v : Bool)
  | integer (v : Int64)
  | double (v : Float)
  | string (v : String)
  | byteArray (v : ByteArray)
  | boolArray (v : Array Bool)
  | integerArray (v : Array Int64)
  | doubleArray (v : Array Float)
  | stringArray (v : Array String)

def ParameterValue.type : ParameterValue → ParameterType
  | .notSet => .notSet
  | .bool _ => .bool
  | .integer _ => .integer
  | .double _ => .double
  | .string _ => .string
  | .byteArray _ => .byteArray
  | .boolArray _ => .boolArray
  | .integerArray _ => .integerArray
  | .doubleArray _ => .doubleArray
  | .stringArray _ => .stringArray

/-- `rcl_interfaces/msg/ParameterValue`. -/
structure WireValue where
  type : UInt8 := 0
  bool_value : Bool := false
  integer_value : Int64 := 0
  double_value : Float := 0.0
  string_value : String := ""
  byte_array_value : ByteArray := .empty
  bool_array_value : Array Bool := #[]
  integer_array_value : Array Int64 := #[]
  double_array_value : Array Float := #[]
  string_array_value : Array String := #[]

def ParameterValue.toWire (v : ParameterValue) : WireValue :=
  let base : WireValue := { type := v.type.toUInt8 }
  match v with
  | .notSet => base
  | .bool b => { base with bool_value := b }
  | .integer i => { base with integer_value := i }
  | .double d => { base with double_value := d }
  | .string s => { base with string_value := s }
  | .byteArray b => { base with byte_array_value := b }
  | .boolArray a => { base with bool_array_value := a }
  | .integerArray a => { base with integer_array_value := a }
  | .doubleArray a => { base with double_array_value := a }
  | .stringArray a => { base with string_array_value := a }

/-- A code that is not in use reads as unset. -/
def ParameterValue.ofWire (v : WireValue) : ParameterValue :=
  match ParameterType.ofUInt8? v.type with
  | some .bool => .bool v.bool_value
  | some .integer => .integer v.integer_value
  | some .double => .double v.double_value
  | some .string => .string v.string_value
  | some .byteArray => .byteArray v.byte_array_value
  | some .boolArray => .boolArray v.bool_array_value
  | some .integerArray => .integerArray v.integer_array_value
  | some .doubleArray => .doubleArray v.double_array_value
  | some .stringArray => .stringArray v.string_array_value
  | _ => .notSet

open ParameterValue

/-- Reading undoes writing. -/
theorem ofWire_toWire (v : ParameterValue) : ofWire v.toWire = v := by
  cases v <;> rfl

/-- Every field other than the one the tag selects holds its default. -/
structure WireValue.OnlySelected (w : WireValue) : Prop where
  bool_value : w.type ≠ 1 → w.bool_value = ({} : WireValue).bool_value
  integer_value : w.type ≠ 2 → w.integer_value = ({} : WireValue).integer_value
  double_value : w.type ≠ 3 → w.double_value = ({} : WireValue).double_value
  string_value : w.type ≠ 4 → w.string_value = ({} : WireValue).string_value
  byte_array_value : w.type ≠ 5 → w.byte_array_value = ({} : WireValue).byte_array_value
  bool_array_value : w.type ≠ 6 → w.bool_array_value = ({} : WireValue).bool_array_value
  integer_array_value : w.type ≠ 7 → w.integer_array_value = ({} : WireValue).integer_array_value
  double_array_value : w.type ≠ 8 → w.double_array_value = ({} : WireValue).double_array_value
  string_array_value : w.type ≠ 9 → w.string_array_value = ({} : WireValue).string_array_value

/-- What is written fills only the field its tag selects. -/
theorem onlySelected_toWire (v : ParameterValue) : v.toWire.OnlySelected := by
  cases v <;> constructor <;> intro h <;> first | rfl | exact absurd rfl h

theorem type_toWire_le (v : ParameterValue) : v.toWire.type ≤ 9 := by
  have h : v.toWire.type = v.type.toUInt8 := by cases v <;> rfl
  rw [h]
  exact v.type.toUInt8_le

/-- A message with a tag in use and nothing else filled is what its reading writes. -/
theorem toWire_ofWire {w : WireValue} (ht : w.type ≤ 9) (h : w.OnlySelected) :
    (ofWire w).toWire = w := by
  obtain ⟨t, htype⟩ := ParameterType.exists_toUInt8 ht
  obtain ⟨type, b, i, d, s, bs, ba, ia, da, sa⟩ := w
  obtain ⟨hb, hi, hd, hs, hbs, hba, hia, hda, hsa⟩ := h
  subst htype
  cases t <;> simp_all [ofWire, toWire, ParameterType.toUInt8, ParameterType.ofUInt8?,
    ParameterValue.type]

/-- Writing undoes reading on exactly the messages that could have been written. -/
theorem toWire_ofWire_iff (w : WireValue) :
    (ofWire w).toWire = w ↔ w.type ≤ 9 ∧ w.OnlySelected := by
  constructor
  · intro h
    rw [← h]
    exact ⟨type_toWire_le _, onlySelected_toWire _⟩
  · rintro ⟨ht, h⟩
    exact toWire_ofWire ht h

/-! ## Parameters and their constraints -/

def ParameterType.toString : ParameterType → String
  | .notSet => "not set" | .bool => "bool" | .integer => "integer"
  | .double => "double" | .string => "string" | .byteArray => "byte array"
  | .boolArray => "bool array" | .integerArray => "integer array"
  | .doubleArray => "double array" | .stringArray => "string array"

instance : ToString ParameterType := ⟨ParameterType.toString⟩

/-- Unset fits every type, and every value fits a type left open. -/
def ParameterValue.matchesType (v : ParameterValue) (t : ParameterType) : Bool :=
  v.type == t || v.type == .notSet || t == .notSet

def ParameterValue.asBool? : ParameterValue → Option Bool
  | .bool v => some v
  | _ => none

structure ParameterDescriptor where
  name : String := ""
  /-- The type the parameter is fixed to; `notSet` means any. -/
  type : ParameterType := .notSet
  description : String := ""
  additionalConstraints : String := ""
  readOnly : Bool := false
  dynamicTyping : Bool := false
  /-- Inclusive bounds. -/
  integerRange : Option (Int64 × Int64) := none
  floatingPointRange : Option (Float × Float) := none

/-- Whether a value satisfies the descriptor, and why not if it does not. -/
def ParameterDescriptor.check (d : ParameterDescriptor) (v : ParameterValue) :
    Except String Unit := do
  if d.type != .notSet && !d.dynamicTyping && !v.matchesType d.type then
    throw s!"parameter '{d.name}' is {d.type}, but a {v.type} was given"
  if let some (lo, hi) := d.integerRange then
    if let .integer i := v then
      if i < lo || i > hi then
        throw s!"parameter '{d.name}' must be between {lo} and {hi}, got {i}"
  if let some (lo, hi) := d.floatingPointRange then
    if let .double f := v then
      if f < lo || f > hi then
        throw s!"parameter '{d.name}' must be between {lo} and {hi}, got {f}"
  return ()

structure Parameter where
  name : String
  value : ParameterValue
  descriptor : ParameterDescriptor := {}

/-- The type, unless it is left open or may change, and the bounds on numbers. -/
structure ParameterDescriptor.Admits (d : ParameterDescriptor) (v : ParameterValue) : Prop where
  type : d.type = .notSet ∨ d.dynamicTyping = true ∨ v.type = d.type ∨ v.type = .notSet
  integer : ∀ lo hi i, d.integerRange = some (lo, hi) → v = .integer i → ¬ (i < lo ∨ i > hi)
  double : ∀ lo hi f, d.floatingPointRange = some (lo, hi) → v = .double f → ¬ (f < lo ∨ f > hi)

theorem refuses_type_iff (d : ParameterDescriptor) (v : ParameterValue) :
    (d.type != .notSet && !d.dynamicTyping && !v.matchesType d.type) = false ↔
      (d.type = .notSet ∨ d.dynamicTyping = true ∨ v.type = d.type ∨ v.type = .notSet) := by
  by_cases ht : d.type = .notSet
  · simp [ht]
  · cases d.dynamicTyping <;> simp [ParameterValue.matchesType, ht, or_iff_not_imp_left]

/-- A check that raises or goes on. -/
theorem guard_ok_iff {c : Bool} {e : String} {k : Unit → Except String Unit} :
    (if c = true then (throw e >>= k) else k ()) = .ok () ↔ c = false ∧ k () = .ok () := by
  cases c with
  | true => simp [throw, throwThe, MonadExceptOf.throw, bind, Except.bind]
  | false => simp

/-- The check lets exactly the admitted values through. -/
theorem check_ok_iff (d : ParameterDescriptor) (v : ParameterValue) :
    d.check v = .ok () ↔ d.Admits v := by
  have hadmits : d.Admits v ↔ _ ∧ _ ∧ _ :=
    ⟨fun h => ⟨h.type, h.integer, h.double⟩, fun h => ⟨h.1, h.2.1, h.2.2⟩⟩
  rw [hadmits, ← refuses_type_iff, ParameterDescriptor.check]
  rcases hint : d.integerRange with _ | ⟨lo, hi⟩ <;>
    rcases hdbl : d.floatingPointRange with _ | ⟨lo', hi'⟩ <;>
    cases v <;> simp only [guard_ok_iff] <;> simp [pure, Except.pure]

/-- What nothing is said about admits everything. -/
theorem admits_default (v : ParameterValue) : ({} : ParameterDescriptor).Admits v :=
  ⟨.inl rfl, by simp, by simp⟩

end Parameters
