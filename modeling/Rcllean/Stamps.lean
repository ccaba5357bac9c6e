import Mathlib.Data.Int.Basic

/-!
# Times in messages

A message carries a time as seconds and nanoseconds of 32 bits each. The node
writes its nanoseconds since the epoch that way into its events, and reads the
simulation's clock back from it.
-/
namespace Stamps

/-- `builtin_interfaces/msg/Time`. -/
structure Stamp where
  sec : Int32
  nanosec : UInt32
  deriving DecidableEq, Repr

/-- As `publishEvent` stamps an event. Division and remainder are those of `Int64`, which round
towards zero. -/
def ofNanos (nanos : Int64) : Stamp where
  sec := Int32.ofInt (nanos / 1000000000).toInt
  nanosec := UInt32.ofNat (nanos % 1000000000).toInt.toNat

/-- As the subscription of a time source reads a clock message. -/
def toNanos (stamp : Stamp) : Int64 :=
  Int64.ofInt (stamp.sec.toInt * 1000000000 + stamp.nanosec.toNat)

/-! ## In integers -/

theorem toInt_toNanos (w : Stamp) :
    (toNanos w).toInt = w.sec.toInt * 1000000000 + w.nanosec.toNat := by
  have hlo := w.sec.le_toInt
  have hhi := w.sec.toInt_lt
  have hnano := w.nanosec.toNat_lt
  exact Int64.toInt_ofInt_of_le (by omega) (by omega)

theorem sec_ofNanos (n : Int64) :
    (ofNanos n).sec = Int32.ofInt (n.toInt.tdiv 1000000000) := by
  rw [ofNanos, Int64.toInt_div_of_ne_right _ _ (by decide)]
  rfl

theorem nanosec_ofNanos (n : Int64) :
    (ofNanos n).nanosec.toNat = (n.toInt.tmod 1000000000).toNat := by
  have hmod : (n % 1000000000).toInt = n.toInt.tmod 1000000000 := Int64.toInt_mod n 1000000000
  have hlt := Int.tmod_lt_of_pos n.toInt (show (0 : Int) < 1000000000 by decide)
  rw [ofNanos, hmod]
  exact UInt32.toNat_ofNat_of_lt (by rw [UInt32.size]; omega)

/-- A quotient that rounds towards zero leaves a remainder of its dividend's sign. -/
theorem tmod_cases (n : Int) : n.tdiv 1000000000 * 1000000000 + n.tmod 1000000000 = n ∧
    (0 ≤ n ∧ 0 ≤ n.tmod 1000000000 ∨ n < 0 ∧ n.tmod 1000000000 ≤ 0) ∧
    -1000000000 < n.tmod 1000000000 ∧ n.tmod 1000000000 < 1000000000 := by
  refine ⟨Int.tdiv_mul_add_tmod n 1000000000, ?_, Int.lt_tmod_of_pos n (by decide),
    Int.tmod_lt_of_pos n (by decide)⟩
  by_cases hn : 0 ≤ n
  · exact .inl ⟨hn, Int.tmod_nonneg _ hn⟩
  · right
    have hneg := Int.tmod_nonneg 1000000000 (show 0 ≤ -n by omega)
    rw [Int.neg_tmod] at hneg
    omega

/-! ## Round trips -/

/-- Written and read back, a time is what it was exactly when its seconds fit and it is not
before the epoch, unless by whole seconds. -/
theorem toNanos_ofNanos_iff (n : Int64) : toNanos (ofNanos n) = n ↔
    -2147483648 * 1000000000 ≤ n.toInt ∧ n.toInt < 2147483648 * 1000000000 ∧
      (0 ≤ n.toInt ∨ 1000000000 ∣ n.toInt) := by
  obtain ⟨hsplit, hsign, hlo, hhi⟩ := tmod_cases n.toInt
  rw [← Int64.toInt_inj, toInt_toNanos, nanosec_ofNanos, sec_ofNanos]
  constructor
  · intro h
    have hmin := (Int32.ofInt (n.toInt.tdiv 1000000000)).le_toInt
    have hmax := (Int32.ofInt (n.toInt.tdiv 1000000000)).toInt_lt
    omega
  · rintro ⟨hmin, hmax, hwhole⟩
    rw [Int32.toInt_ofInt_of_le (by omega) (by omega)]
    omega

/-- Read and written again, a stamp is what it was exactly when its nanoseconds make up less than a
second and none of it is before the epoch, unless by whole seconds. -/
theorem ofNanos_toNanos_iff (w : Stamp) : ofNanos (toNanos w) = w ↔
    w.nanosec.toNat < 1000000000 ∧ (0 ≤ w.sec.toInt ∨ w.nanosec.toNat = 0) := by
  obtain ⟨hsplit, hsign, hlo, hhi⟩ := tmod_cases (toNanos w).toInt
  have hnano := nanosec_ofNanos (toNanos w)
  have hsec := sec_ofNanos (toNanos w)
  rw [toInt_toNanos] at hsplit hsign hlo hhi hnano hsec
  have hmin := w.sec.le_toInt
  have hmax := w.sec.toInt_lt
  constructor
  · intro h
    rw [h] at hnano hsec
    omega
  · rintro ⟨hlt, hepoch⟩
    have hquot : (w.sec.toInt * 1000000000 + w.nanosec.toNat).tdiv 1000000000 = w.sec.toInt := by
      omega
    rw [hquot, Int32.ofInt_toInt] at hsec
    have hrest : (ofNanos (toNanos w)).nanosec = w.nanosec :=
      UInt32.toNat_inj.mp (by omega)
    exact congrArg₂ Stamp.mk hsec hrest

/-- On the stamps with less than a second of nanoseconds, and on the times since the epoch whose
seconds fit, writing and reading are inverse; on no others but whole seconds before the epoch. -/
theorem stamps_round_trip : (∀ n : Int64, toNanos (ofNanos n) = n ↔
      -2147483648 * 1000000000 ≤ n.toInt ∧ n.toInt < 2147483648 * 1000000000 ∧
        (0 ≤ n.toInt ∨ 1000000000 ∣ n.toInt)) ∧
    ∀ w : Stamp, ofNanos (toNanos w) = w ↔
      w.nanosec.toNat < 1000000000 ∧ (0 ≤ w.sec.toInt ∨ w.nanosec.toNat = 0) :=
  ⟨toNanos_ofNanos_iff, ofNanos_toNanos_iff⟩

end Stamps
