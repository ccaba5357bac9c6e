import Mathlib.Tactic.Linarith

/-!
# Quality of service profiles on both sides of the boundary

A profile carries optional signed nanoseconds; the middleware is given unsigned
second and nanosecond pairs in which all zeros stand for no value. The
predicate the library evaluates beforehand is compared with the DDS
request-versus-offer rule on what the middleware receives, and the pairs of
durations on which the two differ are worked out exactly.
-/
namespace QoS

structure Duration where
  nanos : Int64
  deriving DecidableEq, Repr

inductive HistoryPolicy where
  | systemDefault | keepLast | keepAll | unknown
  deriving DecidableEq, Repr

inductive ReliabilityPolicy where
  | systemDefault | reliable | bestEffort | unknown | bestAvailable
  deriving DecidableEq, Repr

inductive DurabilityPolicy where
  | systemDefault | transientLocal | volatile | unknown | bestAvailable
  deriving DecidableEq, Repr

inductive LivelinessPolicy where
  | systemDefault | automatic | manualByTopic | unknown | bestAvailable
  deriving DecidableEq, Repr

def HistoryPolicy.toUInt8 : HistoryPolicy → UInt8
  | .systemDefault => 0 | .keepLast => 1 | .keepAll => 2 | .unknown => 3

def ReliabilityPolicy.toUInt8 : ReliabilityPolicy → UInt8
  | .systemDefault => 0 | .reliable => 1 | .bestEffort => 2 | .unknown => 3 | .bestAvailable => 4

def DurabilityPolicy.toUInt8 : DurabilityPolicy → UInt8
  | .systemDefault => 0 | .transientLocal => 1 | .volatile => 2 | .unknown => 3
  | .bestAvailable => 4

/-- `manualByTopic` is 3: rmw keeps 2 for a policy that was removed. -/
def LivelinessPolicy.toUInt8 : LivelinessPolicy → UInt8
  | .systemDefault => 0 | .automatic => 1 | .manualByTopic => 3 | .unknown => 4
  | .bestAvailable => 5

structure QoSProfile where
  history : HistoryPolicy := .keepLast
  depth : Nat := 10
  reliability : ReliabilityPolicy := .reliable
  durability : DurabilityPolicy := .volatile
  deadline : Option Duration := none
  lifespan : Option Duration := none
  liveliness : LivelinessPolicy := .systemDefault
  livelinessLeaseDuration : Option Duration := none
  avoidRosNamespaceConventions : Bool := false
  deriving DecidableEq, Repr

/-! ## What the middleware receives -/

/-- `rmw_time_t`. -/
structure RmwTime where
  sec : UInt64
  nsec : UInt64
  deriving DecidableEq, Repr

/-- `rmw_qos_profile_t`, the policies as their codes. -/
structure RmwQoSProfile where
  history : UInt8
  depth : UInt64
  reliability : UInt8
  durability : UInt8
  deadline : RmwTime
  lifespan : RmwTime
  liveliness : UInt8
  livelinessLeaseDuration : RmwTime
  avoidRosNamespaceConventions : Bool
  deriving DecidableEq, Repr

def timeOfNanos (nanos : Int64) : RmwTime :=
  if nanos ≤ 0 then ⟨0, 0⟩
  else ⟨(nanos / 1000000000).toUInt64, (nanos % 1000000000).toUInt64⟩

/-- The durations cross as 64-bit words and are read back as signed. -/
def qosCreate (history : UInt8) (depth : UInt64) (reliability durability : UInt8)
    (deadlineNs lifespanNs : UInt64) (liveliness : UInt8) (leaseNs : UInt64)
    (avoidRosConventions : Bool) : RmwQoSProfile where
  history
  depth
  reliability
  durability
  deadline := timeOfNanos deadlineNs.toInt64
  lifespan := timeOfNanos lifespanNs.toInt64
  liveliness
  livelinessLeaseDuration := timeOfNanos leaseNs.toInt64
  avoidRosNamespaceConventions := avoidRosConventions

/-- An absent duration crosses as zero. -/
def nanosOf (d : Option Duration) : Int64 := (d.map (·.nanos)).getD 0

def QoSProfile.toFFI (q : QoSProfile) : RmwQoSProfile :=
  qosCreate q.history.toUInt8 (UInt64.ofNat q.depth) q.reliability.toUInt8 q.durability.toUInt8
    (nanosOf q.deadline).toUInt64 (nanosOf q.lifespan).toUInt64 q.liveliness.toUInt8
    (nanosOf q.livelinessLeaseDuration).toUInt64 q.avoidRosNamespaceConventions

/-! ## The predicate -/

def reliabilityCompatible (offered requested : ReliabilityPolicy) : Bool :=
  match offered, requested with
  | .systemDefault, _ | _, .systemDefault => true
  | .bestAvailable, _ | _, .bestAvailable => true
  | .unknown, _ | _, .unknown => true
  | .reliable, _ => true
  | .bestEffort, .bestEffort => true
  | .bestEffort, .reliable => false

def durabilityCompatible (offered requested : DurabilityPolicy) : Bool :=
  match offered, requested with
  | .systemDefault, _ | _, .systemDefault => true
  | .bestAvailable, _ | _, .bestAvailable => true
  | .unknown, _ | _, .unknown => true
  | .transientLocal, _ => true
  | .volatile, .volatile => true
  | .volatile, .transientLocal => false

/-- Used for the deadline and for the liveliness lease. -/
def deadlineCompatible (offered requested : Option Duration) : Bool :=
  match requested, offered with
  | none, _ => true
  | some _, none => false
  | some r, some o => o.nanos ≤ r.nanos

def livelinessCompatible (offered requested : LivelinessPolicy) : Bool :=
  match offered, requested with
  | .systemDefault, _ | _, .systemDefault => true
  | .bestAvailable, _ | _, .bestAvailable => true
  | .unknown, _ | _, .unknown => true
  | .manualByTopic, _ => true
  | .automatic, .automatic => true
  | .automatic, .manualByTopic => false

def compatible (pub sub : QoSProfile) : Bool :=
  reliabilityCompatible pub.reliability sub.reliability &&
  durabilityCompatible pub.durability sub.durability &&
  deadlineCompatible pub.deadline sub.deadline &&
  livelinessCompatible pub.liveliness sub.liveliness &&
  deadlineCompatible pub.livelinessLeaseDuration sub.livelinessLeaseDuration

/-! ## The DDS rule on rmw profiles -/

/-- The strength of a policy code; `none` for a code that matches anything. -/
def reliabilityStrength : UInt8 → Option Nat
  | 1 => some 1 | 2 => some 0 | _ => none

def durabilityStrength : UInt8 → Option Nat
  | 1 => some 1 | 2 => some 0 | _ => none

def livelinessStrength : UInt8 → Option Nat
  | 1 => some 0 | 3 => some 1 | _ => none

/-- The offer is at least as strong as the request. -/
def policyMatches (strength : UInt8 → Option Nat) (offered requested : UInt8) : Bool :=
  match strength offered, strength requested with
  | some o, some r => r ≤ o
  | _, _ => true

/-- All zeros: nothing requested, or nothing promised. -/
def RmwTime.infinite (t : RmwTime) : Bool := t.sec == 0 && t.nsec == 0

def RmwTime.le (a b : RmwTime) : Bool :=
  decide (a.sec < b.sec) || (a.sec == b.sec && decide (a.nsec ≤ b.nsec))

/-- The offered time is no longer than the requested one. -/
def timeMatches (offered requested : RmwTime) : Bool :=
  requested.infinite || (!offered.infinite && offered.le requested)

def ddsMatches (pub sub : RmwQoSProfile) : Bool :=
  policyMatches reliabilityStrength pub.reliability sub.reliability &&
  policyMatches durabilityStrength pub.durability sub.durability &&
  timeMatches pub.deadline sub.deadline &&
  policyMatches livelinessStrength pub.liveliness sub.liveliness &&
  timeMatches pub.livelinessLeaseDuration sub.livelinessLeaseDuration

/-! ## The policies agree -/

theorem reliability_matches (o r : ReliabilityPolicy) :
    policyMatches reliabilityStrength o.toUInt8 r.toUInt8 = reliabilityCompatible o r := by
  cases o <;> cases r <;> rfl

theorem durability_matches (o r : DurabilityPolicy) :
    policyMatches durabilityStrength o.toUInt8 r.toUInt8 = durabilityCompatible o r := by
  cases o <;> cases r <;> rfl

theorem liveliness_matches (o r : LivelinessPolicy) :
    policyMatches livelinessStrength o.toUInt8 r.toUInt8 = livelinessCompatible o r := by
  cases o <;> cases r <;> rfl

/-! ## Where the durations do not -/

/-- A positive request that no offer, or only a longer one, stands against. -/
def bothRefuse (offered requested : Option Duration) : Bool :=
  match requested, offered with
  | none, _ => false
  | some r, none => 0 < r.nanos
  | some r, some o => 0 < r.nanos && r.nanos < o.nanos

/-- A zero or negative request, which rmw takes for no request, against no offer or a longer one. -/
def onlyPredicateRefuses (offered requested : Option Duration) : Bool :=
  match requested, offered with
  | none, _ => false
  | some r, none => r.nanos ≤ 0
  | some r, some o => r.nanos ≤ 0 && r.nanos < o.nanos

/-- A zero or negative offer, which rmw takes for no promise, against a positive request. -/
def onlyRmwRefuses (offered requested : Option Duration) : Bool :=
  match requested, offered with
  | some r, some o => 0 < r.nanos && o.nanos ≤ 0
  | _, _ => false

theorem deadlineCompatible_eq (o r : Option Duration) :
    deadlineCompatible o r = !(bothRefuse o r || onlyPredicateRefuses o r) := by
  cases r with
  | none => rfl
  | some r => cases o with
    | none =>
      by_cases hr : 0 < r.nanos
      · simp [deadlineCompatible, bothRefuse, hr]
      · simp [deadlineCompatible, onlyPredicateRefuses, Int64.not_lt.mp hr]
    | some o =>
      by_cases ho : o.nanos ≤ r.nanos
      · simp [deadlineCompatible, bothRefuse, onlyPredicateRefuses, ho, Int64.not_lt.mpr ho]
      · have hlt := Int64.not_le.mp ho
        by_cases hr : 0 < r.nanos
        · simp [deadlineCompatible, bothRefuse, ho, hlt, hr]
        · simp [deadlineCompatible, onlyPredicateRefuses, ho, hlt, Int64.not_lt.mp hr]

theorem infinite_of_nonpos {n : Int64} (h : n ≤ 0) : (timeOfNanos n).infinite = true := by
  simp [timeOfNanos, h, RmwTime.infinite]

/-- A positive count splits into seconds and the nanoseconds that are left. -/
theorem timeOfNanos_toNat {n : Int64} (h : 0 < n) :
    (timeOfNanos n).sec.toNat = n.toInt.toNat / 1000000000 ∧
      (timeOfNanos n).nsec.toNat = n.toInt.toNat % 1000000000 := by
  have hn : ¬ n ≤ 0 := Int64.not_le.mpr h
  have hpos : 0 < n.toInt := Int64.lt_iff_toInt_lt.mp h
  have hlit : (1000000000 : Int64).toInt = 1000000000 := by decide
  have hdiv : (n / 1000000000).toInt = n.toInt / 1000000000 := by
    rw [Int64.toInt_div_of_ne_right _ _ (by decide), hlit, Int.tdiv_eq_ediv_of_nonneg hpos.le]
  have hmod : (n % 1000000000).toInt = n.toInt % 1000000000 := by
    rw [Int64.toInt_mod, hlit, Int.tmod_eq_emod_of_nonneg hpos.le]
  have hdivNonneg : 0 ≤ n / 1000000000 := by
    rw [Int64.le_iff_toInt_le, hdiv, Int64.toInt_zero]
    omega
  have hmodNonneg : 0 ≤ n % 1000000000 := by
    rw [Int64.le_iff_toInt_le, hmod, Int64.toInt_zero]
    omega
  simp only [timeOfNanos, hn, if_false, Int64.toNat_toUInt64_of_le hdivNonneg,
    Int64.toNat_toUInt64_of_le hmodNonneg, ← Int64.toNat_toInt, hdiv, hmod]
  omega

theorem not_infinite_of_pos {n : Int64} (h : 0 < n) : (timeOfNanos n).infinite = false := by
  obtain ⟨hs, hns⟩ := timeOfNanos_toNat h
  have hpos : 0 < n.toInt := Int64.lt_iff_toInt_lt.mp h
  by_contra hc
  simp only [RmwTime.infinite, Bool.not_eq_false, Bool.and_eq_true, beq_iff_eq] at hc
  rw [hc.1] at hs
  rw [hc.2] at hns
  simp only [UInt64.toNat_zero] at hs hns
  omega

/-- Second and nanosecond pairs are in the order of the counts they come from. -/
theorem timeOfNanos_le {a b : Int64} (ha : 0 < a) (hb : 0 < b) :
    (timeOfNanos a).le (timeOfNanos b) = decide (a ≤ b) := by
  obtain ⟨has, hans⟩ := timeOfNanos_toNat ha
  obtain ⟨hbs, hbns⟩ := timeOfNanos_toNat hb
  have ha' : 0 < a.toInt := Int64.lt_iff_toInt_lt.mp ha
  have hb' : 0 < b.toInt := Int64.lt_iff_toInt_lt.mp hb
  rw [Bool.eq_iff_iff]
  simp only [RmwTime.le, Bool.or_eq_true, Bool.and_eq_true, decide_eq_true_eq, beq_iff_eq,
    UInt64.lt_iff_toNat_lt, UInt64.le_iff_toNat_le, ← UInt64.toNat_inj, has, hans, hbs, hbns,
    Int64.le_iff_toInt_le]
  omega

/-- What the middleware makes of an offered and a requested duration. -/
theorem timeMatches_eq (o r : Option Duration) :
    timeMatches (timeOfNanos (nanosOf o)) (timeOfNanos (nanosOf r)) =
      !(bothRefuse o r || onlyRmwRefuses o r) := by
  cases r with
  | none => simp [timeMatches, nanosOf, infinite_of_nonpos, bothRefuse, onlyRmwRefuses]
  | some r =>
    by_cases hr : 0 < r.nanos
    · cases o with
      | none =>
        simp [timeMatches, nanosOf, infinite_of_nonpos, not_infinite_of_pos hr, bothRefuse, hr]
      | some o =>
        by_cases ho : 0 < o.nanos
        · have hle : decide (o.nanos ≤ r.nanos) = !decide (r.nanos < o.nanos) := by
            rw [Bool.eq_iff_iff]; simp
          simp [timeMatches, nanosOf, not_infinite_of_pos, timeOfNanos_le, bothRefuse,
            onlyRmwRefuses, hr, ho, hle]
        · simp [timeMatches, nanosOf, not_infinite_of_pos hr,
            infinite_of_nonpos (Int64.not_lt.mp ho), bothRefuse, onlyRmwRefuses, hr,
            Int64.not_lt.mp ho]
    · have hr' := Int64.not_lt.mp hr
      cases o <;>
        simp [timeMatches, nanosOf, infinite_of_nonpos hr', bothRefuse, onlyRmwRefuses, hr]

/-- The reliability, durability and liveliness policies let the two profiles connect. -/
def policiesCompatible (pub sub : QoSProfile) : Bool :=
  reliabilityCompatible pub.reliability sub.reliability &&
  durabilityCompatible pub.durability sub.durability &&
  livelinessCompatible pub.liveliness sub.liveliness

/-- A test on an offered and a requested duration fires on the deadlines or on the leases. -/
def eitherPair (refuses : Option Duration → Option Duration → Bool) (pub sub : QoSProfile) : Bool :=
  refuses pub.deadline sub.deadline ||
    refuses pub.livelinessLeaseDuration sub.livelinessLeaseDuration

theorem compatible_eq (pub sub : QoSProfile) :
    compatible pub sub = (policiesCompatible pub sub &&
      !(eitherPair bothRefuse pub sub || eitherPair onlyPredicateRefuses pub sub)) := by
  simp only [compatible, policiesCompatible, eitherPair, deadlineCompatible_eq, Bool.not_or]
  ac_rfl

theorem ddsMatches_eq (pub sub : QoSProfile) :
    ddsMatches pub.toFFI sub.toFFI = (policiesCompatible pub sub &&
      !(eitherPair bothRefuse pub sub || eitherPair onlyRmwRefuses pub sub)) := by
  simp only [ddsMatches, policiesCompatible, eitherPair, QoSProfile.toFFI, qosCreate,
    Int64.toInt64_toUInt64, reliability_matches, durability_matches, liveliness_matches,
    timeMatches_eq, Bool.not_or]
  ac_rfl

/-- The two sides agree on two profiles: some policy already refuses, or both refuse a duration
pair, or each side is alone in refusing one, or neither is. -/
def Predicted (pub sub : QoSProfile) : Prop :=
  policiesCompatible pub sub = false ∨ eitherPair bothRefuse pub sub = true ∨
    eitherPair onlyPredicateRefuses pub sub = eitherPair onlyRmwRefuses pub sub

/-- The predicate tells what the middleware will do on exactly these pairs of profiles. -/
theorem compatible_iff_predicted (pub sub : QoSProfile) :
    compatible pub sub = ddsMatches pub.toFFI sub.toFFI ↔ Predicted pub sub := by
  rw [compatible_eq, ddsMatches_eq, Predicted]
  cases policiesCompatible pub sub <;> cases eitherPair bothRefuse pub sub <;>
    cases eitherPair onlyPredicateRefuses pub sub <;> cases eitherPair onlyRmwRefuses pub sub <;>
    simp

/-- Profiles whose durations are absent or positive are always predicted. -/
theorem predicted_of_positive (pub sub : QoSProfile)
    (hpub : ∀ d, pub.deadline = some d ∨ pub.livelinessLeaseDuration = some d → 0 < d.nanos)
    (hsub : ∀ d, sub.deadline = some d ∨ sub.livelinessLeaseDuration = some d → 0 < d.nanos) :
    Predicted pub sub := by
  have hone : ∀ o r : Option Duration, (∀ d, o = some d → 0 < d.nanos) →
      (∀ d, r = some d → 0 < d.nanos) →
      onlyPredicateRefuses o r = false ∧ onlyRmwRefuses o r = false := by
    intro o r ho hr
    cases r with
    | none => simp [onlyPredicateRefuses, onlyRmwRefuses]
    | some r =>
      have hr0 : ¬ r.nanos ≤ 0 := Int64.not_le.mpr (hr r rfl)
      cases o with
      | none => simp [onlyPredicateRefuses, onlyRmwRefuses, hr0]
      | some o =>
        have ho0 : ¬ o.nanos ≤ 0 := Int64.not_le.mpr (ho o rfl)
        simp [onlyPredicateRefuses, onlyRmwRefuses, hr0, ho0]
  have hd := hone pub.deadline sub.deadline (fun d h => hpub d (.inl h)) fun d h => hsub d (.inl h)
  have hl := hone pub.livelinessLeaseDuration sub.livelinessLeaseDuration
    (fun d h => hpub d (.inr h)) fun d h => hsub d (.inr h)
  exact .inr (.inr (by simp only [eitherPair, hd, hl]))

/-- Both subscriptions ask rmw for no deadline; the predicate refuses one of them. -/
theorem zero_deadline_mispredicted :
    let unset : QoSProfile := {}
    let zero : QoSProfile := { deadline := some ⟨0⟩ }
    zero.toFFI = unset.toFFI ∧ ddsMatches unset.toFFI zero.toFFI = true ∧
      compatible unset unset = true ∧ compatible unset zero = false := by
  decide

end QoS
