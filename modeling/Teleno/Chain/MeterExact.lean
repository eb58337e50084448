import Mathlib.Algebra.Ring.Int.Defs
import Mathlib.Algebra.Ring.Nat
import Mathlib.Data.List.Induction
import Teleno.Chain.Metering

/-! # The meter in exact integers

Each call is modelled here statement by statement, so that what an exception leaves behind can be seen, and it does
what the functions of the meter say. Bandwidth is exact. What remains of the disk storage is compared as an `int64_t`,
and released storage is given back to the session in `int64_t` arithmetic: this is exact as long as less than `2^63`
bytes remain and the session's RC stays below `2^63`.
-/

namespace Teleno.Chain

open Library Exec PayerSession List Int64 ResourceMeter

/-- The meter and the payer session it charges. -/
structure Metering where
  meter : ResourceMeter
  session : Option PayerSession

abbrev MeterM := EStateM ChainException Metering

inductive MeterCall where
  | disk (bytes : Int64)
  | network (bytes : Int64)
  | compute (ticks : Int64)
deriving DecidableEq

namespace MeterM

/-- Charge the session, or count system usage. -/
def chargeOr (amount : Int64) (cost : UInt64) (system : ResourceMeter → ResourceMeter) : MeterM Unit := do
  match (← get).session with
  | some session =>
    let rcCost := amount.toInt * cost.toNat
    Exec.require (rcCost ≤ Int64.maxValue.toInt) ⟨.reversion .reversion, text "rc overflow", []⟩
    let rc := Int64.ofInt (max Int64.minValue.toInt rcCost)
    Exec.require (rc ≤ session.endRc) ⟨.reversion .insufficientRc, text "insufficient rc", []⟩
    modify fun s => { s with session := some { session with endRc := session.endRc - rc } }
  | none => modify fun s => { s with meter := system s.meter }

def useDiskStorage (bytes : Int64) : MeterM Unit := do
  let meter := (← get).meter
  Exec.require (bytes ≤ meter.diskStorageRemaining.toInt64)
    ⟨.failure .diskStorageLimitExceeded, text "disk storage limit exceeded", []⟩
  chargeOr bytes meter.resourceLimitData.diskStorageCost fun meter =>
    { meter with systemDiskStorageUsed := meter.systemDiskStorageUsed + bytes }
  modify fun s => { s with meter := { s.meter with
    diskStorageRemaining := if 0 ≤ bytes then s.meter.diskStorageRemaining - bytes.toUInt64
      else s.meter.diskStorageRemaining + (-bytes).toUInt64 } }

def useNetworkBandwidth (bytes : Int64) : MeterM Unit := do
  let meter := (← get).meter
  Exec.require (bytes.toUInt64 ≤ meter.networkBandwidthRemaining)
    ⟨.failure .networkBandwidthLimitExceeded, text "network bandwidth limit exceeded", []⟩
  Exec.require (0 ≤ bytes)
    ⟨.failure .networkBandwidthLimitExceeded, text "cannot consume negative network bandwidth", []⟩
  chargeOr bytes meter.resourceLimitData.networkBandwidthCost fun meter =>
    { meter with systemNetworkBandwidthUsed := meter.systemNetworkBandwidthUsed + bytes }
  modify fun s => { s with meter := { s.meter with
    networkBandwidthRemaining := s.meter.networkBandwidthRemaining - bytes.toUInt64 } }

def useComputeBandwidth (ticks : Int64) : MeterM Unit := do
  let meter := (← get).meter
  Exec.require (ticks.toUInt64 ≤ meter.computeBandwidthRemaining)
    ⟨.failure .computeBandwidthLimitExceeded, text "compute bandwidth limit exceeded", []⟩
  Exec.require (0 ≤ ticks)
    ⟨.failure .computeBandwidthLimitExceeded, text "cannot consume compute bandwidth bandwidth", []⟩
  chargeOr ticks meter.resourceLimitData.computeBandwidthCost fun meter =>
    { meter with systemComputeBandwidthUsed := meter.systemComputeBandwidthUsed + ticks }
  modify fun s => { s with meter := { s.meter with
    computeBandwidthRemaining := s.meter.computeBandwidthRemaining - ticks.toUInt64 } }

end MeterM

def MeterCall.perform : MeterCall → MeterM Unit
  | disk bytes => MeterM.useDiskStorage bytes
  | network bytes => MeterM.useNetworkBandwidth bytes
  | compute ticks => MeterM.useComputeBandwidth ticks

/-- The call as a function of the meter. -/
def MeterCall.apply (s : Metering) : MeterCall → Except ChainException (ResourceMeter × Option PayerSession)
  | disk bytes => s.meter.useDiskStorage s.session bytes
  | network bytes => s.meter.useNetworkBandwidth s.session bytes
  | compute ticks => s.meter.useComputeBandwidth s.session ticks

/-- What a call leaves: all of its effect, or nothing. -/
def Metering.after (s : Metering) :
    Except ChainException (ResourceMeter × Option PayerSession) → EStateM.Result ChainException Metering Unit
  | .ok used => .ok () ⟨used.1, used.2⟩
  | .error e => .error e s

variable {s : Metering} {amount : Int64} {call : MeterCall} {used : ResourceMeter × Option PayerSession}

section Atomic

variable {cost : UInt64} {system : ResourceMeter → ResourceMeter}

theorem MeterM.chargeOr_eq (amount : Int64) (cost : UInt64) (system : ResourceMeter → ResourceMeter) (s : Metering) :
    MeterM.chargeOr amount cost system s = s.after ((charge s.session amount cost).map fun charged =>
      (if s.session.isNone then system s.meter else s.meter, charged)) := by
  obtain ⟨meter, session⟩ := s
  rw [MeterM.chargeOr, get_bind]
  cases session with
  | none => rfl
  | some session =>
    simp only [charge, useRc, require_bind, decide_eq_true_eq]
    by_cases overflow : maxValue.toInt < amount.toInt * cost.toNat
    · rw [if_pos overflow, if_neg (by omega)]
      rfl
    · rw [if_neg overflow, if_pos (by omega)]
      by_cases enough : ofInt (max minValue.toInt (amount.toInt * cost.toNat)) ≤ session.endRc
      · rw [if_pos enough, if_pos enough]
        rfl
      · rw [if_neg enough, if_neg enough]
        rfl

/-- The statements that both kinds of bandwidth share. -/
theorem MeterM.bandwidth_eq {remaining : UInt64} {systemUsed : Int64} {exceeded negative : ChainException}
    {finish : Metering → Metering} {used : UInt64 × Int64 × Option PayerSession → ResourceMeter × Option PayerSession}
    (finished : ∀ charged, finish ⟨if s.session.isNone then system s.meter else s.meter, charged⟩ =
      let outcome := used
        (remaining - amount.toUInt64, if s.session.isNone then systemUsed + amount else systemUsed, charged)
      ⟨outcome.1, outcome.2⟩) :
    ((do
      Exec.require (amount.toUInt64 ≤ remaining) exceeded
      Exec.require (0 ≤ amount) negative
      MeterM.chargeOr amount cost system
      modify finish) : MeterM Unit) s =
    s.after ((useBandwidth remaining systemUsed cost s.session amount exceeded negative).map used) := by
  rw [useBandwidth, require_bind]
  by_cases within : amount.toUInt64 ≤ remaining
  · rw [if_pos (decide_eq_true within), require_bind, if_neg (UInt64.not_lt.mpr within)]
    by_cases counted : 0 ≤ amount
    · rw [if_pos (decide_eq_true counted), if_neg (Int64.not_lt.mpr counted)]
      have charges := MeterM.chargeOr_eq amount cost system s
      cases charge : charge s.session amount cost <;> rw [charge] at charges
      case error e => exact bind_of_error charges
      case ok charged =>
        rw [bind_of_ok charges]
        exact congrArg (EStateM.Result.ok ()) (finished charged)
    · rw [if_neg (by simpa using counted), if_pos (Int64.not_le.mp counted)]
      rfl
  · rw [if_neg (by simpa using within), if_pos (UInt64.not_le.mp within)]
    rfl

end Atomic

/-- A call that throws changes nothing, and any other does what the function of the meter says. -/
theorem MeterCall.perform_eq (call : MeterCall) (s : Metering) : call.perform s = s.after (call.apply s) := by
  cases call with
  | disk bytes =>
    rw [perform, MeterM.useDiskStorage, get_bind, require_bind, apply, useDiskStorage]
    by_cases within : bytes ≤ s.meter.diskStorageRemaining.toInt64
    · rw [if_pos (decide_eq_true within), if_neg (Int64.not_lt.mpr within)]
      have charges := MeterM.chargeOr_eq bytes s.meter.resourceLimitData.diskStorageCost
      cases charge : charge s.session bytes s.meter.resourceLimitData.diskStorageCost with
      | error e => exact bind_of_error ((charges _ s).trans (by rw [charge]; rfl))
      | ok charged =>
        rw [bind_of_ok ((charges _ s).trans (by rw [charge]; rfl))]
        cases session : s.session <;> rfl
    · rw [if_neg (by simpa using within), if_pos (Int64.not_le.mp within)]
      rfl
  | network | compute =>
    apply MeterM.bandwidth_eq
    intro charged
    cases session : s.session <;> rfl

section Words

variable {word : UInt64}

theorem toInt_toInt64 (word : UInt64) :
    word.toInt64.toInt = if word.toNat < 2 ^ 63 then (word.toNat : ℤ) else word.toNat - 2 ^ 64 := by
  have value : word.toBitVec.toNat = word.toNat := rfl
  rw [← toInt_toBitVec, UInt64.toBitVec_toInt64, BitVec.toInt_eq_toNat_cond, value]
  split_ifs <;> omega

theorem toInt_eq_toUInt64 (amount : Int64) : amount.toInt =
    if amount.toUInt64.toNat < 2 ^ 63 then (amount.toUInt64.toNat : ℤ) else amount.toUInt64.toNat - 2 ^ 64 := by
  rw [← toInt_toInt64, toInt64_toUInt64]

/-- What is left after a subtraction that does not wrap. -/
theorem toNat_sub_toUInt64 (room : 0 ≤ word.toNat - amount.toInt) (bound : word.toNat - amount.toInt < 2 ^ 64) :
    ((word - amount.toUInt64).toNat : ℤ) = word.toNat - amount.toInt := by
  have value := toInt_eq_toUInt64 amount
  have below := word.toNat_lt
  have small := amount.toUInt64.toNat_lt
  rw [UInt64.toNat_sub]
  split_ifs at value <;> omega

theorem lt_zero_iff : amount < 0 ↔ amount.toInt < 0 := by
  rw [lt_iff_toInt_lt]
  rfl

/-- An amount that passes the unsigned comparison and is not negative is at most what remains. -/
theorem toUInt64_le_iff (counted : 0 ≤ amount.toInt) : amount.toUInt64 ≤ word ↔ amount.toInt ≤ word.toNat := by
  have value := toInt_eq_toUInt64 amount
  rw [UInt64.le_iff_toNat_le]
  have small := amount.toUInt64.toNat_lt
  split_ifs at value <;> omega

/-- A cost is subtracted exactly when neither its conversion nor the subtraction leaves the type. -/
theorem toInt_sub_saturated {rc : Int64} {cost : ℤ} (covered : cost ≤ rc.toInt) :
    (rc - ofInt (max minValue.toInt cost)).toInt = rc.toInt - cost ↔
      -2 ^ 63 ≤ cost ∧ rc.toInt - cost < 2 ^ 63 := by
  have below := rc.toInt_lt
  have above := rc.le_toInt
  have converted : (ofInt (max minValue.toInt cost)).toInt = max (-2 ^ 63) cost := by
    rw [toInt_minValue, toInt_ofInt_of_le (by omega) (by omega)]
  rw [toInt_sub, converted, Int.bmod_def]
  omega

end Words

namespace MeterCall

def diskBytes : MeterCall → Int64
  | disk bytes => bytes
  | _ => 0

def networkBytes : MeterCall → Int64
  | network bytes => bytes
  | _ => 0

def computeTicks : MeterCall → Int64
  | compute ticks => ticks
  | _ => 0

def rcCost (limits : ResourceLimitData) : MeterCall → ℤ
  | disk bytes => bytes.toInt * limits.diskStorageCost.toNat
  | network bytes => bytes.toInt * limits.networkBandwidthCost.toNat
  | compute ticks => ticks.toInt * limits.computeBandwidthCost.toNat

/-- The sum of an amount over some calls, in exact integers. -/
def total (amount : MeterCall → ℤ) (calls : List MeterCall) : ℤ := calls.foldl (fun sum call => sum + amount call) 0

theorem total_concat (amount : MeterCall → ℤ) (calls : List MeterCall) (call : MeterCall) :
    total amount (calls ++ [call]) = total amount calls + amount call := by
  rw [total, foldl_append]
  rfl

end MeterCall

/-- A meter after some calls, with those that it accepted. -/
structure MeterRun where
  state : Metering
  accepted : List MeterCall := []

namespace MeterRun

def start (limits : ResourceLimitData) (rc : Option Int64) : MeterRun :=
  ⟨⟨.ofLimits limits, rc.map fun rc => ⟨rc, rc, [], []⟩⟩, []⟩

def next (run : MeterRun) (call : MeterCall) : MeterRun :=
  match call.perform run.state with
  | .ok _ s => ⟨s, run.accepted ++ [call]⟩
  | .error _ s => ⟨s, run.accepted⟩

def after (limits : ResourceLimitData) (rc : Option Int64) (calls : List MeterCall) : MeterRun :=
  calls.foldl next (start limits rc)

open MeterCall (total total_concat)

/-- What remains is the limit without the accepted amounts, and the session has paid for them. -/
structure Exact (limits : ResourceLimitData) (rc : Option Int64) (run : MeterRun) : Prop where
  disk : (run.state.meter.diskStorageRemaining.toNat : ℤ) =
    limits.diskStorageLimit.toNat - total (·.diskBytes.toInt) run.accepted
  network : (run.state.meter.networkBandwidthRemaining.toNat : ℤ) =
    limits.networkBandwidthLimit.toNat - total (·.networkBytes.toInt) run.accepted
  compute : (run.state.meter.computeBandwidthRemaining.toNat : ℤ) =
    limits.computeBandwidthLimit.toNat - total (·.computeTicks.toInt) run.accepted
  rc : run.state.session.map (·.endRc.toInt) = rc.map (·.toInt - total (·.rcCost limits) run.accepted)
  used : ∀ payer ∈ run.state.session, (payer.usedRc.toNat : ℤ) = max 0 (total (·.rcCost limits) run.accepted)

/-- A call that throws changes nothing, and disk storage is given when there is enough of it and of the RC. -/
structure Answers (limits : ResourceLimitData) (rc : Option Int64) (run : MeterRun) (call : MeterCall) : Prop where
  unchanged : ∀ e s, call.perform run.state = .error e s → s = run.state
  disk : ∀ bytes, call = .disk bytes → ((∃ s, call.perform run.state = .ok () s) ↔
    bytes.toInt ≤ limits.diskStorageLimit.toNat - total (·.diskBytes.toInt) run.accepted ∧
      ∀ initial ∈ rc, call.rcCost limits ≤ initial.toInt - total (·.rcCost limits) run.accepted)

end MeterRun

/-- The meter counts exactly, whatever is called. -/
def MeterExact (limits : ResourceLimitData) (rc : Option Int64) (calls : List MeterCall) : Prop :=
  ∀ before rest, calls = before ++ rest → (MeterRun.after limits rc before).Exact limits rc ∧
    ∀ call ∈ rest.head?, (MeterRun.after limits rc before).Answers limits rc call

/-- The conditions under which a call on disk storage is exact: if there is enough to give, then less than `2^63`
bytes remain, and the cost and the session's RC afterwards are `int64_t` values. -/
def Representable (s : Metering) : MeterCall → Prop
  | .disk bytes =>
    let cost := bytes.toInt * s.meter.resourceLimitData.diskStorageCost.toNat
    bytes.toInt ≤ s.meter.diskStorageRemaining.toNat → (∀ payer ∈ s.session, cost ≤ payer.endRc.toInt) →
      s.meter.diskStorageRemaining.toNat < 2 ^ 63 ∧
        ∀ payer ∈ s.session, -2 ^ 63 ≤ cost ∧ payer.endRc.toInt - cost < 2 ^ 63
  | _ => True

section Calls

/-- The session after it paid a cost. -/
def PayerSession.debit (cost : ℤ) (payer : PayerSession) : PayerSession :=
  { payer with endRc := payer.endRc - Int64.ofInt (max Int64.minValue.toInt cost) }

/-- The saturated cost compares with an RC as the cost itself. -/
theorem saturated_le {rc : Int64} {cost : ℤ} (fits : ¬ maxValue.toInt < cost) :
    ofInt (max minValue.toInt cost) ≤ rc ↔ cost ≤ rc.toInt := by
  have above := rc.le_toInt
  rw [toInt_maxValue] at fits
  rw [le_iff_toInt_le, toInt_minValue, toInt_ofInt_of_le (by omega) (by omega)]
  omega

/-- A session is charged when its RC covers the cost. -/
theorem PayerSession.charge_eq_ok {session charged : Option PayerSession} {amount : Int64} {cost : UInt64} :
    charge session amount cost = .ok charged ↔
      (∀ payer ∈ session, amount.toInt * cost.toNat ≤ payer.endRc.toInt) ∧
        charged = session.map (debit (amount.toInt * cost.toNat)) := by
  cases session with
  | none =>
    rw [charge, Except.ok.injEq, eq_comm]
    simp
  | some payer =>
    simp only [Option.mem_some_iff, forall_eq', Option.map_some, charge]
    by_cases overflow : maxValue.toInt < amount.toInt * cost.toNat
    · have below := payer.endRc.toInt_lt
      rw [if_pos overflow]
      rw [toInt_maxValue] at overflow
      exact iff_of_false (by simp) fun both => by omega
    · rw [if_neg overflow, useRc]
      by_cases covered : amount.toInt * cost.toNat ≤ payer.endRc.toInt
      · rw [if_pos ((saturated_le overflow).mpr covered), Except.map, Except.ok.injEq, eq_comm]
        exact (and_iff_right covered).symm
      · rw [if_neg (mt (saturated_le overflow).mp covered)]
        exact iff_of_false (by simp [Except.map]) fun both => covered both.1

/-- What a call that returns has done. -/
structure Accepted (s : Metering) (call : MeterCall) (used : ResourceMeter × Option PayerSession) : Prop where
  limits : used.1.resourceLimitData = s.meter.resourceLimitData
  disk : used.1.diskStorageRemaining = s.meter.diskStorageRemaining - call.diskBytes.toUInt64
  network : used.1.networkBandwidthRemaining = s.meter.networkBandwidthRemaining - call.networkBytes.toUInt64
  compute : used.1.computeBandwidthRemaining = s.meter.computeBandwidthRemaining - call.computeTicks.toUInt64
  session : used.2 = s.session.map (debit (call.rcCost s.meter.resourceLimitData))
  covered : ∀ payer ∈ s.session, call.rcCost s.meter.resourceLimitData ≤ payer.endRc.toInt
  diskWithin : ∀ bytes, call = .disk bytes → bytes.toInt ≤ s.meter.diskStorageRemaining.toInt64.toInt
  networkWithin : 0 ≤ call.networkBytes.toInt ∧ call.networkBytes.toInt ≤ s.meter.networkBandwidthRemaining.toNat
  computeWithin : 0 ≤ call.computeTicks.toInt ∧ call.computeTicks.toInt ≤ s.meter.computeBandwidthRemaining.toNat

theorem accepted_of_disk {bytes : Int64} (ok : (MeterCall.disk bytes).apply s = .ok used) :
    Accepted s (.disk bytes) used := by
  obtain ⟨meter, session⟩ := used
  rw [MeterCall.apply] at ok
  obtain ⟨within, remaining, -, -⟩ := useDiskStorage_eq_ok ok
  rw [useDiskStorage, if_neg (Int64.not_lt.mpr within)] at ok
  obtain ⟨charged, pays, same⟩ := exists_of_map_eq_ok ok
  obtain ⟨covered, rfl⟩ := charge_eq_ok.mp pays
  cases same
  refine ⟨rfl, remaining, (UInt64.sub_zero _).symm, (UInt64.sub_zero _).symm, rfl, covered, ?_,
    by simp [MeterCall.networkBytes], by simp [MeterCall.computeTicks]⟩
  rintro _ ⟨⟩
  exact le_iff_toInt_le.mp within

/-- What both kinds of bandwidth share. -/
theorem useBandwidth_eq_ok {remaining : UInt64} {systemUsed : Int64} {cost : UInt64} {session : Option PayerSession}
    {amount : Int64} {exceeded negative : ChainException} {drawn : UInt64 × Int64 × Option PayerSession}
    (ok : useBandwidth remaining systemUsed cost session amount exceeded negative = .ok drawn) :
    (0 ≤ amount.toInt ∧ amount.toInt ≤ remaining.toNat) ∧ drawn.1 = remaining - amount.toUInt64 ∧
      (∀ payer ∈ session, amount.toInt * cost.toNat ≤ payer.endRc.toInt) ∧
      drawn.2.2 = session.map (debit (amount.toInt * cost.toNat)) := by
  rw [useBandwidth] at ok
  by_cases above : remaining < amount.toUInt64
  · rw [if_pos above] at ok
    contradiction
  by_cases below : amount < 0
  · rw [if_neg above, if_pos below] at ok
    contradiction
  rw [if_neg above, if_neg below] at ok
  obtain ⟨charged, pays, rfl⟩ := exists_of_map_eq_ok ok
  obtain ⟨covered, rfl⟩ := charge_eq_ok.mp pays
  rw [lt_zero_iff, not_lt] at below
  rw [UInt64.not_lt, toUInt64_le_iff below] at above
  exact ⟨⟨below, above⟩, rfl, covered, rfl⟩

theorem accepted_of_apply (ok : call.apply s = .ok used) : Accepted s call used := by
  cases call with
  | disk bytes => exact accepted_of_disk ok
  | network bytes =>
    obtain ⟨drawn, draws, rfl⟩ := exists_of_map_eq_ok ok
    obtain ⟨within, remaining, covered, session⟩ := useBandwidth_eq_ok draws
    exact ⟨rfl, (UInt64.sub_zero _).symm, remaining, (UInt64.sub_zero _).symm, session, covered, by simp, within,
      by simp [MeterCall.computeTicks]⟩
  | compute ticks =>
    obtain ⟨drawn, draws, rfl⟩ := exists_of_map_eq_ok ok
    obtain ⟨within, remaining, covered, session⟩ := useBandwidth_eq_ok draws
    exact ⟨rfl, (UInt64.sub_zero _).symm, (UInt64.sub_zero _).symm, remaining, session, covered, by simp,
      by simp [MeterCall.networkBytes], within⟩

/-- An accepted call that is representable is counted without wrapping. -/
theorem Accepted.fits (accepted : Accepted s call used) (representable : Representable s call) :
    (0 ≤ s.meter.diskStorageRemaining.toNat - call.diskBytes.toInt ∧
      s.meter.diskStorageRemaining.toNat - call.diskBytes.toInt < 2 ^ 64) ∧
      ∀ payer ∈ s.session, -2 ^ 63 ≤ call.rcCost s.meter.resourceLimitData ∧
        payer.endRc.toInt - call.rcCost s.meter.resourceLimitData < 2 ^ 63 := by
  have below := s.meter.diskStorageRemaining.toNat_lt
  have paid : ∀ (amount : Int64) (cost : UInt64), 0 ≤ amount.toInt → ∀ payer ∈ s.session,
      -2 ^ 63 ≤ amount.toInt * cost.toNat ∧ payer.endRc.toInt - amount.toInt * cost.toNat < 2 ^ 63 := by
    intro amount cost counted payer _
    have bound := payer.endRc.toInt_lt
    have positive : 0 ≤ amount.toInt * cost.toNat := Int.mul_nonneg counted (Int.natCast_nonneg _)
    omega
  cases call with
  | disk bytes =>
    have within := accepted.diskWithin bytes rfl
    have converted := toInt_toInt64 s.meter.diskStorageRemaining
    have least := bytes.le_toInt
    have enough : bytes.toInt ≤ s.meter.diskStorageRemaining.toNat := by
      split_ifs at converted <;> omega
    obtain ⟨small, fits⟩ := representable enough accepted.covered
    exact ⟨⟨by simp only [MeterCall.diskBytes]; omega, by simp only [MeterCall.diskBytes]; omega⟩, fits⟩
  | network bytes =>
    exact ⟨by simp only [MeterCall.diskBytes, toInt_zero]; omega, paid bytes _ accepted.networkWithin.1⟩
  | compute ticks =>
    exact ⟨by simp only [MeterCall.diskBytes, toInt_zero]; omega, paid ticks _ accepted.computeWithin.1⟩

theorem apply_disk_iff {bytes : Int64} : (∃ used, (MeterCall.disk bytes).apply s = .ok used) ↔
    bytes.toInt ≤ s.meter.diskStorageRemaining.toInt64.toInt ∧
      ∀ payer ∈ s.session, (MeterCall.disk bytes).rcCost s.meter.resourceLimitData ≤ payer.endRc.toInt := by
  constructor
  · rintro ⟨used, ok⟩
    have accepted := accepted_of_disk ok
    exact ⟨accepted.diskWithin bytes rfl, accepted.covered⟩
  · rintro ⟨within, covered⟩
    have pays := charge_eq_ok.mpr ⟨covered, rfl⟩
    rw [← Int64.le_iff_toInt_le, ← Int64.not_lt] at within
    rw [MeterCall.apply, useDiskStorage, if_neg within]
    rw [pays]
    exact ⟨_, rfl⟩

end Calls

namespace MeterRun

open MeterCall (total total_concat)

variable {limits : ResourceLimitData} {rc : Option Int64} {run : MeterRun}

theorem next_of_ok (ok : call.apply run.state = .ok used) :
    run.next call = ⟨⟨used.1, used.2⟩, run.accepted ++ [call]⟩ := by
  rw [next, call.perform_eq, ok]
  rfl

theorem next_of_error {e : ChainException} (err : call.apply run.state = .error e) : run.next call = run := by
  rw [next, call.perform_eq, err]
  rfl

theorem perform_eq_ok_iff : (∃ s, call.perform run.state = .ok () s) ↔ ∃ used, call.apply run.state = .ok used := by
  rw [call.perform_eq]
  cases call.apply run.state with
  | error | ok => simp [Metering.after]

/-- What no call changes. A session was never charged, or its RC is not negative. -/
structure Framed (limits : ResourceLimitData) (rc : Option Int64) (run : MeterRun) : Prop where
  limits : run.state.meter.resourceLimitData = limits
  begun : run.state.session.map (·.beginRc) = rc
  settled : ∀ payer ∈ run.state.session, payer.endRc = payer.beginRc ∨ 0 ≤ payer.endRc.toInt

/-- The RC that a session reports as used. -/
theorem usedRc_eq (payer : PayerSession) (settled : payer.endRc = payer.beginRc ∨ 0 ≤ payer.endRc.toInt) :
    (payer.usedRc.toNat : ℤ) = max 0 (payer.beginRc.toInt - payer.endRc.toInt) := by
  rw [usedRc]
  by_cases gained : payer.beginRc < payer.endRc
  · rw [if_pos gained]
    rw [lt_iff_toInt_lt] at gained
    rw [max_eq_left (by omega)]
    rfl
  · rw [if_neg gained]
    rw [lt_iff_toInt_lt] at gained
    have below := payer.beginRc.toInt_lt
    have small : payer.beginRc.toInt - payer.endRc.toInt < 2 ^ 63 := by
      rcases settled with same | positive
      · rw [same, sub_self]
        decide
      · omega
    have difference := toInt_sub payer.beginRc payer.endRc
    rw [Int.bmod_def] at difference
    have value := toInt_eq_toUInt64 (payer.beginRc - payer.endRc)
    have bound := (payer.beginRc - payer.endRc).toUInt64.toNat_lt
    rw [max_eq_right (by omega)]
    split_ifs at value difference <;> omega

/-- A session that paid a cost it could represent has paid exactly. -/
theorem paid_debit {session : Option PayerSession} {sum cost : ℤ}
    (paid : session.map (·.endRc.toInt) = rc.map (·.toInt - sum)) (begun : session.map (·.beginRc) = rc)
    (covered : ∀ payer ∈ session, cost ≤ payer.endRc.toInt)
    (fits : ∀ payer ∈ session, -2 ^ 63 ≤ cost ∧ payer.endRc.toInt - cost < 2 ^ 63) :
    (session.map (debit cost)).map (·.endRc.toInt) = rc.map (·.toInt - (sum + cost)) ∧
      (∀ payer ∈ session.map (debit cost), 0 ≤ payer.endRc.toInt) ∧
      ∀ payer ∈ session.map (debit cost), (payer.usedRc.toNat : ℤ) = max 0 (sum + cost) := by
  cases session with
  | none =>
    obtain rfl : none = rc := begun
    simp
  | some payer =>
    obtain rfl : some payer.beginRc = rc := begun
    have before : payer.endRc.toInt = payer.beginRc.toInt - sum := Option.some.inj paid
    have after : (payer.debit cost).endRc.toInt = payer.endRc.toInt - cost :=
      (toInt_sub_saturated (covered payer rfl)).mpr (fits payer rfl)
    have positive : 0 ≤ (payer.debit cost).endRc.toInt := by
      have enough := covered payer rfl
      omega
    have used := usedRc_eq (payer.debit cost) (.inr positive)
    have same : (payer.debit cost).beginRc = payer.beginRc := rfl
    rw [same] at used
    simp only [Option.map_some, Option.mem_some_iff, forall_eq', Option.some.injEq]
    exact ⟨by omega, positive, by omega⟩

section

variable (exact : run.Exact limits rc)

include exact

theorem Exact.next (framed : run.Framed limits rc) (representable : Representable run.state call) :
    (run.next call).Exact limits rc ∧ (run.next call).Framed limits rc := by
  cases outcome : call.apply run.state with
  | error e =>
    rw [next_of_error outcome]
    exact ⟨exact, framed⟩
  | ok used =>
    have accepted := accepted_of_apply outcome
    obtain ⟨⟨room, bound⟩, fits⟩ := accepted.fits representable
    have covered := accepted.covered
    have debited := accepted.session
    rw [framed.limits] at fits covered debited
    obtain ⟨paid, positive, reported⟩ := paid_debit exact.rc framed.begun covered fits
    rw [← debited] at paid positive reported
    have networkWithin := accepted.networkWithin
    have computeWithin := accepted.computeWithin
    have networkBound := run.state.meter.networkBandwidthRemaining.toNat_lt
    have computeBound := run.state.meter.computeBandwidthRemaining.toNat_lt
    rw [next_of_ok outcome]
    constructor
    · constructor
      case disk => rw [total_concat, ← sub_sub, ← exact.disk, accepted.disk, toNat_sub_toUInt64 room bound]
      case network =>
        rw [total_concat, ← sub_sub, ← exact.network, accepted.network, toNat_sub_toUInt64 (by omega) (by omega)]
      case compute =>
        rw [total_concat, ← sub_sub, ← exact.compute, accepted.compute, toNat_sub_toUInt64 (by omega) (by omega)]
      case rc =>
        rw [total_concat]
        exact paid
      case used =>
        rw [total_concat]
        exact reported
    · refine ⟨accepted.limits.trans framed.limits, ?_, fun payer mem => .inr (positive payer mem)⟩
      rw [← framed.begun]
      dsimp only
      rw [debited, Option.map_map]
      rfl

/-- What the limits and the accepted calls leave, as the meter and the session have it. -/
theorem Exact.enough_iff (bytes : Int64) (cost : ℤ) :
    (bytes.toInt ≤ limits.diskStorageLimit.toNat - total (·.diskBytes.toInt) run.accepted ∧
      ∀ initial ∈ rc, cost ≤ initial.toInt - total (·.rcCost limits) run.accepted) ↔
    bytes.toInt ≤ run.state.meter.diskStorageRemaining.toNat ∧
      ∀ payer ∈ run.state.session, cost ≤ payer.endRc.toInt := by
  have paid := exact.rc
  rw [← exact.disk]
  refine and_congr_right fun _ => ?_
  cases session : run.state.session with
  | none =>
    cases rc with
    | none => simp
    | some initial =>
      rw [session] at paid
      contradiction
  | some payer =>
    cases rc with
    | none =>
      rw [session] at paid
      contradiction
    | some initial =>
      rw [session] at paid
      simp [Option.some.inj paid]

theorem Exact.answers (framed : run.Framed limits rc)
    (representable : Representable run.state call) : run.Answers limits rc call := by
  constructor
  case unchanged =>
    intro e s err
    rw [call.perform_eq] at err
    cases outcome : call.apply run.state with
    | ok used =>
      rw [outcome] at err
      contradiction
    | error e' =>
      rw [outcome] at err
      cases err
      rfl
  case disk =>
    rintro bytes rfl
    have converted := toInt_toInt64 run.state.meter.diskStorageRemaining
    have below := run.state.meter.diskStorageRemaining.toNat_lt
    rw [perform_eq_ok_iff, apply_disk_iff, framed.limits, exact.enough_iff]
    constructor
    · rintro ⟨within, covered⟩
      refine ⟨?_, covered⟩
      split_ifs at converted <;> omega
    · rintro ⟨enough, covered⟩
      refine ⟨?_, covered⟩
      rw [← framed.limits] at covered
      have small := (representable enough covered).1
      rw [if_pos small] at converted
      omega

/-- A call that was counted exactly could be. -/
theorem representable_of_exact (answers : run.Answers limits rc call) (exact' : (run.next call).Exact limits rc)
    (known : run.state.meter.resourceLimitData = limits) : Representable run.state call := by
  cases call with
  | network | compute => trivial
  | disk bytes =>
    intro enough covered
    subst known
    have given := (answers.disk bytes rfl).mpr ((exact.enough_iff bytes _).mpr ⟨enough, covered⟩)
    obtain ⟨used, ok⟩ := perform_eq_ok_iff.mp given
    have accepted := accepted_of_apply ok
    rw [next_of_ok ok] at exact'
    constructor
    · have within := accepted.diskWithin bytes rfl
      have converted := toInt_toInt64 run.state.meter.diskStorageRemaining
      have remaining := exact'.disk
      rw [total_concat, ← sub_sub, ← exact.disk] at remaining
      have bound := used.1.diskStorageRemaining.toNat_lt
      by_contra large
      rw [if_neg large] at converted
      simp only [MeterCall.diskBytes] at remaining
      omega
    · intro payer mem
      have paid := exact'.rc
      have before := exact.rc
      have debited := accepted.session
      rw [Option.mem_def] at mem
      dsimp only at paid
      rw [debited, total_concat, mem] at paid
      rw [mem] at before
      cases rc with
      | none => contradiction
      | some initial =>
        have start : payer.endRc.toInt = initial.toInt - total (·.rcCost _) run.accepted := Option.some.inj before
        have finish : (payer.debit ((MeterCall.disk bytes).rcCost _)).endRc.toInt =
            initial.toInt - (total (·.rcCost _) run.accepted + (MeterCall.disk bytes).rcCost _) := Option.some.inj paid
        rw [← sub_sub, ← start] at finish
        exact (toInt_sub_saturated (covered payer mem)).mp finish

end

theorem after_concat (limits : ResourceLimitData) (rc : Option Int64) (calls : List MeterCall) (call : MeterCall) :
    after limits rc (calls ++ [call]) = (after limits rc calls).next call := by
  rw [after, foldl_append]
  rfl

theorem limits_after (calls : List MeterCall) : (after limits rc calls).state.meter.resourceLimitData = limits := by
  induction calls using reverseRecOn with
  | nil => rfl
  | append_singleton calls call ih =>
    rw [after_concat]
    cases outcome : call.apply (after limits rc calls).state with
    | error e =>
      rw [next_of_error outcome]
      exact ih
    | ok used =>
      rw [next_of_ok outcome]
      exact (accepted_of_apply outcome).limits.trans ih

theorem exact_start : (start limits rc).Exact limits rc ∧ (start limits rc).Framed limits rc := by
  have unused (limit : ℤ) : limit = limit - 0 := (sub_zero limit).symm
  cases rc with
  | none => exact ⟨⟨unused _, unused _, unused _, rfl, by simp [start]⟩, rfl, rfl, by simp [start]⟩
  | some initial =>
    refine ⟨⟨unused _, unused _, unused _, congrArg some (unused _), ?_⟩, rfl, rfl, ?_⟩
    · rintro payer ⟨⟩
      have used := usedRc_eq ⟨initial, initial, [], []⟩ (.inl rfl)
      rwa [sub_self] at used
    · rintro payer ⟨⟩
      exact .inl rfl

/-- A run whose calls can all be represented is exact. -/
theorem exact_after (calls : List MeterCall) (representable : ∀ before call rest, calls = before ++ call :: rest →
    Representable (after limits rc before).state call) :
    (after limits rc calls).Exact limits rc ∧ (after limits rc calls).Framed limits rc := by
  induction calls using reverseRecOn with
  | nil => exact exact_start
  | append_singleton calls call ih =>
    rw [after_concat]
    obtain ⟨exact, framed⟩ := ih fun before other rest split =>
      representable before other (rest ++ [call]) (by rw [split, append_assoc, cons_append])
    exact exact.next framed (representable calls call [] rfl)

end MeterRun

/-- The meter is exact on a sequence of calls if and only if each call on disk storage that there is enough for finds
less than `2^63` bytes remaining, a cost that is an `int64_t`, and an RC afterwards that is one. -/
theorem meter_exact_iff (limits : ResourceLimitData) (rc : Option Int64) (calls : List MeterCall) :
    MeterExact limits rc calls ↔ ∀ before call rest, calls = before ++ call :: rest →
      Representable (MeterRun.after limits rc before).state call := by
  constructor
  · intro exact before call rest split
    obtain ⟨here, answers⟩ := exact before (call :: rest) split
    obtain ⟨next, -⟩ := exact (before ++ [call]) rest (by rw [split, append_assoc, singleton_append])
    rw [MeterRun.after_concat] at next
    exact MeterRun.representable_of_exact here (answers call rfl) next (MeterRun.limits_after before)
  · intro representable before rest split
    obtain ⟨exact, framed⟩ := MeterRun.exact_after before fun first call middle same =>
      representable first call (middle ++ rest) (by rw [split, same, append_assoc, cons_append])
    refine ⟨exact, ?_⟩
    intro call first
    obtain ⟨others, rfl⟩ := head?_eq_some_iff.mp first
    exact exact.answers framed (representable before call others split)

/-- With the largest limit, a new meter refuses a single byte. -/
theorem largest_limit_refuses : ¬ MeterExact { diskStorageLimit := -1 } none [.disk 1] := by
  intro exact
  have answers := (exact [] [.disk 1] rfl).2 (.disk 1) rfl
  have refused : ¬ ∃ s, (MeterCall.disk 1).perform (MeterRun.after { diskStorageLimit := -1 } none []).state =
      .ok () s := by
    rintro ⟨s, ok⟩
    cases ok
  exact refused ((answers.disk 1 rfl).mpr ⟨by decide, by simp⟩)

end Teleno.Chain
