import Teleno.Chain.HostApi
import Teleno.Chain.MeterExact

/-! # The ticks of a running contract

The VM asks for the ticks that a contract may use and reports what it used. More than was left is answered by using up
the rest and one tick more, which fails only if the rest is all that the session can pay for. Released storage gives RC
back to the session beyond what the reported ticks count on.
-/

namespace Teleno.Chain

open Library Exec PayerSession Platform UInt64

section Charging

/-- What the session has. -/
def World.rc (w : World Host) : Option ℤ := w.session.map (·.endRc.toInt)

/-- The price of a tick. -/
def World.price (w : World Host) : ℕ := w.meter.resourceLimitData.computeBandwidthCost.toNat

/-- The ticks that the limit and the session leave. -/
def World.ticks (w : World Host) : UInt64 := w.meter.availableComputeBandwidth w.session

/-- So many ticks are left, and the session can pay for them. -/
structure Affords (w : World Host) (ticks : ℤ) : Prop where
  counted : 0 ≤ ticks
  left : ticks ≤ w.meter.computeBandwidthRemaining.toNat
  paid : ∀ rc ∈ w.rc, ticks * w.price ≤ rc

/-- Exactly so many ticks were used and paid for. -/
structure Charged (w : World Host) (ticks : ℤ) (w' : World Host) : Prop where
  limits : w'.price = w.price
  left : (w'.meter.computeBandwidthRemaining.toNat : ℤ) = w.meter.computeBandwidthRemaining.toNat - ticks
  paid : w'.rc = w.rc.map (· - ticks * w.price)

/-- A refusal is about the limit or about the RC. -/
def refusals : List ExceptionType :=
  [.failure .computeBandwidthLimitExceeded, .reversion .insufficientRc, .reversion .reversion]

theorem charged_of_ok {w : World Host} {ticks : Int64} {used : ResourceMeter × Option PayerSession}
    (ok : w.meter.useComputeBandwidth w.session ticks = .ok used) :
    Affords w ticks.toInt ∧ Charged w ticks.toInt { w with meter := used.1, session := used.2 } := by
  obtain ⟨drawn, draws, rfl⟩ := exists_of_map_eq_ok ok
  obtain ⟨within, left, covered, session⟩ := useBandwidth_eq_ok draws
  have below := w.meter.computeBandwidthRemaining.toNat_lt
  refine ⟨⟨within.1, within.2, by simpa [World.rc, World.price] using covered⟩, rfl, ?_, ?_⟩
  · rw [← toNat_sub_toUInt64 (by omega) (by omega), ← left]
  · dsimp only
    rw [World.rc, World.rc, session, Option.map_map, Option.map_map]
    refine Option.map_congr fun payer isPayer => (toInt_sub_saturated (covered payer isPayer)).mpr ?_
    have bound := payer.endRc.toInt_lt
    have positive := Int.mul_nonneg within.1 (Int.natCast_nonneg w.price)
    rw [World.price] at positive
    omega

/-- The error of a charge, and that it was not affordable. -/
theorem refused_of_error {w : World Host} {ticks : Int64} {e : ChainException}
    (err : w.meter.useComputeBandwidth w.session ticks = .error e) : ¬Affords w ticks.toInt ∧ e.type ∈ refusals := by
  rw [ResourceMeter.useComputeBandwidth, ResourceMeter.useBandwidth] at err
  by_cases above : w.meter.computeBandwidthRemaining < ticks.toUInt64
  · rw [if_pos above] at err
    cases err
    refine ⟨fun affords => ?_, by simp [refusals]⟩
    exact UInt64.not_le.mpr above ((toUInt64_le_iff affords.counted).mpr affords.left)
  by_cases below : ticks < 0
  · rw [if_neg above, if_pos below] at err
    cases err
    exact ⟨fun affords => not_lt.mpr affords.counted (lt_zero_iff.mp below), by simp [refusals]⟩
  rw [if_neg above, if_neg below] at err
  cases session : w.session with
  | none =>
    rw [session] at err
    contradiction
  | some payer =>
    rw [session] at err
    constructor
    · intro affords
      have covered := affords.paid
      rw [World.rc, World.price, session] at covered
      rw [charge_eq_ok.mpr ⟨by simpa using covered, rfl⟩] at err
      contradiction
    · rw [PayerSession.charge, useRc] at err
      split_ifs at err <;> cases err <;> simp [refusals]

theorem useComputeBandwidth_cases (w : World Host) (ticks : Int64) :
    (∃ w', World.useComputeBandwidth ticks w = .ok () w' ∧ Affords w ticks.toInt ∧ Charged w ticks.toInt w') ∨
      ¬Affords w ticks.toInt ∧ ∃ e, World.useComputeBandwidth ticks w = .error e w ∧ e.type ∈ refusals := by
  cases outcome : w.meter.useComputeBandwidth w.session ticks with
  | ok used => exact .inl ⟨_, World.useResource_of_ok outcome, charged_of_ok outcome⟩
  | error e =>
    obtain ⟨unaffordable, type⟩ := refused_of_error outcome
    exact .inr ⟨unaffordable, e, World.useResource_of_error outcome, type⟩

end Charging

section Ticks

variable {w : World Host} {ticks : UInt64}

/-- So many ticks were reported to be left. -/
def Reported (w : World Host) (ticks : UInt64) : Prop :=
  ∃ reply, getMeterTicks w = .ok reply w ∧ ticks.toNat ≤ reply.value

/-- Reported ticks are charged exactly, and others are refused. -/
def TicksExact (w : World Host) (ticks : UInt64) : Prop :=
  match useMeterTicks ticks w with
  | .ok _ w' => Reported w ticks ∧ Charged w ticks.toNat w'
  | .error e _ => ¬Reported w ticks ∧ e.type ∈ refusals

/-- The session's RC pays for the reported ticks and, if it limits them, for no further one. -/
def RcCovers (w : World Host) : Prop :=
  ∀ rc ∈ w.rc, min (w.ticks.toNat : ℤ) (2 ^ 63 - 1) * w.price ≤ rc ∧
    (w.ticks < w.meter.computeBandwidthRemaining → rc < (w.ticks.toNat + 1) * w.price)

/-- Ticks that are left are paid for as they are, and others by the rest and one more. -/
def Needs (w : World Host) (ticks : UInt64) : Prop :=
  if w.ticks < ticks then Affords w w.ticks.toInt64.toInt ∧ Affords w (w.ticks.toNat + 1)
  else Affords w ticks.toInt64.toInt

theorem Charged.affords_one {w w' : World Host} {ticks : ℤ} (charged : Charged w ticks w') (counted : 0 ≤ ticks) :
    Affords w' 1 ↔ Affords w (ticks + 1) := by
  have left := charged.left
  constructor
  · rintro ⟨-, one, paid⟩
    refine ⟨by omega, by omega, fun rc isRc => ?_⟩
    rw [charged.paid, charged.limits] at paid
    have rest := paid _ (Option.mem_map_of_mem _ isRc)
    rw [add_mul]
    omega
  · rintro ⟨-, more, paid⟩
    refine ⟨Int.one_nonneg, by omega, fun rc isRc => ?_⟩
    rw [charged.paid] at isRc
    obtain ⟨before, isBefore, rfl⟩ := Option.mem_map.mp isRc
    have rest := paid before isBefore
    rw [add_mul] at rest
    rw [charged.limits]
    omega

theorem Affords.mono {ticks fewer : ℤ} (affords : Affords w ticks) (counted : 0 ≤ fewer) (le : fewer ≤ ticks) :
    Affords w fewer :=
  ⟨counted, le.trans affords.left,
    fun rc isRc => (Int.mul_le_mul_of_nonneg_right le (Int.natCast_nonneg _)).trans (affords.paid rc isRc)⟩

theorem Affords.toInt_eq {word : UInt64} (affords : Affords w word.toInt64.toInt) :
    word.toInt64.toInt = word.toNat := by
  have counted := affords.counted
  have below := word.toNat_lt
  rw [toInt_toInt64] at counted ⊢
  split_ifs at counted ⊢ <;> omega

theorem affords_toInt64 (word : UInt64) :
    Affords w word.toInt64.toInt ↔ word.toNat < 2 ^ 63 ∧ Affords w word.toNat := by
  have converted := toInt_toInt64 word
  constructor
  · intro affords
    have same := affords.toInt_eq
    have bound := word.toInt64.toInt_lt
    exact ⟨by omega, same ▸ affords⟩
  · rintro ⟨small, affords⟩
    rwa [converted, if_pos small]

theorem useMeterTicks_cases (w : World Host) (ticks : UInt64) :
    (∃ w', useMeterTicks ticks w = .ok {} w' ∧ Needs w ticks ∧ (¬w.ticks < ticks → Charged w ticks.toInt64.toInt w')) ∨
    ((∃ e w', useMeterTicks ticks w = .error e w' ∧ e.type ∈ refusals) ∧ ¬Needs w ticks) := by
  have available : w.meter.availableComputeBandwidth w.session = w.ticks := rfl
  simp only [useMeterTicks, get_bind, Needs, available]
  split_ifs with exceeds
  · rcases useComputeBandwidth_cases w w.ticks.toInt64 with ⟨w₁, uses, affords, charged⟩ | ⟨unaffordable, e, err, type⟩
    · rw [bind_of_ok uses, ← affords.toInt_eq, ← charged.affords_one affords.counted]
      rcases useComputeBandwidth_cases w₁ 1 with ⟨w₂, uses, one, -⟩ | ⟨unaffordable, e, err, type⟩
      · exact .inl ⟨w₂, bind_of_ok uses, ⟨affords, one⟩, absurd exceeds⟩
      · exact .inr ⟨⟨e, w₁, bind_of_error err, type⟩, fun both => unaffordable both.2⟩
    · exact .inr ⟨⟨e, w, bind_of_error err, type⟩, fun both => unaffordable both.1⟩
  · rcases useComputeBandwidth_cases w ticks.toInt64 with ⟨w', uses, affords, charged⟩ | ⟨unaffordable, e, err, type⟩
    · exact .inl ⟨w', bind_of_ok uses, affords, fun _ => charged⟩
    · exact .inr ⟨⟨e, w, bind_of_error err, type⟩, unaffordable⟩

/-- What is left bounds what is available, and only a session with a price can leave less available. -/
theorem ticks_le (w : World Host) : w.ticks ≤ w.meter.computeBandwidthRemaining ∧
    (w.ticks < w.meter.computeBandwidthRemaining → 0 < w.price ∧ w.session.isSome) := by
  rw [World.ticks]
  cases session : w.session with
  | none => exact ⟨UInt64.le_refl _, fun less => absurd less (UInt64.lt_irrefl _)⟩
  | some payer =>
    rw [ResourceMeter.availableComputeBandwidth]
    split_ifs with priced
    · refine ⟨?_, fun _ => ⟨lt_iff_toNat_lt.mp priced, rfl⟩⟩
      rw [le_iff_toNat_le, toNat_min]
      exact min_le_right _ _
    · exact ⟨UInt64.le_refl _, fun less => absurd less (UInt64.lt_irrefl _)⟩

theorem reported_iff : Reported w ticks ↔ (ticks.toNat : ℤ) ≤ min (w.ticks.toNat : ℤ) (2 ^ 63 - 1) := by
  constructor
  · rintro ⟨reply, ⟨⟩, among⟩
    exact among
  · exact fun among => ⟨_, rfl, among⟩

/-- The ticks that are paid for are those reported, if the RC covers them and only then. -/
theorem needs_iff : (∀ ticks, Needs w ticks ↔ Reported w ticks) ↔ RcCovers w := by
  obtain ⟨bounded, limited⟩ := ticks_le w
  have below := w.ticks.toNat_lt
  have most := w.meter.computeBandwidthRemaining.toNat_lt
  simp only [Needs, RcCovers, reported_iff, affords_toInt64, lt_iff_toNat_lt] at limited ⊢
  rw [le_iff_toNat_le] at bounded
  generalize w.ticks.toNat = available at *
  constructor
  · intro exact rc isRc
    have small : rc < 2 ^ 63 := by
      obtain ⟨payer, -, rfl⟩ := Option.mem_map.mp isRc
      exact payer.endRc.toInt_lt
    constructor
    · have all := exact (ofNat (min available (2 ^ 63 - 1)))
      rw [toNat_ofNat_of_lt' (by change _ < 2 ^ 64; omega), if_neg (by omega)] at all
      have paid := (all.mpr (by omega)).2.paid rc isRc
      have least : ((min available (2 ^ 63 - 1) : ℕ) : ℤ) = min (available : ℤ) (2 ^ 63 - 1) := by omega
      rwa [least] at paid
    · intro less
      obtain ⟨priced, -⟩ := limited less
      by_contra enough
      have one := exact (ofNat (available + 1))
      rw [toNat_ofNat_of_lt' (by change _ < 2 ^ 64; omega), if_pos (by omega)] at one
      have more : Affords w (available + 1) :=
        ⟨by omega, by omega, fun other isOther => Option.mem_unique isRc isOther ▸ not_lt.mp enough⟩
      have price := Int.mul_le_mul_of_nonneg_left (Int.ofNat_le.mpr priced) (by omega : (0 : ℤ) ≤ available + 1)
      exact absurd (one.mp ⟨⟨by omega, more.mono (by omega) (by omega)⟩, more⟩) (by omega)
  · intro covers ticks
    split_ifs with exceeds
    · refine iff_of_false ?_ (by omega)
      rintro ⟨-, more⟩
      have left := more.left
      have less : available < w.meter.computeBandwidthRemaining.toNat := by omega
      obtain ⟨payer, session⟩ := Option.isSome_iff_exists.mp (limited less).2
      have isRc : payer.endRc.toInt ∈ w.rc := by rw [World.rc, session]; rfl
      exact absurd (more.paid _ isRc) (not_le.mpr ((covers _ isRc).2 less))
    · have least : (ticks.toNat : ℤ) ≤ min (available : ℤ) (2 ^ 63 - 1) ↔ ticks.toNat < 2 ^ 63 := by omega
      rw [least]
      refine and_iff_left_of_imp fun small => ⟨by omega, by omega, fun rc isRc => ?_⟩
      exact (Int.mul_le_mul_of_nonneg_right (least.mpr small) (Int.natCast_nonneg _)).trans (covers rc isRc).1

/-- The ticks that a contract reports are charged exactly, or refused, in every state in which the session's RC is what
the reported ticks count on, and only there. -/
theorem useMeterTicks_exact_iff (w : World Host) : (∀ ticks, TicksExact w ticks) ↔ RcCovers w := by
  rw [← needs_iff]
  refine forall_congr' fun ticks => ?_
  rcases useMeterTicks_cases w ticks with ⟨w', uses, needs, charged⟩ | ⟨⟨e, w', err, type⟩, unpaid⟩
  · rw [TicksExact, uses, iff_true_left needs]
    refine and_iff_left_of_imp fun reported => ?_
    rw [reported_iff] at reported
    have among : ¬w.ticks < ticks := by
      rw [lt_iff_toNat_lt]
      omega
    have converted := toInt_toInt64 ticks
    rw [if_pos (by omega)] at converted
    exact converted ▸ charged among
  · rw [TicksExact, err, iff_false_left unpaid]
    exact and_iff_left type

/-- A contract that released three bytes of storage. -/
def released : World Host :=
  let run := MeterRun.after { diskStorageCost := 1, computeBandwidthLimit := 100, computeBandwidthCost := 1 } (some 5)
    [.disk (-3)]
  { heap := .empty, stateNode := 0, parentNode := none, stack := [], meter := run.state.meter
    session := run.state.session, rest := {} }

/-- Five ticks are reported, and the session pays for a sixth: a hundred ticks return. -/
theorem released_storage_pays : ¬∀ ticks, TicksExact released ticks := by
  intro exact
  have reported : Reported released 100 ∧ Charged released 100 _ := exact 100
  exact absurd (reported_iff.mp reported.1) (by decide +kernel)

end Ticks

end Teleno.Chain
