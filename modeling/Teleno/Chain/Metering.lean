import Teleno.Chain.ExecutionContext

/-! # What use of the meter looks like

Whatever resources a program uses, the meter only goes down. What is used while there is a payer session
is not system usage; everything else is. `Metered` says so for network and compute bandwidth, however many
uses there are.
-/

namespace Teleno.Chain

open Library World

/-- Charging a session keeps it and its events. -/
theorem PayerSession.events_of_charge {session charged : Option PayerSession} {amount : Int64} {cost : UInt64}
    (pays : PayerSession.charge session amount cost = .ok charged) :
    charged.map (·.events) = session.map (·.events) := by
  cases session with
  | none => cases pays; rfl
  | some session =>
    rw [PayerSession.charge] at pays
    split at pays
    · contradiction
    · obtain ⟨session', used, rfl⟩ := Exec.exists_of_map_eq_ok pays
      rw [PayerSession.useRc] at used
      split at used
      · cases used
        rfl
      · contradiction

theorem isSome_of_map_eq {α β : Type} {f : α → β} {a b : Option α} (same : a.map f = b.map f) :
    a.isSome = b.isSome := by
  rw [← Option.isSome_map (f := f), same, Option.isSome_map]

/-- A counter of bandwidth goes down, and the difference is system usage unless a payer is charged. -/
structure Draws (charged : Bool) (remaining : UInt64) (systemUsed : Int64) (remaining' : UInt64)
    (systemUsed' : Int64) : Prop where
  remaining_le : remaining' ≤ remaining
  systemUsed_eq : systemUsed' = if charged then systemUsed else systemUsed + (remaining - remaining').toInt64

namespace Draws

variable {charged : Bool} {remaining remaining' remaining'' : UInt64} {systemUsed systemUsed' systemUsed'' : Int64}

theorem refl : Draws charged remaining systemUsed remaining systemUsed where
  remaining_le := UInt64.le_refl _
  systemUsed_eq := by
    rw [UInt64.sub_self]
    split
    · rfl
    · exact (Int64.add_zero _).symm

theorem trans (first : Draws charged remaining systemUsed remaining' systemUsed')
    (second : Draws charged remaining' systemUsed' remaining'' systemUsed'') :
    Draws charged remaining systemUsed remaining'' systemUsed'' where
  remaining_le := UInt64.le_trans second.remaining_le first.remaining_le
  systemUsed_eq := by
    rw [second.systemUsed_eq, first.systemUsed_eq]
    split
    · rfl
    · have sum : remaining - remaining' + (remaining' - remaining'') = remaining - remaining'' := by grind
      rw [Int64.add_assoc, ← UInt64.toInt64_add, sum]

theorem useBandwidth {cost : UInt64} {session : Option PayerSession} {amount : Int64}
    {exceeded negative : ChainException} {used : UInt64 × Int64 × Option PayerSession}
    (ok : ResourceMeter.useBandwidth remaining systemUsed cost session amount exceeded negative = .ok used) :
    Draws session.isSome remaining systemUsed used.1 used.2.1 ∧
      used.2.2.map (·.events) = session.map (·.events) := by
  rw [ResourceMeter.useBandwidth] at ok
  split at ok
  · contradiction
  rename_i within
  split at ok
  · contradiction
  obtain ⟨charged, pays, rfl⟩ := Exec.exists_of_map_eq_ok ok
  have amount_eq : remaining - (remaining - amount.toUInt64) = amount.toUInt64 := by grind
  refine ⟨⟨by grind, ?_⟩, PayerSession.events_of_charge pays⟩
  dsimp only
  rw [amount_eq, Int64.toInt64_toUInt64]
  cases session <;> rfl

end Draws

/-- The limits stay and both counters of bandwidth are drawn from. -/
structure ResourceMeter.Spends (charged : Bool) (meter meter' : ResourceMeter) : Prop where
  limits : meter'.resourceLimitData = meter.resourceLimitData
  network : Draws charged meter.networkBandwidthRemaining meter.systemNetworkBandwidthUsed
    meter'.networkBandwidthRemaining meter'.systemNetworkBandwidthUsed
  compute : Draws charged meter.computeBandwidthRemaining meter.systemComputeBandwidthUsed
    meter'.computeBandwidthRemaining meter'.systemComputeBandwidthUsed

theorem ResourceMeter.Spends.trans {charged : Bool} {meter meter' meter'' : ResourceMeter}
    (first : meter.Spends charged meter') (second : meter'.Spends charged meter'') : meter.Spends charged meter'' :=
  ⟨second.limits.trans first.limits, first.network.trans second.network, first.compute.trans second.compute⟩

variable {σ : Type}

/-- The meter is only used, and the session stays. -/
structure Metered (w w' : World σ) : Prop where
  session : w'.session.isSome = w.session.isSome
  spends : w.meter.Spends w.session.isSome w'.meter

namespace Metered

theorem of_eq {w w' : World σ} (session : w'.session.isSome = w.session.isSome) (meter : w'.meter = w.meter) :
    Metered w w' := ⟨session, by rw [meter]; exact ⟨rfl, .refl, .refl⟩⟩

instance : IsPreorder (World σ) Metered where
  refl _ := .of_eq rfl rfl
  trans := by
    intro w w' w'' first second
    refine ⟨second.session.trans first.session, ?_⟩
    have later := second.spends
    rw [first.session] at later
    exact first.spends.trans later

end Metered

/-- Within a transaction, events are noted for its id, and its session has a copy of each. -/
structure Chronicled (w w' : World σ) : Prop where
  transaction : w'.transaction = w.transaction
  noted : ∃ events : List EventData,
    w'.chronicler.events = w.chronicler.events ++ events.map (w.transaction.map (·.id), ·) ∧
      w'.session.map (·.events) = w.session.map (·.events ++ events)

namespace Chronicled

theorem of_eq {w w' : World σ} (transaction : w'.transaction = w.transaction)
    (chronicler : w'.chronicler.events = w.chronicler.events)
    (session : w'.session.map (·.events) = w.session.map (·.events)) : Chronicled w w' := by
  refine ⟨transaction, [], ?_, ?_⟩
  · rw [chronicler, List.map_nil, List.append_nil]
  · simpa only [List.append_nil] using session

instance : IsPreorder (World σ) Chronicled where
  refl _ := .of_eq rfl rfl rfl
  trans := by
    rintro w w' w'' ⟨same, events, noted, copied⟩ ⟨same', events', noted', copied'⟩
    refine ⟨same'.trans same, events ++ events', ?_, ?_⟩
    · rw [noted', noted, same, List.map_append, List.append_assoc]
    · rw [copied']
      have appended := congrArg (Option.map (· ++ events')) copied
      simpa only [Option.map_map, Function.comp_def, List.append_assoc] using appended

end Chronicled

/-- A log entry is not an event. -/
theorem World.events_pushLog (message : Bytes) (w : World σ) :
    (Exec.final (pushLog message w)).chronicler.events = w.chronicler.events ∧
      (Exec.final (pushLog message w)).session.map (·.events) = w.session.map (·.events) := by
  change (w.chronicler.pushLog w.session message).1.events = _ ∧
    (w.chronicler.pushLog w.session message).2.map (·.events) = _
  cases w.session <;> exact ⟨rfl, rfl⟩

/-- Only the meter, the chronicler and the session change, as by charging and logging. -/
structure Charges (w w' : World σ) : Prop where
  metered : Metered w w'
  chronicled : Chronicled w w'
  disk : w'.meter.diskStorageRemaining = w.meter.diskStorageRemaining
  same : ∃ meter chronicler session, w' = { w with meter := meter, chronicler := chronicler, session := session }

namespace Charges

open Exec (Moves)

instance : IsPreorder (World σ) Charges where
  refl w := ⟨refl_of Metered w, refl_of Chronicled w, rfl, w.meter, w.chronicler, w.session, rfl⟩
  trans := by
    rintro w w' w'' ⟨metered, chronicled, disk, meter, chronicler, session, rfl⟩
      ⟨metered', chronicled', disk', meter', chronicler', session', rfl⟩
    exact ⟨trans_of Metered metered metered', trans_of Chronicled chronicled chronicled', disk'.trans disk,
      meter', chronicler', session', rfl⟩

/-- What a resource of the meter is charged for, apart from disk storage. -/
theorem useResource
    {use : ResourceMeter → Option PayerSession → Except ChainException (ResourceMeter × Option PayerSession)}
    (spends : ∀ meter session used, use meter session = .ok used → used.2.map (·.events) = session.map (·.events) ∧
      used.1.diskStorageRemaining = meter.diskStorageRemaining ∧ meter.Spends session.isSome used.1) :
    Moves Charges (useResource use : WorldM σ Unit) := by
  intro w
  cases outcome : use w.meter w.session with
  | error e =>
    rw [useResource_of_error outcome]
    exact refl_of Charges w
  | ok used =>
    rw [useResource_of_ok outcome]
    obtain ⟨session, disk, meter⟩ := spends _ _ _ outcome
    exact ⟨⟨isSome_of_map_eq session, meter⟩, .of_eq rfl rfl session, disk, used.1, w.chronicler, used.2, rfl⟩

theorem useNetworkBandwidth (bytes : Int64) : Moves Charges (useNetworkBandwidth bytes : WorldM σ Unit) := by
  apply useResource
  intro meter session used ok
  obtain ⟨drawn, draws, rfl⟩ := Exec.exists_of_map_eq_ok ok
  have drawn := Draws.useBandwidth draws
  exact ⟨drawn.2, rfl, rfl, drawn.1, .refl⟩

theorem useComputeBandwidth (ticks : Int64) : Moves Charges (useComputeBandwidth ticks : WorldM σ Unit) := by
  apply useResource
  intro meter session used ok
  obtain ⟨drawn, draws, rfl⟩ := Exec.exists_of_map_eq_ok ok
  have drawn := Draws.useBandwidth draws
  exact ⟨drawn.2, rfl, rfl, .refl, drawn.1⟩

theorem pushLog (message : Bytes) : Moves Charges (pushLog message : WorldM σ Unit) := by
  intro w
  obtain ⟨events, session⟩ := events_pushLog message w
  exact ⟨.of_eq (isSome_of_map_eq session) rfl, .of_eq rfl events session, rfl, w.meter, _, _, rfl⟩

theorem pushEvent (event : EventData) : Moves Charges (pushEvent event : WorldM σ Unit) := by
  intro w
  refine ⟨.of_eq Option.isSome_map rfl, ⟨rfl, [{ event with sequence := w.chronicler.seqNo }], rfl, ?_⟩, rfl,
    w.meter, _, _, rfl⟩
  exact Option.map_map ..

end Charges

/-- A use of disk storage that the meter accepts. -/
theorem ResourceMeter.useDiskStorage_eq_ok {meter meter' : ResourceMeter} {session session' : Option PayerSession}
    {bytes : Int64} (used : meter.useDiskStorage session bytes = .ok (meter', session')) :
    bytes ≤ meter.diskStorageRemaining.toInt64 ∧
      meter'.diskStorageRemaining = meter.diskStorageRemaining - bytes.toUInt64 ∧
      session'.map (·.events) = session.map (·.events) ∧ meter.Spends session.isSome meter' := by
  rw [useDiskStorage] at used
  split at used
  · contradiction
  rename_i within
  obtain ⟨charged, pays, same⟩ := Exec.exists_of_map_eq_ok used
  cases same
  refine ⟨Int64.not_lt.mp within, ?_, PayerSession.events_of_charge pays, rfl, .refl, .refl⟩
  dsimp only
  split
  · rfl
  · rw [Int64.toUInt64_neg, UInt64.sub_eq_add_neg]

end Teleno.Chain
