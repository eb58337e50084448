import Mathlib.Algebra.BigOperators.Finprod
import Teleno.Chain.Levels
import Teleno.Chain.MeterExact

/-! # What is stored and what is paid for

`put_object` and `remove_object` change the current node first and charge the change in bytes afterwards. What
they add to the stored objects is therefore what could be paid for and what could not together. The difference
between two views is summed over all keys.
-/

namespace Teleno.Chain

open Library StateDb Exec List Function

namespace Incident

/-- The stored bytes by which one view exceeds another. -/
noncomputable def storedGrowth (view view' : View) : ℤ :=
  ∑ᶠ key, (objectBytes key (view' key) - objectBytes key (view key))

section Growth

variable {view view' view'' : View}

theorem storedGrowth_self (view : View) : storedGrowth view view = 0 := by
  simp [storedGrowth]

/-- What differs at finitely many keys adds up. -/
theorem storedGrowth_add (first : {key | view' key ≠ view key}.Finite)
    (second : {key | view'' key ≠ view' key}.Finite) :
    storedGrowth view view'' = storedGrowth view view' + storedGrowth view' view'' := by
  have supported : ∀ {left right : View}, {key | right key ≠ left key}.Finite →
      (support fun key => objectBytes key (right key) - objectBytes key (left key)).Finite := by
    intro left right finite
    refine finite.subset fun key differs same => differs ?_
    dsimp only
    rw [same, sub_self]
  rw [storedGrowth, storedGrowth, storedGrowth, ← finsum_add_distrib (supported first) (supported second)]
  refine finsum_congr fun key => ?_
  omega

theorem finite_update (view : View) (key : Bytes) (value : Option Bytes) :
    {k | update view key value k ≠ view k}.Finite := by
  refine (Set.finite_singleton key).subset fun k differs => ?_
  by_contra other
  exact differs (update_of_ne other value view)

theorem storedGrowth_update (view : View) (key : Bytes) (value : Option Bytes) :
    storedGrowth view (update view key value) = objectBytes key value - objectBytes key (view key) := by
  rw [storedGrowth, finsum_eq_single _ key, update_self]
  intro k other
  rw [update_of_ne other, sub_self]

end Growth

def write? : Incident → Option Write
  | wrote write => some write
  | _ => none

/-- The writes on a node. -/
def writesOn (node : ℕ) (new : List Incident) : List Write := (new.filterMap write?).filter (·.node = node)

end Incident

/-- What a write adds to the stored bytes. -/
def Write.growth (codec : KeyCodec) (write : Write) : ℤ :=
  Incident.objectBytes (codec.serialize ⟨write.space, write.key⟩) write.value -
    Incident.objectBytes (codec.serialize ⟨write.space, write.key⟩) write.old

namespace Write

variable (write : Write)

/-- Before the charge there is enough disk storage left, and enough RC in the session. -/
def Affordable : Prop :=
  (Int64.ofInt write.bytes).toInt ≤ write.meter.diskStorageRemaining.toInt64.toInt ∧
    ∀ payer ∈ write.session, (Int64.ofInt write.bytes).toInt * write.meter.resourceLimitData.diskStorageCost.toNat ≤
      payer.endRc.toInt

instance : DecidablePred Affordable := fun _ => inferInstanceAs (Decidable (_ ∧ _))

/-- Before the charge neither the disk storage nor the RC is negative, and the bytes fit into `int64_t`. -/
def Solvent : Prop :=
  0 ≤ write.meter.diskStorageRemaining.toInt64.toInt ∧ (∀ payer ∈ write.session, 0 ≤ payer.endRc.toInt) ∧
    (Int64.ofInt write.bytes).toInt = write.bytes

instance : DecidablePred Solvent := fun _ => inferInstanceAs (Decidable (_ ∧ _ ∧ _))

/-- The meter accepts what was affordable before the charge. -/
theorem accepted_iff_affordable : write.accepted = true ↔ write.Affordable := by
  refine Iff.trans ?_ (apply_disk_iff (s := ⟨write.meter, write.session⟩))
  rw [accepted, MeterCall.apply]
  cases write.meter.useDiskStorage write.session (Int64.ofInt write.bytes) <;> simp [Except.isOk, Except.toBool]

variable {write}

/-- Only growth can be too expensive. -/
theorem bytes_pos_of_not_affordable (solvent : write.Solvent) (expensive : ¬ write.Affordable) :
    0 < write.bytes := by
  obtain ⟨remaining, rc, fits⟩ := solvent
  by_contra shrinks
  refine expensive ⟨by omega, fun payer paying => ?_⟩
  have cost : write.bytes * write.meter.resourceLimitData.diskStorageCost.toNat ≤ 0 :=
    mul_nonpos_of_nonpos_of_nonneg (not_lt.mp shrinks) (Int.natCast_nonneg _)
  rw [fits]
  exact cost.trans (rc payer paying)

end Write

namespace Incident

variable (codec : KeyCodec) (node : ℕ) (new : List Incident)

/-- What the writes on a node add to its stored bytes. -/
def callGrowth : ℤ := ((writesOn node new).map (·.growth codec)).sum

/-- The bytes that the meter accepts for the writes on a node. -/
def acceptedBytes : ℤ := (((writesOn node new).filter (·.accepted)).map (·.bytes)).sum

/-- The bytes of the writes that were not affordable before they were charged. -/
def unaffordableBytes : ℤ := (((writesOn node new).filter (¬ ·.Affordable)).map (·.bytes)).sum

variable {codec node new}

/-- Whatever is written was accepted, or was not affordable. -/
theorem callGrowth_eq (balanced : ∀ r ∈ new, r.Balanced codec) :
    callGrowth codec node new = acceptedBytes node new + unaffordableBytes node new := by
  have bytes : ∀ write ∈ writesOn node new, write.bytes = write.growth codec := by
    intro write mem
    obtain ⟨r, among, same⟩ := mem_filterMap.mp (mem_of_mem_filter mem)
    cases r with
    | wrote write' =>
      cases same
      exact balanced _ among
    | resolved | priced | ran | applied => cases same
  rw [callGrowth, acceptedBytes, unaffordableBytes, ← map_congr_left bytes]
  induction writesOn node new with
  | nil => rfl
  | cons write rest ih =>
    by_cases affordable : write.Affordable <;> simp [write.accepted_iff_affordable, affordable, ih] <;> omega

/-- If there is no debt before any of the writes, the unaffordable ones only add up to nothing if there are none. -/
theorem unaffordableBytes_eq_zero_iff (solvent : ∀ write ∈ writesOn node new, write.Solvent) :
    unaffordableBytes node new = 0 ↔ ∀ write ∈ writesOn node new, write.Affordable := by
  have positive : ∀ bytes ∈ ((writesOn node new).filter (¬ ·.Affordable)).map (·.bytes), 0 < bytes := by
    intro bytes among
    obtain ⟨write, expensive, rfl⟩ := mem_map.mp among
    obtain ⟨mem, expensive⟩ := mem_filter.mp expensive
    exact Write.bytes_pos_of_not_affordable (solvent write mem) (of_decide_eq_true expensive)
  refine ⟨fun zero write mem => ?_, fun affordable => ?_⟩
  · by_contra expensive
    have among : write ∈ (writesOn node new).filter (¬ ·.Affordable) :=
      mem_filter.mpr ⟨mem, decide_eq_true expensive⟩
    exact (sum_pos _ positive (ne_nil_of_mem (mem_map_of_mem among))).ne' zero
  · rw [unaffordableBytes, filter_eq_nil_iff.mpr (by simpa using affordable), map_nil, sum_nil]

theorem callGrowth_cons_wrote {write : Write} (here : write.node = node) :
    callGrowth codec node (wrote write :: new) = write.growth codec + callGrowth codec node new := by
  have here' : (wrote write :: new).filterMap write? = write :: new.filterMap write? := filterMap_cons_some rfl
  rw [callGrowth, writesOn, here', filter_cons_of_pos (by simpa using here), map_cons, sum_cons]
  rfl

/-- The writes of a journal add up to the difference between the views before and after it. -/
theorem storedGrowth_replay {view : View} (tallied : Tallied codec view new)
    (located : ∀ write, wrote write ∈ new → write.node = node) :
    storedGrowth view (replay codec view new) = callGrowth codec node new ∧
      {key | replay codec view new key ≠ view key}.Finite := by
  induction new generalizing view with
  | nil => exact ⟨storedGrowth_self view, by simp [replay]⟩
  | cons incident rest ih =>
    obtain ⟨measured, tallied⟩ := tallied
    obtain ⟨grown, finite⟩ := ih tallied fun write mem => located write (mem_cons_of_mem _ mem)
    cases incident with
    | resolved | priced | ran | applied => exact ⟨grown, finite⟩
    | wrote write =>
      have first := finite_update view (codec.serialize ⟨write.space, write.key⟩) write.value
      have differs : {key | replay codec view (wrote write :: rest) key ≠ view key}.Finite := by
        refine (finite.union first).subset fun key differs => ?_
        by_contra neither
        rw [Set.mem_union, not_or, Set.mem_ofPred_eq, Set.mem_ofPred_eq, not_not, not_not] at neither
        exact differs (neither.1.trans neither.2)
      refine ⟨?_, differs⟩
      rw [callGrowth_cons_wrote (located write mem_cons_self), ← grown, Write.growth, measured,
        ← storedGrowth_update view]
      exact storedGrowth_add first finite

end Incident

namespace Platform

open Incident

variable {p : Platform} {intent : Intent} {trx : Transaction}

section Sample

/-- The limits of a block. -/
def hoardingLimits (limit : UInt64) : ResourceLimitData where
  diskStorageLimit := limit
  diskStorageCost := 1
  networkBandwidthLimit := 1000
  computeBandwidthLimit := 1000

/-- A contract that puts an object of 200 bytes into its space and does not care about the answer. -/
def hoardingPlatform (limit : UInt64) : Platform :=
  .transparent (hoardingLimits limit)
    (fun id _ =>
      if same : id = .putObject then same ▸ ({ zone := [7] }, [], List.replicate 200 0) else emptyArgs id)
    fun _ _ => .host (.invokeSystemCall SystemCallId.putObject.ctorIdx.toUInt32 0 []) (fun _ => .done none)
      fun e => .done (some e)

/-- The context of a block with the contract. -/
def hoardingContext (limit : UInt64) (session : Option PayerSession) : World Host where
  heap := transparentHeap [(.contractBytecode, [7], [1]), (.contractMetadata, [7], [0])]
  stateNode := 1
  parentNode := some 0
  stack := [.systemCall, .systemCall]
  meter := .ofLimits (hoardingLimits limit)
  session := session
  receipt := .block {}
  rest := {}

/-- A transaction that calls the contract. -/
def hoardingTransaction : Transaction where
  header := { nonce := [0], rcLimit := 1000 }
  operations := [.callContract { contractId := [7] }]
  signatures := [List.replicate 65 0]

/-- The node of the transaction, with a session that has 1000 RC. -/
def hoardingNode (limit : UInt64) : World Host := (hoardingContext limit (some (.start 1000))).onTransactionNode

/-- What the operations of the transaction leave. -/
def hoardingRun (limit : UInt64) : World Host :=
  final (((hoardingPlatform limit).chain .blockApplication).operate hoardingTransaction 1 2 (hoardingNode limit))

/-- Whether the operations store what they pay for. -/
def HoardingPaid (limit : UInt64) : Prop :=
  callGrowth KeyCodec.transparent 2 (hoardingRun limit).rest.journal = acceptedBytes 2 (hoardingRun limit).rest.journal

end Sample

end Platform

end Teleno.Chain
