import Teleno.Chain.Messages

/-! # Resource meter, payer session and chronicler

The meter counts what is left of the block's limits. While a payer session is alive, usage is also
charged to the payer in RC and events and logs are copied to or kept in the session; otherwise the
usage counts as system usage. The source holds the session by weak pointer from the meter and from
the chronicler; here it is passed to both and is `none` once the last owner is gone.
-/

namespace Teleno.Chain

/-- `resource_limit_data`. -/
structure ResourceLimitData where
  diskStorageLimit : UInt64 := 0
  diskStorageCost : UInt64 := 0
  networkBandwidthLimit : UInt64 := 0
  networkBandwidthCost : UInt64 := 0
  computeBandwidthLimit : UInt64 := 0
  computeBandwidthCost : UInt64 := 0
deriving DecidableEq

/-- `session`: the RC of a payer and the events and logs of one transaction. -/
structure PayerSession where
  beginRc : Int64
  endRc : Int64
  events : List EventData := []
  logs : List Bytes := []
deriving DecidableEq

namespace PayerSession

/-- The constructor takes an `int64_t`, so the limit is converted. -/
def start (rc : UInt64) : PayerSession := ⟨rc.toInt64, rc.toInt64, [], []⟩

def useRc (session : PayerSession) (rc : Int64) : Except ChainException PayerSession :=
  if rc ≤ session.endRc then .ok { session with endRc := session.endRc - rc }
  else .error ⟨.reversion .insufficientRc, text "insufficient rc", []⟩

def usedRc (session : PayerSession) : UInt64 :=
  if session.beginRc < session.endRc then 0 else (session.beginRc - session.endRc).toUInt64

def remainingRc (session : PayerSession) : UInt64 := (min session.beginRc session.endRc).toUInt64

/-- Charge an amount of a resource to the session, if there is one. The RC cost is an `int128_t` whose
conversion to an `int64_t` saturates. -/
def charge (session : Option PayerSession) (amount : Int64) (cost : UInt64) :
    Except ChainException (Option PayerSession) :=
  match session with
  | none => .ok none
  | some session =>
    let rcCost := amount.toInt * cost.toNat
    if Int64.maxValue.toInt < rcCost then .error ⟨.reversion .reversion, text "rc overflow", []⟩
    else (session.useRc (Int64.ofInt (max Int64.minValue.toInt rcCost))).map some

end PayerSession

/-- `resource_meter`. -/
structure ResourceMeter where
  diskStorageRemaining : UInt64
  systemDiskStorageUsed : Int64
  networkBandwidthRemaining : UInt64
  systemNetworkBandwidthUsed : Int64
  computeBandwidthRemaining : UInt64
  systemComputeBandwidthUsed : Int64
  resourceLimitData : ResourceLimitData
deriving DecidableEq

namespace ResourceMeter

/-- `set_resource_limit_data` forgets all earlier usage. -/
def ofLimits (limits : ResourceLimitData) : ResourceMeter where
  diskStorageRemaining := limits.diskStorageLimit
  systemDiskStorageUsed := 0
  networkBandwidthRemaining := limits.networkBandwidthLimit
  systemNetworkBandwidthUsed := 0
  computeBandwidthRemaining := limits.computeBandwidthLimit
  systemComputeBandwidthUsed := 0
  resourceLimitData := limits

/-- The constructor sets the largest limits and no costs. -/
def initial : ResourceMeter :=
  ofLimits { diskStorageLimit := -1, networkBandwidthLimit := -1, computeBandwidthLimit := -1 }

variable (meter : ResourceMeter)

/-- Storage released beyond the limit counts as no usage. -/
def diskStorageUsed : UInt64 :=
  if meter.resourceLimitData.diskStorageLimit < meter.diskStorageRemaining then 0
  else meter.resourceLimitData.diskStorageLimit - meter.diskStorageRemaining

def networkBandwidthUsed : UInt64 :=
  meter.resourceLimitData.networkBandwidthLimit - meter.networkBandwidthRemaining

def computeBandwidthUsed : UInt64 :=
  meter.resourceLimitData.computeBandwidthLimit - meter.computeBandwidthRemaining

/-- The RC that the block producer pays for system usage, in `uint64_t` arithmetic. -/
def systemRcCost : UInt64 :=
  (max 0 meter.systemDiskStorageUsed).toUInt64 * meter.resourceLimitData.diskStorageCost
    + (max 0 meter.systemNetworkBandwidthUsed).toUInt64 * meter.resourceLimitData.networkBandwidthCost
    + (max 0 meter.systemComputeBandwidthUsed).toUInt64 * meter.resourceLimitData.computeBandwidthCost

/-- `use_network_bandwidth` and `use_compute_bandwidth` on their own counters: what remains, the system
usage and the session. The first comparison is between an `int64_t` and a `uint64_t`, hence unsigned. -/
def useBandwidth (remaining : UInt64) (systemUsed : Int64) (cost : UInt64) (session : Option PayerSession)
    (amount : Int64) (exceeded negative : ChainException) :
    Except ChainException (UInt64 × Int64 × Option PayerSession) :=
  if remaining < amount.toUInt64 then .error exceeded
  else if amount < 0 then .error negative
  else (PayerSession.charge session amount cost).map fun charged =>
    (remaining - amount.toUInt64, if session.isNone then systemUsed + amount else systemUsed, charged)

def useNetworkBandwidth (session : Option PayerSession) (bytes : Int64) :
    Except ChainException (ResourceMeter × Option PayerSession) :=
  let refuse (message : String) : ChainException := ⟨.failure .networkBandwidthLimitExceeded, text message, []⟩
  (useBandwidth meter.networkBandwidthRemaining meter.systemNetworkBandwidthUsed
    meter.resourceLimitData.networkBandwidthCost session bytes
    (refuse "network bandwidth limit exceeded") (refuse "cannot consume negative network bandwidth")).map
    fun used => ({ meter with
      networkBandwidthRemaining := used.1
      systemNetworkBandwidthUsed := used.2.1 }, used.2.2)

def useComputeBandwidth (session : Option PayerSession) (ticks : Int64) :
    Except ChainException (ResourceMeter × Option PayerSession) :=
  let refuse (message : String) : ChainException := ⟨.failure .computeBandwidthLimitExceeded, text message, []⟩
  (useBandwidth meter.computeBandwidthRemaining meter.systemComputeBandwidthUsed
    meter.resourceLimitData.computeBandwidthCost session ticks
    (refuse "compute bandwidth limit exceeded") (refuse "cannot consume compute bandwidth bandwidth")).map
    fun used => ({ meter with
      computeBandwidthRemaining := used.1
      systemComputeBandwidthUsed := used.2.1 }, used.2.2)

/-- Storage may also be released. What remains is compared as an `int64_t`. -/
def useDiskStorage (session : Option PayerSession) (bytes : Int64) :
    Except ChainException (ResourceMeter × Option PayerSession) :=
  if meter.diskStorageRemaining.toInt64 < bytes then
    .error ⟨.failure .diskStorageLimitExceeded, text "disk storage limit exceeded", []⟩
  else (PayerSession.charge session bytes meter.resourceLimitData.diskStorageCost).map fun charged =>
    ({ meter with
      diskStorageRemaining := if 0 ≤ bytes then meter.diskStorageRemaining - bytes.toUInt64
        else meter.diskStorageRemaining + (-bytes).toUInt64
      systemDiskStorageUsed := if session.isNone then meter.systemDiskStorageUsed + bytes
        else meter.systemDiskStorageUsed }, charged)

/-- A session limits the compute bandwidth to what its RC can pay for. -/
def availableComputeBandwidth (session : Option PayerSession) : UInt64 :=
  match session with
  | some session =>
    if 0 < meter.resourceLimitData.computeBandwidthCost then
      min (session.remainingRc / meter.resourceLimitData.computeBandwidthCost) meter.computeBandwidthRemaining
    else meter.computeBandwidthRemaining
  | none => meter.computeBandwidthRemaining

end ResourceMeter

/-- `chronicler`: events with the id of their transaction, and the logs outside sessions. -/
structure Chronicler where
  events : List (Option Bytes × EventData) := []
  logs : List Bytes := []
  seqNo : UInt32 := 0

/-- An event gets the next sequence number. The session keeps a copy. -/
def Chronicler.pushEvent (chronicler : Chronicler) (session : Option PayerSession)
    (transactionId : Option Bytes) (event : EventData) : Chronicler × Option PayerSession :=
  let event := { event with sequence := chronicler.seqNo }
  ({ chronicler with
      events := chronicler.events ++ [(transactionId, event)]
      seqNo := chronicler.seqNo + 1 },
    session.map fun session => { session with events := session.events ++ [event] })

/-- A log goes to the session while there is one. -/
def Chronicler.pushLog (chronicler : Chronicler) (session : Option PayerSession) (message : Bytes) :
    Chronicler × Option PayerSession :=
  match session with
  | some session => (chronicler, some { session with logs := session.logs ++ [message] })
  | none => ({ chronicler with logs := chronicler.logs ++ [message] }, none)

end Teleno.Chain
