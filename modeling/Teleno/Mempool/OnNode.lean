import Teleno.Mempool.Ledger

/-! # What the node functions do to the ledger

Each function of a node is run on a heap in which the node may take writes. It changes that node
only, and turns a ledger of what the node shows into the ledger after the call.
-/

namespace Teleno.Mempool

open Library StateDb Exec Space View List

/-- A node that takes writes. -/
structure Writable (h : Heap) (p : ℕ) : Prop where
  unfinalized : (h.cell p).finalized = false
  held : (h.cell p).backend.isSome

/-- `h'` is `h` with other objects on one writable node, which then shows `view`. -/
structure Shows (h : Heap) (p : ℕ) (h' : Heap) (view : View) : Prop where
  writable : Writable h p
  rewrites : h.Rewrites p h'
  find_eq : h'.find p = view

variable {codec : Codec} {h h' : Heap} {p : ℕ} {view : View}

namespace Shows

theorem start (writable : Writable h p) : Shows h p h (h.find p) := ⟨writable, .refl h p, rfl⟩

theorem still_writable (shows : Shows h p h' view) : Writable h' p where
  unfinalized := shows.rewrites.frame.finalized_eq.trans shows.writable.unfinalized
  held := shows.rewrites.frame.held_eq.trans shows.writable.held

section

variable (shows : Shows h p h' view) (codec : Codec) (space : ObjectSpace)

include shows

theorem getObject (key : Bytes) : getObject codec p space key h' = .ok (object codec.keys view space key) h' := by
  rw [Mempool.getObject, Heap.getObject, shows.find_eq]
  rfl

theorem putObject (key value : Bytes) : ∃ h'', putObject codec p space key value h' = .ok () h'' ∧
      Shows h p h'' (write codec.keys view space key (some value)) := by
  have writable := shows.still_writable
  refine ⟨h'.put p (codec.keys.serialize ⟨space, key⟩) value, ?_, ?_⟩
  · simp [Mempool.putObject, Heap.putObject, writable.unfinalized]
  · refine ⟨shows.writable, shows.rewrites.trans (h'.rewrites_put _ value), ?_⟩
    rw [h'.find_put writable.held, shows.find_eq]
    rfl

theorem removeObject (key : Bytes) : ∃ h'', removeObject codec p space key h' = .ok () h'' ∧
      Shows h p h'' (write codec.keys view space key none) := by
  refine ⟨h'.erase p (codec.keys.serialize ⟨space, key⟩) false, ?_, ?_⟩
  · simp [Mempool.removeObject, Heap.removeObject, shows.still_writable.unfinalized]
  · refine ⟨shows.writable, shows.rewrites.trans (h'.rewrites_erase _ false), ?_⟩
    rw [h'.find_erase, shows.find_eq]
    rfl

end

end Shows

theorem convert_some {α : Type} {parsed : Option α} {a : α} (parses : parsed = some a) (h : Heap) :
    convert parsed h = .ok a h := by
  rw [parses]
  rfl

theorem dereference_some {σ α : Type} {pointer : Option α} {a : α} (points : pointer = some a) (s : σ) :
    dereference pointer s = .ok a s := by
  rw [points]
  rfl

theorem toNat_ofInt_natCast {n : ℕ} (fits : n < 2 ^ 64) : (UInt64.ofInt n).toNat = n := by
  have unchanged : ((n : ℤ) % 2 ^ 64).toNat = n := by omega
  rw [UInt64.ofInt, unchanged, UInt64.toNat_ofNat_of_lt' fits]

/-- The next sequence number is not the last one. -/
def SeqNumLeft (codec : Codec) (view : View) : Prop :=
  (object codec.keys view mempoolMetadata []).bind codec.parseMetadata ≠ some ⟨-1⟩

instance (codec : Codec) (view : View) : Decidable (SeqNumLeft codec view) :=
  inferInstanceAs (Decidable (_ ≠ _))

section Verdict

variable (codec) (view : View) (transaction : PendingTransaction) (maxPayerRc : UInt64)

/-- The payer's resource record, if it can be read: `none` is the account without one. -/
def resourceRecord (payer : Bytes) : Option (Option AddressResourceRecord) :=
  match object codec.keys view addressResources payer with
  | none => some none
  | some obj => (codec.parseResources obj).map some

/-- What the record reserves. -/
def reservedBy : Option AddressResourceRecord → UInt64
  | none => 0
  | some arr => arr.maxRc - arr.currentRc

/-- The account with this record has enough left. -/
def canPay (rcLimit : UInt64) : Option AddressResourceRecord → Bool
  | none => rcLimit ≤ maxPayerRc
  | some arr => 0 ≤ newResources arr maxPayerRc rcLimit

/-- The next sequence number, if it can be read. -/
def seqNumOf : Option UInt64 :=
  match object codec.keys view mempoolMetadata [] with
  | none => some 1
  | some obj => (codec.parseMetadata obj).map MempoolMetadata.seqNum

/-- The checks ahead of the nonce. -/
structure Payable : Prop where
  affordable : (resourceRecord codec view transaction.payer).any (canPay maxPayerRc transaction.rcLimit) = true
  fresh : object codec.keys view transactionIndex transaction.id = none

/-- The slot of the account and its nonce is free. -/
def NonceFree : Prop :=
  ∃ key, createAccountNonceKey codec transaction = some key ∧
    object codec.keys view accountNonce key = none

/-- Another pending transaction has the slot. -/
def NonceTaken : Prop :=
  ∃ key value, createAccountNonceKey codec transaction = some key ∧
    object codec.keys view accountNonce key = some value

/-- A node that takes the transaction. -/
structure Joins : Prop where
  payable : Payable codec view transaction maxPayerRc
  free : NonceFree codec view transaction
  counted : (seqNumOf codec view).isSome

/-- A node that is passed over. -/
structure Conflicts : Prop where
  payable : Payable codec view transaction maxPayerRc
  taken : NonceTaken codec view transaction

variable {codec view transaction maxPayerRc}

theorem Conflicts.not_free (conflicts : Conflicts codec view transaction maxPayerRc) :
    ¬ NonceFree codec view transaction := by
  rintro ⟨key, named, free⟩
  obtain ⟨key', value, named', taken⟩ := conflicts.taken
  rw [named, Option.some.injEq] at named'
  rw [← named', free] at taken
  contradiction

/-- The payer's record with one more transaction. -/
def extended (maxPayerRc rcLimit : UInt64) : Option AddressResourceRecord → AddressResourceRecord
  | none => ⟨maxPayerRc, maxPayerRc - rcLimit⟩
  | some arr => ⟨maxPayerRc, UInt64.ofInt (newResources arr maxPayerRc rcLimit)⟩

/-- What an attempt leaves on its anonymous node, with the RC it reports. -/
def Verdict (codec : Codec) (record : PendingTransactionRecord) (maxPayerRc : UInt64) (before after : View)
    (rcUsed : Option UInt64) : Prop :=
  (Joins codec before record.transaction maxPayerRc ∧ ∃ old key seqNum,
    resourceRecord codec before record.transaction.payer = some old ∧
    createAccountNonceKey codec record.transaction = some key ∧ seqNumOf codec before = some seqNum ∧
    after = added codec before ⟨seqNum, record⟩ key (extended maxPayerRc record.transaction.rcLimit old) ∧
    rcUsed = some (reservedBy old + record.transaction.rcLimit)) ∨
  (Conflicts codec before record.transaction maxPayerRc ∧ after = before ∧ rcUsed = none)

/-- The RC of an attempt is there when the node has taken the transaction. -/
theorem Verdict.isSome_iff {record : PendingTransactionRecord} {before after : View} {rcUsed : Option UInt64}
    (verdict : Verdict codec record maxPayerRc before after rcUsed) :
    rcUsed.isSome ↔ Joins codec before record.transaction maxPayerRc := by
  rcases verdict with ⟨joins, -, -, -, -, -, -, -, rfl⟩ | ⟨conflicts, -, rfl⟩
  · exact iff_of_true rfl joins
  · exact iff_of_false Bool.false_ne_true fun joins => conflicts.not_free joins.free

end Verdict

variable {entries : List Entry}

section Resources

variable {old : Option AddressResourceRecord} {payer : Bytes} {maxPayerRc rcLimit : UInt64}

theorem checkPendingAccountResourcesOnNode_of_view (shows : Shows h p h' view) (payer : Bytes)
    (maxPayerRc rcLimit : UInt64) :
    checkPendingAccountResourcesOnNode codec p payer maxPayerRc rcLimit h' =
      convert ((resourceRecord codec view payer).map (canPay maxPayerRc rcLimit)) h' := by
  rw [checkPendingAccountResourcesOnNode, bind_of_ok (shows.getObject codec _ _), resourceRecord]
  cases object codec.keys view addressResources payer with
  | none => rfl
  | some obj =>
    dsimp only
    cases codec.parseResources obj <;> rfl

theorem extended_maxRc (maxPayerRc rcLimit : UInt64) (old : Option AddressResourceRecord) :
    (extended maxPayerRc rcLimit old).maxRc = maxPayerRc := by
  cases old <;> rfl

/-- The words wrap around, and so does the difference that is stored. -/
theorem reservedBy_extended (maxPayerRc rcLimit : UInt64) (old : Option AddressResourceRecord) :
    (extended maxPayerRc rcLimit old).maxRc - (extended maxPayerRc rcLimit old).currentRc =
      reservedBy old + rcLimit := by
  cases old with
  | none =>
    dsimp only [extended, reservedBy]
    grind
  | some arr =>
    have word (x : UInt64) : UInt64.ofInt x.toNat = x := UInt64.toNat_inj.mp (toNat_ofInt_natCast x.toNat_lt)
    have current : UInt64.ofInt (newResources arr maxPayerRc rcLimit) =
        arr.currentRc + (maxPayerRc - arr.maxRc) - rcLimit := by
      simp [newResources, Int.sub_eq_add_neg, word, UInt64.sub_eq_add_neg]
    dsimp only [extended, reservedBy]
    rw [current]
    grind

theorem reserveResources_of_view (shows : Shows h p h' view) (payer : Bytes) (maxPayerRc rcLimit : UInt64)
    (stored : resourceRecord codec view payer = some old) :
    reserveResources codec p payer maxPayerRc rcLimit h' =
      .ok (extended maxPayerRc rcLimit old, reservedBy old + rcLimit) h' := by
  rw [← reservedBy_extended maxPayerRc, reserveResources, bind_of_ok (shows.getObject codec _ _)]
  rw [resourceRecord] at stored
  cases found : object codec.keys view addressResources payer with
  | none =>
    rw [found] at stored
    cases stored
    have undone : maxPayerRc - (maxPayerRc - rcLimit) = rcLimit := by grind
    dsimp only [extended]
    rw [undone]
    rfl
  | some obj =>
    rw [found] at stored
    obtain ⟨arr, parsed, rfl⟩ := Option.map_eq_some_iff.mp stored
    exact bind_of_ok (convert_some parsed h')

/-- In a ledger the payer's record can be read, and reserves what the payer's entries may use. -/
theorem Ledger.resourceRecord_eq (ledger : Ledger codec view entries) (payer : Bytes) :
    ∃ old, resourceRecord codec view payer = some old ∧ (old = none ∧ reserved payer entries = 0 ∨
      ∃ arr, old = some arr ∧ arr.currentRc.toNat ≤ arr.maxRc.toNat ∧
        arr.maxRc.toNat - arr.currentRc.toNat = reserved payer entries) := by
  rw [resourceRecord]
  cases stored : object codec.keys view addressResources payer with
  | none =>
    refine ⟨none, rfl, .inl ⟨rfl, (reserved_eq_zero_iff ledger.priced payer).mpr fun entry mem same => ?_⟩⟩
    have present := (ledger.payers payer).mpr ⟨entry, mem, same⟩
    rw [stored] at present
    contradiction
  | some obj =>
    obtain ⟨arr, rfl, bounded, reserves⟩ := ledger.resources payer obj stored
    refine ⟨some arr, ?_, .inr ⟨arr, rfl, UInt64.le_iff_toNat_le.mp bounded, reserves⟩⟩
    dsimp only
    rw [codec.parse_resources]
    rfl

/-- The account can pay for one more transaction beside those that are pending. -/
theorem checkPendingAccountResourcesOnNode_eq (shows : Shows h p h' view) (ledger : Ledger codec view entries)
    (payer : Bytes) (maxPayerRc rcLimit : UInt64) :
    checkPendingAccountResourcesOnNode codec p payer maxPayerRc rcLimit h' =
      .ok (decide (reserved payer entries + rcLimit.toNat ≤ maxPayerRc.toNat)) h' := by
  obtain ⟨old, stored, worth⟩ := ledger.resourceRecord_eq payer
  have same : canPay maxPayerRc rcLimit old =
      decide (reserved payer entries + rcLimit.toNat ≤ maxPayerRc.toNat) := by
    rcases worth with ⟨rfl, nothing⟩ | ⟨arr, rfl, bounded, reserves⟩
    · rw [nothing, Nat.zero_add]
      rfl
    · rw [canPay, newResources, decide_eq_decide]
      omega
  rw [checkPendingAccountResourcesOnNode_of_view shows, stored, ← same]
  rfl

/-- The reservation of a transaction that the account can pay for. -/
theorem Ledger.reserves_extended (ledger : Ledger codec view entries)
    (stored : resourceRecord codec view payer = some old) (affordable : canPay maxPayerRc rcLimit old = true) :
    (extended maxPayerRc rcLimit old).currentRc ≤ (extended maxPayerRc rcLimit old).maxRc ∧
      (extended maxPayerRc rcLimit old).maxRc.toNat - (extended maxPayerRc rcLimit old).currentRc.toNat =
        rcLimit.toNat + reserved payer entries := by
  have bits := maxPayerRc.toNat_lt
  obtain ⟨old', stored', worth⟩ := ledger.resourceRecord_eq payer
  obtain rfl := Option.some.inj (stored.symm.trans stored')
  have current : (extended maxPayerRc rcLimit old).currentRc.toNat =
      maxPayerRc.toNat - (rcLimit.toNat + reserved payer entries) ∧
      rcLimit.toNat + reserved payer entries ≤ maxPayerRc.toNat := by
    rcases worth with ⟨rfl, nothing⟩ | ⟨arr, rfl, bounded, reserves⟩
    · have fits := of_decide_eq_true affordable
      rw [nothing, extended, UInt64.toNat_sub_of_le _ _ fits]
      exact ⟨rfl, UInt64.le_iff_toNat_le.mp fits⟩
    · have fits := of_decide_eq_true affordable
      rw [newResources] at fits
      have left : newResources arr maxPayerRc rcLimit =
          ((maxPayerRc.toNat - (rcLimit.toNat + reserved payer entries) : ℕ) : ℤ) := by
        rw [newResources]
        omega
      rw [extended, left, toNat_ofInt_natCast (by omega)]
      exact ⟨rfl, by omega⟩
  rw [UInt64.le_iff_toNat_le, extended_maxRc, current.1]
  omega

end Resources

section Add

variable {record : PendingTransactionRecord} {maxPayerRc : UInt64}

theorem checkAccountNonceOnNode_eq (shows : Shows h p h' view) (nonceKey : Bytes) :
    checkAccountNonceOnNode codec p nonceKey h' =
      .ok (object codec.keys view accountNonce nonceKey).isNone h' :=
  bind_of_ok (shows.getObject codec _ _)

theorem nextSeqNum_of_view (shows : Shows h p h' view) : nextSeqNum codec p h' = convert (seqNumOf codec view) h' := by
  rw [nextSeqNum, bind_of_ok (shows.getObject codec _ _), seqNumOf]
  cases object codec.keys view mempoolMetadata [] with
  | none => rfl
  | some obj =>
    dsimp only
    cases codec.parseMetadata obj <;> rfl

/-- The next sequence number is above those in use, and one is left after it. -/
theorem Ledger.seqNum_above (ledger : Ledger codec view entries) (left : SeqNumLeft codec view) {seqNum : UInt64}
    (counted : seqNumOf codec view = some seqNum) : seqNum < seqNum + 1 ∧ ∀ entry ∈ entries, entry.seq < seqNum := by
  rw [seqNumOf] at counted
  cases stored : object codec.keys view mempoolMetadata [] with
  | none =>
    rw [stored] at counted
    cases counted
    refine ⟨by decide, fun entry mem => ?_⟩
    have present := ledger.counted (ne_nil_of_mem mem)
    rw [stored] at present
    contradiction
  | some obj =>
    obtain ⟨seqNum', rfl, above⟩ := ledger.metadata obj stored
    rw [SeqNumLeft, stored, Option.bind_some, codec.parse_metadata] at left
    rw [stored] at counted
    dsimp only at counted
    rw [codec.parse_metadata] at counted
    cases counted
    refine ⟨?_, above⟩
    dsimp only
    have bits := seqNum'.toNat_lt
    have inner : seqNum'.toNat ≠ 2 ^ 64 - 1 := by
      intro last
      have same : seqNum' = -1 := UInt64.toNat_inj.mp last
      exact left (by rw [same])
    rw [UInt64.lt_iff_toNat_lt, UInt64.toNat_add, UInt64.toNat_one, Nat.mod_eq_of_lt (by omega)]
    omega

/-- With or without the transaction, the node keeps a ledger. -/
theorem Verdict.ledger {before after : View} {rcUsed : Option UInt64}
    (verdict : Verdict codec record maxPayerRc before after rcUsed) (ledger : Ledger codec before entries)
    (positive : 0 < record.transaction.rcLimit) (left : SeqNumLeft codec before) :
    ∃ entries', Ledger codec after entries' := by
  rcases verdict with ⟨joins, old, key, seqNum, stored, named, counted, rfl, -⟩ | ⟨-, rfl, -⟩
  swap
  · exact ⟨entries, ledger⟩
  obtain ⟨key', named', unused⟩ := joins.free
  obtain rfl := Option.some.inj (named.symm.trans named')
  obtain ⟨room, above⟩ := ledger.seqNum_above left counted
  have affordable := joins.payable.affordable
  rw [stored, Option.any_some] at affordable
  obtain ⟨bounded, reserves⟩ := ledger.reserves_extended stored affordable
  exact ⟨_, ledger.add ⟨seqNum, record⟩ joins.payable.fresh named unused (UInt64.lt_iff_toNat_lt.mp positive) above
    room bounded reserves⟩

/-- A node that takes the transaction. -/
theorem addPendingTransactionToNode_of_joins (writable : Writable h p)
    (joins : Joins codec (h.find p) record.transaction maxPayerRc) :
    ∃ rcUsed h', addPendingTransactionToNode codec p record maxPayerRc h = .ok rcUsed h' ∧
      h.Rewrites p h' ∧ Verdict codec record maxPayerRc (h.find p) (h'.find p) (some rcUsed) := by
  have shows := Shows.start writable
  obtain ⟨old, stored, affordable⟩ := (Option.any_eq_true _ _).mp joins.payable.affordable
  obtain ⟨key, named, used⟩ := joins.free
  obtain ⟨seqNum, counted⟩ := Option.isSome_iff_exists.mp joins.counted
  have pays : checkPendingAccountResourcesOnNode codec p record.transaction.payer maxPayerRc
      record.transaction.rcLimit h = .ok true h := by
    rw [checkPendingAccountResourcesOnNode_of_view shows, stored, ← affordable]
    rfl
  have counts : nextSeqNum codec p h = .ok seqNum h := by
    rw [nextSeqNum_of_view shows, counted]
    rfl
  obtain ⟨h1, wrote1, shows1⟩ := shows.putObject codec mempoolMetadata [] (codec.metadata ⟨seqNum + 1⟩)
  obtain ⟨h2, wrote2, shows2⟩ := shows1.putObject codec pendingTransaction (uint64Bytes seqNum) (codec.record record)
  obtain ⟨h3, wrote3, shows3⟩ := shows2.putObject codec transactionIndex record.transaction.id (uint64Bytes seqNum)
  obtain ⟨h4, wrote4, shows4⟩ := shows3.putObject codec addressResources record.transaction.payer
    (codec.resources (extended maxPayerRc record.transaction.rcLimit old))
  obtain ⟨h5, wrote5, shows5⟩ := shows4.putObject codec accountNonce key []
  have reserves : reserveResources codec p record.transaction.payer maxPayerRc record.transaction.rcLimit h3 =
      .ok (extended maxPayerRc record.transaction.rcLimit old, reservedBy old + record.transaction.rcLimit) h3 := by
    refine reserveResources_of_view shows3 _ _ _ ?_
    rw [← stored, resourceRecord, resourceRecord]
    simp [object_write, mempoolMetadata, pendingTransaction, transactionIndex, addressResources]
  refine ⟨reservedBy old + record.transaction.rcLimit, h5, ?_, shows5.rewrites,
    .inl ⟨joins, old, key, seqNum, stored, named, counted, shows5.find_eq, rfl⟩⟩
  rw [addPendingTransactionToNode]
  dsimp only
  rw [bind_of_ok pays, bind_of_ok (require_true _ h),
    bind_of_ok (shows.getObject codec transactionIndex _), joins.payable.fresh, Option.isNone_none,
    bind_of_ok (require_true _ h), bind_of_ok (convert_some named h),
    bind_of_ok (checkAccountNonceOnNode_eq shows key), used, Option.isNone_none,
    bind_of_ok (require_true _ h), bind_of_ok counts, bind_of_ok wrote1,
    bind_of_ok wrote2, bind_of_ok wrote3, bind_of_ok reserves, bind_of_ok wrote4,
    bind_of_ok wrote5]
  rfl

/-- A node that does not take the transaction throws before it writes. -/
theorem addPendingTransactionToNode_of_not_joins (writable : Writable h p)
    (apart : ¬ Joins codec (h.find p) record.transaction maxPayerRc) :
    ∃ e, addPendingTransactionToNode codec p record maxPayerRc h = .error e h ∧
      (e.isNonceConflict = true ↔ Conflicts codec (h.find p) record.transaction maxPayerRc) ∧
      (e = .insertionFailure →
        (object codec.keys (h.find p) transactionIndex record.transaction.id).isSome) := by
  have shows := Shows.start writable
  have pays : checkPendingAccountResourcesOnNode codec p record.transaction.payer maxPayerRc
      record.transaction.rcLimit h = _ := checkPendingAccountResourcesOnNode_of_view shows _ _ _
  have refused {e : MempoolError} (other : e.isNonceConflict = false)
      (fails : ¬ Conflicts codec (h.find p) record.transaction maxPayerRc) :
      e.isNonceConflict = true ↔ Conflicts codec (h.find p) record.transaction maxPayerRc := by
    rw [other]
    exact iff_of_false Bool.false_ne_true fails
  rw [addPendingTransactionToNode]
  dsimp only
  cases stored : resourceRecord codec (h.find p) record.transaction.payer with
  | none =>
    rw [stored] at pays
    refine ⟨_, bind_of_error pays, refused rfl ?_, by rintro ⟨⟩⟩
    rintro ⟨⟨able, -⟩, -⟩
    rw [stored] at able
    contradiction
  | some old =>
  rw [stored] at pays
  rw [bind_of_ok pays]
  cases affordable : canPay maxPayerRc record.transaction.rcLimit old with
  | false =>
    refine ⟨_, rfl, refused rfl ?_, by rintro ⟨⟩⟩
    rintro ⟨⟨able, -⟩, -⟩
    rw [stored, Option.any_some, affordable] at able
    contradiction
  | true =>
  rw [bind_of_ok (require_true _ h), bind_of_ok (shows.getObject codec transactionIndex _)]
  cases indexed : object codec.keys (h.find p) transactionIndex record.transaction.id with
  | some seq =>
    refine ⟨_, rfl, refused rfl ?_, fun _ => rfl⟩
    rintro ⟨⟨-, fresh⟩, -⟩
    rw [indexed] at fresh
    contradiction
  | none =>
  have payable : Payable codec (h.find p) record.transaction maxPayerRc := by
    refine ⟨?_, indexed⟩
    rw [stored]
    exact affordable
  rw [Option.isNone_none, bind_of_ok (require_true _ h)]
  cases named : createAccountNonceKey codec record.transaction with
  | none =>
    refine ⟨_, rfl, refused rfl ?_, by rintro ⟨⟩⟩
    rintro ⟨-, key, value, known, -⟩
    rw [named] at known
    contradiction
  | some key =>
  rw [bind_of_ok (convert_some rfl h), bind_of_ok (checkAccountNonceOnNode_eq shows key)]
  cases used : object codec.keys (h.find p) accountNonce key with
  | some value => exact ⟨_, rfl, iff_of_true rfl ⟨payable, key, value, named, used⟩, by rintro ⟨⟩⟩
  | none =>
  have free : NonceFree codec (h.find p) record.transaction := ⟨key, named, used⟩
  have unread : seqNumOf codec (h.find p) = none := by
    rw [← Option.not_isSome_iff_eq_none]
    exact fun counted => apart ⟨payable, free, counted⟩
  have counts : nextSeqNum codec p h = .error .malformed h := by
    rw [nextSeqNum_of_view shows, unread]
    rfl
  rw [Option.isNone_none, bind_of_ok (require_true _ h)]
  exact ⟨_, bind_of_error counts, refused rfl fun conflicts => conflicts.not_free free, by rintro ⟨⟩⟩

end Add

section Remove

variable {entry : Entry}

/-- The resource record of the payer without one of its records. -/
theorem cleanupAccountResourcesOnNode_eq (shows : Shows h p h' view) {record : PendingTransactionRecord}
    {arr : AddressResourceRecord} (stored : object codec.keys view addressResources
      record.transaction.payer = some (codec.resources arr)) :
    ∃ h'', cleanupAccountResourcesOnNode codec p record h' = .ok () h'' ∧
      Shows h p h'' (write codec.keys view addressResources record.transaction.payer
        ((released arr record.transaction.rcLimit).map codec.resources)) := by
  have found := shows.getObject codec addressResources record.transaction.payer
  rw [stored] at found
  rw [cleanupAccountResourcesOnNode, bind_of_ok found, bind_of_ok (dereference_some rfl h'),
    bind_of_ok (convert_some (codec.parse_resources arr) h'), released]
  split
  · exact shows.removeObject codec _ _
  · exact shows.putObject codec _ _ _

/-- Dropping a record takes its entry out of the ledger. -/
theorem dropRecord_eq (shows : Shows h p h' view) (ledger : Ledger codec view entries) (mem : entry ∈ entries) :
    ∃ h'', dropRecord codec p (uint64Bytes entry.seq) entry.id entry.record h' = .ok () h'' ∧
      h.Rewrites p h'' ∧ Ledger codec (h''.find p) (entries.erase entry) := by
  obtain ⟨nonceKey, key⟩ := Option.isSome_iff_exists.mp (ledger.nonceful entry mem)
  obtain ⟨value, stored⟩ := Option.isSome_iff_exists.mp ((ledger.payers entry.payer).mpr ⟨entry, mem, rfl⟩)
  obtain ⟨arr, rfl, -⟩ := ledger.resources entry.payer value stored
  obtain ⟨h1, cleaned, shows1⟩ := cleanupAccountResourcesOnNode_eq shows stored
  obtain ⟨h2, removed2, shows2⟩ := shows1.removeObject codec pendingTransaction (uint64Bytes entry.seq)
  obtain ⟨h3, removed3, shows3⟩ := shows2.removeObject codec transactionIndex entry.id
  obtain ⟨h4, removed4, shows4⟩ := shows3.removeObject codec accountNonce nonceKey
  refine ⟨h4, ?_, shows4.rewrites, ?_⟩
  · rw [dropRecord, bind_of_ok cleaned, bind_of_ok removed2, bind_of_ok removed3, bind_of_ok (convert_some key h3)]
    exact removed4
  · rw [shows4.find_eq]
    exact ledger.drop mem key stored

/-- Removing a list of ids leaves the records with other ids. -/
theorem removePendingTransactionsOnNode_eq (writable : Writable h p) (ledger : Ledger codec (h.find p) entries)
    (ids : List Bytes) :
    ∃ count h', removePendingTransactionsOnNode codec p ids h = .ok count h' ∧ h.Rewrites p h' ∧
      Ledger codec (h'.find p) (entries.filter fun entry => entry.id ∉ ids) := by
  induction ids generalizing h entries with
  | nil =>
    refine ⟨0, h, rfl, .refl h p, ?_⟩
    rw [filter_eq_self.mpr (fun entry _ => by simp)]
    exact ledger
  | cons id ids ih =>
    have shows := Shows.start writable
    have found := shows.getObject codec transactionIndex id
    rw [removePendingTransactionsOnNode, bind_of_ok found]
    cases indexed : object codec.keys (h.find p) transactionIndex id with
    | none =>
      have absent := ledger.index_eq_none_iff.mp indexed
      have same : (entries.filter fun entry => entry.id ∉ id :: ids) =
          entries.filter fun entry => entry.id ∉ ids :=
        filter_congr (fun entry mem => by simp [absent entry mem])
      rw [same]
      exact ih writable ledger
    | some seq =>
      obtain ⟨entry, mem, rfl, rfl⟩ := (ledger.index id seq).mp indexed
      have stored := (ledger.pending (uint64Bytes entry.seq) _).mpr ⟨entry, mem, rfl, rfl⟩
      have record := shows.getObject codec pendingTransaction (uint64Bytes entry.seq)
      rw [stored] at record
      obtain ⟨h1, dropped, rewrites, ledger1⟩ := dropRecord_eq shows ledger mem
      have writable1 : Writable h1 p := (Shows.mk writable rewrites rfl).still_writable
      obtain ⟨count, h2, removed, rewrites2, ledger2⟩ := ih writable1 ledger1
      refine ⟨count + 1, h2, ?_, rewrites.trans rewrites2, ?_⟩
      · dsimp only
        rw [bind_of_ok record, bind_of_ok (dereference_some rfl h),
          bind_of_ok (convert_some (codec.parse_record entry.record) h), bind_of_ok dropped,
          bind_of_ok removed]
        rfl
      · have same : (entries.filter fun other => other.id ∉ entry.id :: ids) =
            (entries.erase entry).filter fun other => other.id ∉ ids := by
          rw [(ledger.seqs_nodup.of_map Entry.seq).erase_eq_filter, filter_filter]
          refine filter_congr (fun other inside => ?_)
          rcases eq_or_ne other entry with rfl | distinct
          · simp
          · have differs : other.id ≠ entry.id := fun equal => distinct (ledger.eq_of_id inside mem equal)
            simp [differs, distinct]
        rw [same]
        exact ledger2

end Remove

section Prune

/-- The object after the empty key, if there is one, is a pending record. -/
theorem getNextObject_cases (shows : Shows h p h' view) (ledger : Ledger codec view entries) :
    getNextObject codec p pendingTransaction [] h' = .ok none h' ∨
      ∃ entry ∈ entries, getNextObject codec p pendingTransaction [] h' =
        .ok (some (codec.record entry.record, uint64Bytes entry.seq)) h' := by
  rw [getNextObject]
  cases found : h'.nextKey p (codec.keys.serialize ⟨pendingTransaction, []⟩) with
  | none => exact .inl rfl
  | some next =>
    have visible := h'.find_of_nextKey found
    obtain ⟨dbKey, rfl⟩ := ledger.named next (shows.find_eq ▸ visible)
    dsimp only
    rw [codec.keys.parse_serialize]
    dsimp only
    split_ifs with same
    · obtain ⟨space, key⟩ := dbKey
      dsimp only at same
      subst same
      obtain ⟨value, stored⟩ := Option.isSome_iff_exists.mp visible
      have pending := stored
      rw [shows.find_eq] at pending
      obtain ⟨entry, mem, rfl, rfl⟩ := (ledger.pending key value).mp pending
      refine .inr ⟨entry, mem, ?_⟩
      rw [stored]
      rfl
    · exact .inl rfl

/-- The loop ends, and only takes entries out of the ledger. -/
theorem pruneOnNode_eq (expiration now : ℤ) (writable : Writable h p) (ledger : Ledger codec (h.find p) entries)
    {fuel : ℕ} (enough : entries.length < fuel) :
    ∃ count h' left, pruneOnNode codec p expiration now fuel h = .ok count h' ∧ h.Rewrites p h' ∧
      Ledger codec (h'.find p) left := by
  induction fuel generalizing h entries with
  | zero => contradiction
  | succ fuel ih =>
    have shows := Shows.start writable
    rw [pruneOnNode]
    rcases getNextObject_cases shows ledger with finds | ⟨entry, mem, finds⟩
    · rw [bind_of_ok finds]
      exact ⟨0, h, entries, rfl, .refl h p, ledger⟩
    · rw [bind_of_ok finds]
      dsimp only
      rw [bind_of_ok (convert_some (codec.parse_record entry.record) h)]
      split
      · exact ⟨0, h, entries, rfl, .refl h p, ledger⟩
      · obtain ⟨h1, dropped, rewrites, ledger1⟩ := dropRecord_eq shows ledger mem
        have writable1 : Writable h1 p := (Shows.mk writable rewrites rfl).still_writable
        have shorter : (entries.erase entry).length < fuel := by
          have positive := length_pos_of_mem mem
          rw [length_erase_of_mem mem]
          omega
        obtain ⟨count, h2, left, pruned, rewrites2, ledger2⟩ := ih writable1 ledger1 shorter
        refine ⟨count + 1, h2, left, ?_, rewrites.trans rewrites2, ledger2⟩
        rw [bind_of_ok dropped, bind_of_ok pruned]
        rfl

/-- Every entry is an object that the node shows. -/
theorem Ledger.length_le (ledger : Ledger codec (h.find p) entries) : entries.length ≤ (h.visibleKeys p).length := by
  have distinct : ((entries.map Entry.seq).map fun seq =>
      codec.keys.serialize ⟨pendingTransaction, uint64Bytes seq⟩).Nodup := by
    refine ledger.seqs_nodup.map ?_
    intro left right same
    exact uint64Bytes_injective (DatabaseKey.mk.inj (codec.keys.serialize_injective same)).2
  have shown : ((entries.map Entry.seq).map fun seq =>
      codec.keys.serialize ⟨pendingTransaction, uint64Bytes seq⟩) ⊆ h.visibleKeys p := by
    intro key listed
    simp only [mem_map] at listed
    obtain ⟨seq, ⟨entry, mem, rfl⟩, rfl⟩ := listed
    rw [h.mem_visibleKeys]
    exact Option.isSome_iff_exists.mpr ⟨_, (ledger.pending _ _).mpr ⟨entry, mem, rfl, rfl⟩⟩
  have bounded := (subperm_of_subset distinct shown).length_le
  rwa [length_map, length_map] at bounded

end Prune

theorem final_convert {α : Type} (parsed : Option α) (h : Heap) : final (convert parsed h) = h := by
  cases parsed <;> rfl

theorem final_dereference {σ α : Type} (pointer : Option α) (s : σ) : final (dereference pointer s) = s := by
  cases pointer <;> rfl

end Teleno.Mempool
