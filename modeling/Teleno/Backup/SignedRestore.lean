import Teleno.Backup.PublicRestore

/-! # What a required signature covers

A fetch that requires a signature verifies the downloaded `files.json`. What staging will read is the `files.json` of
the repository, which an earlier call may have put there. The two agree in hash exactly when the repository had
nothing of that snapshot, or had the same file already.
-/

namespace Teleno.Backup

open Library Exec FileTree List Option Function

/-- What lies at the path of an object is a file with that hash. -/
def Hashed (sha : Sha256) (tree : RepositoryTree) : Prop :=
  ∀ hash node, isHash hash = true → tree.node (objectPath hash) = some node →
    ∃ content, node = .file content ∧ sha.file content = hash

/-- A payload whose signature this call verified under the configured key. -/
def VerifiedPayload (formats : PublicFormats) (call : PublicCall) (payload : SignaturePayload) : Prop :=
  ∃ signature envelope, call.download .signature = .ok signature ∧ formats.signature signature = some envelope ∧
    formats.verifies call.config.signaturePublicKeyFile envelope.message envelope.signatureHex = true ∧
    envelope.payload = payload

/-- The file list that staging will read has the hash of a verified payload, and every object that it names is there
with its hash. -/
def Covered (formats : PublicFormats) (call : PublicCall) (tree : RepositoryTree) : Prop :=
  ∃ paths content entries payload, restorePaths formats tree call.selectedBackupId = .ok paths ∧
    tree.read paths.filesPath = some content ∧ formats.files content = some entries ∧
    VerifiedPayload formats call payload ∧ formats.sha.file content = payload.filesSha256 ∧
    ∀ entry ∈ entries, isHash entry.sha256 = true ∧
      ∃ object, tree.read (objectPath entry.sha256) = some object ∧ formats.sha.file object = entry.sha256

/-- What a call puts at a path of the repository. -/
def DownloadedMetadata.puts (formats : PublicFormats) (metadata : DownloadedMetadata) (tree : RepositoryTree)
    (path : List String) : Option Bytes :=
  if path = latestPath then
    if metadata.latest.isNone ∧ tree.occupied latestPath = false then
      some (formats.latestJsonForBackupId metadata.backupId)
    else metadata.latest
  else if tree.occupied (snapshotPath metadata.snapshotDirName) then none
  else if path = filesPath metadata.snapshotDirName then some metadata.files
  else if path = manifestPath metadata.snapshotDirName then some metadata.manifest
  else if path = completePath metadata.snapshotDirName then some metadata.complete
  else none

/-- What the repository has at a path once the metadata is kept: what the call puts there, or what was there. -/
def DownloadedMetadata.kept (formats : PublicFormats) (metadata : DownloadedMetadata) (tree : RepositoryTree)
    (path : List String) : Option Bytes :=
  (metadata.puts formats tree path).or (tree.read path)

/-- The place from which the file list will be staged. -/
def DownloadedMetadata.stagedPath (metadata : DownloadedMetadata) : List String :=
  if metadata.latest.isSome then pathComponents metadata.filesRel else filesPath metadata.backupId

/-- The file list that the repository will have is the downloaded one, put there by this call or there before it, or
one of the same hash; and it names objects by hashes. -/
def KeepsDownloaded (formats : PublicFormats) (call : PublicCall) (tree : RepositoryTree) : Prop :=
  ∀ metadata content, downloadMetadata formats call = .ok metadata →
    metadata.kept formats tree metadata.stagedPath = some content →
    formats.sha.file content = formats.sha.file metadata.files ∧
      ∀ entries, formats.files content = some entries → ∀ entry ∈ entries, isHash entry.sha256 = true

section Places

variable {name other hash : String}

theorem objectPath_eq : objectPath hash = ["objects", "sha256", String.ofList (hash.toList.take 2),
    String.ofList ((hash.toList.drop 2).take 2), hash] := rfl

theorem filesPath_eq : filesPath name = snapshotPath name ++ ["files.json"] := rfl

theorem manifestPath_eq : manifestPath name = snapshotPath name ++ ["manifest.json"] := rfl

theorem completePath_eq : completePath name = snapshotPath name ++ ["COMPLETE"] := rfl

theorem snapshotPath_ne_objectPath {rest : List String} : snapshotPath name ++ rest ≠ objectPath hash := by
  simp [snapshotPath, objectPath_eq]

theorem latestPath_ne_objectPath : latestPath ≠ objectPath hash := by
  simp [latestPath, objectPath_eq]

theorem latestPath_ne_snapshotPath (rest : List String) : latestPath ≠ snapshotPath name ++ rest := by
  simp [latestPath, snapshotPath]

theorem objectPath_not_isPrefix : ¬ objectPath hash <+: objectDir other := by
  intro above
  have shorter := above.length_le
  simp [objectPath_eq, objectDir] at shorter

theorem partialObjectPath_ne_objectPath (isHash_hash : isHash hash = true) (isHash_other : isHash other = true) :
    partialObjectPath hash ≠ objectPath other := by
  intro same
  simp only [partialObjectPath, objectPath, objectDir, cons_append, nil_append, cons.injEq, true_and,
    and_true] at same
  simp only [isHash, Bool.and_eq_true, beq_iff_eq] at isHash_hash isHash_other
  have lengths := congrArg String.length same.2.2
  rw [String.length_append, isHash_hash.1, isHash_other.1] at lengths
  contradiction

theorem objectPath_injective (same : objectPath hash = objectPath other) : hash = other := by
  simp only [objectPath_eq, cons.injEq, true_and, and_true] at same
  exact same.2.2

theorem ne_partialName : name ≠ partialName name := by
  intro same
  have lengths := congrArg String.length same
  rw [partialName, String.length_append] at lengths
  simp at lengths

end Places

variable {formats : PublicFormats} {call : PublicCall} {sha : Sha256} {tree tree' before : RepositoryTree}
  {metadata : DownloadedMetadata} {name hash : String} {path other : List String} {content : Bytes}

section Reads

theorem read_of_node (same : tree'.node path = tree.node path) : tree'.read path = tree.read path := by
  rw [FileTree.read, FileTree.read, same]

theorem write_node_other (writes : tree.write path content = some tree') (differ : other ≠ path) :
    tree'.node other = tree.node other := by
  rw [(write_eq_some writes).2, update_of_ne differ]

theorem write_read (writes : tree.write path content = some tree') (other : List String) :
    tree'.read other = if other = path then some content else tree.read other := by
  split_ifs with same
  · rw [same, read_eq_some, (write_eq_some writes).2, update_self]
  · exact read_of_node (write_node_other writes same)

theorem Hashed.congr (hashed : Hashed sha tree)
    (same : ∀ hash, isHash hash = true → tree'.node (objectPath hash) = tree.node (objectPath hash)) :
    Hashed sha tree' := by
  intro hash node isHash_hash present
  rw [same hash isHash_hash] at present
  exact hashed hash node isHash_hash present

end Reads

section Caching

variable {faults : PublicStep → Fault} {manifest files complete : Bytes}

/-- A file that is no object is written. -/
theorem ends_copyFileAtomic {file : String} (hashed : Hashed sha tree) (noObject : ∀ hash, path ≠ objectPath hash) :
    Ends (copyFileAtomic faults file path content) tree
      (fun _ after => Hashed sha after ∧ tree.write path content = some after) (Hashed sha) := by
  refine ends_refusableStep_bind ?_ hashed
  rintro _ ⟨⟩
  refine ends_refusableStep ?_ hashed
  intro after writes
  exact ⟨hashed.congr fun hash _ => write_node_other writes (noObject hash).symm, writes⟩

/-- What lies at a path when a directory with the three files gets its final name. -/
theorem renamed_snapshot {filled : RepositoryTree} (free : tree.node (snapshotPath (partialName name)) = none)
    (absent : tree.node (snapshotPath name) = none)
    (reads : ∀ path, filled.read path =
      if path = completePath (partialName name) then some complete
      else if path = manifestPath (partialName name) then some manifest
      else if path = filesPath (partialName name) then some files
      else tree.read path)
    (renames : filled.rename (snapshotPath (partialName name)) (snapshotPath name) = some tree') (path : List String) :
    tree'.read path =
      if path = filesPath name then some files
      else if path = manifestPath name then some manifest
      else if path = completePath name then some complete
      else tree.read path := by
  have node := (rename_eq_some renames).2
  have apart (rest rest' : List String) : snapshotPath (partialName name) ++ rest ≠ snapshotPath name ++ rest' := by
    intro same
    simp only [snapshotPath, cons_append, cons.injEq, true_and] at same
    exact ne_partialName same.1.symm
  have nothing {dir : List String} (rest : List String) (missing : tree.node dir = none) :
      tree.read (dir ++ rest) = none := by
    rw [FileTree.read, node_of_isPrefix missing (prefix_append ..)]
    rfl
  by_cases moved : snapshotPath (partialName name) <+: path
  · have gone : tree'.read path = none := by rw [FileTree.read, node, renamed, if_pos moved]; rfl
    obtain ⟨rest, rfl⟩ := moved
    simp [gone, filesPath_eq, manifestPath_eq, completePath_eq, apart, nothing rest free]
  by_cases under : snapshotPath name <+: path
  · have source : tree'.read path =
        filled.read (snapshotPath (partialName name) ++ path.drop (snapshotPath name).length) := by
      rw [FileTree.read, FileTree.read, node, renamed, if_neg moved, if_pos under]
    obtain ⟨rest, rfl⟩ := under
    rw [source, drop_left, reads, nothing rest free, nothing rest absent]
    simp only [filesPath_eq, manifestPath_eq, completePath_eq, append_cancel_left_eq]
    split_ifs <;> simp_all
  · have same : tree'.read path = filled.read path := by
      rw [FileTree.read, FileTree.read, node, renamed, if_neg moved, if_neg under]
    have outside {dir : List String} (rest : List String) (other : ¬ dir <+: path) : path ≠ dir ++ rest :=
      fun same => other ⟨rest, same.symm⟩
    simp [same, reads, filesPath_eq, manifestPath_eq, completePath_eq, outside _ moved, outside _ under]

/-- A rename of a snapshot leaves what is in no snapshot. -/
theorem renamed_outside {source destination : String}
    (renames : tree.rename (snapshotPath source) (snapshotPath destination) = some tree')
    (apart : ∀ name rest, path ≠ snapshotPath name ++ rest) : tree'.node path = tree.node path := by
  rw [(rename_eq_some renames).2, renamed]
  split_ifs with moved under
  · obtain ⟨rest, same⟩ := moved
    exact absurd same.symm (apart _ rest)
  · obtain ⟨rest, same⟩ := under
    exact absurd same.symm (apart _ rest)
  · rfl

/-- What lies at a path once the metadata of a snapshot is kept. -/
def cachedRead (tree : RepositoryTree) (name : String) (manifest files complete : Bytes) (path : List String) :
    Option Bytes :=
  if tree.occupied (snapshotPath name) then tree.read path
  else if path = filesPath name then some files
  else if path = manifestPath name then some manifest
  else if path = completePath name then some complete
  else tree.read path

theorem ends_cacheDownloadedSnapshotMetadata (hashed : Hashed sha tree) :
    Ends (cacheDownloadedSnapshotMetadata faults name manifest files complete) tree
      (fun _ after => Hashed sha after ∧ after.node latestPath = tree.node latestPath ∧
        ∀ path, after.read path = cachedRead tree name manifest files complete path)
      (Hashed sha) := by
  refine Ends.require hashed fun _ => ?_
  apply Ends.get_bind
  by_cases present : tree.occupied (snapshotPath name) = true
  · rw [if_pos present]
    refine Ends.require_last hashed fun _ => ⟨hashed, rfl, fun path => ?_⟩
    rw [cachedRead, if_pos present]
  · rw [if_neg present]
    refine Ends.require hashed fun fresh => ?_
    have absent : tree.node (snapshotPath name) = none := by simpa [occupied] using present
    have free : tree.node (snapshotPath (partialName name)) = none := by simpa [occupied] using fresh
    refine ends_refusableStep_bind ?_ hashed
    intro made makes
    have hashedMade : Hashed sha made := hashed.congr fun hash _ => by
      rcases makeDirectories_node makes (objectPath hash) with same | ⟨-, -, above⟩
      · exact same
      · have shorter := above.length_le
        simp [snapshotPath, objectPath_eq] at shorter
    refine (ends_copyFileAtomic hashedMade fun hash => snapshotPath_ne_objectPath).bind ?_
    rintro - first ⟨hashedFirst, writesFiles⟩
    refine (ends_copyFileAtomic hashedFirst fun hash => snapshotPath_ne_objectPath).bind ?_
    rintro - second ⟨hashedSecond, writesManifest⟩
    refine (ends_copyFileAtomic hashedSecond fun hash => snapshotPath_ne_objectPath).bind ?_
    rintro - third ⟨hashedThird, writesComplete⟩
    refine ends_refusableStep ?_ hashedThird
    intro after renames
    have outside : ∀ path, (∀ name rest, path ≠ snapshotPath name ++ rest) → after.node path = third.node path :=
      fun path apart => renamed_outside renames apart
    refine ⟨hashedThird.congr fun hash _ => outside _ fun _ _ => snapshotPath_ne_objectPath.symm, ?_, fun path => ?_⟩
    · rw [outside _ fun _ rest => latestPath_ne_snapshotPath rest,
        write_node_other writesComplete (latestPath_ne_snapshotPath ["COMPLETE"]),
        write_node_other writesManifest (latestPath_ne_snapshotPath ["manifest.json"]),
        write_node_other writesFiles (latestPath_ne_snapshotPath ["files.json"])]
      rcases makeDirectories_node makes latestPath with same | ⟨-, -, above⟩
      · exact same
      · simp [latestPath, snapshotPath] at above
    · rw [cachedRead, if_neg present]
      refine renamed_snapshot free absent (fun path => ?_) renames path
      rw [write_read writesComplete, write_read writesManifest, write_read writesFiles, makeDirectories_read makes]
      rfl

/-- The local `latest.json` is written last and touches nothing else. -/
theorem ends_cacheLatest (hashed : Hashed formats.sha tree) :
    Ends (cacheLatest formats faults metadata) tree
      (fun _ after => Hashed formats.sha after ∧ ∀ path, after.read path =
        if path = latestPath then
          if metadata.latest.isNone ∧ tree.occupied latestPath = false then
            some (formats.latestJsonForBackupId metadata.backupId)
          else metadata.latest.or (tree.read latestPath)
        else tree.read path)
      (Hashed formats.sha) := by
  have noObject : ∀ hash, latestPath ≠ objectPath hash := fun hash => latestPath_ne_objectPath
  rw [cacheLatest]
  cases latest : metadata.latest with
  | some content =>
    refine (ends_copyFileAtomic hashed noObject).mono ?_ fun _ after => after
    rintro - after ⟨hashedAfter, writes⟩
    refine ⟨hashedAfter, fun path => ?_⟩
    rw [write_read writes]
    simp
  | none =>
    apply Ends.get_bind
    by_cases present : tree.occupied latestPath = true
    · rw [if_pos present]
      refine ⟨hashed, fun path => ?_⟩
      by_cases same : path = latestPath
      · simp [same, present]
      · simp [same]
    · rw [if_neg present]
      refine (ends_copyFileAtomic hashed noObject).mono ?_ fun _ after => after
      rintro - after ⟨hashedAfter, writes⟩
      refine ⟨hashedAfter, fun path => ?_⟩
      rw [write_read writes]
      simp [present]

/-- The repository after the metadata was fetched. -/
structure MetadataKept (formats : PublicFormats) (call : PublicCall) (before : RepositoryTree)
    (metadata : DownloadedMetadata) (after : RepositoryTree) : Prop where
  downloaded : downloadMetadata formats call = .ok metadata
  hashed : Hashed formats.sha after
  reads : ∀ path, after.read path = metadata.kept formats before path

theorem ends_raise_bind {α γ : Type} {outcome : Except String α} {next : α → Fetching γ}
    {returned : γ → RepositoryTree → Prop} {cut : RepositoryTree → Prop}
    (rest : ∀ a, outcome = .ok a → Ends (next a) tree returned cut) (interrupts : cut tree) :
    Ends (raise outcome >>= next) tree returned cut := by
  cases outcome with
  | ok a => exact rest a rfl
  | error message => exact interrupts

theorem ends_fetchPublicMetadata (hashed : Hashed formats.sha tree) :
    Ends (fetchPublicMetadata formats call) tree (MetadataKept formats call tree) (Hashed formats.sha) := by
  refine ends_refusableStep_bind ?_ hashed
  rintro _ ⟨⟩
  refine ends_raise_bind ?_ hashed
  intro metadata downloaded
  refine (ends_cacheDownloadedSnapshotMetadata hashed).bind ?_
  rintro - cached ⟨hashedCached, sameLatest, cachedReads⟩
  refine (ends_cacheLatest hashedCached).bind ?_
  rintro - after ⟨hashedAfter, reads⟩
  refine ⟨downloaded, hashedAfter, fun path => ?_⟩
  rw [reads, DownloadedMetadata.kept, DownloadedMetadata.puts]
  by_cases isLatest : path = latestPath
  · subst isLatest
    have sameOccupied : cached.occupied latestPath = tree.occupied latestPath := by
      rw [occupied, occupied, sameLatest]
    rw [if_pos rfl, if_pos rfl, sameOccupied, read_of_node sameLatest]
    split_ifs
    · rfl
    · rfl
  · rw [if_neg isLatest, if_neg isLatest, cachedReads, cachedRead]
    split_ifs <;> simp

end Caching

section Downloads

theorem ensure_bind_eq_ok {α : Type} {holds : Bool} {message : String} {next : Unit → Except String α} {a : α}
    (ok : ensure holds message >>= next = .ok a) : holds = true ∧ next () = .ok a := by
  cases holds with
  | false => contradiction
  | true => exact ⟨rfl, ok⟩

theorem orThrow_eq_ok {α : Type} {message : String} {value : Option α} {a : α} (ok : orThrow message value = .ok a) :
    value = some a := by
  cases value with
  | none => contradiction
  | some b => rw [Except.ok.inj ok]

/-- The two ways to find the metadata of a snapshot. -/
theorem locateMetadata_eq_ok {located : PublicSnapshotMetadata} (ok : locateMetadata formats call = .ok located) :
    (call.selectedBackupId = "" ∧ ∃ latest pointer, formats.latest latest = some pointer ∧
        located = pointer.metadata latest) ∨
      call.selectedBackupId ≠ "" ∧ located = metadataOf call.selectedBackupId := by
  rw [locateMetadata] at ok
  split_ifs at ok with isLatest
  · obtain ⟨latest, -, ok⟩ := exists_of_bind_eq_ok ok
    obtain ⟨pointer, parsed, ok⟩ := exists_of_bind_eq_ok ok
    exact .inl ⟨isLatest, latest, pointer, orThrow_eq_ok parsed, (Except.ok.inj ok).symm⟩
  · obtain ⟨-, -, ok⟩ := exists_of_bind_eq_ok ok
    exact .inr ⟨isLatest, (Except.ok.inj ok).symm⟩

/-- What was downloaded: where it was found, and what the signature check returned. -/
theorem downloadMetadata_eq_ok (ok : downloadMetadata formats call = .ok metadata) :
    locateMetadata formats call = .ok metadata.toPublicSnapshotMetadata ∧
      ∃ verified, verifyPublicBootstrapSignature formats call metadata.toPublicSnapshotMetadata metadata.manifest
        metadata.files = .ok verified := by
  obtain ⟨located, locates, ok⟩ := exists_of_bind_eq_ok ok
  obtain ⟨-, -, ok⟩ := exists_of_bind_eq_ok ok
  obtain ⟨manifest, -, ok⟩ := exists_of_bind_eq_ok ok
  obtain ⟨files, -, ok⟩ := exists_of_bind_eq_ok ok
  obtain ⟨complete, -, ok⟩ := exists_of_bind_eq_ok ok
  obtain ⟨verified, verifies, ok⟩ := exists_of_bind_eq_ok ok
  obtain ⟨fields, -, ok⟩ := exists_of_bind_eq_ok ok
  obtain ⟨-, -, ok⟩ := exists_of_bind_eq_ok ok
  obtain ⟨-, -, ok⟩ := exists_of_bind_eq_ok ok
  obtain rfl := Except.ok.inj ok
  exact ⟨locates, verified, verifies⟩

theorem checkEnvelope_eq_ok {signature : Bytes} {envelope : SignatureEnvelope}
    (ok : checkEnvelope formats call.config signature = .ok envelope) :
    formats.signature signature = some envelope ∧
      formats.verifies call.config.signaturePublicKeyFile envelope.message envelope.signatureHex = true := by
  obtain ⟨parsed, parses, ok⟩ := exists_of_bind_eq_ok ok
  obtain ⟨-, ok⟩ := ensure_bind_eq_ok ok
  obtain ⟨-, ok⟩ := ensure_bind_eq_ok ok
  obtain ⟨-, ok⟩ := ensure_bind_eq_ok ok
  obtain ⟨-, ok⟩ := ensure_bind_eq_ok ok
  obtain ⟨verifies, ok⟩ := ensure_bind_eq_ok ok
  obtain rfl := Except.ok.inj ok
  exact ⟨orThrow_eq_ok parses, verifies⟩

theorem checkPayload_eq_ok {located : PublicSnapshotMetadata} {payload : SignaturePayload}
    {manifest files publicMetadata : Bytes} {done : Unit}
    (ok : checkPayload formats call.config located payload manifest files publicMetadata = .ok done) :
    payload.filesSha256 = formats.sha.file files := by
  obtain ⟨-, ok⟩ := ensure_bind_eq_ok ok
  obtain ⟨-, ok⟩ := ensure_bind_eq_ok ok
  obtain ⟨-, ok⟩ := ensure_bind_eq_ok ok
  obtain ⟨-, ok⟩ := ensure_bind_eq_ok ok
  obtain ⟨matching, -⟩ := ensure_bind_eq_ok ok
  exact beq_iff_eq.mp matching

/-- A required signature was verified, and its payload has the hash of the downloaded file list. -/
theorem exists_verifiedPayload (required : call.config.signatureRequired = true)
    (downloaded : downloadMetadata formats call = .ok metadata) :
    ∃ payload, VerifiedPayload formats call payload ∧ payload.filesSha256 = formats.sha.file metadata.files := by
  obtain ⟨-, verified, ok⟩ := downloadMetadata_eq_ok downloaded
  rw [verifyPublicBootstrapSignature, if_pos required] at ok
  obtain ⟨publicMetadata, -, ok⟩ := exists_of_bind_eq_ok ok
  obtain ⟨signature, answered, ok⟩ := exists_of_bind_eq_ok ok
  obtain ⟨_, checked, -⟩ := exists_of_bind_eq_ok ok
  obtain ⟨envelope, opened, checked⟩ := exists_of_bind_eq_ok checked
  obtain ⟨parsed, verifies⟩ := checkEnvelope_eq_ok opened
  exact ⟨envelope.payload, ⟨signature, envelope, answered, parsed, verifies, rfl⟩, checkPayload_eq_ok checked⟩

/-- One call verifies at most one payload. -/
theorem VerifiedPayload.unique {payload payload' : SignaturePayload} (verified : VerifiedPayload formats call payload)
    (verified' : VerifiedPayload formats call payload') : payload = payload' := by
  obtain ⟨signature, envelope, answered, parsed, -, rfl⟩ := verified
  obtain ⟨signature', envelope', answered', parsed', -, rfl⟩ := verified'
  obtain rfl := Except.ok.inj (answered.symm.trans answered')
  obtain rfl := some.inj (parsed.symm.trans parsed')
  rfl

end Downloads

section Preflights

variable {elsewhere : String → Bool} {entries : List ObjectEntry}

/-- Nothing is missing only if every entry's object is there. -/
theorem countMissing_spec {missing counted : ℕ × ℕ}
    (ok : entries.foldlM (countMissing elsewhere tree) missing = .ok counted) :
    missing.1 ≤ counted.1 ∧
      (counted.1 = missing.1 → ∀ entry ∈ entries, objectExists elsewhere tree entry.sha256 = true) := by
  induction entries generalizing missing with
  | nil =>
    obtain rfl := Except.ok.inj ok
    exact ⟨le_refl _, fun _ _ mem => absurd mem not_mem_nil⟩
  | cons entry rest ih =>
    rw [foldlM_cons] at ok
    obtain ⟨next, counts, ok⟩ := exists_of_bind_eq_ok ok
    obtain ⟨-, counts⟩ := ensure_bind_eq_ok counts
    obtain ⟨more, present⟩ := ih ok
    obtain rfl := Except.ok.inj counts
    by_cases found : objectExists elsewhere tree entry.sha256 = true
    · rw [if_pos found] at more present
      refine ⟨more, fun same other mem => ?_⟩
      rcases mem_cons.mp mem with rfl | mem
      · exact found
      · exact present same other mem
    · rw [if_neg found] at more
      refine ⟨by omega, fun same => ?_⟩
      omega

/-- A preflight read a file list, and found all its objects if none is missing. -/
theorem preflight_eq_ok {space : TargetSpace} {requested : String} {result : RestorePreflightResult}
    (ok : buildLocalRestorePreflight formats elsewhere space requested tree = .ok result) :
    ∃ paths content entries, restorePaths formats tree requested = .ok paths ∧ result.filesPath = paths.filesPath ∧
      tree.read paths.filesPath = some content ∧ formats.files content = some entries ∧
      (result.readyToRestore = true → ∀ entry ∈ entries, objectExists elsewhere tree entry.sha256 = true) := by
  obtain ⟨paths, found, ok⟩ := exists_of_bind_eq_ok ok
  obtain ⟨manifest, -, ok⟩ := exists_of_bind_eq_ok ok
  obtain ⟨fields, -, ok⟩ := exists_of_bind_eq_ok ok
  obtain ⟨content, present, ok⟩ := exists_of_bind_eq_ok ok
  obtain ⟨entries, parsed, ok⟩ := exists_of_bind_eq_ok ok
  obtain ⟨sizes, -, ok⟩ := exists_of_bind_eq_ok ok
  obtain ⟨missing, counts, ok⟩ := exists_of_bind_eq_ok ok
  obtain rfl := Except.ok.inj ok
  refine ⟨paths, content, entries, found, rfl, orThrow_eq_ok present, orThrow_eq_ok parsed, fun ready => ?_⟩
  simp only [RestorePreflightResult.readyToRestore, Bool.and_eq_true, beq_iff_eq] at ready
  exact (countMissing_spec counts).2 ready.1.2

/-- The objects that are to be downloaded are missing. -/
theorem addMissing_spec {planned result : List String × List ObjectEntry}
    (missing : ∀ entry ∈ planned.2, objectExists elsewhere tree entry.sha256 = false)
    (ok : entries.foldlM (addMissing elsewhere tree) planned = .ok result) :
    ∀ entry ∈ result.2, objectExists elsewhere tree entry.sha256 = false := by
  induction entries generalizing planned with
  | nil =>
    obtain rfl := Except.ok.inj ok
    exact missing
  | cons entry rest ih =>
    rw [foldlM_cons] at ok
    obtain ⟨next, adds, ok⟩ := exists_of_bind_eq_ok ok
    obtain ⟨-, adds⟩ := ensure_bind_eq_ok adds
    refine ih ?_ ok
    obtain rfl := Except.ok.inj adds
    split_ifs with seen found
    · exact missing
    · exact missing
    · intro other mem
      rcases mem_append.mp mem with mem | mem
      · exact missing other mem
      · obtain rfl := mem_singleton.mp mem
        exact Bool.eq_false_iff.mpr found

theorem missingObjectsFromFiles_spec
    (ok : missingObjectsFromFiles formats elsewhere tree path = .ok entries) :
    ∀ entry ∈ entries, objectExists elsewhere tree entry.sha256 = false := by
  obtain ⟨content, -, ok⟩ := exists_of_bind_eq_ok ok
  obtain ⟨listed, -, ok⟩ := exists_of_bind_eq_ok ok
  obtain ⟨planned, plans, ok⟩ := exists_of_bind_eq_ok ok
  obtain rfl := Except.ok.inj ok
  exact addMissing_spec (fun _ mem => absurd mem not_mem_nil) plans

end Preflights

section Objects

variable {start : RepositoryTree}

/-- A file that was read before, or an object that was missing. -/
def KnownFile (start : RepositoryTree) (path : List String) (content : Bytes) : Prop :=
  start.read path = some content ∨ ∃ hash, path = objectPath hash ∧ start.node path = none

/-- Since the start, only missing objects were added. -/
structure ObjectsAdded (sha : Sha256) (start tree : RepositoryTree) : Prop where
  hashed : Hashed sha tree
  known : ∀ path content, tree.read path = some content → KnownFile start path content

/-- The same, apart from one partial object. -/
structure Receiving (sha : Sha256) (start : RepositoryTree) (hash : String) (tree : RepositoryTree) : Prop where
  hashed : Hashed sha tree
  known : ∀ path content, path ≠ partialObjectPath hash → tree.read path = some content → KnownFile start path content

section

variable (receiving : Receiving sha start hash tree)

include receiving

theorem Receiving.of_reads
    (objects : ∀ other, isHash other = true → tree'.node (objectPath other) = tree.node (objectPath other))
    (reads : ∀ path, path ≠ partialObjectPath hash → tree'.read path = tree.read path) :
    Receiving sha start hash tree' where
  hashed := receiving.hashed.congr objects
  known path content other present := by
    rw [reads path other] at present
    exact receiving.known path content other present

theorem Receiving.makeDirectories
    (makes : tree.makeDirectories (objectDir hash) = some tree') : Receiving sha start hash tree' := by
  apply receiving.of_reads
  · intro other _
    rcases makeDirectories_node makes (objectPath other) with same | ⟨-, -, above⟩
    · exact same
    · exact absurd above objectPath_not_isPrefix
  · intro path _
    exact makeDirectories_read makes path

/-- Whatever happens to the partial object itself. -/
theorem Receiving.update (isHash_hash : isHash hash = true) {node : Option (TreeNode Bytes)}
    (updates : tree'.node = update tree.node (partialObjectPath hash) node) :
    Receiving sha start hash tree' := by
  apply receiving.of_reads
  · intro other isHash_other
    rw [updates, update_of_ne (partialObjectPath_ne_objectPath isHash_hash isHash_other).symm]
  · intro path other
    apply read_of_node
    rw [updates, update_of_ne other]

theorem Receiving.removePartial (isHash_hash : isHash hash = true) :
    Receiving sha start hash ((tree.removeFile (partialObjectPath hash)).getD tree) := by
  cases removes : tree.removeFile (partialObjectPath hash) with
  | none => exact receiving
  | some tree' => exact receiving.update isHash_hash (removeFile_eq_some removes)

end

/-- What lies at each path when the partial object has become the object. -/
theorem renamed_object (file : tree.node (partialObjectPath hash) = some (.file content))
    (renames : tree.rename (partialObjectPath hash) (objectPath hash) = some tree') (path : List String) :
    tree'.node path =
      if path = objectPath hash then some (.file content)
      else if partialObjectPath hash <+: path ∨ objectPath hash <+: path then none
      else tree.node path := by
  obtain ⟨possible, node⟩ := rename_eq_some renames
  rw [node, renamed]
  by_cases isObject : path = objectPath hash
  · subst isObject
    rw [if_neg possible.apart, if_pos (prefix_refl _), if_pos rfl, drop_length, append_nil, file]
  rw [if_neg isObject]
  split_ifs with moved _ under _ other
  · rfl
  · simp_all
  · obtain ⟨rest, rfl⟩ := under
    rw [drop_left, node_append (by simp [file]) (by rintro rfl; simp at isObject)]
  · simp_all
  · simp_all
  · rfl

/-- The object that was received has its hash, and the partial one is gone. -/
theorem Receiving.rename (receiving : Receiving formats.sha start hash tree) (isHash_hash : isHash hash = true)
    (absent : start.node (objectPath hash) = none) (file : tree.node (partialObjectPath hash) = some (.file content))
    (hashes : formats.sha.file content = hash)
    (renames : tree.rename (partialObjectPath hash) (objectPath hash) = some tree') :
    ObjectsAdded formats.sha start tree' := by
  have node := renamed_object file renames
  constructor
  · intro other found isHash_other present
    rw [node] at present
    split_ifs at present with isObject
    · obtain rfl := objectPath_injective isObject
      exact ⟨content, (some.inj present).symm, hashes⟩
    · exact receiving.hashed other found isHash_other present
  · intro path found present
    rw [read_eq_some, node] at present
    split_ifs at present with isObject gone
    · exact .inr ⟨hash, isObject, by rw [isObject]; exact absent⟩
    · refine receiving.known path found (fun isPartial => gone (.inl ?_)) (read_eq_some.mpr present)
      rw [isPartial]

theorem ObjectsAdded.receiving (added : ObjectsAdded sha start tree) : Receiving sha start hash tree :=
  ⟨added.hashed, fun path content _ present => added.known path content present⟩

theorem ends_fetchObject {entry : ObjectEntry} (added : ObjectsAdded formats.sha start tree)
    (missing : objectExists call.elsewhere start entry.sha256 = false) :
    Ends (fetchObject formats call entry) tree (fun _ => ObjectsAdded formats.sha start) (Hashed formats.sha) := by
  refine Ends.require added.hashed fun isHash_hash => ?_
  have absent : start.node (objectPath entry.sha256) = none := by
    rw [objectExists, if_pos isHash_hash] at missing
    simpa [occupied] using missing
  refine ends_refusableStep_bind (fun made makes => ?_) added.hashed
  have receiving : Receiving formats.sha start entry.sha256 made := added.receiving.makeDirectories makes
  refine ends_discard_tryStep_bind_of (receiving.removePartial isHash_hash) receiving (fun tree receiving => ?_)
    receiving.hashed
  refine ends_raise_bind (fun content _ => ?_) receiving.hashed
  refine ends_refusableStep_bind (fun written writes => ?_) receiving.hashed
  have holding := receiving.update isHash_hash (write_eq_some writes).2
  refine Ends.require holding.hashed fun _ => ?_
  refine Ends.require holding.hashed fun hashes => ?_
  refine ends_refusableStep (fun renamed renames => ?_) holding.hashed
  have file := read_eq_some.mp ((write_read writes _).trans (if_pos rfl))
  exact holding.rename isHash_hash absent file (beq_iff_eq.mp hashes) renames

theorem ends_fetchMissingObjects {result : PublicRestoreFetchResult} (hashed : Hashed formats.sha tree) :
    Ends (fetchMissingObjects formats call result) tree (fun _ => ObjectsAdded formats.sha tree)
      (Hashed formats.sha) := by
  have start : ObjectsAdded formats.sha tree tree := ⟨hashed, fun _ _ present => .inl present⟩
  apply Ends.get_bind
  refine ends_raise_bind (fun missing found => ?_) hashed
  dsimp only
  generalize repositoryRequiredBytes missing = required
  by_cases short : call.repositoryAvailable < required
  · rw [if_pos short]
    exact start
  · rw [if_neg short]
    have absent := missingObjectsFromFiles_spec found
    refine Ends.bind (Ends.forM (fun rest tree' => rest ⊆ missing ∧ ObjectsAdded formats.sha tree tree') ?_
      ⟨Subset.refl _, start⟩) fun _ _ after => after.2
    rintro entry rest tree' ⟨subset, added⟩
    obtain ⟨mem, rest⟩ := cons_subset.mp subset
    exact (ends_fetchObject added (absent entry mem)).mono (fun _ _ after => ⟨rest, after⟩) fun _ after => after

end Objects

section Fetches

theorem kept_latest {latest : Bytes} (isLatest : metadata.latest = some latest) :
    metadata.kept formats before latestPath = some latest := by
  rw [DownloadedMetadata.kept, DownloadedMetadata.puts, if_pos rfl, isLatest]
  simp

/-- A preflight reads the file list from where it will be staged. -/
theorem restorePaths_filesPath {paths : RestorePaths} (downloaded : downloadMetadata formats call = .ok metadata)
    (sameLatest : ∀ latest content, metadata.latest = some latest → tree.read latestPath = some content →
      content = latest)
    (found : restorePaths formats tree call.selectedBackupId = .ok paths) : paths.filesPath = metadata.stagedPath := by
  obtain ⟨located, -⟩ := downloadMetadata_eq_ok downloaded
  rw [DownloadedMetadata.stagedPath]
  rcases locateMetadata_eq_ok located with ⟨isLatest, latest, pointer, parsed, origin⟩ | ⟨isRequested, origin⟩
  · have given : metadata.latest = some latest := by rw [origin]; rfl
    have rel : metadata.filesRel = pointer.filesRel := by rw [origin]; rfl
    rw [restorePaths, if_pos isLatest] at found
    obtain ⟨content, present, found⟩ := exists_of_bind_eq_ok found
    obtain rfl := sameLatest latest content given (orThrow_eq_ok present)
    obtain ⟨pointer', parsed', found⟩ := exists_of_bind_eq_ok found
    obtain rfl := some.inj (parsed.symm.trans (orThrow_eq_ok parsed'))
    obtain rfl := Except.ok.inj found
    rw [if_pos (by rw [given]; rfl), rel]
    rfl
  · have given : metadata.latest = none := by rw [origin]; rfl
    have backupId : metadata.backupId = call.selectedBackupId := by rw [origin]; rfl
    rw [restorePaths, if_neg isRequested] at found
    obtain ⟨-, found⟩ := ensure_bind_eq_ok found
    obtain ⟨-, found⟩ := ensure_bind_eq_ok found
    obtain rfl := Except.ok.inj found
    rw [if_neg (by simp [given]), backupId]
    rfl

/-- What is known of a fetch that reports its snapshot ready. -/
structure ReadyFetch (formats : PublicFormats) (call : PublicCall) (before after : RepositoryTree)
    (metadata : DownloadedMetadata) (paths : RestorePaths) (content : Bytes) (entries : List ObjectEntry) : Prop where
  downloaded : downloadMetadata formats call = .ok metadata
  found : restorePaths formats after call.selectedBackupId = .ok paths
  kept : metadata.kept formats before metadata.stagedPath = some content
  staged : after.read paths.filesPath = some content
  parsed : formats.files content = some entries
  present : ∀ entry ∈ entries, objectExists call.elsewhere after entry.sha256 = true
  hashed : Hashed formats.sha after

theorem readyFetch_of_preflights {middle after : RepositoryTree} {first second : RestorePreflightResult}
    (metadataKept : MetadataKept formats call before metadata middle) (added : ObjectsAdded formats.sha middle after)
    (preflight : buildLocalRestorePreflight formats call.elsewhere call.spaceBefore call.selectedBackupId middle =
      .ok first)
    (again : buildLocalRestorePreflight formats call.elsewhere call.spaceAfter call.selectedBackupId after = .ok second)
    (ready : second.readyToRestore = true) :
    ∃ paths content entries, ReadyFetch formats call before after metadata paths content entries := by
  obtain ⟨paths, content, entries, found, -, read, parsed, -⟩ := preflight_eq_ok preflight
  obtain ⟨paths', content', entries', found', -, read', parsed', present⟩ := preflight_eq_ok again
  have latestBefore : ∀ latest content, metadata.latest = some latest → middle.read latestPath = some content →
      content = latest := by
    intro latest content isLatest present
    rw [metadataKept.reads, kept_latest isLatest] at present
    exact (some.inj present).symm
  have latestAfter : ∀ latest content, metadata.latest = some latest → after.read latestPath = some content →
      content = latest := by
    intro latest content isLatest present
    rcases added.known latestPath content present with known | ⟨hash, isObject, -⟩
    · exact latestBefore latest content isLatest known
    · exact absurd isObject latestPath_ne_objectPath
  have place := restorePaths_filesPath metadataKept.downloaded latestBefore found
  have place' := restorePaths_filesPath metadataKept.downloaded latestAfter found'
  rw [place] at read
  have same : middle.read metadata.stagedPath = some content' := by
    rw [place'] at read'
    rcases added.known metadata.stagedPath content' read' with known | ⟨hash, -, missing⟩
    · exact known
    · rw [FileTree.read, missing] at read
      contradiction
  exact ⟨paths', content', entries', metadataKept.downloaded, found', metadataKept.reads _ ▸ same, read', parsed',
    present ready, added.hashed⟩

theorem ends_fetchPublicRestoreSnapshot (hashed : Hashed formats.sha before) :
    Ends (fetchPublicRestoreSnapshot formats call) before
      (fun result after => Hashed formats.sha after ∧ (result.readyToStage = true →
        ∃ metadata paths content entries, ReadyFetch formats call before after metadata paths content entries))
      (Hashed formats.sha) := by
  refine (ends_fetchPublicMetadata hashed).bind ?_
  intro metadata middle metadataKept
  apply Ends.get_bind
  refine ends_raise_bind (fun first preflight => ?_) metadataKept.hashed
  dsimp only
  by_cases enough : first.passesMinimum = true
  · rw [if_pos enough]
    refine (ends_fetchMissingObjects metadataKept.hashed).bind ?_
    intro fetched after added
    apply Ends.get_bind
    refine ends_raise_bind (fun second again => ?_) added.hashed
    exact ⟨added.hashed, fun ready => ⟨metadata, readyFetch_of_preflights metadataKept added preflight again ready⟩⟩
  · rw [if_neg enough]
    exact ⟨metadataKept.hashed, fun ready => absurd ready Bool.false_ne_true⟩

theorem hashed_run {operation : PublicOperation} (hashed : Hashed formats.sha before) :
    Hashed formats.sha (operation.run formats before) := by
  cases operation with
  | list call => exact ((ends_fetchPublicMetadata hashed).mono (fun _ _ kept => kept.hashed) fun _ kept => kept).final
  | fetch call =>
    exact ((ends_fetchPublicRestoreSnapshot hashed).mono (fun _ _ kept => kept.1) fun _ kept => kept).final

theorem hashed_runPublicOperations {operations : List PublicOperation} (hashed : Hashed formats.sha before) :
    Hashed formats.sha (runPublicOperations formats before operations) := by
  induction operations generalizing before with
  | nil => exact hashed
  | cons operation rest ih => exact ih (hashed_run hashed)

theorem hashed_empty : Hashed formats.sha empty := by
  intro hash node _ present
  simp [empty, objectPath_eq] at present

/-- The file list of a ready fetch is covered when the repository keeps the downloaded one. -/
theorem ReadyFetch.covered_iff {after : RepositoryTree} {paths : RestorePaths} {content : Bytes}
    {entries : List ObjectEntry} (ready : ReadyFetch formats call before after metadata paths content entries)
    (required : call.config.signatureRequired = true) :
    Covered formats call after ↔ KeepsDownloaded formats call before := by
  obtain ⟨payload, verified, matching⟩ := exists_verifiedPayload required ready.downloaded
  constructor
  · rintro ⟨paths', content', entries', payload', found, read, parsed, verified', hashes, objects⟩
    obtain rfl := Except.ok.inj (ready.found.symm.trans found)
    obtain rfl := some.inj (ready.staged.symm.trans read)
    obtain rfl := some.inj (ready.parsed.symm.trans parsed)
    obtain rfl := verified.unique verified'
    intro metadata' content' downloaded kept
    obtain rfl := Except.ok.inj (ready.downloaded.symm.trans downloaded)
    obtain rfl := some.inj (ready.kept.symm.trans kept)
    refine ⟨hashes.trans matching, fun listed parsed' entry mem => ?_⟩
    obtain rfl := some.inj (ready.parsed.symm.trans parsed')
    exact (objects entry mem).1
  · intro keeps
    obtain ⟨hashes, names⟩ := keeps metadata content ready.downloaded ready.kept
    refine ⟨paths, content, entries, payload, ready.found, ready.staged, ready.parsed, verified,
      hashes.trans matching.symm, fun entry mem => ?_⟩
    have isHash_name := names entries ready.parsed entry mem
    have present := ready.present entry mem
    rw [objectExists, if_pos isHash_name, occupied] at present
    obtain ⟨node, found⟩ := isSome_iff_exists.mp present
    obtain ⟨object, rfl, hashed⟩ := ready.hashed entry.sha256 node isHash_name found
    exact ⟨isHash_name, object, read_eq_some.mpr found, hashed⟩

/-- The call returned and reports its snapshot ready to be staged. -/
def reportsReady : EStateM.Result Interrupt RepositoryTree PublicRestoreFetchResult → Bool
  | .ok result _ => result.readyToStage
  | .error _ _ => false

theorem readyFetch_of_reportsReady (hashed : Hashed formats.sha before)
    (ready : reportsReady (fetchPublicRestoreSnapshot formats call before) = true) :
    ∃ metadata paths content entries, ReadyFetch formats call before
      (final (fetchPublicRestoreSnapshot formats call before)) metadata paths content entries := by
  have ends : Ends (fetchPublicRestoreSnapshot formats call) before _ _ := ends_fetchPublicRestoreSnapshot hashed
  cases outcome : fetchPublicRestoreSnapshot formats call before with
  | ok result after =>
    rw [outcome] at ready
    exact (ends.of_ok outcome).2 ready
  | error reason after =>
    rw [outcome] at ready
    contradiction

/-- Whatever earlier calls left in the repository and whatever the server answers, a fetch that requires a signature
and reports its snapshot ready has covered what will be staged exactly when the repository keeps the downloaded file
list. -/
theorem signed_fetch_covered_iff (formats : PublicFormats) (operations : List PublicOperation) (call : PublicCall)
    (required : call.config.signatureRequired = true)
    (ready : reportsReady
      (fetchPublicRestoreSnapshot formats call (runPublicOperations formats .empty operations)) = true) :
    Covered formats call
        (final (fetchPublicRestoreSnapshot formats call (runPublicOperations formats .empty operations))) ↔
      KeepsDownloaded formats call (runPublicOperations formats .empty operations) := by
  have hashed : Hashed formats.sha (runPublicOperations formats .empty operations) :=
    hashed_runPublicOperations hashed_empty
  obtain ⟨metadata, paths, content, entries, fetched⟩ := readyFetch_of_reportsReady hashed ready
  exact fetched.covered_iff required

/-- File lists of three lengths: one of no object, one of an object, and one whose entry is no hash. -/
def sampleEntries : Bytes → List ObjectEntry
  | [] => []
  | [_] => [{ sha256 := sampleSha.file [1] }]
  | _ => [{ sha256 := String.ofList (List.replicate 64 '/') }]

/-- Formats in which every signature is one of the file list with the same bytes. -/
def samplePublicFormats : PublicFormats where
  sha := sampleSha
  latest _ := none
  manifest _ := some { backupId := none, snapshot := some ⟨0, 0⟩, sizes := some {} }
  files content := some (sampleEntries content)
  signature content := some
    { format := "teleno-public-bootstrap-signature", version := 1, algorithm := "ed25519", message := content
      signatureHex := ""
      payload :=
        { backupId := "b", network := "testnet", latestSha256 := "", manifestSha256 := sampleSha.file []
          filesSha256 := sampleSha.file content, publicMetadataSha256 := sampleSha.file [], objectCount := 0
          totalBytes := 0 } }
  publicMetadata _ := some { backupId := "b", network := "testnet" }
  latestJsonForBackupId _ := []
  verifies _ _ _ := true

/-- A server that signs its file list and has one object. -/
def sampleAnswers (files : Bytes) : PublicRequest → Bytes
  | .files => files
  | .signature => files
  | .object _ => [1]
  | _ => []

/-- A call for one backup on a disk with room. -/
def samplePublicCall (signatureRequired : Bool) (files : Bytes) : PublicCall where
  config :=
    { signatureRequired := signatureRequired, retries := 1
      signaturePublicKeyFile := if signatureRequired then "key" else "" }
  backupId := "b"
  answers request _ := some (sampleAnswers files request)
  repositoryAvailable := 2 ^ 40
  spaceBefore := { available := 2 ^ 40 }
  spaceAfter := { available := 2 ^ 40 }
  elsewhere _ := true

/-- What is downloaded for the sample calls. -/
def sampleMetadata (files : Bytes) : DownloadedMetadata where
  toPublicSnapshotMetadata := metadataOf "b"
  manifest := []
  files := files
  complete := []
  signatureVerified := true
  fileCount := 5

/-- A signed fetch after some operations. -/
def sampleFetch (operations : List PublicOperation) (files : Bytes) :=
  fetchPublicRestoreSnapshot samplePublicFormats (samplePublicCall true files)
    (runPublicOperations samplePublicFormats .empty operations)

/-- A signed listing leaves the file list that the signed fetch then keeps. -/
theorem signed_fetch_covered_iff_listed :
    Covered samplePublicFormats (samplePublicCall true [1])
      (final (sampleFetch [.list (samplePublicCall true [1])] [1])) := by
  refine (signed_fetch_covered_iff samplePublicFormats _ (samplePublicCall true [1]) rfl (by decide +kernel)).mpr ?_
  rintro _ content ⟨⟩ kept
  have keeps : (sampleMetadata [1]).kept samplePublicFormats
      (runPublicOperations samplePublicFormats .empty [.list (samplePublicCall true [1])])
      (sampleMetadata [1]).stagedPath = some [1] := by decide +kernel
  obtain rfl := some.inj (keeps.symm.trans kept)
  refine ⟨rfl, ?_⟩
  rintro _ ⟨⟩ entry mem
  rw [mem_singleton.mp mem]
  decide +kernel

/-- An unsigned listing leaves a file list that the signed fetch keeps; and a signed file list names a path instead of
a hash. -/
theorem unsigned_list_staged :
    (reportsReady (sampleFetch [.list (samplePublicCall false [])] [1]) = true ∧
      ¬ Covered samplePublicFormats (samplePublicCall true [1])
        (final (sampleFetch [.list (samplePublicCall false [])] [1]))) ∧
    reportsReady (sampleFetch [] [1, 2]) = true ∧
      ¬ Covered samplePublicFormats (samplePublicCall true [1, 2]) (final (sampleFetch [] [1, 2])) := by
  have shadowed : reportsReady (sampleFetch [.list (samplePublicCall false [])] [1]) = true := by decide +kernel
  have misnamed : reportsReady (sampleFetch [] [1, 2]) = true := by decide +kernel
  refine ⟨⟨shadowed, fun covered => ?_⟩, misnamed, fun covered => ?_⟩
  · obtain ⟨_, _, _, _, ready⟩ := readyFetch_of_reportsReady (hashed_runPublicOperations hashed_empty) shadowed
    have keeps := (ready.covered_iff rfl).mp covered (sampleMetadata [1]) [] rfl (by decide +kernel)
    exact absurd keeps.1 (by decide +kernel)
  · obtain ⟨_, _, _, _, ready⟩ := readyFetch_of_reportsReady hashed_empty misnamed
    have keeps := (ready.covered_iff rfl).mp covered (sampleMetadata [1, 2]) [1, 2] rfl (by decide +kernel)
    exact absurd (keeps.2 _ rfl _ (mem_singleton.mpr rfl)) (by decide +kernel)

end Fetches

end Teleno.Backup
