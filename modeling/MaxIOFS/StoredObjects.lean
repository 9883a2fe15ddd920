import MaxIOFS.ManagerFiles
import MaxIOFS.ManagerRuns
import MaxIOFS.StoredFiles

/-! An object under its plain path: what PutObject stores there and what GetObject reads
back. The cipher and the wrapping of data keys are the node's; `Opens` says of an envelope
that the node can open it, and `Cipher` that decryption undoes encryption. -/
namespace MaxIOFS.StoredObjects
open OrderedStore FileTree Effects ObjectManager RecordChanges Records MetadataStore StoredFiles ObjectMetadata FileFrame
open StagedCommit (Metadata entry etagKey sizeKey lastModifiedKey calculated)
open Filesystem ManagerRuns List ByteString

def streamAlgorithm : Bytes := ascii "AES-256-GCM-STREAM"

structure Cipher (node : Node) : Prop where
  undoes : ∀ dek data, node.decryptStream streamAlgorithm dek (node.encryptStream dek data) = some data
  digest : ∀ data, node.host.md5 data ≠ []

structure Opens (node : Node) (envelope : Envelope) : Prop where
  wrapped : envelope.wrapped ≠ []
  version : parseInt (formatInt envelope.kekVersion) = (envelope.kekVersion, true)
  unwraps : ∃ kek, node.kekByVersion envelope.kekVersion = some kek ∧ node.unwrap envelope.wrapped envelope.iv kek = some envelope.dek

def Sealed (node : Node) (m : Metadata) (cipher plain : Bytes) : Prop :=
  ∀ obj, openObject node m (some cipher) obj = .ok (withAlgorithm m obj, some plain)

def sealedMetadata (m : Metadata) (size : Int) (etag : Bytes) (envelope : Envelope) : Metadata :=
  (m.setAll (encryptionEntries size etag)).setAll envelope.entries

section
variable {node : Node} {envelope : Envelope} {m : Metadata} {size now : Int} {etag data : Bytes}

def sealingKeys : List Bytes := [encryptedKey, wrappedKey, wrappedIVKey, kekVersionKey, sseAlgorithmKey]

structure SameSeal (m m' : Metadata) : Prop where
  same : ∀ k ∈ sealingKeys, entry m' k = entry m k

theorem sealedSame {m' cipher plain} (same : SameSeal m m') (held : Sealed node m cipher plain) : Sealed node m' cipher plain := by
  have encrypted := same.same encryptedKey (by simp [sealingKeys])
  have wrapped := same.same wrappedKey (by simp [sealingKeys])
  have iv := same.same wrappedIVKey (by simp [sealingKeys])
  have version := same.same kekVersionKey (by simp [sealingKeys])
  have algorithm := same.same sseAlgorithmKey (by simp [sealingKeys])
  have shown : isEncrypted m' = isEncrypted m := by
    unfold isEncrypted
    rw [encrypted]
  have keyed : decryptionKeyFor node m' = decryptionKeyFor node m := by
    unfold decryptionKeyFor
    rw [wrapped,iv,version]
  have read dek : decryptedWith node m' dek (some cipher) = decryptedWith node m dek (some cipher) := by
    unfold decryptedWith
    rw [algorithm]
  intro obj
  have before := held obj
  unfold openObject withAlgorithm at before ⊢
  simp only [shown,keyed,read]
  exact before

theorem calculatedSeal (md5 : Bytes → Bytes) : SameSeal m (calculated md5 now data m) := by
  refine ⟨fun k mem => ?_⟩
  have other : ∀ k ∈ sealingKeys, sizeKey ≠ k ∧ etagKey ≠ k ∧ lastModifiedKey ≠ k := by decide
  obtain ⟨size,etag,modified⟩ := other k mem
  unfold entry calculated
  rw [Store.getSetOther _ _ modified,Store.getSetOther _ _ etag,Store.getSetOther _ _ size]

theorem mergedSeal (updates : List (Bytes × Bytes)) : SameSeal m (m.setAll (mergeable updates)) := by
  refine ⟨fun k mem => ?_⟩
  have guarded : ∀ k ∈ sealingKeys, isProtectedStorageMetadataKey k = true := by decide
  unfold entry
  rw [Store.getSetAllOther]
  intro e listed same
  have free := (mem_filter.mp listed).2
  rw [same,guarded k mem] at free
  contradiction

def guarded (size : Int) (etag : Bytes) (envelope : Envelope) : List (Bytes × Bytes) :=
  envelope.entries ++ [(encryptedKey, ascii "true"), (originalSizeKey, formatInt size), (originalETagKey, etag),(sseAlgorithmKey, streamAlgorithm)]

def Guards (m : Metadata) (entries : List (Bytes × Bytes)) : Prop := ∀ e ∈ entries, entry m e.1 = e.2

theorem guardsSealed (cipher : Cipher node) (opens : Opens node envelope) (guards : Guards m (guarded size etag envelope)) (data : Bytes) :
    Sealed node m (node.encryptStream envelope.dek data) data := by
  have encrypted : entry m encryptedKey = ascii "true" := guards (encryptedKey, ascii "true") (by simp [guarded])
  have algorithm : entry m sseAlgorithmKey = streamAlgorithm := guards (sseAlgorithmKey, streamAlgorithm) (by simp [guarded])
  have wrapped : entry m wrappedKey = envelope.wrapped := guards (wrappedKey, _) (by simp [guarded,Envelope.entries])
  have iv : entry m wrappedIVKey = envelope.iv := guards (wrappedIVKey, _) (by simp [guarded,Envelope.entries])
  have version : entry m kekVersionKey = formatInt envelope.kekVersion :=
    guards (kekVersionKey, formatInt envelope.kekVersion) (by simp [guarded,Envelope.entries])
  obtain ⟨_,known,unwrapped⟩ := opens.unwraps
  have shown : isEncrypted m = true := by simp [isEncrypted,encrypted]
  have keyed : decryptionKeyFor node m = some envelope.dek := by
    simp [decryptionKeyFor,wrapped,opens.wrapped,version,formatIntNonempty,opens.version,iv,known,unwrapped]
  have read : decryptedWith node m envelope.dek (some (node.encryptStream envelope.dek data)) = some data := by
    have some_ : streamAlgorithm ≠ [] := by decide
    simp [decryptedWith,algorithm,some_,cipher.undoes]
  intro obj
  rw [openObject,if_pos shown,keyed]
  dsimp only
  rw [read]

theorem envelopeKeys (envelope : Envelope) : envelope.entries.map Prod.fst = [wrappedKey,wrappedIVKey,kekVersionKey] := rfl

theorem envelopeGuards (inner : ∀ e ∈ encryptionEntries size etag, entry m e.1 = e.2) :
    Guards (m.setAll envelope.entries) (guarded size etag envelope) := by
  intro e mem
  unfold entry
  rcases mem_append.mp mem with outer | rest
  · rw [Store.getSetAll (by rw [envelopeKeys]; decide) outer]
    rfl
  have others : ∀ k ∈ [encryptedKey,originalSizeKey,originalETagKey,sseAlgorithmKey], k ∉ [wrappedKey,wrappedIVKey,kekVersionKey] := by
    decide
  have listed : e ∈ encryptionEntries size etag ∧ e.1 ∉ [wrappedKey,wrappedIVKey,kekVersionKey] := by
    simp only [mem_cons,not_mem_nil,or_false] at rest
    rcases rest with rfl | rfl | rfl | rfl <;> exact ⟨by simp [encryptionEntries,streamAlgorithm],others _ (by simp)⟩
  rw [Store.getSetAllOther]
  · exact inner e listed.1
  · intro f inside same
    exact listed.2 (envelopeKeys envelope ▸ same ▸ mem_map_of_mem inside)

theorem encryptionHeld (m : Metadata) (size : Int) (etag : Bytes) :
    ∀ e ∈ encryptionEntries size etag, entry (m.setAll (encryptionEntries size etag)) e.1 = e.2 := by
  intro e mem
  have distinct : (encryptionEntries size etag).map Prod.fst = [originalSizeKey,originalETagKey,encryptedKey,sseKey,sseAlgorithmKey] := rfl
  unfold entry
  rw [Store.getSetAll (by rw [distinct]; decide) mem]
  rfl

theorem sealedGuards (m : Metadata) (size : Int) (etag : Bytes) (envelope : Envelope) :
    Guards (sealedMetadata m size etag envelope) (guarded size etag envelope) :=
  envelopeGuards (encryptionHeld m size etag)

theorem sealedFresh (cipher : Cipher node) (opens : Opens node envelope) (size : Int) (etag data : Bytes) :
    Sealed node (sealedMetadata m size etag envelope) (node.encryptStream envelope.dek data) data :=
  guardsSealed cipher opens (sealedGuards m size etag envelope) data

end

section
variable {node} {bucket key data cipher} {s} {m}

def pathOf (bucket key versionID : Bytes) : Bytes :=
  if versionID = [] then getObjectPath bucket key else getVersionedObjectPath bucket key versionID

def currentVersion (s : State) (bucket key : Bytes) : Bytes := ((stored s bucket key).map versionID).getD []

theorem getObjectHeld {v} (valid : validateObjectName key = true) (path : validatePath (pathOf bucket key v) = true)
    (holds : Holds s.files (getFullPath (pathOf bucket key v)) cipher m) (held : Sealed node m cipher data)
    (current : currentVersion s bucket key = v)
    (live : ∀ obj, stored s bucket key = some obj → isMetadataDeleteMarker obj = false) :
    wp (getObject node bucket key []) (fun r s' => r.2 = some data ∧ s' = s ∧ (∀ obj, stored s bucket key = some obj →
      r.1 = withAlgorithm m (fromMetadataObject obj))) (fun _ _ => False) s := by
  rw [getObject,wpBind,wpCheck]
  refine ⟨fun _ => ?_,fun invalid => by rw [valid] at invalid; contradiction⟩
  rw [wpBind,recordToRead,if_pos rfl,wpGets]
  unfold currentVersion at current
  simp only [current]
  rw [wpBind,wpMapError,wpStorage]
  refine wpIs (getHeld path holds) ?_
  cases record : stored s bucket key with
  | none =>
    rw [held]
    exact ⟨rfl,rfl,fun _ none_ => by contradiction⟩
  | some obj =>
    rw [wpIte]
    refine ⟨fun marker => by rw [live obj record] at marker; simp at marker,fun _ => ?_⟩
    rw [held]
    refine ⟨rfl,rfl,fun found same => ?_⟩
    cases same
    rfl

end

section
variable {node : Node} {call : Call} {bucket key data : Bytes} {headers : Headers} {s : State}

structure Fresh (node : Node) (enabled : Bool) (bucket key id data : Bytes) (pending : Pending) : Prop where
  bucket : pending.object.bucket = bucket
  key : pending.object.key = key
  versionID : pending.object.versionID = id
  size : pending.object.size = data.length
  etag : pending.object.etag = node.host.md5 data
  mode : pending.versioningEnabled = enabled

def Room (s : State) (call : Call) (bucket : Bytes) (added : Int × Bool) : Prop :=
  call.bypassQuota = true ∨ (decide (added.1 ≤ 0) || checkTenantStorageQuota s call (parseBucketPath bucket).1 added.1) = true ∧
    checkBucketStorageQuota s bucket added.1 added.2 = true

structure Admitted (node : Node) (call : Call) (s : State) (enabled : Bool) (bucket key id data : Bytes) (headers : Headers) : Prop where
  name : validateObjectName key = true
  checksum : checksumAccepted node headers data = true
  room : Room s call bucket (growth enabled (stored s bucket key) data.length)
  envelope : call.envelope ≠ none
  path : validatePath (objectPathOf enabled bucket key id) = true
  free : Unblocked s.files (getFullPath (objectPathOf enabled bucket key id))

theorem checkQuotaSpec (added : Int × Bool) : wp (checkQuota call bucket added)
    (fun _ s' => s' = s ∧ Room s call bucket added) (fun _ s' => s' = s ∧ ¬ Room s call bucket added) s := by
  unfold checkQuota
  rw [wpIte]
  refine ⟨fun bypass => ⟨rfl,.inl bypass⟩,fun none_ => ?_⟩
  rw [withinQuota,wpBind,wpGets,wpBind,wpCheck]
  refine ⟨fun tenant => ?_,fun full => ⟨rfl,?_⟩⟩
  · rw [wpBind,wpGets,wpCheck]
    refine ⟨fun room => ⟨rfl,.inr ⟨tenant,room⟩⟩,fun full => ⟨rfl,?_⟩⟩
    rintro (bypass | ⟨_,room⟩)
    · exact none_ bypass
    · rw [full] at room
      contradiction
  · rintro (bypass | ⟨room,_⟩)
    · exact none_ bypass
    · rw [full] at room
      contradiction

/-- A refused call leaves the state; one that is let through stores the data and reads its sidecar back. -/
theorem storeObjectBy {Q E} (refused : ∀ e, ¬ (validateObjectName key = true ∧
    (∃ id, chooseVersion call (isBucketVersioningEnabled s bucket) = .ok id) ∧
      checksumAccepted node headers data = true ∧
      Room s call bucket (growth (isBucketVersioningEnabled s bucket) (stored s bucket key) data.length)) → E e s)
    (stores : ∀ id, validateObjectName key = true → chooseVersion call (isBucketVersioningEnabled s bucket) = .ok id →
      checksumAccepted node headers data = true →
      Room s call bucket (growth (isBucketVersioningEnabled s bucket) (stored s bucket key) data.length) →
      let path := objectPathOf (isBucketVersioningEnabled s bucket) bucket key id
      wp (storeData node call key path data headers) (fun _ s₁ =>
        wp (storage (getMetadata node.host path) : Action State Error Metadata) (fun final s₂ =>
          Q ⟨newObject node call bucket key data headers id final (defaultRetention s₂ bucket),isBucketVersioningEnabled s bucket⟩ s₂) E s₁) E s) :
    wp (storeObject node call bucket key data headers) Q E s := by
  rw [storeObject,wpBind,wpCheck]
  refine ⟨fun name => ?_,fun invalid => refused _ fun met => by simp [met.1] at invalid⟩
  rw [wpBind,wpGets,wpBind,wpObserve]
  cases chosen : chooseVersion call (isBucketVersioningEnabled s bucket) with
  | error e =>
    refine refused _ fun met => ?_
    obtain ⟨_,⟨id,some_⟩,_⟩ := met
    cases chosen.symm.trans some_
  | ok id =>
    dsimp only
    rw [wpBind,wpCheck]
    refine ⟨fun checksum => ?_,fun bad => refused _ fun met => by simp [met.2.2.1] at bad⟩
    rw [wpBind,wpGets,wpBind]
    refine wpMono (checkQuotaSpec _) (fun _ s₁ quota => ?_) (fun _ s₁ full => full.1 ▸ refused _ fun met => full.2 met.2.2.2)
    obtain ⟨rfl,room⟩ := quota
    rw [wpBind]
    refine wpMono (stores id name chosen checksum room) (fun _ s₁ reads => ?_) (fun _ _ failed => failed)
    rw [wpBind]
    exact reads

theorem putPlainSpec {t path now m} (plain : hasSuffix [slash] path = false) : wp (put node.host now path data m)
      (fun _ t' => validatePath path = true ∧ Unblocked t (getFullPath path) ∧
        Holds t' (getFullPath path) data (calculated node.host.md5 now data m))
      (fun _ t' => ¬ (validatePath path = true ∧ Unblocked t (getFullPath path)) ∧ (Unblocked t (getFullPath path) → t' = t)) t := by
  rw [put,wpBind,wpCheck]
  refine ⟨fun valid => ?_,fun invalid => ⟨fun both => by rw [invalid] at both; simp at both,fun _ => rfl⟩⟩
  rw [wpIte]
  refine ⟨fun folder => by rw [plain] at folder; contradiction,fun _ => ?_⟩
  have present : getFullPath path ≠ [] := by
    simp only [validatePath,Bool.and_eq_true] at valid
    simpa using valid.2
  exact wpMono (putFileSpec present) (fun _ t' done => ⟨valid,done⟩)
    (fun _ _ blocked => ⟨fun both => blocked both.2,fun unblocked => absurd unblocked blocked⟩)

theorem plainPath (file : isFolderMarker key = false) (named : key ≠ []) : hasSuffix [slash] (getObjectPath bucket key) = false := by
  rw [Bool.eq_false_iff] at file ⊢
  intro ends
  apply file
  rw [isFolderMarker,hasSuffixIff]
  have inside := hasSuffixIff.mp ends
  exact suffix_of_suffix_length_le inside (suffix_append _ _) (length_pos_iff.mpr named)

theorem plainEnding {enabled id} (chosen : chooseVersion call enabled = .ok id) (file : isFolderMarker key = false) (named : key ≠ []) :
    hasSuffix [slash] (objectPathOf enabled bucket key id) = false := by
  cases enabled with
  | true => exact versionedPlain (chosenSegment chosen).1 (chosenSegment chosen).2 bucket key
  | false => exact plainPath file named

theorem chosenMode {enabled id} (chosen : chooseVersion call enabled = .ok id) : enabled = true ↔ id ≠ [] := by
  cases enabled with
  | true => exact iff_of_true rfl (chosenSegment chosen).2
  | false =>
    cases chosen
    exact iff_of_false Bool.false_ne_true fun absent => absent rfl

theorem chosenPath {enabled id} (bucket key : Bytes) (chosen : chooseVersion call enabled = .ok id) :
    objectPathOf enabled bucket key id = pathOf bucket key id := by
  cases enabled with
  | true => exact (if_neg (chosenSegment chosen).2).symm
  | false =>
    cases chosen
    rfl

theorem putValid {t host now path m} : wp (put host now path data m) (fun _ _ => validatePath path = true) (fun _ _ => True) t := by
  rw [put,wpBind,wpCheck]
  refine ⟨fun valid => ?_,fun _ => trivial⟩
  exact wpLax (wpOfState (P := fun _ => True) trivial) fun _ _ _ => valid

def putSidecar (node : Node) (call : Call) (data : Bytes) (headers : Headers) (envelope : Envelope) : Metadata :=
  calculated node.host.md5 call.seconds (node.encryptStream envelope.dek data)
    (sealedMetadata (extractStorageMetadata headers) data.length (node.host.md5 data) envelope)

section
variable {enabled : Bool} {id : Bytes} (mode : isBucketVersioningEnabled s bucket = enabled) (chosen : chooseVersion call enabled = .ok id)
    (file : isFolderMarker key = false)
include mode chosen file

theorem storeObjectHeld : wp (storeObject node call bucket key data headers)
      (fun pending s' => s'.db = s.db ∧ Admitted node call s enabled bucket key id data headers ∧
        Fresh node enabled bucket key id data pending ∧ pending.object.retention = defaultRetention s bucket ∧
        pending.object.legalHold = none ∧ ∃ envelope, call.envelope = some envelope ∧
        Holds s'.files (getFullPath (objectPathOf enabled bucket key id)) (node.encryptStream envelope.dek data)
          (putSidecar node call data headers envelope)) (fun _ s' => ¬ Admitted node call s enabled bucket key id data headers ∧
        (Unblocked s.files (getFullPath (objectPathOf enabled bucket key id)) → s' = s)) s := by
  subst mode
  refine storeObjectBy (fun _ unmet => ⟨fun admitted => unmet ⟨admitted.name,⟨id,chosen⟩,admitted.checksum,admitted.room⟩,fun _ => rfl⟩) ?_
  intro id' name chosen' checksum room path
  cases chosen.symm.trans chosen'
  rw [storeData,if_neg (by rw [file]; simp),storeEncryptedObject]
  cases envelope : call.envelope with
  | none => exact ⟨fun admitted => admitted.envelope envelope,fun _ => rfl⟩
  | some env =>
    rw [wpStorage]
    refine wpMono (putPlainSpec (plainEnding chosen file (validName name))) (fun _ t' done => ?_)
      (fun _ t' failed => ⟨fun admitted => failed.1 ⟨admitted.path,admitted.free⟩,fun free => by rw [failed.2 free]⟩)
    obtain ⟨valid,free,holds⟩ := done
    rw [wpStorage]
    refine wpIs (getMetadataHeld valid holds) ?_
    exact ⟨rfl,⟨name,checksum,room,by rw [envelope]; simp,valid,free⟩,⟨rfl,rfl,rfl,rfl,rfl,rfl⟩,rfl,rfl,env,rfl,holds⟩

theorem storeObjectFile (cipher : Cipher node) (opens : ∀ envelope, call.envelope = some envelope → Opens node envelope) :
    wp (storeObject node call bucket key data headers) (fun pending s' => s'.db = s.db ∧ Admitted node call s enabled bucket key id data headers ∧
        Fresh node enabled bucket key id data pending ∧ pending.object.retention = defaultRetention s bucket ∧ pending.object.legalHold = none ∧
        ∃ enc m, Holds s'.files (getFullPath (objectPathOf enabled bucket key id)) enc m ∧ Sealed node m enc data)
      (fun _ s' => ¬ Admitted node call s enabled bucket key id data headers ∧
        (Unblocked s.files (getFullPath (objectPathOf enabled bucket key id)) → s' = s)) s := by
  refine wpMono (storeObjectHeld mode chosen file) (fun pending s' done => ?_) (fun _ _ failed => failed)
  obtain ⟨db,admitted,fresh,retention,hold,envelope,given,holds⟩ := done
  exact ⟨db,admitted,fresh,retention,hold,_,_,holds,sealedSame (calculatedSeal _) (sealedFresh cipher (opens envelope given) _ _ _)⟩

end

theorem storeObjectPlain (off : isBucketVersioningEnabled s bucket = false) (file : isFolderMarker key = false)
    (cipher : Cipher node) (opens : ∀ envelope, call.envelope = some envelope → Opens node envelope) :
    wp (storeObject node call bucket key data headers)
      (fun pending s' => s'.db = s.db ∧ Admitted node call s false bucket key [] data headers ∧
        Fresh node false bucket key [] data pending ∧ pending.object.retention = defaultRetention s bucket ∧ pending.object.legalHold = none ∧
        ∃ enc m, Holds s'.files (getFullPath (getObjectPath bucket key)) enc m ∧ Sealed node m enc data)
      (fun _ s' => ¬ Admitted node call s false bucket key [] data headers ∧
        (Unblocked s.files (getFullPath (getObjectPath bucket key)) → s' = s)) s :=
  storeObjectFile off (chooseVersionDisabled call) file cipher opens

end

/-! Folder markers: the path becomes a directory, and a directory has no bytes to read. -/

section
variable {node : Node} {call : Call} {bucket key data : Bytes} {headers : Headers} {s : State}
variable {t : Files}

theorem folderPath (folder : isFolderMarker key = true) : hasSuffix [slash] (getObjectPath bucket key) = true := by
  rw [hasSuffixIff]
  have inside := hasSuffixIff.mp folder
  exact inside.trans (suffix_append _ _)

theorem besideSelf {p} (present : p ≠ []) : Beside p p := ⟨metadataOther present,stagingOther present⟩

theorem putSlashDir {path now m} (folder : hasSuffix [slash] path = true) : wp (put node.host now path data m)
      (fun _ t' => getFullPath path ≠ [] ∧ t'.get (getFullPath path) = some .dir) (fun _ _ => True) t := by
  rw [put,wpBind,wpCheck]
  refine ⟨fun valid => ?_,fun _ => trivial⟩
  rw [wpIte]
  refine ⟨fun _ => ?_,absurd folder⟩
  have present : getFullPath path ≠ [] := by
    simp only [validatePath,Bool.and_eq_true] at valid
    simpa using valid.2
  exact wpLax (putFolderDir present) fun _ t' isdir => ⟨present,isdir⟩

theorem storeObjectFolder (off : isBucketVersioningEnabled s bucket = false) (folder : isFolderMarker key = true) :
    wp (storeObject node call bucket key data headers) (fun pending s' => key ≠ [] ∧ Fresh node false bucket key [] data pending ∧
        pending.object.retention = defaultRetention s bucket ∧ pending.object.legalHold = none ∧
        s'.files.get (getFullPath (getObjectPath bucket key)) = some .dir) (fun _ _ => True) s := by
  refine storeObjectBy (fun _ _ => trivial) ?_
  rw [off]
  intro id name chosen _ _ path
  cases chosen
  rw [storeData,if_pos folder,storeUnencryptedObject,wpStorage]
  refine wpLax (putSlashDir (folderPath folder)) fun _ t' done => ?_
  obtain ⟨present,isdir⟩ := done
  rw [wpStorage]
  refine wpLax (keepsGetMetadata (besideSelf present) t' isdir) fun final t'' still => ?_
  exact ⟨validName name,⟨rfl,rfl,rfl,rfl,rfl,rfl⟩,rfl,rfl,still⟩

theorem directoryPresent {p} (isdir : t.get p = some .dir) : p ≠ [] := by
  rintro rfl
  rw [t.getRoot] at isdir
  contradiction

theorem storeFolderKeeps (off : isBucketVersioningEnabled s bucket = false) (folder : isFolderMarker key = true)
    (isdir : s.files.get (getFullPath (getObjectPath bucket key)) = some .dir) : wp (storeObject node call bucket key data headers)
      (fun _ s' => s'.files.get (getFullPath (getObjectPath bucket key)) = some .dir)
      (fun _ s' => s'.files.get (getFullPath (getObjectPath bucket key)) = some .dir) s := by
  have present := directoryPresent isdir
  refine ManagerFiles.storeObjectAt isdir (fun id data m _ => ?_) (fun id _ => ?_)
  · rw [off]
    exact keepsPutSlash (folderPath folder) (folderSame present)
  · rw [off]
    exact besideSelf present

theorem getDirectory {path} (isdir : t.get (getFullPath path) = some .dir) :
    wp (get node.host path) (fun r _ => r.1 = none) (fun _ _ => True) t := by
  have present := directoryPresent isdir
  rw [Filesystem.get,wpBind,wpCheck]
  refine ⟨fun _ => ?_,fun _ => trivial⟩
  rw [wpBind]
  refine wpLax (keepsMaybeRepair (besideSelf present) t isdir) fun _ t₁ isdir₁ => ?_
  rw [wpBind,wpObserve,Tree.statDir.mpr (isDirIff.mpr (.inr isdir₁))]
  dsimp only
  rw [wpBind]
  exact wpLax (wpOfState (P := fun _ => True) trivial) fun _ _ _ => rfl

theorem getObjectDirectory (isdir : s.files.get (getFullPath (getObjectPath bucket key)) = some .dir)
    (plain : ∀ obj, stored s bucket key = some obj → obj.versionID = []) :
    wp (getObject node bucket key []) (fun r _ => r.2 = none) (fun _ _ => True) s := by
  have opened m obj r (ok : openObject node m none obj = .ok r) : r.2 = none := by
    unfold openObject at ok
    split at ok
    · split at ok <;> try contradiction
      cases ok
      rfl
    · cases ok
      rfl
  rw [getObject,wpBind,wpCheck]
  refine ⟨fun _ => ?_,fun _ => trivial⟩
  rw [wpBind,recordToRead,if_pos rfl,wpGets]
  have requested : ((stored s bucket key).map versionID).getD [] = [] := by
    cases record : stored s bucket key with
    | none => rfl
    | some obj => exact plain obj record
  simp only [requested]
  rw [wpBind,wpMapError,wpStorage]
  refine wpLax (getDirectory isdir) fun r files none_ => ?_
  obtain ⟨_,m⟩ := r
  subst none_
  have read obj : wp (observe (fun _ => openObject node m none obj)) (fun r _ => r.2 = none) (fun _ _ => True)
      { s with files := files } := by
    rw [wpObserve]
    split
    · rename_i r ok
      exact opened m obj r ok
    · trivial
  cases stored s bucket key with
  | none => exact read _
  | some obj =>
    rw [wpIte]
    exact ⟨fun _ => trivial,fun _ => read _⟩

end

structure Recorded (bucket key : Bytes) (record : ObjectMetadata) (before s : State) : Prop where
  record : s.db.objects.get (objectKey bucket key) = some record
  files : s.files = before.files
  deleted : s.db.deletedBuckets = before.db.deletedBuckets
  status : ∀ q, (s.db.buckets.get q).map BucketMetadata.versioningStatus = (before.db.buckets.get q).map BucketMetadata.versioningStatus

section
variable {call : Call} {bucket key : Bytes} {record : ObjectMetadata} {before s : State}
variable {db : Database} {pending : Pending}

theorem recordedQuiet (recorded : Recorded bucket key record before s) (same : Quiet s.db db) : Recorded bucket key record before { s with db} :=
  ⟨same.objects ▸ recorded.record,recorded.files,same.deleted.trans recorded.deleted,fun q => (same.status q).trans (recorded.status q)⟩

theorem surelyMetrics (path : Bytes) (count size : Int) : Surely (Recorded bucket key record before) (bucketMetrics path count size) := by
  refine .ignore fun s recorded => ?_
  rw [wpDatabase]
  split
  · rename_i db done
    exact recordedQuiet recorded (metricsQuiet done)
  · exact recorded

theorem surelyTenant (path : Bytes) (change : Store Bytes Tenant → Bytes → Store Bytes Tenant) :
    Surely (Recorded bucket key record before) (tenantStorage path change) :=
  .ite (fun _ => .pure _) fun _ => .update fun _ recorded =>
    ⟨recorded.record,recorded.files,recorded.deleted,recorded.status⟩

theorem recordedFolder {folder now} (recorded : Recorded bucket key record before s)
    (other : folder ≠ key) (done : s.db.putObject now (folderObject now bucket folder) = .ok db) :
    Recorded bucket key record before { s with db} := by
  obtain ⟨rfl,_⟩ := putObjectWrites done
  refine ⟨?_,recorded.files,recorded.deleted,recorded.status⟩
  have address : objectKey bucket folder ≠ objectKey bucket key := fun same => other (by simpa [objectKey] using same)
  exact (Store.getSetOther _ _ address).trans recorded.record

theorem surelyFolders : Surely (Recorded bucket key record before) (ensureImplicitFolders call bucket key) := by
  refine .each fun folder mem => .bind (.gets _) fun existing => ?_
  have other := implicitFolderOther mem
  cases existing with
  | some _ => exact .pure _
  | none =>
    refine .ignore fun s recorded => ?_
    rw [wpDatabase]
    split
    · rename_i db done
      exact recordedFolder recorded other done
    · exact recorded

section
variable (path : Bytes) (size : Int) (enabled : Bool) (existing : Option ObjectMetadata)
include path size enabled existing

theorem surelyPutMetrics : Surely (Recorded bucket key record before) (updateBucketMetricsAfterPut path size enabled existing) :=
  putMetricsBy (.pure _) (surelyMetrics path) size enabled existing

theorem surelyPutTenant : Surely (Recorded bucket key record before) (updateTenantQuotaAfterPut path size enabled existing) := by
  unfold updateTenantQuotaAfterPut
  exact surelyTenant _ _

end

theorem putObjectPlain {obj now} (home : bucket ≠ []) (named : key ≠ [])
    (open_ : bucket ∉ db.deletedBuckets) (here : obj.bucket = bucket) (keyed : obj.key = key) (plain : obj.versionID = []) :
    ∃ db', db.putObject now obj = .ok db' ∧ db'.objects.get (objectKey bucket key) = some (stamped now obj) ∧
      db'.deletedBuckets = db.deletedBuckets ∧ db'.buckets = db.buckets := by
  subst here keyed
  have version : (stamped now obj).versionID = [] := plain
  unfold Database.putObject Database.rejectsWrite
  rw [if_neg (by simp [home,named]),if_neg (by simpa using open_)]
  have set : (writeObject now obj db).objects = db.objects.set (objectKey obj.bucket obj.key) (stamped now obj) := if_pos (.inl version)
  exact ⟨_,rfl,by rw [set]; exact Store.getSetSame _ _ _,rfl,rfl⟩

theorem surelyFinish (here : pending.object.bucket = bucket) (keyed : pending.object.key = key)
    (existing : Option ObjectMetadata) : Surely (Recorded bucket key record before) (finishPut call pending existing) := by
  unfold finishPut
  rw [here,keyed]
  exact .bind surelyFolders fun _ => .bind (surelyPutMetrics _ _ _ _) fun _ => surelyPutTenant _ _ _ _

theorem recordObjectPlain {node data} (home : bucket ≠ []) (named : key ≠ [])
    (open_ : bucket ∉ s.db.deletedBuckets) (fresh : Fresh node false bucket key [] data pending) : wp (recordObject call pending)
      (fun _ s' => Recorded bucket key (stamped call.now (toMetadataObject pending.object)) s s') (fun _ _ => False) s := by
  rw [recordObject,wpBind,wpGets,wpBind,saveRecord,wpDatabase,fresh.mode]
  obtain ⟨db,done,record,deleted,buckets⟩ : ∃ db, s.db.putObject call.now (toMetadataObject pending.object) = .ok db ∧
      db.objects.get (objectKey bucket key) = some (stamped call.now (toMetadataObject pending.object)) ∧
      db.deletedBuckets = s.db.deletedBuckets ∧ db.buckets = s.db.buckets :=
    putObjectPlain home named open_ fresh.bucket fresh.key fresh.versionID
  rw [if_neg (by simp),done]
  dsimp only
  rw [wpBind]
  have start : Recorded bucket key (stamped call.now (toMetadataObject pending.object)) s { s with db := db } :=
    ⟨record,rfl,deleted,fun q => by rw [buckets]⟩
  exact wpMono (surelyFinish fresh.bucket fresh.key _ _ start) (fun _ _ recorded => recorded) (fun _ _ never => never)

theorem recordObjectVersion {node id data} (open_ : bucket ∉ s.db.deletedBuckets) (fresh : Fresh node true bucket key id data pending) :
    wp (recordObject call pending) (fun _ s' => Recorded bucket key (versioned (toMetadataObject pending.object) (latestVersion pending.object))
      s s')
      (fun _ _ => False) s := by
  rw [recordObject,wpBind,wpGets,wpBind,saveRecord,wpDatabase,fresh.mode,if_pos rfl]
  unfold Database.putObjectVersion Database.rejectsWrite
  have home : (toMetadataObject pending.object).bucket = bucket := fresh.bucket
  have keyed : (toMetadataObject pending.object).key = key := fresh.key
  rw [home,if_neg (by simpa using open_)]
  dsimp only
  rw [wpBind]
  have finish : Surely (Recorded bucket key (versioned (toMetadataObject pending.object) (latestVersion pending.object)) s)
      (finishPut call pending (stored s pending.object.bucket pending.object.key)) := surelyFinish fresh.bucket fresh.key _
  refine wpMono (finish _ ⟨?_,rfl,rfl,fun _ => rfl⟩) (fun _ _ recorded => recorded) (fun _ _ never => never)
  rw [← home,← keyed]
  exact Store.getSetSame _ _ _

theorem recordObjectWritten {node enabled id data} (home : bucket ≠ [])
    (named : key ≠ []) (open_ : bucket ∉ s.db.deletedBuckets) (plain : enabled = false → id = [])
    (fresh : Fresh node enabled bucket key id data pending) :
    wp (recordObject call pending) (fun _ s' => ∃ record, Recorded bucket key record s s' ∧ record.bucket = bucket ∧
      record.key = key ∧ record.versionID = id ∧ record.size = data.length ∧ record.etag = node.host.md5 data) (fun _ _ => False) s := by
  cases enabled with
  | false =>
    cases plain rfl
    exact wpMono (recordObjectPlain home named open_ fresh) (fun _ s' recorded => ⟨_,recorded,fresh.bucket,fresh.key,
      fresh.versionID,fresh.size,fresh.etag⟩) (fun _ _ never => never)
  | true => exact wpMono (recordObjectVersion open_ fresh) (fun _ s' recorded => ⟨_,recorded,fresh.bucket,fresh.key,
      fresh.versionID,fresh.size,fresh.etag⟩) (fun _ _ never => never)

theorem storedAt (home : bucket ≠ []) (named : key ≠ []) (found : s.db.objects.get (objectKey bucket key) = some record)
    (here : record.bucket = bucket) (keyed : record.key = key) : stored s bucket key = some record := by
  have read : s.db.getObject bucket key [] = .ok record := by
    unfold Database.getObject Database.record
    rw [if_neg (by simp [home,named]),if_pos rfl,found]
    dsimp only
    rw [filledSelf (here ▸ home) (keyed ▸ named)]
  unfold stored
  rw [read]

structure Written (node : Node) (s : State) (bucket key data : Bytes) (r : ObjectMetadata) : Prop where
  home : r.bucket = bucket
  named : r.key = key
  versionID : r.versionID = []
  size : r.size = data.length
  etag : r.etag = node.host.md5 data
  retention : r.retention = defaultRetention s bucket
  hold : r.legalHold = false

theorem putObjectPlainSpec {node data headers} (home : bucket ≠ [])
    (off : isBucketVersioningEnabled s bucket = false) (open_ : bucket ∉ s.db.deletedBuckets) (file : isFolderMarker key = false)
    (cipher : Cipher node) (opens : ∀ envelope, call.envelope = some envelope → Opens node envelope) :
    wp (putObject node call bucket key data headers)
      (fun _ s' => Admitted node call s false bucket key [] data headers ∧ s'.db.deletedBuckets = s.db.deletedBuckets ∧
        (∃ r, stored s' bucket key = some r ∧ Written node s bucket key data r) ∧
        ∃ enc m, Holds s'.files (getFullPath (getObjectPath bucket key)) enc m ∧ Sealed node m enc data)
      (fun _ s' => ¬ Admitted node call s false bucket key [] data headers ∧
        (Unblocked s.files (getFullPath (getObjectPath bucket key)) → s' = s)) s := by
  rw [putObject,wpBind]
  refine wpMono (storeObjectPlain off file cipher opens) (fun pending s₁ done => ?_) (fun _ _ failed => failed)
  obtain ⟨db,admitted,fresh,retention,hold,enc,m,holds,sealed_⟩ := done
  have named := validName admitted.name
  refine wpSure (recordObjectPlain home named (db ▸ open_) fresh) fun _ s' recorded => ?_
  refine ⟨admitted,recorded.deleted.trans (by rw [db]),⟨_,storedAt home named recorded.record fresh.bucket fresh.key,fresh.bucket,
    fresh.key,fresh.versionID,fresh.size,fresh.etag,retention,?_⟩,enc,m,recorded.files ▸ holds,sealed_⟩
  change (toMetadataObject pending.object).legalHold = false
  simp [toMetadataObject,hold]

end

theorem sampleCipher : Cipher smallNode := by
  refine ⟨fun dek data => ?_,fun data => by simp [smallNode,ascii]⟩
  simp [smallNode]

end MaxIOFS.StoredObjects
