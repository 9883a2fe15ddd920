import MaxIOFS.Completions
import MaxIOFS.Overwrites

/-! Whether the names a client chooses for its metadata reach the encryption of what it stores.
PutObject keeps them out of the sidecar; a completed upload writes them last. -/
namespace MaxIOFS.Envelopes
open ByteString OrderedStore Effects MetadataStore Records ObjectManager ManagerRuns RecordChanges Runs
open StagedCommit (Metadata calculated entry sizeKey etagKey)
open Filesystem StoredFiles StoredObjects PartFiles Completions List Overwrites Store

section
variable {headers : Headers} {m : Metadata} {k : Bytes}

theorem copyHeaderOther {name target} (other : target ≠ k) : (copyHeader headers m name target).get k = m.get k := by
  unfold copyHeader
  split
  · rfl
  · exact getSetOther _ _ other

theorem storageEntry (other : k ∉ [contentTypeKey,ascii "storage-class"] ++ systemHeaders) : (extractStorageMetadata headers).get k = none := by
  have each : ∀ name ∈ [contentTypeKey,ascii "storage-class"] ++ systemHeaders, name ≠ k := fun name mem same => other (same ▸ mem)
  simp only [extractStorageMetadata,systemHeaders,foldl_cons,foldl_nil]
  rw [copyHeaderOther (each _ (by simp [systemHeaders])),copyHeaderOther (each _ (by simp [systemHeaders])),
    copyHeaderOther (each _ (by simp [systemHeaders])),copyHeaderOther (each _ (by simp [systemHeaders])),
    copyHeaderOther (each _ (by simp)),copyHeaderOther (each _ (by simp)),getSetOther _ _ (each _ (by simp))]
  rfl

theorem userEntry (headers : Headers) (k : Bytes) : (extractUserMetadata headers).get k = headers.get (userPrefix ++ k) := by
  have shape {e} (mem : e ∈ headers.scan userPrefix) : userPrefix ++ e.1.drop userPrefix.length = e.1 := by
    obtain ⟨_,same⟩ := (memScan.mp mem).2
    rw [← same,drop_left]
  have distinct : (((headers.scan userPrefix).map fun e => (e.1.drop userPrefix.length, e.2)).map Prod.fst).Nodup := by
    rw [map_map]
    refine List.Nodup.of_map (userPrefix ++ ·) ?_
    rw [map_map]
    refine (map_congr_left fun e mem => ?_) ▸ rangeKeysNodup headers _ _
    exact (shape mem).symm
  cases found : headers.get (userPrefix ++ k) with
  | some value =>
    have mem : (userPrefix ++ k, value) ∈ headers.scan userPrefix := memScan.mpr ⟨found,prefix_append ..⟩
    have listed : (k, value) ∈ (headers.scan userPrefix).map fun e => (e.1.drop userPrefix.length, e.2) := mem_map.mpr ⟨_,mem,by rw [drop_left]⟩
    exact getSetAll distinct listed
  | none =>
    refine (getSetAllOther fun e mem same => ?_).trans rfl
    obtain ⟨f,listed,rfl⟩ := mem_map.mp mem
    have there := (memScan.mp listed).1
    rw [← shape listed,show f.1.drop userPrefix.length = k from same,found] at there
    contradiction

theorem uploadEntry (other : k ∉ [contentTypeKey,ascii "storage-class",aclHeader] ++ systemHeaders) :
    (uploadMetadata headers).get k = headers.get (userPrefix ++ k) := by
  have acl : aclHeader ≠ k := fun same => other (by simp [same])
  have storage : k ∉ [contentTypeKey,ascii "storage-class"] ++ systemHeaders := fun mem => other (by
    simp only [cons_append,mem_cons] at mem ⊢
    tauto)
  unfold uploadMetadata
  rw [copyHeaderOther acl,getSetEntries,storageEntry storage,Option.or_none,userEntry]

end

def guardedKeys : List Bytes := [wrappedKey, wrappedIVKey, kekVersionKey, encryptedKey, originalSizeKey, originalETagKey, sseAlgorithmKey]

theorem calculatedGuards (md5 : Bytes → Bytes) {now data m k} (mem : k ∈ guardedKeys) : entry (calculated md5 now data m) k = entry m k := by
  have other : ∀ k ∈ guardedKeys, sizeKey ≠ k ∧ etagKey ≠ k ∧ StagedCommit.lastModifiedKey ≠ k := by decide
  obtain ⟨size,etag,modified⟩ := other k mem
  unfold entry calculated
  rw [getSetOther _ _ modified,getSetOther _ _ etag,getSetOther _ _ size]

theorem joinedEntry {node call upload data envelope e} (mem : e ∈ guarded (recordedSize data.length) (node.host.md5 data) envelope) :
    entry (joinedSidecar node call upload data envelope) e.1 = (upload.metadata.get e.1).getD e.2 := by
  have name : e.1 ∈ guardedKeys := mem_map_of_mem mem
  have content : contentTypeKey ≠ e.1 := (show ∀ k ∈ guardedKeys, contentTypeKey ≠ k by decide) e.1 name
  have base : Guards ((((empty : Metadata).setAll (encryptionEntries (recordedSize data.length) (node.host.md5 data))).set
      contentTypeKey (uploadContentType upload)).setAll envelope.entries) (guarded (recordedSize data.length) (node.host.md5 data) envelope) := by
    refine envelopeGuards fun f listed => ?_
    have other : ∀ k ∈ [originalSizeKey,originalETagKey,encryptedKey,sseKey,sseAlgorithmKey], contentTypeKey ≠ k := by decide
    unfold entry
    rw [getSetOther _ _ (other f.1 (mem_map_of_mem listed))]
    exact encryptionHeld _ _ _ f listed
  have kept : (upload.metadata.restrict (fun k => decide (k ≠ contentTypeKey))).get e.1 = upload.metadata.get e.1 := by
    rw [getRestrict,if_pos (by simpa using Ne.symm content)]
  have held : entry _ e.1 = e.2 := base e mem
  unfold joinedSidecar
  rw [calculatedGuards _ name,show uploadEntries upload = (upload.metadata.restrict (fun k => decide (k ≠ contentTypeKey))).entries from rfl,
    entry,getSetEntries,kept]
  cases upload.metadata.get e.1 with
  | some value => rfl
  | none => exact held

def sealingEntries (call : Call) (size : Int) (etag : Bytes) : List (Bytes × Bytes) :=
  match call.envelope with
  | some envelope => guarded size etag envelope
  | none => []

def Intact (node : Node) (bucket key data : Bytes) (entries : List (Bytes × Bytes)) (s : State) : Prop :=
  (∃ object s', getObject node bucket key [] s = (.ok (object, some data), s')) ∧
    ∃ cipher m, Holds s.files (getFullPath (pathOf bucket key (currentVersion s bucket key))) cipher m ∧ Guards m entries

section
variable {node : Node} {bucket key data : Bytes} {s : State} {r : ObjectMetadata} {cipher : Bytes} {m : Metadata}
  {entries : List (Bytes × Bytes)}

theorem sidecarUnique {p t cipher' m'} (first : Holds t p cipher m) (second : Holds t p cipher' m') : m' = m := by
  obtain ⟨_,found⟩ := first.sidecar
  obtain ⟨_,found'⟩ := second.sidecar
  rw [found] at found'
  cases found'
  rfl

theorem intactIff (valid : validateObjectName key = true) (found : stored s bucket key = some r) (live : isMetadataDeleteMarker r = false)
    (path : validatePath (pathOf bucket key r.versionID) = true) (holds : Holds s.files (getFullPath (pathOf bucket key r.versionID)) cipher m)
    (opens : Guards m entries → Sealed node m cipher data) : Intact node bucket key data entries s ↔ Guards m entries := by
  have current : currentVersion s bucket key = r.versionID := by rw [currentVersion,found,Option.map_some,Option.getD_some]
  constructor
  · rintro ⟨_,_,_,held,guards⟩
    rw [current] at held
    exact sidecarUnique holds held ▸ guards
  intro guards
  have spec := getObjectHeld valid path holds (opens guards) current fun obj same => by
    rw [found] at same
    exact Option.some.inj same ▸ live
  refine ⟨?_,cipher,m,current ▸ holds,guards⟩
  unfold wp at spec
  split at spec <;> rename_i result
  · rename_i read s'
    exact ⟨read.1,s',by rw [result,← spec.1]⟩
  · exact spec.elim

end

structure Created (headers : Headers) (upload : MultipartUpload) : Prop where
  valid : validateObjectName upload.key = true
  metadata : upload.metadata = uploadMetadata headers

def Unclaimed (headers : Headers) (entries : List (Bytes × Bytes)) : Prop :=
  ∀ e ∈ entries, headers.get (userPrefix ++ e.1) = none ∨ headers.get (userPrefix ++ e.1) = some e.2

theorem outsideNamed {bucket} (outside : Outside bucket) : bucket ≠ [] := by
  rintro rfl
  obtain ⟨_,_,shape,_⟩ := outside
  exact absurd shape.symm (by simp [getFullPath,split])

theorem unclaimedIff {headers upload node call data envelope} (created : Created headers upload) :
    Guards (joinedSidecar node call upload data envelope) (guarded (recordedSize data.length) (node.host.md5 data) envelope) ↔
      Unclaimed headers (guarded (recordedSize data.length) (node.host.md5 data) envelope) := by
  refine forall₂_congr fun e mem => ?_
  have name : e.1 ∈ guardedKeys := mem_map_of_mem mem
  have plain : ∀ k ∈ guardedKeys, k ∉ [contentTypeKey,ascii "storage-class",aclHeader] ++ systemHeaders := by decide
  rw [joinedEntry mem,created.metadata,uploadEntry (plain e.1 name)]
  cases headers.get (userPrefix ++ e.1) with
  | none => simp
  | some value => simp

theorem completionIntact {node call uploadID parts s s' upload headers object} (cipher : Cipher node)
    (opens : ∀ envelope, call.envelope = some envelope → Opens node envelope)
    (found : s.db.getMultipartUpload uploadID = .ok upload) (created : Created headers upload) (outside : Outside upload.bucket)
    (returned : doCompleteMultipartUpload node call uploadID parts s = (.ok object, s')) :
    let data := partsBytes node.host s.files uploadID parts
    Intact node upload.bucket upload.key data (sealingEntries call (recordedSize data.length) (node.host.md5 data)) s' ↔
      Unclaimed headers (sealingEntries call (recordedSize data.length) (node.host.md5 data)) := by
  intro data
  obtain ⟨_,completion⟩ := wpOk (completeHeld node call uploadID parts s) returned
  cases (found.symm.trans completion.found)
  obtain ⟨_,_,tagged,rfl⟩ := completion.made
  obtain ⟨r,entry,points⟩ := completion.record
  obtain ⟨_,joined⟩ := completion.files outside
  obtain ⟨envelope,given,holds⟩ := joined.held
  have home : r.bucket = upload.bucket := points.bucket
  have named : r.key = upload.key := points.key
  have version : r.versionID = versionFor call s upload := points.versionID
  have current : stored s' upload.bucket upload.key = some r := by
    have keyed : upload.key ≠ [] := validName created.valid
    have read : s'.db.getObject upload.bucket upload.key [] = .ok r := by
      unfold Database.getObject Database.record
      rw [if_neg (not_or.mpr ⟨outsideNamed outside,keyed⟩),if_pos rfl,entry]
      dsimp only
      rw [filledSelf (home ▸ outsideNamed outside) (named ▸ keyed)]
    unfold stored
    rw [read]
  have live : isMetadataDeleteMarker r = false := decide_eq_false fun marker => tagged (points.etag.symm.trans marker.2)
  rw [← version] at joined holds
  have sealing : sealingEntries call (recordedSize data.length) (node.host.md5 data) =
      guarded (recordedSize data.length) (node.host.md5 data) envelope := by
    unfold sealingEntries
    rw [given]
  rw [sealing,← unclaimedIff created]
  exact intactIff created.valid current live joined.valid holds fun guards => guardsSealed cipher (opens envelope given) guards data

/-! PutObject. A folder marker is not encrypted, so none of the entries is there. -/

def putEntries (node : Node) (call : Call) (key data : Bytes) : List (Bytes × Bytes) :=
  if isFolderMarker key then guardedKeys.map (·, []) else sealingEntries call data.length (node.host.md5 data)

section
variable {node : Node} {call : Call} {bucket key data id : Bytes} {headers : Headers} {s s' : State} {enabled : Bool}

structure Written (node : Node) (bucket key data : Bytes) (entries : List (Bytes × Bytes)) (s : State) : Prop where
  valid : validateObjectName key = true
  held : ∃ r cipher m, stored s bucket key = some r ∧ isMetadataDeleteMarker r = false ∧ validatePath (pathOf bucket key r.versionID) = true ∧
    Holds s.files (getFullPath (pathOf bucket key r.versionID)) cipher m ∧ Guards m entries ∧ Sealed node m cipher data

theorem writtenIntact {entries} (written : Written node bucket key data entries s) : Intact node bucket key data entries s := by
  obtain ⟨_,_,_,found,live,path,holds,guards,opens⟩ := written.held
  exact (intactIff written.valid found live path holds fun _ => opens).mpr guards

theorem clearGuards (node : Node) (now : Int) (data : Bytes) (headers : Headers) {k} (mem : k ∈ guardedKeys) :
    entry (calculated node.host.md5 now data (((extractStorageMetadata headers).set sizeKey (formatInt data.length)).set
      etagKey (node.host.md5 data))) k = [] := by
  have other : ∀ k ∈ guardedKeys, sizeKey ≠ k ∧ etagKey ≠ k ∧ k ∉ [contentTypeKey,ascii "storage-class"] ++ systemHeaders := by decide
  obtain ⟨size,etag,plain⟩ := other k mem
  rw [calculatedGuards _ mem,entry,getSetOther _ _ etag,getSetOther _ _ size,storageEntry plain]
  rfl

theorem clearSealed {m} (clear : ∀ k ∈ guardedKeys, entry m k = []) (data : Bytes) : Sealed node m data data := by
  have plain : isEncrypted m = false := by
    unfold isEncrypted
    rw [clear encryptedKey (by decide)]
    rfl
  intro obj
  rw [openObject,withAlgorithm,plain]
  rfl

theorem storeObjectClear (mode : isBucketVersioningEnabled s bucket = true) (chosen : chooseVersion call true = .ok id)
    (folder : isFolderMarker key = true) : wp (storeObject node call bucket key data headers)
      (fun pending s' => s'.db = s.db ∧ validateObjectName key = true ∧ Fresh node true bucket key id data pending ∧
        validatePath (getVersionedObjectPath bucket key id) = true ∧
        ∃ m, Holds s'.files (getFullPath (getVersionedObjectPath bucket key id)) data m ∧ ∀ k ∈ guardedKeys, entry m k = [])
        (fun _ _ => True) s := by
  refine storeObjectBy (fun _ _ => trivial) ?_
  rw [mode]
  intro id' name chosen' _ _ path
  cases chosen.symm.trans chosen'
  rw [storeData,if_pos folder,storeUnencryptedObject,wpStorage]
  have ending : hasSuffix [slash] (getVersionedObjectPath bucket key id) = false :=
    versionedPlain (chosenSegment chosen).1 (chosenSegment chosen).2 bucket key
  refine wpLax (putPlainSpec ending) fun _ t done => ?_
  obtain ⟨valid,_,holds⟩ := done
  rw [wpStorage]
  refine wpIs (getMetadataHeld valid holds) ?_
  exact ⟨rfl,name,⟨rfl,rfl,rfl,rfl,rfl,rfl⟩,valid,_,holds,fun k mem => clearGuards node _ data headers mem⟩

theorem recordIntact {pending cipher m entries} (home : bucket ≠ [])
    (name : validateObjectName key = true) (open_ : bucket ∉ s.db.deletedBuckets) (digest : node.host.md5 data ≠ [])
    (chosen : chooseVersion call enabled = .ok id) (fresh : Fresh node enabled bucket key id data pending)
    (path : validatePath (pathOf bucket key id) = true) (holds : Holds s.files (getFullPath (pathOf bucket key id)) cipher m)
    (guards : Guards m entries) (opens : Sealed node m cipher data) :
    wp (recordObject call pending) (fun _ s' => Written node bucket key data entries s') (fun _ _ => True) s := by
  have named := validName name
  have plain : enabled = false → id = [] := fun off => not_ne_iff.mp fun present =>
    Bool.false_ne_true (off.symm.trans ((chosenMode chosen).mpr present))
  refine wpSure (recordObjectWritten home named open_ plain fresh) fun _ s' done => ?_
  obtain ⟨r,recorded,here,keyed,version,_,etag⟩ := done
  refine ⟨name,r,cipher,m,storedAt home named recorded.record here keyed,decide_eq_false fun marker => digest (etag.symm.trans marker.2),
    version ▸ path,?_,guards,opens⟩
  rw [version,recorded.files]
  exact holds

theorem putWritten (home : bucket ≠ []) (cipher : Cipher node) (opens : ∀ envelope, call.envelope = some envelope → Opens node envelope)
    (fits : isFolderMarker key = true → isBucketVersioningEnabled s bucket = true) :
    wp (putObject node call bucket key data headers) (fun _ s' => Written node bucket key data (putEntries node call key data) s')
    (fun _ _ => True) s := by
  by_cases deleted : bucket ∈ s.db.deletedBuckets
  · exact wpLax (putDeleted deleted) fun _ _ never => never.elim
  rw [putObject,wpBind]
  cases chosen : chooseVersion call (isBucketVersioningEnabled s bucket) with
  | error e =>
    exact storeObjectBy (fun _ _ => trivial) fun id _ chosen' => by cases chosen.symm.trans chosen'
  | ok id =>
    unfold putEntries
    cases folder : isFolderMarker key with
    | true =>
      have on := fits folder
      rw [on] at chosen
      refine wpLax (storeObjectClear on chosen folder) fun pending s₁ done => ?_
      obtain ⟨db,name,fresh,path,_,holds,clear⟩ := done
      have versioned : pathOf bucket key id = getVersionedObjectPath bucket key id := if_neg (chosenSegment chosen).2
      refine recordIntact home name (db ▸ deleted) (cipher.digest data) chosen fresh (versioned ▸ path)
        (versioned ▸ holds) ?_ (clearSealed clear data)
      intro e mem
      obtain ⟨k,listed,rfl⟩ := mem_map.mp mem
      exact clear k listed
    | false =>
      refine wpLax (storeObjectHeld rfl chosen folder) fun pending s₁ done => ?_
      obtain ⟨db,admitted,fresh,_,_,envelope,given,holds⟩ := done
      have path := chosenPath bucket key chosen
      have guards : Guards (putSidecar node call data headers envelope) (guarded data.length (node.host.md5 data) envelope) := by
        intro e mem
        have name : e.1 ∈ guardedKeys := mem_map_of_mem mem
        rw [putSidecar,calculatedGuards _ name]
        exact sealedGuards _ _ _ _ e mem
      have sealing : sealingEntries call data.length (node.host.md5 data) = guarded data.length (node.host.md5 data) envelope := by
        unfold sealingEntries
        rw [given]
      rw [if_neg Bool.false_ne_true,sealing]
      exact recordIntact home admitted.name (db ▸ deleted) (cipher.digest data) chosen fresh (path ▸ admitted.path) (path ▸ holds) guards
        (guardsSealed cipher (opens envelope given) guards data)

theorem putFolderBare (home : bucket ≠ []) (off : isBucketVersioningEnabled s bucket = false) (folder : isFolderMarker key = true)
    (entries : List (Bytes × Bytes)) :
    wp (putObject node call bucket key data headers) (fun _ s' => ¬ Intact node bucket key data entries s') (fun _ _ => True) s := by
  by_cases deleted : bucket ∈ s.db.deletedBuckets
  · exact wpLax (putDeleted deleted) fun _ _ never => never.elim
  rw [putObject,wpBind]
  refine wpLax (wpAnd (storeObjectSpec) (storeObjectFolder off folder)) fun pending s₁ done => ?_
  obtain ⟨⟨db,_⟩,named,fresh,_,_,isdir⟩ := done
  refine wpSure (recordObjectPlain home named (db ▸ deleted) fresh) fun _ s' recorded => ?_
  rintro ⟨⟨_,_,read⟩,_⟩
  have found := storedAt home named recorded.record fresh.bucket fresh.key
  have bare := wpOk (getObjectDirectory (recorded.files ▸ isdir) fun obj same => by
    rw [found] at same
    exact Option.some.inj same ▸ fresh.versionID) read
  contradiction

end

/-- A write with PutObject is intact but for a folder marker outside versioning; a completed upload is
intact exactly when its headers name no entry of the encryption with another value. -/
theorem clientMetadataKept {node} {call} {s} (cipher : Cipher node) (opens : ∀ envelope, call.envelope = some envelope → Opens node envelope) :
    (∀ bucket key data headers object s', bucket ≠ [] → putObject node call bucket key data headers s = (.ok object, s') →
      (Intact node bucket key data (putEntries node call key data) s' ↔ (isFolderMarker key = true → isBucketVersioningEnabled s bucket = true))) ∧
    (∀ uploadID parts upload headers object s', s.db.getMultipartUpload uploadID = .ok upload → Created headers upload →
      Outside upload.bucket → doCompleteMultipartUpload node call uploadID parts s = (.ok object, s') →
      let data := partsBytes node.host s.files uploadID parts
      (Intact node upload.bucket upload.key data (sealingEntries call (recordedSize data.length) (node.host.md5 data)) s' ↔
        Unclaimed headers (sealingEntries call (recordedSize data.length) (node.host.md5 data)))) := by
  refine ⟨fun bucket key data headers object s' home returned => ⟨fun intact folder => ?_,fun fits => ?_⟩,
    fun uploadID parts upload headers object s' found created outside returned => completionIntact cipher opens found created outside returned⟩
  · by_contra off
    have bare : ¬ Intact node bucket key data (putEntries node call key data) s' :=
      wpOk (putFolderBare home (Bool.eq_false_iff.mpr off) folder _) returned
    exact bare intact
  · exact writtenIntact (wpOk (Q := fun _ s' => Written node bucket key data (putEntries node call key data) s')
      (putWritten home cipher opens fits) returned)

def claimed (name value : Bytes) : Headers := empty.set (userPrefix ++ name) value

def oneUpload (headers : Headers) : List Event :=
  [⟨callAt 5, .createUpload (ascii "u") (ascii "k") headers⟩, ⟨callAt 6, .uploadPart (ascii "u") 1 partBytes⟩]

theorem smallOpens : ∀ envelope, (callAt 9).envelope = some envelope → Opens smallNode envelope := by
  intro envelope given
  cases given
  exact ⟨by decide,by decide,[],rfl,rfl⟩

theorem outsideBucket : Outside (ascii "b") := ⟨ascii "b",[],by decide,by decide⟩

def onlyPart : List Part := [⟨1, ascii "m" ++ partBytes⟩]

def seen (headers : Headers) (s : State) : Option (Bytes × Bytes × Bool) × Bool × Option Bytes :=
  let joined := doCompleteMultipartUpload smallNode (callAt 9) (ascii "u") onlyPart s
  ((s.db.getMultipartUpload (ascii "u")).toOption.map
    (fun upload => (upload.bucket, upload.key, decide (upload.metadata = uploadMetadata headers))),
    joined.1.isOk, bytesAt smallNode (ascii "b") (ascii "k") [] joined.2)

theorem uploadSeen (headers : Headers) (bytes : Option Bytes)
    (facts : (run (step smallNode (ascii "b")) (newBucket none) (oneUpload headers)).map (seen headers) =
      some (some (ascii "b", ascii "k", true), true, bytes)) :
    ∃ s upload object s', run (step smallNode (ascii "b")) (newBucket none) (oneUpload headers) = some s ∧
      s.db.getMultipartUpload (ascii "u") = .ok upload ∧ upload.bucket = ascii "b" ∧ upload.key = ascii "k" ∧ Created headers upload ∧
      doCompleteMultipartUpload smallNode (callAt 9) (ascii "u") onlyPart s = (.ok object, s') ∧
      bytesAt smallNode (ascii "b") (ascii "k") [] s' = bytes := by
  obtain ⟨s,ran,shown⟩ := Option.map_eq_some_iff.mp facts
  obtain ⟨found,rest⟩ := Prod.mk.inj shown
  obtain ⟨done,read⟩ := Prod.mk.inj rest
  obtain ⟨upload,known,same⟩ := Option.map_eq_some_iff.mp found
  obtain ⟨home,more⟩ := Prod.mk.inj same
  obtain ⟨named,metadata⟩ := Prod.mk.inj more
  have recorded := toOptionIff.mp known
  cases result : doCompleteMultipartUpload smallNode (callAt 9) (ascii "u") onlyPart s with
  | mk outcome s' =>
    rw [result] at done read
    cases outcome with
    | error e => cases done
    | ok object =>
      exact ⟨s,upload,object,s',ran,recorded,home,named,⟨by rw [named]; decide,of_decide_eq_true metadata⟩,result,read⟩

theorem plainUploadKept : (∃ object s', putObject smallNode (callAt 9) (ascii "b") (ascii "k") [7] (claimed wrappedKey [9]) (newBucket none) =
      (.ok object, s') ∧ Intact smallNode (ascii "b") (ascii "k") [7] (putEntries smallNode (callAt 9) (ascii "k") [7]) s') ∧
    ∃ s object s', run (step smallNode (ascii "b")) (newBucket none) (oneUpload empty) = some s ∧
      doCompleteMultipartUpload smallNode (callAt 9) (ascii "u") onlyPart s = (.ok object, s') ∧
      let data := partsBytes smallNode.host s.files (ascii "u") onlyPart
      Intact smallNode (ascii "b") (ascii "k") data (sealingEntries (callAt 9) (recordedSize data.length) (smallNode.host.md5 data)) s' := by
  constructor
  · obtain ⟨object,s',returned⟩ : ∃ object s', putObject smallNode (callAt 9) (ascii "b") (ascii "k")
      [7] (claimed wrappedKey [9]) (newBucket none) =
      (.ok object, s') := ⟨_,_,rfl⟩
    exact ⟨object,s',returned,((clientMetadataKept sampleCipher smallOpens).1 _ _ _ _ object s' (by decide) returned).mpr
      fun folder => absurd folder (by decide)⟩
  · obtain ⟨s,upload,object,s',ran,found,home,named,created,returned,_⟩ := uploadSeen empty (some partBytes) (by decide +kernel)
    have kept := ((clientMetadataKept sampleCipher smallOpens).2 _ onlyPart upload _ object s' found created (home ▸ outsideBucket) returned).mpr
      fun e _ => .inl rfl
    rw [home,named] at kept
    exact ⟨s,object,s',ran,returned,kept⟩

-- A header that names the wrapped key takes its place, and the object can no longer be read.
theorem claimedKeyLosesObject : ∃ s upload object s', run (step smallNode (ascii "b")) (newBucket none) (oneUpload (claimed wrappedKey [9])) =
    some s ∧
      s.db.getMultipartUpload (ascii "u") = .ok upload ∧ Created (claimed wrappedKey [9]) upload ∧ Outside upload.bucket ∧
      doCompleteMultipartUpload smallNode (callAt 9) (ascii "u") onlyPart s = (.ok object, s') ∧
      ∀ data entries, ¬ Intact smallNode upload.bucket upload.key data entries s' := by
  obtain ⟨s,upload,object,s',ran,found,home,named,created,returned,read⟩ := uploadSeen (claimed wrappedKey [9]) none (by decide +kernel)
  refine ⟨s,upload,object,s',ran,found,created,home ▸ outsideBucket,returned,?_⟩
  rintro data entries ⟨⟨shown,s'',answered⟩,_⟩
  rw [home,named] at answered
  rw [bytesAt,answered] at read
  cases read

end MaxIOFS.Envelopes
