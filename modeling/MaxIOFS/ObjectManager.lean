import MaxIOFS.Filesystem
import MaxIOFS.MetadataStore

/-! The object manager over the metadata store, the files and the tenants' storage counters.
A call reads the clock once; its random bytes, the envelope of a fresh data key and the
values pinned by replication are inputs of the call. Temporary upload files, logging,
alerts, and the cache of completions in progress are not modelled. -/
namespace MaxIOFS.ObjectManager
open ByteString OrderedStore FileTree Effects StagedCommit Filesystem MetadataStore Records

structure Tenant where
  (maxStorageBytes currentStorageBytes : Int)
  deriving DecidableEq

structure State where
  db : Database
  files : Files
  tenants : Store Bytes Tenant

inductive Error where
  | invalidObjectName
  | invalidPath
  | objectNotFound
  | badDigest
  | storageQuotaExceeded
  | bucketQuotaExceeded
  | noKEK
  | underLegalHold
  | complianceRetention (until_ : Int)
  | governanceRetention (until_ : Int)
  | cannotShortenCompliance
  | cannotShortenGovernance
  | tooManyTags
  | invalidACL
  | invalidUploadID
  | uploadNotFound
  | noParts
  | invalidPart
  | invalidPartOrder
  | invalidPartNumber
  | multipartETag
  | decryptionKey
  | invalidBucketName
  | storage (cause : StorageError)
  | metadata (cause : MetadataError)
  deriving DecidableEq, Repr

inductive Checksum where
  | crc32 | crc32c | sha1 | sha256
  deriving DecidableEq, Repr

structure Node where
  host : Host
  checksum : Checksum → Bytes → Bytes
  encryptStream : Bytes → Bytes → Bytes
  decryptStream : Bytes → Bytes → Bytes → Option Bytes
  kekByVersion : Int → Option Bytes
  unwrap : Bytes → Bytes → Bytes → Option Bytes
  multipartDigest : List Bytes → Option Bytes
  sorting : VersionSort

structure Envelope where
  (dek wrapped iv : Bytes)
  kekVersion : Int
  deriving DecidableEq

structure Call where
  now : Int
  random : Option UInt32
  envelope : Option Envelope
  replicatedVersionID : Bytes
  replicatedLastModified : Option Int
  bypassQuota : Bool
  clusterStorage : Option Int
  deriving DecidableEq

def Call.seconds (call : Call) : Int := call.now / 1000000000
def fromSeconds (seconds : Int) : Int := seconds * 1000000000

/-! Names and paths. -/

def validateObjectName (key : Bytes) : Bool :=
  key ≠ [] && !hasPrefix [slash] key && (split slash key).all (· ≠ ascii "..") && decide (key.length ≤ 1024) &&
    !hasSuffix (ascii ".metadata") key && !hasSuffix (ascii ".metadata-staging") key

def parseBucketPath (path : Bytes) : Bytes × Bytes :=
  match splitFirst slash path with
  | (tenantID, some name) => (tenantID, name)
  | (name, none) => ([], name)

def getObjectPath (bucket key : Bytes) : Bytes := bucket ++ [slash] ++ key
def getVersionedObjectPath (bucket key versionID : Bytes) : Bytes := bucket ++ ascii "/.versions/" ++ key ++ [slash] ++ versionID

def hexDigit (n : Nat) : UInt8 := if n < 10 then UInt8.ofNat (48 + n) else UInt8.ofNat (87 + n)

def hex (bytes : UInt32) : Bytes := (List.range 8).reverse.map (fun i => hexDigit (bytes.toNat / 16 ^ i % 16))

def generateVersionID (call : Call) : Bytes :=
  match call.random with
  | some bytes => formatInt call.now ++ ascii "." ++ hex bytes
  | none => formatInt call.now

def containsPair (a b : UInt8) : Bytes → Bool
  | [] => false
  | x :: rest => (decide (x = a) && decide (rest.head? = some b)) || containsPair a b rest

def validateReplicatedVersionID (versionID : Bytes) : Bool :=
  versionID ≠ [] && !decide (slash ∈ versionID) && !decide (92 ∈ versionID) && !containsPair 46 46 versionID

/-! The store behind a call. -/

def storage {α} (m : Action Files StorageError α) : Action State Error α :=
  mapError Error.storage (within State.files (fun files s => { s with files := files }) m)

def database (write : Database → Except MetadataError Database) : Action State Error Unit := fun s =>
  match write s.db with
  | .ok db => (.ok (), { s with db := db })
  | .error e => (.error (.metadata e), s)

@[simp] theorem wpStorage {α m} {Q : α → State → Prop} {E s} : wp (storage m) Q E s ↔
      wp m (fun a files => Q a { s with files}) (fun e files => E (.storage e) { s with files}) s.files := by
  simp only [storage, wpMapError, wpWithin]

theorem wpDatabase {write Q E}
    {s} : wp (database write) Q E s ↔ match write s.db with
      | .ok db => Q () { s with db}
      | .error e => E (.metadata e) s := by
  unfold wp database
  cases write s.db <;> exact Iff.rfl

def stored (s : State) (bucket key : Bytes) : Option ObjectMetadata :=
  match s.db.getObject bucket key [] with
  | .ok obj => some obj
  | .error _ => none

def bucketOf (s : State) (bucket : Bytes) : Option BucketMetadata :=
  let (tenantID, name) := parseBucketPath bucket
  match s.db.getBucket tenantID name with
  | .ok found => some found
  | .error _ => none

def isBucketVersioningEnabled (s : State) (bucket : Bytes) : Bool :=
  match bucketOf s bucket with
  | some found => decide (found.versioningStatus = some (ascii "Enabled"))
  | none => false

def isMetadataDeleteMarker (obj : ObjectMetadata) : Bool := decide (obj.size = 0 ∧ obj.etag = [])
def isVersionDeleteMarker (ver : ObjectVersion) : Bool := decide (ver.size = 0 ∧ ver.etag = [])

def visible (existing : Option ObjectMetadata) : Bool :=
  match existing with
  | some obj => !isMetadataDeleteMarker obj
  | none => false

/-! Counters. -/

def bucketMetrics (bucket : Bytes) (countDelta sizeDelta : Int) : Action State Error Unit :=
  let (tenantID, name) := parseBucketPath bucket
  ignore (database (fun db => db.updateBucketMetrics tenantID name countDelta sizeDelta))

def incrementTenantStorage (tenants : Store Bytes Tenant) (tenantID : Bytes) (bytes : Int) : Store Bytes Tenant :=
  if bytes ≤ 0 then tenants
  else match tenants.get tenantID with
    | none => tenants
    | some tenant =>
      if tenant.maxStorageBytes = 0 ∨ tenant.currentStorageBytes + bytes ≤ tenant.maxStorageBytes then
        tenants.set tenantID { tenant with currentStorageBytes := tenant.currentStorageBytes + bytes }
      else tenants

def decrementTenantStorage (tenants : Store Bytes Tenant) (tenantID : Bytes) (bytes : Int) : Store Bytes Tenant :=
  if bytes ≤ 0 then tenants
  else match tenants.get tenantID with
    | none => tenants
    | some tenant => tenants.set tenantID
        { tenant with currentStorageBytes := if bytes < tenant.currentStorageBytes then tenant.currentStorageBytes - bytes else 0 }

def tenantStorage (bucket : Bytes) (change : Store Bytes Tenant → Bytes → Store Bytes Tenant) :
    Action State Error Unit :=
  let tenantID := (parseBucketPath bucket).1
  if tenantID = [] then pure () else update (fun s => { s with tenants := change s.tenants tenantID })

def checkTenantStorageQuota (s : State) (call : Call) (tenantID : Bytes) (additional : Int) : Bool :=
  if tenantID = [] then true
  else match s.tenants.get tenantID with
    | none => false
    | some tenant => decide (tenant.maxStorageBytes = 0) ||
        decide (call.clusterStorage.getD tenant.currentStorageBytes + additional ≤ tenant.maxStorageBytes)

def checkBucketStorageQuota (s : State) (bucket : Bytes) (sizeIncrement : Int) (newObject : Bool) : Bool :=
  match (bucketOf s bucket).bind (fun found => found.quota.map (found, ·)) with
  | none => true
  | some (found, quota) =>
    !(decide (0 < quota.maxSizeBytes ∧ 0 < sizeIncrement ∧ quota.maxSizeBytes < found.totalSize + sizeIncrement)) &&
      !(decide (0 < quota.maxObjectCount ∧ newObject = true ∧ quota.maxObjectCount < found.objectCount + 1))

def growth (versioningEnabled : Bool) (existing : Option ObjectMetadata) (size : Int) : Int × Bool :=
  if versioningEnabled then (size, !visible existing)
  else match existing with
    | none => (size, true)
    | some obj => (size - obj.size, false)

def withinQuota (call : Call) (bucket : Bytes) (sizeIncrement : Int) (newObject : Bool) : Action State Error Unit := do
  let tenantID := (parseBucketPath bucket).1
  let room ← gets (fun s => decide (sizeIncrement ≤ 0) || checkTenantStorageQuota s call tenantID sizeIncrement)
  check room .storageQuotaExceeded
  let room ← gets (fun s => checkBucketStorageQuota s bucket sizeIncrement newObject)
  check room .bucketQuotaExceeded

/-! Request headers: names are looked up without regard to case, so they are kept in lower case. -/

abbrev Headers := Store Bytes Bytes

def header (headers : Headers) (name : Bytes) : Bytes := (headers.get name).getD []

def lower (s : Bytes) : Bytes := s.map (fun b => if 65 ≤ b ∧ b ≤ 90 then b + 32 else b)
def upper (s : Bytes) : Bytes := s.map (fun b => if 97 ≤ b ∧ b ≤ 122 then b - 32 else b)

def contentTypeKey : Bytes := ascii "content-type"
def systemHeaders : List Bytes := [ascii "content-disposition", ascii "content-encoding", ascii "cache-control", ascii "content-language"]

def copyHeader (headers : Headers) (m : Metadata) (name target : Bytes) : Metadata :=
  if header headers name = [] then m else m.set target (header headers name)

def extractStorageMetadata (headers : Headers) : Metadata :=
  let m := empty.set contentTypeKey (ascii "application/octet-stream")
  let m := copyHeader headers m contentTypeKey contentTypeKey
  let m := copyHeader headers m (ascii "x-amz-storage-class") (ascii "storage-class")
  systemHeaders.foldl (fun m name => copyHeader headers m name name) m

def userPrefix : Bytes := ascii "x-amz-meta-"
def extractUserMetadata (headers : Headers) : Metadata := empty.setAll ((headers.scan userPrefix).map (fun e => (e.1.drop userPrefix.length, e.2)))

def storageClassOrDefault (class_ : Bytes) : Bytes := if class_ = [] then ascii "STANDARD" else class_

def checksumAlgorithm (headers : Headers) : Bytes := upper (header headers (ascii "x-amz-checksum-algorithm"))

def checksumOf (algorithm : Bytes) : Option Checksum :=
  if algorithm = ascii "CRC32" then some .crc32
  else if algorithm = ascii "CRC32C" then some .crc32c
  else if algorithm = ascii "SHA1" then some .sha1
  else if algorithm = ascii "SHA256" then some .sha256
  else none

def checksumValue (node : Node) (headers : Headers) (data : Bytes) : Bytes :=
  match checksumOf (checksumAlgorithm headers) with
  | some algorithm => node.checksum algorithm data
  | none => []

def checksumAccepted (node : Node) (headers : Headers) (data : Bytes) : Bool :=
  match checksumOf (checksumAlgorithm headers) with
  | none => true
  | some algorithm =>
    let claimed := header headers (ascii "x-amz-checksum-" ++ lower (checksumAlgorithm headers))
    decide (claimed = []) || decide (claimed = node.checksum algorithm data)

/-! Encryption. -/

def encryptedKey : Bytes := ascii "encrypted"
def originalSizeKey : Bytes := ascii "original-size"
def originalETagKey : Bytes := ascii "original-etag"
def wrappedKey : Bytes := ascii "wrapped-dek"
def wrappedIVKey : Bytes := ascii "wrapped-dek-iv"
def kekVersionKey : Bytes := ascii "kek-version"
def sseKey : Bytes := ascii "x-amz-server-side-encryption"
def sseAlgorithmKey : Bytes := ascii "x-amz-server-side-encryption-algorithm"

def Envelope.entries (envelope : Envelope) : List (Bytes × Bytes) :=
  [(wrappedKey, envelope.wrapped), (wrappedIVKey, envelope.iv), (kekVersionKey, formatInt envelope.kekVersion)]

def encryptionEntries (originalSize : Int) (originalETag : Bytes) : List (Bytes × Bytes) :=
  [(originalSizeKey, formatInt originalSize), (originalETagKey, originalETag), (encryptedKey, ascii "true"),
    (sseKey, ascii "AES256"), (sseAlgorithmKey, ascii "AES-256-GCM-STREAM")]

def isProtectedStorageMetadataKey (key : Bytes) : Bool :=
  decide (key ∈ [encryptedKey, originalSizeKey, originalETagKey, wrappedKey, wrappedIVKey, kekVersionKey,
    sizeKey, etagKey, lastModifiedKey, sseKey, sseAlgorithmKey])

def decryptionKeyFor (node : Node) (m : Metadata) : Option Bytes :=
  if entry m wrappedKey = [] then node.kekByVersion 1
  else
    let version := if entry m kekVersionKey = [] then (1, true) else parseInt (entry m kekVersionKey)
    if version.2 = true then do
      let kek ← node.kekByVersion version.1
      node.unwrap (entry m wrappedKey) (entry m wrappedIVKey) kek
    else none

def isEncrypted (m : Metadata) : Bool := decide (entry m encryptedKey = ascii "true")

def storeEncryptedObject (node : Node) (call : Call) (path data : Bytes) (m : Metadata) (originalETag : Bytes) :
    Action State Error Unit :=
  match call.envelope with
  | none => fail .noKEK
  | some envelope =>
    let m := (m.setAll (encryptionEntries data.length originalETag)).setAll envelope.entries
    storage (put node.host call.seconds path (node.encryptStream envelope.dek data) m)

def storeUnencryptedObject (node : Node) (call : Call) (path data : Bytes) (m : Metadata) (originalETag : Bytes) :
    Action State Error Unit :=
  storage (put node.host call.seconds path data ((m.set sizeKey (formatInt data.length)).set etagKey originalETag))

/-! PutObject: the store, then the section under the key's lock. -/

def chooseVersion (call : Call) (versioningEnabled : Bool) : Except Error Bytes :=
  if versioningEnabled then
    if call.replicatedVersionID = [] then .ok (generateVersionID call)
    else if validateReplicatedVersionID call.replicatedVersionID then .ok call.replicatedVersionID
    else .error .invalidPath
  else .ok []

def objectPathOf (versioningEnabled : Bool) (bucket key versionID : Bytes) : Bytes :=
  if versioningEnabled then getVersionedObjectPath bucket key versionID else getObjectPath bucket key

def isFolderMarker (key : Bytes) : Bool := hasSuffix [slash] key

def replicatedLastModified (call : Call) : Option Int := call.replicatedLastModified.filter (fun t => decide (1000000000 ≤ t))

def defaultRetention (s : State) (bucket : Bytes) : Option Retention :=
  (bucketOf s bucket).bind (fun found => found.objectLock.bind (fun lock =>
    if lock.enabled then lock.defaultRetention else none))

def newObject (node : Node) (call : Call) (bucket key data : Bytes) (headers : Headers) (versionID : Bytes)
    (final : Metadata) (retention : Option Retention) : Object where
  bucket := bucket
  key := key
  versionID := versionID
  isLatest := false
  size := data.length
  lastModified := (replicatedLastModified call).getD (fromSeconds (parseInt (entry final lastModifiedKey)).1)
  etag := node.host.md5 data
  contentType := entry final contentTypeKey
  storageClass := storageClassOrDefault (entry (extractStorageMetadata headers) (ascii "storage-class"))
  contentDisposition := entry (extractStorageMetadata headers) (ascii "content-disposition")
  contentEncoding := entry (extractStorageMetadata headers) (ascii "content-encoding")
  cacheControl := entry (extractStorageMetadata headers) (ascii "cache-control")
  contentLanguage := entry (extractStorageMetadata headers) (ascii "content-language")
  metadata := extractUserMetadata headers
  tags := none
  retention := retention
  legalHold := none
  acl := none
  checksumAlgorithm := checksumAlgorithm headers
  checksumValue := checksumValue node headers data
  restoreStatus := []
  restoreExpiresAt := none
  sseAlgorithm := if isFolderMarker key then [] else ascii "AES256"

structure Pending where
  object : Object
  versioningEnabled : Bool

def storeData (node : Node) (call : Call) (key path data : Bytes) (headers : Headers) : Action State Error Unit :=
  if isFolderMarker key then
    storeUnencryptedObject node call path data (extractStorageMetadata headers) (node.host.md5 data)
  else storeEncryptedObject node call path data (extractStorageMetadata headers) (node.host.md5 data)

def checkQuota (call : Call) (bucket : Bytes) (added : Int × Bool) : Action State Error Unit :=
  if call.bypassQuota then pure () else withinQuota call bucket added.1 added.2

def storeObject (node : Node) (call : Call) (bucket key data : Bytes) (headers : Headers) :
    Action State Error Pending := do
  check (validateObjectName key) .invalidObjectName
  let versioningEnabled ← gets (fun s => isBucketVersioningEnabled s bucket)
  let versionID ← observe (fun _ => chooseVersion call versioningEnabled)
  let path := objectPathOf versioningEnabled bucket key versionID
  check (checksumAccepted node headers data) .badDigest
  let added ← gets (fun s => growth versioningEnabled (stored s bucket key) data.length)
  checkQuota call bucket added
  storeData node call key path data headers
  let final ← storage (getMetadata node.host path)
  let retention ← gets (fun s => defaultRetention s bucket)
  pure ⟨newObject node call bucket key data headers versionID final retention, versioningEnabled⟩

def folderPrefixes (current : Bytes) : List Bytes → List Bytes
  | [] => []
  | part :: rest =>
    if part = [] then folderPrefixes current rest
    else
      let next := if current = [] then part else current ++ [slash] ++ part
      (next ++ [slash]) :: folderPrefixes next rest

def implicitFolders (key : Bytes) : List Bytes :=
  if isFolderMarker key then [] else folderPrefixes [] (split slash key).dropLast

def folderObject (now : Int) (bucket key : Bytes) : ObjectMetadata where
  bucket := bucket
  key := key
  versionID := []
  isLatest := false
  size := 0
  lastModified := now
  etag := emptyMD5
  contentType := ascii "application/x-directory"
  storageClass := []
  contentDisposition := []
  contentEncoding := []
  cacheControl := []
  contentLanguage := []
  metadata := empty.set (ascii "x-maxiofs-implicit-folder") (ascii "true")
  tags := empty
  retention := none
  legalHold := false
  acl := none
  checksumAlgorithm := []
  checksumValue := []
  restoreStatus := []
  restoreExpiresAt := none
  sseAlgorithm := []
  createdAt := some now
  updatedAt := some now

def ensureImplicitFolders (call : Call) (bucket key : Bytes) : Action State Error Unit :=
  each (implicitFolders key) fun folder => do
    let existing ← gets (fun s => stored s bucket folder)
    match existing with
    | some _ => pure ()
    | none => ignore (database (fun db => db.putObject call.now (folderObject call.now bucket folder)))

def updateBucketMetricsAfterPut (bucket : Bytes) (size : Int) (versioningEnabled : Bool)
    (existing : Option ObjectMetadata) : Action State Error Unit :=
  if versioningEnabled then
    if visible existing then bucketMetrics bucket 0 size else bucketMetrics bucket 1 size
  else match existing with
    | none => bucketMetrics bucket 1 size
    | some obj => if size - obj.size = 0 then pure () else bucketMetrics bucket 0 (size - obj.size)

def updateTenantQuotaAfterPut (bucket : Bytes) (size : Int) (versioningEnabled : Bool)
    (existing : Option ObjectMetadata) : Action State Error Unit :=
  let added := if versioningEnabled then size else match existing with
    | none => size
    | some obj => size - obj.size
  tenantStorage bucket (fun tenants id => incrementTenantStorage tenants id added)

def latestVersion (obj : Object) : ObjectVersion := { versionOf (toMetadataObject obj) with isLatest := true }

def saveRecord (call : Call) (versioningEnabled : Bool) (object : Object) : Action State Error Unit :=
  database fun db =>
    if versioningEnabled then db.putObjectVersion (toMetadataObject object) (latestVersion object)
    else db.putObject call.now (toMetadataObject object)

def finishPut (call : Call) (pending : Pending) (existing : Option ObjectMetadata) : Action State Error Unit := do
  ensureImplicitFolders call pending.object.bucket pending.object.key
  updateBucketMetricsAfterPut pending.object.bucket pending.object.size pending.versioningEnabled existing
  updateTenantQuotaAfterPut pending.object.bucket pending.object.size pending.versioningEnabled existing

def recordObject (call : Call) (pending : Pending) : Action State Error Object := do
  let existing ← gets (fun s => stored s pending.object.bucket pending.object.key)
  saveRecord call pending.versioningEnabled pending.object
  finishPut call pending existing
  pure pending.object

def putObject (node : Node) (call : Call) (bucket key data : Bytes) (headers : Headers) : Action State Error Object := do
  let pending ← storeObject node call bucket key data headers
  recordObject call pending

/-! DeleteObject. -/

def resolveFolderDeleteKey (s : State) (bucket key : Bytes) : Bytes :=
  if isFolderMarker key then key
  else if (stored s bucket key).isSome then key
  else if (stored s bucket (key ++ [slash])).isSome then key ++ [slash]
  else key

def deleteMarkerObject (now : Int) (bucket key versionID : Bytes) : ObjectMetadata :=
  { folderObject now bucket key with
    versionID := versionID
    etag := []
    contentType := []
    storageClass := ascii "STANDARD"
    metadata := empty }

def hideMetrics (bucket : Bytes) (existing : Option ObjectMetadata) : Action State Error Unit :=
  if visible existing then bucketMetrics bucket (-1) 0 else pure ()

def createDeleteMarker (call : Call) (bucket key : Bytes) : Action State Error Bytes := do
  let existing ← gets (fun s => stored s bucket key)
  let versionID ← observe (fun _ => chooseVersion call true)
  let marker := deleteMarkerObject call.now bucket key versionID
  database (fun db => db.putObjectVersion marker { versionOf marker with isLatest := true })
  hideMetrics bucket existing
  pure versionID

def lockError (now : Int) (bypassGovernance : Bool) (obj : ObjectMetadata) : Option Error :=
  if obj.legalHold then some .underLegalHold
  else match obj.retention with
    | none => none
    | some retention =>
      if now < retention.retainUntilDate then
        if retention.mode = compliance then some (.complianceRetention retention.retainUntilDate)
        else if retention.mode = governance ∧ bypassGovernance = false then
          some (.governanceRetention retention.retainUntilDate)
        else none
      else none

def checkLock (now : Int) (bypassGovernance : Bool) (obj : ObjectMetadata) : Action State Error Unit :=
  match lockError now bypassGovernance obj with
  | some e => fail e
  | none => pure ()

def getObjectRecord (bucket key versionID : Bytes) : Action State Error ObjectMetadata :=
  observe fun s => match s.db.getObject bucket key versionID with
    | .ok obj => .ok obj
    | .error .objectNotFound => .error .objectNotFound
    | .error e => .error (.metadata e)

def newer (deleted : Bytes) (best : Option ObjectVersion) (ver : ObjectVersion) : Option ObjectVersion :=
  if ver.versionID = deleted then best
  else match best with
    | none => some ver
    | some b => if b.lastModified < ver.lastModified then some ver else best

def nextLatest (deleted : Bytes) (versions : List ObjectVersion) : Option ObjectVersion := versions.foldl (newer deleted) none

def promoteNext (node : Node) (bucket key versionID : Bytes) : Action State Error Unit := do
  let versions ← gets (fun s => s.db.getObjectVersions node.sorting bucket key)
  if versions = [] then ignore (database (fun db => db.deleteObject bucket key))
  else match nextLatest versionID versions with
    | none => pure ()
    | some next => ignore (do
        let obj ← getObjectRecord bucket key next.versionID
        database (fun db => db.putObjectVersion obj { next with isLatest := true }))

def metricsAfterVersionDelete (bucket : Bytes) (deleted : ObjectMetadata) (freed : Int)
    (next : Option ObjectVersion) : Action State Error Unit :=
  match next with
  | none => if isMetadataDeleteMarker deleted then pure () else bucketMetrics bucket (-1) (-freed)
  | some ver =>
    if isMetadataDeleteMarker deleted then
      if isVersionDeleteMarker ver then pure () else bucketMetrics bucket 1 0
    else if isVersionDeleteMarker ver then bucketMetrics bucket (-1) (-freed)
    else pure ()

def removed (result : Except Error Unit) : Bool :=
  match result with
  | .ok _ => true
  | .error e => decide (e = .storage .objectNotFound)

def deleteVersionFile (bucket key versionID : Bytes) (size : Int) : Action State Error Unit :=
  if 0 < size then storage (delete (getVersionedObjectPath bucket key versionID)) else pure ()

def deleteSpecificVersion (node : Node) (call : Call) (bucket key versionID : Bytes) (bypassGovernance : Bool) :
    Action State Error Unit := do
  let versions ← gets (fun s => s.db.getObjectVersions node.sorting bucket key)
  match versions.find? (fun ver => decide (ver.versionID = versionID)) with
  | none => fail .objectNotFound
  | some target => do
    let obj ← getObjectRecord bucket key versionID
    checkLock call.now bypassGovernance obj
    database (fun db => db.deleteObjectVersion bucket key versionID)
    let deletion ← attempt (deleteVersionFile bucket key versionID obj.size)
    if target.isLatest then do
      promoteNext node bucket key versionID
      metricsAfterVersionDelete bucket obj (if removed deletion then obj.size else 0) (nextLatest versionID versions)
    else pure ()

def isSystemName (name : Bytes) : Bool := decide (name = folderMarker) || hasSuffix (ascii ".metadata") name

def children (t : Files) (dir : Path) : List Bytes := (t.nodes.entries.filter (fun e => e.1.dropLast = dir)).filterMap (fun e => e.1.getLast?)

def removeEmptyDirectories (t : Files) : List Path → Files
  | [] => t
  | dir :: above =>
    if t.isDir dir = true ∧ (children t dir).all isSystemName = true then
      removeEmptyDirectories (t.removeAll dir) above
    else t

def cleanupEmptyDirectories (bucket key : Bytes) : Action State Error Unit :=
  let dirs := (Tree.ancestors (getFullPath (getObjectPath bucket key)).dropLast).reverse
  update fun s => { s with files := removeEmptyDirectories s.files dirs }

def deleteRecord (bucket key : Bytes) : Action State Error Unit :=
  database fun db => match db.deleteObject bucket key with
    | .error .objectNotFound => .ok db
    | result => result

-- Failures to remove the file leave an orphan behind; nobody looks at them.
def deleteFile (bucket key : Bytes) : Action State Error Unit := do
  ignore (storage (delete (getObjectPath bucket key)))
  cleanupEmptyDirectories bucket key

def deletePermanently (call : Call) (bucket key : Bytes) (bypassGovernance : Bool) : Action State Error Unit := do
  let found ← gets (fun s => s.db.getObject bucket key [])
  match found with
  | .error .objectNotFound => deleteFile bucket key
  | .error e => fail (.metadata e)
  | .ok obj => do
    checkLock call.now bypassGovernance obj
    deleteRecord bucket key
    deleteFile bucket key
    bucketMetrics bucket (-1) (-obj.size)
    tenantStorage bucket (fun tenants id => decrementTenantStorage tenants id obj.size)

def deleteObject (node : Node) (call : Call) (bucket key : Bytes) (bypassGovernance : Bool) (versionID : Bytes) :
    Action State Error Bytes := do
  check (validateObjectName key) .invalidObjectName
  let key ← gets (fun s => resolveFolderDeleteKey s bucket key)
  let versioningEnabled ← gets (fun s => isBucketVersioningEnabled s bucket)
  if versionID ≠ [] then do
    deleteSpecificVersion node call bucket key versionID bypassGovernance
    pure []
  else if versioningEnabled then createDeleteMarker call bucket key
  else do
    deletePermanently call bucket key bypassGovernance
    pure []

end MaxIOFS.ObjectManager
