import MaxIOFS.ObjectManager

/-! Reading objects, and the calls that rewrite an object's metadata: retention, legal hold,
restore status, tags, access control list and user metadata. Each reads the record, changes
it and puts it back. -/
namespace MaxIOFS.ObjectManager
open ByteString (Bytes ascii formatInt parseInt)
open OrderedStore Effects StagedCommit MetadataStore Records Filesystem

def legacyAlgorithm : Bytes := ascii "AES-256-CTR"

def sidecarObject (bucket key : Bytes) (m : Metadata) : Object where
  bucket := bucket
  key := key
  versionID := []
  isLatest := false
  size := (parseInt (entry m (if isEncrypted m then originalSizeKey else sizeKey))).1
  lastModified := fromSeconds (parseInt (entry m lastModifiedKey)).1
  etag := entry m (if isEncrypted m then originalETagKey else etagKey)
  contentType := entry m contentTypeKey
  storageClass := ascii "STANDARD"
  contentDisposition := entry m (ascii "content-disposition")
  contentEncoding := entry m (ascii "content-encoding")
  cacheControl := entry m (ascii "cache-control")
  contentLanguage := entry m (ascii "content-language")
  metadata := empty
  tags := none
  retention := none
  legalHold := none
  acl := none
  checksumAlgorithm := []
  checksumValue := []
  restoreStatus := []
  restoreExpiresAt := none
  sseAlgorithm := []

def notFound : Error → Error
  | .storage .objectNotFound => .objectNotFound
  | e => e

-- The stream of an encrypted object: what is not decryptable ends in an error while it is read.
def decryptedWith (node : Node) (m : Metadata) (key : Bytes) (data : Option Bytes) : Option Bytes :=
  let algorithm := if entry m sseAlgorithmKey = [] then legacyAlgorithm else entry m sseAlgorithmKey
  data.bind (node.decryptStream algorithm key)

def withAlgorithm (m : Metadata) (obj : Object) : Object :=
  if isEncrypted m = true ∧ obj.sseAlgorithm = [] then { obj with sseAlgorithm := ascii "AES256" } else obj

def openObject (node : Node) (m : Metadata) (data : Option Bytes) (obj : Object) :
    Except Error (Object × Option Bytes) :=
  if isEncrypted m then
    match decryptionKeyFor node m with
    | none => .error .decryptionKey
    | some key => .ok (withAlgorithm m obj, decryptedWith node m key data)
  else .ok (obj, data)

def recordToRead (bucket key versionID : Bytes) : Action State Error (Option ObjectMetadata) :=
  if versionID = [] then gets (fun s => stored s bucket key)
  else do
    let obj ← getObjectRecord bucket key versionID
    pure (some obj)

def getObject (node : Node) (bucket key versionID : Bytes) : Action State Error (Object × Option Bytes) := do
  check (validateObjectName key) .invalidObjectName
  let record ← recordToRead bucket key versionID
  let requested := if versionID = [] then (record.map ObjectMetadata.versionID).getD [] else versionID
  let path := if requested = [] then getObjectPath bucket key else getVersionedObjectPath bucket key requested
  let (data, m) ← mapError notFound (storage (get node.host path))
  match record with
  | some obj =>
    if isMetadataDeleteMarker obj = true ∧ requested = [] then fail .objectNotFound
    else observe (fun _ => openObject node m data (fromMetadataObject obj))
  | none => observe (fun _ => openObject node m data (sidecarObject bucket key m))

/-! Metadata. -/

def plainObject (bucket key : Bytes) (m : Metadata) : Object :=
  { sidecarObject bucket key empty with
    size := (parseInt (entry m sizeKey)).1
    lastModified := fromSeconds (parseInt (entry m lastModifiedKey)).1
    etag := entry m etagKey
    contentType := entry m contentTypeKey
    metadata := m }

def exists_ (path : Bytes) : Action State Error Bool :=
  observe fun s => match Filesystem.exists_ s.files path with
    | .ok found => .ok found
    | .error e => .error (.storage e)

def getObjectMetadata (node : Node) (bucket key : Bytes) : Action State Error Object := do
  check (validateObjectName key) .invalidObjectName
  let record ← gets (fun s => stored s bucket key)
  match record with
  | some obj => do
    let found ← exists_ (if obj.versionID = [] then getObjectPath bucket key else getVersionedObjectPath bucket key obj.versionID)
    check found .objectNotFound
    pure (fromMetadataObject obj)
  | none => do
    let found ← exists_ (getObjectPath bucket key)
    check found .objectNotFound
    let m ← storage (getMetadata node.host (getObjectPath bucket key))
    pure (plainObject bucket key m)

def getObjectMetadataForVersion (node : Node) (bucket key versionID : Bytes) : Action State Error Object :=
  if versionID = [] then getObjectMetadata node bucket key
  else do
    let obj ← getObjectRecord bucket key versionID
    pure (fromMetadataObject obj)

def save (call : Call) (obj : ObjectMetadata) : Action State Error Unit := database (fun db => db.putObject call.now obj)

def shortens (now : Int) (config : Option Retention) (obj : Object) : Option Error :=
  match obj.retention with
  | none => none
  | some old =>
    let shorter := match config with
      | none => true
      | some new => decide (new.retainUntilDate < old.retainUntilDate)
    if now < old.retainUntilDate ∧ shorter = true then
      some (if old.mode = compliance then .cannotShortenCompliance else .cannotShortenGovernance)
    else none

def setObjectRetention (node : Node) (call : Call) (bucket key : Bytes) (config : Option Retention)
    (versionID : Bytes) : Action State Error Unit := do
  let obj ← getObjectMetadataForVersion node bucket key versionID
  match shortens call.now config obj with
  | some e => fail e
  | none => save call (toMetadataObject { obj with retention := config })

def setObjectLegalHold (node : Node) (call : Call) (bucket key : Bytes) (config : Option Bytes)
    (versionID : Bytes) : Action State Error Unit := do
  let obj ← getObjectMetadataForVersion node bucket key versionID
  save call (toMetadataObject { obj with legalHold := config })

def setRestoreStatus (node : Node) (call : Call) (bucket key status : Bytes) (expiresAt : Option Int)
    (versionID : Bytes) : Action State Error Unit := do
  let obj ← getObjectMetadataForVersion node bucket key versionID
  save call { toMetadataObject obj with restoreStatus := status, restoreExpiresAt := expiresAt }

def setObjectTagging (node : Node) (call : Call) (bucket key : Bytes) (tags : Option (List (Bytes × Bytes)))
    (versionID : Bytes) : Action State Error Unit := do
  let obj ← getObjectMetadataForVersion node bucket key versionID
  check (decide ((tags.getD []).length ≤ 10)) .tooManyTags
  save call (toMetadataObject { obj with tags := tags })

def deleteObjectTagging (node : Node) (call : Call) (bucket key versionID : Bytes) : Action State Error Unit := do
  let obj ← getObjectMetadataForVersion node bucket key versionID
  save call (toMetadataObject { obj with tags := some [] })

def objectACLKey (tenantID bucket key : Bytes) : Bytes :=
  if tenantID = [] then ascii "acl:object:" ++ bucket ++ colon ++ key
  else ascii "acl:object:" ++ tenantID ++ colon ++ bucket ++ colon ++ key

def aclKeyOf (bucket key : Bytes) : Bytes :=
  let (tenantID, name) := parseBucketPath bucket
  objectACLKey tenantID name key

def setObjectACL (node : Node) (call : Call) (bucket key : Bytes) (acl : Option ACL) (versionID : Bytes) :
    Action State Error Unit := do
  let obj ← getObjectMetadataForVersion node bucket key versionID
  save call (toMetadataObject { obj with acl := acl })
  if versionID ≠ [] then pure ()
  else match acl with
    | none => fail .invalidACL
    | some acl => database (fun db => .ok { db with objectACLs := db.objectACLs.set (aclKeyOf bucket key) acl })

def mergeable (updates : List (Bytes × Bytes)) : List (Bytes × Bytes) := updates.filter (fun e => !isProtectedStorageMetadataKey e.1)

def updated (updates : Metadata) (obj : Object) : Object :=
  { obj with
    metadata := obj.metadata.setAll updates.entries
    contentType := (updates.get contentTypeKey).getD obj.contentType }

def updateObjectMetadata (node : Node) (call : Call) (bucket key : Bytes) (updates : Metadata) :
    Action State Error Unit := do
  check (validateObjectName key) .invalidObjectName
  let record ← gets (fun s => stored s bucket key)
  let versionID := (record.map ObjectMetadata.versionID).getD []
  let path := if versionID = [] then getObjectPath bucket key else getVersionedObjectPath bucket key versionID
  let found ← exists_ path
  check found .objectNotFound
  let existing ← storage (getMetadata node.host path)
  storage (setMetadata node.host call.seconds path (existing.setAll (mergeable updates.entries)))
  let obj ← getObjectMetadata node bucket key
  save call (toMetadataObject (updated updates obj))

end MaxIOFS.ObjectManager
