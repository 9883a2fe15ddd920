import MaxIOFS.ObjectMetadata

/-! Multipart uploads: parts are stored in the clear under the upload's own directory, and
completion joins them, encrypts the result in place and records it. Completions of one
upload never overlap. -/
namespace MaxIOFS.ObjectManager
open ByteString OrderedStore Effects StagedCommit MetadataStore Records Filesystem

def getMultipartPartPath (uploadID : Bytes) (partNumber : Int) : Bytes :=
  ascii ".maxiofs/multipart/parts/" ++ uploadID ++ [slash] ++ fiveDigits partNumber

def aclHeader : Bytes := ascii "x-amz-acl"

def uploadMetadata (headers : Headers) : Metadata :=
  let m := (extractStorageMetadata headers).setAll (extractUserMetadata headers).entries
  copyHeader headers m aclHeader aclHeader

def createMultipartUpload (call : Call) (uploadID bucket key : Bytes) (headers : Headers) :
    Action State Error MultipartUpload := do
  check (validateObjectName key) .invalidObjectName
  let upload : MultipartUpload :=
    { uploadID := uploadID, bucket := bucket, key := key, initiated := call.now
      storageClass := storageClassOrDefault (header headers (ascii "x-amz-storage-class"))
      metadata := uploadMetadata headers }
  database (fun db => db.createMultipartUpload upload)
  pure upload

def getUpload (uploadID : Bytes) (missing : Error) : Action State Error MultipartUpload :=
  observe fun s => match s.db.getMultipartUpload uploadID with
    | .ok upload => .ok upload
    | .error _ => .error missing

def partSidecar (uploadID : Bytes) (partNumber : Int) : Metadata :=
  ((empty.set (ascii "upload-id") uploadID).set (ascii "part-number") (formatInt partNumber)).set contentTypeKey (ascii "application/octet-stream")

def uploadPart (node : Node) (call : Call) (uploadID : Bytes) (partNumber : Int) (data : Bytes) :
    Action State Error PartMetadata := do
  check (decide (1 ≤ partNumber ∧ partNumber ≤ 10000)) .invalidPartNumber
  let _ ← getUpload uploadID .uploadNotFound
  let path := getMultipartPartPath uploadID partNumber
  storage (put node.host call.seconds path data (partSidecar uploadID partNumber))
  let m ← storage (getMetadata node.host path)
  let part : PartMetadata :=
    { uploadID := uploadID, partNumber := partNumber, size := (parseInt (entry m sizeKey)).1
      etag := entry m etagKey, lastModified := fromSeconds (parseInt (entry m lastModifiedKey)).1 }
  let recorded ← attempt (database (fun db => db.putPart part))
  match recorded with
  | .ok _ => pure part
  | .error e => do
    ignore (storage (delete path))
    fail (if e = .metadata .uploadNotFound then .uploadNotFound else e)

structure Part where
  partNumber : Int
  etag : Bytes
  deriving DecidableEq

def trimQuotes (s : Bytes) : Bytes := ((s.dropWhile (· = 34)).reverse.dropWhile (· = 34)).reverse

def partAccepted (s : State) (uploadID : Bytes) (part : Part) : Except Error Int :=
  match s.db.getPart uploadID part.partNumber with
  | .error _ => .error .invalidPart
  | .ok found =>
    if part.etag ≠ [] ∧ trimQuotes part.etag ≠ trimQuotes found.etag then .error .invalidPart
    else match Filesystem.exists_ s.files (getMultipartPartPath uploadID part.partNumber) with
      | .error e => .error (.storage e)
      | .ok false => .error .invalidPart
      | .ok true => .ok found.size

def partsSize (s : State) (uploadID : Bytes) (previous total : Int) : List Part → Except Error Int
  | [] => .ok total
  | part :: rest =>
    if part.partNumber ≤ previous then .error .invalidPartOrder
    else do
      let size ← partAccepted s uploadID part
      partsSize s uploadID part.partNumber (total + size) rest

def validateAndCalculatePartsSize (s : State) (uploadID : Bytes) (parts : List Part) : Except Error Int :=
  if parts = [] then .error .noParts else partsSize s uploadID 0 0 parts

def partETags (s : State) (uploadID : Bytes) (parts : List Part) : Option (List Bytes) :=
  parts.mapM (fun part => match s.db.getPart uploadID part.partNumber with
    | .error _ => none
    | .ok found => if (trimQuotes found.etag).length = 32 then some (trimQuotes found.etag) else none)

def computeMultipartETag (node : Node) (s : State) (uploadID : Bytes) (parts : List Part) : Except Error Bytes :=
  match (partETags s uploadID parts).bind node.multipartDigest with
  | none => .error .multipartETag
  | some hex => .ok (hex ++ ascii "-" ++ formatNat parts.length)

def readPart (node : Node) (path : Bytes) : Action State Error Bytes := do
  let (data, _) ← storage (get node.host path)
  match data with
  | some bytes => pure bytes
  | none => fail (.storage .writeData)

def readParts (node : Node) (uploadID : Bytes) : List Part → Action State Error Bytes
  | [] => pure []
  | part :: rest => do
    let first ← readPart node (getMultipartPartPath uploadID part.partNumber)
    let later ← readParts node uploadID rest
    pure (first ++ later)

def partContentType (node : Node) (uploadID : Bytes) (parts : List Part) : Action State Error Bytes :=
  match parts with
  | [] => pure (ascii "application/octet-stream")
  | part :: _ => do
    let m ← attempt (storage (getMetadata node.host (getMultipartPartPath uploadID part.partNumber)))
    match m with
    | .ok m => pure ((m.get contentTypeKey).getD (ascii "application/octet-stream"))
    | .error (_ : Error) => pure (ascii "application/octet-stream")

def combineMultipartParts (node : Node) (call : Call) (uploadID : Bytes) (parts : List Part) (path : Bytes) :
    Action State Error Unit := do
  let contentType ← partContentType node uploadID parts
  let data ← readParts node uploadID parts
  storage (put node.host call.seconds path data (empty.set contentTypeKey contentType))

def uploadContentType (upload : MultipartUpload) : Bytes :=
  if entry upload.metadata contentTypeKey = [] then ascii "application/octet-stream"
  else entry upload.metadata contentTypeKey

-- The upload's own entries come last and overwrite what is there.
def storeEncryptedMultipartObject (node : Node) (call : Call) (path data : Bytes) (upload : MultipartUpload)
    (originalSize : Int) (originalETag : Bytes) : Action State Error Unit :=
  match call.envelope with
  | none => fail .noKEK
  | some envelope =>
    let m := (empty.setAll (encryptionEntries originalSize originalETag)).set contentTypeKey (uploadContentType upload)
    let m := (m.setAll envelope.entries).setAll (upload.metadata.entries.filter (fun e => e.1 ≠ contentTypeKey))
    storage (put node.host call.seconds path (node.encryptStream envelope.dek data) m)

def filterStorageMetadataKeys (m : Metadata) : Metadata :=
  m.restrict (fun k => !decide (k ∈ [contentTypeKey, ascii "storage-class", aclHeader] ++ systemHeaders))

def encryptCombined (node : Node) (call : Call) (path : Bytes) (upload : MultipartUpload) :
    Action State Error (Int × Int) := do
  let m ← storage (getMetadata node.host path)
  let size := (parseInt (entry m sizeKey)).1
  let data ← readPart node path
  storeEncryptedMultipartObject node call path data upload size (entry m etagKey)
  let final ← attempt (storage (getMetadata node.host path))
  match final with
  | .ok final => pure (size, (parseInt (entry final lastModifiedKey)).1)
  | .error (_ : Error) => pure (size, (parseInt (entry m lastModifiedKey)).1)

def multipartObject (upload : MultipartUpload) (versionID etag : Bytes) (size modified : Int) : Object :=
  { sidecarObject upload.bucket upload.key empty with
    versionID := versionID
    size := size
    lastModified := fromSeconds modified
    etag := etag
    contentType := uploadContentType upload
    metadata := filterStorageMetadataKeys upload.metadata
    storageClass := upload.storageClass }

def updateMetricsAndCleanupMultipart (bucket uploadID : Bytes) (size : Int) (existing : Option ObjectMetadata)
    (parts : List Part) (versioningEnabled : Bool) : Action State Error Unit := do
  updateBucketMetricsAfterPut bucket size versioningEnabled existing
  updateTenantQuotaAfterPut bucket size versioningEnabled existing
  ignore (database (fun db => db.abortMultipartUpload uploadID))
  each parts fun part => ignore (storage (delete (getMultipartPartPath uploadID part.partNumber)))

def multipartGrowth (versioningEnabled : Bool) (existing : Option ObjectMetadata) (size : Int) : Int × Bool :=
  let added := if versioningEnabled then size else match existing with
    | none => size
    | some obj => size - obj.size
  (added, !visible existing)

def onError {α} (m : Action State Error α) (cleanup : Action State Error Unit) : Action State Error α := do
  let result ← attempt m
  match result with
  | .ok a => pure a
  | .error e => do
    cleanup
    fail e

def doCompleteMultipartUpload (node : Node) (call : Call) (uploadID : Bytes) (parts : List Part) :
    Action State Error Object := do
  let upload ← getUpload uploadID .invalidUploadID
  let versioningEnabled ← gets (fun s => isBucketVersioningEnabled s upload.bucket)
  let total ← observe (fun s => validateAndCalculatePartsSize s uploadID parts)
  let existing ← gets (fun s => stored s upload.bucket upload.key)
  let added := multipartGrowth versioningEnabled existing total
  withinQuota call upload.bucket added.1 added.2
  let etag ← observe (fun s => computeMultipartETag node s uploadID parts)
  let versionID := if versioningEnabled then generateVersionID call else []
  let path := objectPathOf versioningEnabled upload.bucket upload.key versionID
  combineMultipartParts node call uploadID parts path
  let discardCombined := ignore (storage (delete path))
  let (size, modified) ← onError (encryptCombined node call path upload) discardCombined
  let object := multipartObject upload versionID etag size modified
  onError (saveRecord call versioningEnabled object) discardCombined
  updateMetricsAndCleanupMultipart upload.bucket uploadID size existing parts versioningEnabled
  pure object

end MaxIOFS.ObjectManager
