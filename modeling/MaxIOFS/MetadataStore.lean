import MaxIOFS.Records

/-! The metadata store. Each kind of record is its own key space under the full key the
store writes; a call is one batch, so it fails with nothing written or succeeds whole.
Decoding never fails here: only this store's own records are in it. -/
namespace MaxIOFS.MetadataStore
open ByteString OrderedStore Records

inductive MetadataError where
  | invalidKey
  | objectNotFound
  | versionNotFound
  | bucketNotFound
  | bucketAlreadyExists
  | bucketNotEmpty
  | uploadIDRequired
  | uploadNotFound
  | partNotFound
  | invalidPartMetadata
  deriving DecidableEq, Repr

structure Database where
  (objects versions : Store Bytes ObjectMetadata)
  tagIndex : Store Bytes Unit
  buckets : Store Bytes BucketMetadata
  uploads : Store Bytes MultipartUpload
  uploadIndex : Store Bytes Unit
  parts : Store Bytes PartMetadata
  (objectACLs bucketACLs : Store Bytes ACL)
  deletedBuckets : List Bytes

def emptyDatabase : Database := ⟨empty, empty, empty, empty, empty,empty, empty, empty, empty, []⟩

/-! Keys. -/

def colon : Bytes := ascii ":"
def bucketKey (tenantID name : Bytes) : Bytes := ascii "bucket:" ++ tenantID ++ colon ++ name
def objectKey (bucket key : Bytes) : Bytes := ascii "obj:" ++ bucket ++ colon ++ key
def versionPrefix (bucket key : Bytes) : Bytes := ascii "version:" ++ bucket ++ colon ++ key ++ colon
def objectVersionKey (bucket key versionID : Bytes) : Bytes := versionPrefix bucket key ++ versionID
def tagIndexKey (bucket tagKey tagValue key : Bytes) : Bytes := ascii "tag_idx:" ++ bucket ++ colon ++ tagKey ++ colon ++ tagValue ++ colon ++ key
def multipartUploadKey (uploadID : Bytes) : Bytes := ascii "multipart:" ++ uploadID
def multipartIndexKey (bucket uploadID : Bytes) : Bytes := ascii "multipart_idx:" ++ bucket ++ colon ++ uploadID
def partListPrefix (uploadID : Bytes) : Bytes := ascii "part:" ++ uploadID ++ colon
def fiveDigits (n : Int) : Bytes :=
  let sign := if n < 0 then ascii "-" else []
  let digits := formatInt n.natAbs
  sign ++ List.replicate (5 - sign.length - digits.length) 48 ++ digits
def partKey (uploadID : Bytes) (partNumber : Int) : Bytes := partListPrefix uploadID ++ fiveDigits partNumber

def bucketPathForMutation (tenantID name : Bytes) : Bytes :=
  if tenantID = [] then name else tenantID ++ [slash] ++ name

/-! Objects. -/

def tagKeys (bucket key : Bytes) (tags : Store Bytes Bytes) : List Bytes := tags.entries.map (fun tag => tagIndexKey bucket tag.1 tag.2 key)

def Database.rejectsWrite (db : Database) (bucket : Bytes) : Bool := decide (bucket ∈ db.deletedBuckets)

-- An unset or non-positive modification time is stamped; a caller's own is kept.
def stamped (now : Int) (obj : ObjectMetadata) : ObjectMetadata :=
  { obj with
    createdAt := some (obj.createdAt.getD now)
    updatedAt := some now
    lastModified := if obj.lastModified < 1000000000 then now else obj.lastModified }

def writeObject (now : Int) (obj : ObjectMetadata) (db : Database) : Database :=
  let obj := stamped now obj
  let stale := match db.objects.get (objectKey obj.bucket obj.key) with
    | some existing => tagKeys obj.bucket obj.key existing.tags
    | none => []
  { db with
    versions := if obj.versionID = [] then db.versions else db.versions.set (objectVersionKey obj.bucket obj.key obj.versionID) obj
    objects := if obj.versionID = [] ∨ obj.isLatest = true then db.objects.set (objectKey obj.bucket obj.key) obj else db.objects
    tagIndex := (db.tagIndex.deleteAll stale).setAll ((tagKeys obj.bucket obj.key obj.tags).map (·, ())) }

def Database.putObject (db : Database) (now : Int) (obj : ObjectMetadata) : Except MetadataError Database :=
  if obj.bucket = [] ∨ obj.key = [] then .error .invalidKey
  else if db.rejectsWrite obj.bucket then .error .bucketNotFound
  else .ok (writeObject now obj db)

theorem putObjectWrites {db db' now obj} (done : db.putObject now obj = .ok db') :
    db' = writeObject now obj db ∧ obj.bucket ≠ [] ∧ obj.key ≠ [] ∧ obj.bucket ∉ db.deletedBuckets := by
  unfold Database.putObject Database.rejectsWrite at done
  split at done <;> try contradiction
  rename_i present
  split at done <;> try contradiction
  rename_i open_
  cases done
  exact ⟨rfl,(not_or.mp present).1,(not_or.mp present).2,by simpa using open_⟩

def Database.record (db : Database) (bucket key versionID : Bytes) : Option ObjectMetadata :=
  if versionID = [] then db.objects.get (objectKey bucket key)
  else db.versions.get (objectVersionKey bucket key versionID)

def filled (bucket key : Bytes) (obj : ObjectMetadata) : ObjectMetadata :=
  { obj with
    bucket := if obj.bucket = [] then bucket else obj.bucket
    key := if obj.key = [] then key else obj.key }

def Database.getObject (db : Database) (bucket key versionID : Bytes) : Except MetadataError ObjectMetadata :=
  if bucket = [] ∨ key = [] then .error .invalidKey
  else match db.record bucket key versionID with
    | none => .error .objectNotFound
    | some obj => .ok (filled bucket key obj)

theorem filledSelf {obj bucket key} (home : obj.bucket ≠ []) (named : obj.key ≠ []) : filled bucket key obj = obj := by
  unfold filled
  rw [if_neg home,if_neg named]

def Database.deleteObject (db : Database) (bucket key : Bytes) : Except MetadataError Database :=
  if bucket = [] ∨ key = [] then .error .invalidKey
  else match db.objects.get (objectKey bucket key) with
    | none => .error .objectNotFound
    | some obj => .ok { db with
        objects := db.objects.delete (objectKey bucket key)
        tagIndex := db.tagIndex.deleteAll (tagKeys bucket key obj.tags) }

theorem deleteObjectErases {db db' : Database} {bucket key} (done : db.deleteObject bucket key = .ok db') :
    ∃ obj, db.objects.get (objectKey bucket key) = some obj ∧ db' = { db with
      objects := db.objects.delete (objectKey bucket key)
      tagIndex := db.tagIndex.deleteAll (tagKeys bucket key obj.tags) } := by
  unfold Database.deleteObject at done
  split at done <;> try contradiction
  split at done <;> try contradiction
  exact ⟨_,by assumption,(Except.ok.inj done).symm⟩

theorem deleteObjectAbsent {db : Database} {bucket key e} (home : bucket ≠ []) (named : key ≠ [])
    (failed : db.deleteObject bucket key = .error e) :
    db.objects.get (objectKey bucket key) = none := by
  unfold Database.deleteObject at failed
  rw [if_neg (by simp [home,named])] at failed
  split at failed
  · assumption
  · contradiction

/-! Versions. -/

def demoted (obj : ObjectMetadata) : ObjectMetadata := { obj with isLatest := false }

def Database.demotions (db : Database) (bucket key : Bytes) : List (Bytes × ObjectMetadata) :=
  ((db.versions.scan (versionPrefix bucket key)).filter (fun e => e.2.key = key ∧ e.2.isLatest = true)).map (fun e => (e.1, demoted e.2))

def versioned (obj : ObjectMetadata) (version : ObjectVersion) : ObjectMetadata :=
  { obj with versionID := version.versionID, isLatest := version.isLatest }

def writeVersion (obj : ObjectMetadata) (version : ObjectVersion) (db : Database) : Database :=
  let old := if version.isLatest then db.versions.setAll (db.demotions obj.bucket obj.key) else db.versions
  { db with
    versions := old.set (objectVersionKey obj.bucket obj.key version.versionID) (versioned obj version)
    objects := if version.isLatest then db.objects.set (objectKey obj.bucket obj.key) (versioned obj version) else db.objects }

def Database.putObjectVersion (db : Database) (obj : ObjectMetadata) (version : ObjectVersion) :
    Except MetadataError Database :=
  if db.rejectsWrite obj.bucket then .error .bucketNotFound else .ok (writeVersion obj version db)

theorem putVersionWrites {db db' obj version} (done : db.putObjectVersion obj version = .ok db') :
    db' = writeVersion obj version db ∧ obj.bucket ∉ db.deletedBuckets := by
  unfold Database.putObjectVersion Database.rejectsWrite at done
  split at done <;> try contradiction
  rename_i open_
  exact ⟨(Except.ok.inj done).symm,by simpa using open_⟩

def versionOf (obj : ObjectMetadata) : ObjectVersion where
  versionID := obj.versionID
  isLatest := obj.isLatest
  key := obj.key
  size := obj.size
  etag := obj.etag
  lastModified := obj.lastModified
  storageClass := obj.storageClass

-- The sort is by modification time, newest first; the order of equal times is the host's.
structure VersionSort where
  sort : List ObjectVersion → List ObjectVersion
  perm : ∀ versions, (sort versions).Perm versions
  newestFirst : ∀ versions, (sort versions).Pairwise (fun a b => b.lastModified ≤ a.lastModified)

def Database.getObjectVersions (db : Database) (sorting : VersionSort) (bucket key : Bytes) : List ObjectVersion :=
  sorting.sort (((db.versions.scan (versionPrefix bucket key)).filter (fun e => e.2.key = key)).map (fun e => versionOf e.2))

def Database.deleteObjectVersion (db : Database) (bucket key versionID : Bytes) : Except MetadataError Database :=
  match db.versions.get (objectVersionKey bucket key versionID) with
  | none => .error .versionNotFound
  | some _ => .ok { db with versions := db.versions.delete (objectVersionKey bucket key versionID) }

theorem deleteVersionErases {db db' : Database} {bucket key versionID} (done : db.deleteObjectVersion bucket key versionID = .ok db') :
    ∃ obj, db.versions.get (objectVersionKey bucket key versionID) = some obj ∧
    db' = { db with versions := db.versions.delete (objectVersionKey bucket key versionID) } := by
  unfold Database.deleteObjectVersion at done
  split at done <;> try contradiction
  exact ⟨_,by assumption,(Except.ok.inj done).symm⟩

/-! Buckets. -/

def Database.getBucket (db : Database) (tenantID name : Bytes) : Except MetadataError BucketMetadata :=
  match db.buckets.get (bucketKey tenantID name) with
  | none => .error .bucketNotFound
  | some bucket => .ok bucket

def Database.createBucket (db : Database) (bucket : BucketMetadata) : Except MetadataError Database :=
  if (db.buckets.get (bucketKey bucket.tenantID bucket.name)).isSome then .error .bucketAlreadyExists
  else if db.buckets.entries.any (fun e => e.2.name = bucket.name) then .error .bucketAlreadyExists
  else .ok { db with
    buckets := db.buckets.set (bucketKey bucket.tenantID bucket.name) bucket
    deletedBuckets := db.deletedBuckets.filter (· ≠ bucketPathForMutation bucket.tenantID bucket.name) }

def Database.updateBucket (db : Database) (bucket : BucketMetadata) : Except MetadataError Database :=
  match db.buckets.get (bucketKey bucket.tenantID bucket.name) with
  | none => .error .bucketNotFound
  | some _ => .ok { db with
      buckets := db.buckets.set (bucketKey bucket.tenantID bucket.name) bucket
      deletedBuckets := db.deletedBuckets.filter (· ≠ bucketPathForMutation bucket.tenantID bucket.name) }

def Database.deleteBucket (db : Database) (tenantID name : Bytes) : Except MetadataError Database :=
  match db.buckets.get (bucketKey tenantID name) with
  | none => .error .bucketNotFound
  | some _ => .ok { db with
      buckets := db.buckets.delete (bucketKey tenantID name)
      deletedBuckets := bucketPathForMutation tenantID name :: db.deletedBuckets }

def Database.deleteBucketIfEmpty (db : Database) (tenantID name : Bytes) : Except MetadataError Database :=
  let path := bucketPathForMutation tenantID name
  match db.buckets.get (bucketKey tenantID name) with
  | none => .error .bucketNotFound
  | some _ =>
    if db.objects.scan (ascii "obj:" ++ path ++ colon) ≠ [] then .error .bucketNotEmpty
    else if db.versions.scan (ascii "version:" ++ path ++ colon) ≠ [] then .error .bucketNotEmpty
    else db.deleteBucket tenantID name

def Database.updateBucketMetrics (db : Database) (tenantID name : Bytes) (countDelta sizeDelta : Int) :
    Except MetadataError Database :=
  match db.buckets.get (bucketKey tenantID name) with
  | none => .error .bucketNotFound
  | some bucket => .ok { db with
      buckets := db.buckets.set (bucketKey tenantID name)
        { bucket with
          objectCount := max 0 (bucket.objectCount + countDelta)
          totalSize := max 0 (bucket.totalSize + sizeDelta) } }

/-! Multipart uploads. -/

def writeUpload (upload : MultipartUpload) (db : Database) : Database :=
  { db with
    uploads := db.uploads.set (multipartUploadKey upload.uploadID) upload
    uploadIndex := db.uploadIndex.set (multipartIndexKey upload.bucket upload.uploadID) () }

def Database.createMultipartUpload (db : Database) (upload : MultipartUpload) : Except MetadataError Database :=
  if upload.uploadID = [] then .error .uploadIDRequired else .ok (writeUpload upload db)

def Database.getMultipartUpload (db : Database) (uploadID : Bytes) : Except MetadataError MultipartUpload :=
  match db.uploads.get (multipartUploadKey uploadID) with
  | none => .error .uploadNotFound
  | some upload => .ok upload

def Database.abortMultipartUpload (db : Database) (uploadID : Bytes) : Except MetadataError Database := do
  let upload ← db.getMultipartUpload uploadID
  .ok { db with
    parts := db.parts.deleteAll ((db.parts.scan (partListPrefix uploadID)).map Prod.fst)
    uploadIndex := db.uploadIndex.delete (multipartIndexKey upload.bucket uploadID)
    uploads := db.uploads.delete (multipartUploadKey uploadID) }

def Database.putPart (db : Database) (part : PartMetadata) : Except MetadataError Database :=
  if part.uploadID = [] ∨ part.partNumber ≤ 0 then .error .invalidPartMetadata
  else do
    let _ ← db.getMultipartUpload part.uploadID
    .ok { db with parts := db.parts.set (partKey part.uploadID part.partNumber) part }

theorem putPartWrites {db db' : Database} {part} (done : db.putPart part = .ok db') : ∃ parts, db' = { db with parts} := by
  unfold Database.putPart at done
  split at done <;> try contradiction
  cases found : db.getMultipartUpload part.uploadID with
  | error e => rw [found] at done; cases done
  | ok upload =>
    rw [found] at done
    cases done
    exact ⟨_,rfl⟩

def Database.getPart (db : Database) (uploadID : Bytes) (partNumber : Int) : Except MetadataError PartMetadata :=
  match db.parts.get (partKey uploadID partNumber) with
  | none => .error .partNotFound
  | some part => .ok part

end MaxIOFS.MetadataStore
