import MaxIOFS.RecordChanges

/-! Buckets: their configuration, as the bucket manager keeps it in the metadata store, their
creation and their removal. Only an ordinary removal asks whether the bucket is empty. -/
namespace MaxIOFS.BucketManager
open Filesystem
open ByteString (Bytes ascii hasSuffix slash)
open OrderedStore (Store)
open Effects MetadataStore Records ObjectManager

def getBucket (tenantID name : Bytes) : Action State Error BucketMetadata :=
  observe fun s => match s.db.getBucket tenantID name with
    | .ok bucket => .ok bucket
    | .error e => .error (.metadata e)

def setVersioning (tenantID name : Bytes) (status : Option Bytes) : Action State Error Unit := do
  let bucket ← getBucket tenantID name
  database (fun db => db.updateBucket { bucket with versioningStatus := status })

def withObjectLock (config : Option ObjectLock) (bucket : BucketMetadata) : BucketMetadata :=
  { bucket with
    objectLock := config
    versioningStatus := if (config.map ObjectLock.enabled).getD false then some (ascii "Enabled") else bucket.versioningStatus }

def setObjectLockConfig (tenantID name : Bytes) (config : Option ObjectLock) : Action State Error Unit := do
  let bucket ← getBucket tenantID name
  database (fun db => db.updateBucket (withObjectLock config bucket))

def alphanumeric (b : UInt8) : Bool := decide (97 ≤ b ∧ b ≤ 122 ∨ 48 ≤ b ∧ b ≤ 57)

-- A name with only these characters is never an address of four numbers, so that check has nothing to refuse.
def validateBucketName (name : Bytes) : Bool :=
  decide (3 ≤ name.length ∧ name.length ≤ 63) && name.all (fun b => alphanumeric b || decide (b = 45)) &&
    (name.head?.map alphanumeric).getD false && (name.getLast?.map alphanumeric).getD false &&
    decide (¬ ascii "--" <:+: name) && !ByteString.hasPrefix (ascii "xn--") name && !hasSuffix (ascii "-s3alias") name

def getTenantBucketPath (tenantID name : Bytes) : Bytes := bucketPathForMutation tenantID name

def markerPath (path : Bytes) : Bytes := path ++ [slash] ++ ascii ".maxiofs-bucket"

def bucketACLKey (tenantID name : Bytes) : Bytes :=
  if tenantID = [] then ascii "acl:bucket:" ++ name else ascii "acl:bucket:" ++ tenantID ++ colon ++ name

def fullControl : Bytes := ascii "FULL_CONTROL"
def canonicalUser : Bytes := ascii "CanonicalUser"

def createDefaultACL (ownerID displayName : Bytes) : ACL where
  owner := ⟨ownerID, displayName⟩
  grants := [⟨⟨canonicalUser, ownerID, displayName, [], []⟩, fullControl⟩]

def freshBucket (tenantID name ownerID ownerType : Bytes) : BucketMetadata where
  name := name
  tenantID := tenantID
  ownerID := ownerID
  ownerType := ownerType
  region := ascii "us-east-1"
  versioningStatus := none
  objectLock := none
  objectCount := 0
  totalSize := 0
  quota := none

def createBucket (node : Node) (call : Call) (created tenantID name ownerID : Bytes) : Action State Error Unit := do
  check (validateBucketName name) .invalidBucketName
  let owner := if ownerID = [] ∧ tenantID ≠ [] then tenantID else ownerID
  let ownerType := if ownerID = [] ∧ tenantID ≠ [] then ascii "tenant" else ascii "user"
  database (fun db => db.createBucket (freshBucket tenantID name owner ownerType))
  database (fun db => .ok { db with
    bucketACLs := db.bucketACLs.set (bucketACLKey tenantID name) (createDefaultACL owner (ascii "Bucket Owner")) })
  onError (storage (put node.host call.seconds (markerPath (getTenantBucketPath tenantID name)) []
      ((OrderedStore.empty.set (ascii "bucket-created") created).set (ascii "tenant-id") tenantID)))
    (do
      ignore (database (fun db => db.deleteBucket tenantID name))
      database (fun db => .ok { db with bucketACLs := db.bucketACLs.delete (bucketACLKey tenantID name) }))

theorem createSets {db db' bucket} (done : Database.createBucket db bucket = .ok db') :
    db.buckets.get (bucketKey bucket.tenantID bucket.name) = none ∧
    (∀ e ∈ db.buckets.entries, e.2.name ≠ bucket.name) ∧ db'.buckets = db.buckets.set (bucketKey bucket.tenantID bucket.name) bucket := by
  unfold Database.createBucket at done
  split at done <;> try contradiction
  split at done <;> try contradiction
  rename_i free unnamed
  cases done
  exact ⟨by simpa using free,by simpa using unnamed,rfl⟩

/-- A creation that fails, if only at its marker, leaves the buckets as they were. -/
theorem createAtomic {node call created tenantID name ownerID s} : wp (createBucket node call created tenantID name ownerID)
    (fun _ s' => (∀ e ∈ s.db.buckets.entries, e.2.name ≠ name) ∧
      ∃ owner type, s'.db.buckets = s.db.buckets.set (bucketKey tenantID name) (freshBucket tenantID name owner type))
    (fun _ s' => ∀ q, s'.db.buckets.get q = s.db.buckets.get q) s := by
  rw [createBucket,wpBind,wpCheck]
  refine ⟨fun _ => ?_,fun _ _ => rfl⟩
  rw [wpBind,wpDatabase]
  split
  · rename_i done
    obtain ⟨free,unnamed,set⟩ := createSets done
    rw [wpBind,wpDatabase]
    dsimp only
    rw [onError,wpBind,wpAttempt]
    refine wpMono (RecordChanges.keepsStorage (P := (·.buckets = _)) _ _ set) (fun _ _ same => ⟨unnamed,_,_,same⟩) fun _ s' same => ?_
    obtain ⟨_,found⟩ : ∃ b, s'.db.buckets.get (bucketKey tenantID name) = some b := ⟨_,same ▸ Store.getSetSame _ _ _⟩
    rw [wpBind,wpBind,wpIgnore,wpDatabase,Database.deleteBucket,found]
    intro q
    change (s'.db.buckets.delete (bucketKey tenantID name)).get q = _
    rw [Store.getDelete,same]
    split <;> rename_i own
    · exact own ▸ free.symm
    · exact Store.getSetOther _ _ own
  · exact fun _ => rfl

end MaxIOFS.BucketManager
