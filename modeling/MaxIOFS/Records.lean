import MaxIOFS.OrderedStore

/-! The records of the metadata store and of the object manager, with the fields that
the modelled functions read or write. A string is its bytes, a time is nanoseconds
since the epoch, a map is an ordered store, and an unset time is `none`. -/
namespace MaxIOFS.Records
open ByteString OrderedStore

structure Retention where
  mode : Bytes
  retainUntilDate : Int
  deriving DecidableEq

structure Owner where
  (id displayName : Bytes)
  deriving DecidableEq

structure Grantee where
  (type id displayName emailAddress uri : Bytes)
  deriving DecidableEq

structure Grant where
  grantee : Grantee
  permission : Bytes
  deriving DecidableEq

structure ACL where
  owner : Owner
  grants : List Grant
  deriving DecidableEq

structure ObjectMetadata where
  (bucket key versionID : Bytes)
  isLatest : Bool
  (size lastModified : Int)
  (etag contentType storageClass contentDisposition contentEncoding cacheControl contentLanguage : Bytes)
  (metadata tags : Store Bytes Bytes)
  retention : Option Retention
  legalHold : Bool
  acl : Option ACL
  (checksumAlgorithm checksumValue restoreStatus : Bytes)
  restoreExpiresAt : Option Int
  sseAlgorithm : Bytes
  (createdAt updatedAt : Option Int)
  deriving DecidableEq

structure ObjectVersion where
  versionID : Bytes
  isLatest : Bool
  key : Bytes
  size : Int
  etag : Bytes
  lastModified : Int
  storageClass : Bytes
  deriving DecidableEq

-- The manager's object: a legal hold is its status, tags are a list, and there are no store times.
structure Object where
  (bucket key versionID : Bytes)
  isLatest : Bool
  (size lastModified : Int)
  (etag contentType storageClass contentDisposition contentEncoding cacheControl contentLanguage : Bytes)
  metadata : Store Bytes Bytes
  tags : Option (List (Bytes × Bytes))
  retention : Option Retention
  legalHold : Option Bytes
  acl : Option ACL
  (checksumAlgorithm checksumValue restoreStatus : Bytes)
  restoreExpiresAt : Option Int
  sseAlgorithm : Bytes
  deriving DecidableEq

def legalHoldOn : Bytes := ascii "ON"
def legalHoldOff : Bytes := ascii "OFF"
def compliance : Bytes := ascii "COMPLIANCE"
def governance : Bytes := ascii "GOVERNANCE"

def fromMetadataObject (m : ObjectMetadata) : Object where
  bucket := m.bucket
  key := m.key
  versionID := m.versionID
  isLatest := m.isLatest
  size := m.size
  lastModified := m.lastModified
  etag := m.etag
  contentType := m.contentType
  storageClass := m.storageClass
  contentDisposition := m.contentDisposition
  contentEncoding := m.contentEncoding
  cacheControl := m.cacheControl
  contentLanguage := m.contentLanguage
  metadata := m.metadata
  tags := if m.tags.entries = [] then none else some m.tags.entries
  retention := m.retention
  legalHold := some (if m.legalHold then legalHoldOn else legalHoldOff)
  acl := m.acl
  checksumAlgorithm := m.checksumAlgorithm
  checksumValue := m.checksumValue
  restoreStatus := m.restoreStatus
  restoreExpiresAt := m.restoreExpiresAt
  sseAlgorithm := m.sseAlgorithm

def toMetadataObject (o : Object) : ObjectMetadata where
  bucket := o.bucket
  key := o.key
  versionID := o.versionID
  isLatest := o.isLatest
  size := o.size
  lastModified := o.lastModified
  etag := o.etag
  contentType := o.contentType
  storageClass := o.storageClass
  contentDisposition := o.contentDisposition
  contentEncoding := o.contentEncoding
  cacheControl := o.cacheControl
  contentLanguage := o.contentLanguage
  metadata := o.metadata
  tags := empty.setAll (o.tags.getD [])
  retention := o.retention
  legalHold := decide (o.legalHold = some legalHoldOn)
  acl := o.acl
  checksumAlgorithm := o.checksumAlgorithm
  checksumValue := o.checksumValue
  restoreStatus := []
  restoreExpiresAt := none
  sseAlgorithm := o.sseAlgorithm
  createdAt := none
  updatedAt := none

structure BucketQuota where
  (maxSizeBytes maxObjectCount : Int)
  deriving DecidableEq

-- Of the default rule the object manager reads the date, the S3 handlers the days or years.
structure ObjectLock where
  enabled : Bool
  defaultRetention : Option Retention
  days : Option Int := none
  years : Option Int := none
  deriving DecidableEq

structure PublicAccessBlock where
  (blockPublicAcls ignorePublicAcls blockPublicPolicy restrictPublicBuckets : Bool)
  deriving DecidableEq

structure PolicyStatement where
  (sid effect principal action resource condition : Bytes)
  deriving DecidableEq

structure Policy where
  version : Bytes
  statement : List PolicyStatement
  deriving DecidableEq

structure Expiration where
  days : Int
  expiredObjectDeleteMarker : Bool
  deriving DecidableEq

structure Transition where
  days : Int
  storageClass : Bytes
  deriving DecidableEq

structure LifecycleRule where
  (id status : Bytes)
  filter : Option Bytes
  expiration : Option Expiration
  transitions : List Transition
  (noncurrentDays daysAfterInitiation : Option Int)
  deriving DecidableEq

structure CORSRule where
  id : Bytes
  (allowedOrigins allowedMethods allowedHeaders exposeHeaders : List Bytes)
  maxAgeSeconds : Int
  deriving DecidableEq

structure SSEConfig where
  (sseAlgorithm kmsMasterKeyID : Bytes)
  deriving DecidableEq

structure WebsiteRoutingRule where
  (httpErrorCodeReturnedEquals keyPrefixEquals hostName httpRedirectCode protocol replaceKeyPrefixWith replaceKeyWith : Bytes)
  deriving DecidableEq

structure Website where
  (indexDocument errorDocument : Bytes)
  routingRules : List WebsiteRoutingRule
  deriving DecidableEq

structure NotificationTarget where
  (id endpoint : Bytes)
  events : List Bytes
  filter : Option (Bytes × Bytes)
  deriving DecidableEq

structure Notification where
  (topicConfigurations queueConfigurations lambdaConfigurations : List NotificationTarget)
  deriving DecidableEq

structure Logging where
  (targetBucket targetPrefix : Bytes)
  deriving DecidableEq

structure HAReplicaNode where
  (nodeID status : Bytes)
  (progress syncedAt : Int)
  deriving DecidableEq

structure BucketHA where
  primaryNodeID : Bytes
  replicaNodes : List HAReplicaNode
  deriving DecidableEq

structure BucketMetadata where
  (name tenantID : Bytes)
  versioningStatus : Option Bytes
  objectLock : Option ObjectLock
  (objectCount totalSize : Int)
  quota : Option BucketQuota
  publicAccessBlock : Option PublicAccessBlock := none
  ownerID : Bytes := []
  ownerType : Bytes := []
  region : Bytes := []
  isPublic : Bool := false
  policy : Option Policy := none
  lifecycle : Option (List LifecycleRule) := none
  cors : Option (List CORSRule) := none
  encryption : Option (List (Option SSEConfig)) := none
  ownershipControls : Bytes := []
  website : Option Website := none
  notification : Option Notification := none
  logging : Option Logging := none
  tags : Store Bytes Bytes := empty
  metadata : Store Bytes Bytes := empty
  ha : Option BucketHA := none
  deriving DecidableEq

structure MultipartUpload where
  (uploadID bucket key : Bytes)
  initiated : Int
  storageClass : Bytes
  metadata : Store Bytes Bytes
  deriving DecidableEq

structure PartMetadata where
  uploadID : Bytes
  (partNumber size : Int)
  etag : Bytes
  lastModified : Int
  deriving DecidableEq

end MaxIOFS.Records
