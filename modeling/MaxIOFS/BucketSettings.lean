import MaxIOFS.BucketManager

/-! A bucket's configuration as the bucket manager changes it. The Set calls write one field of the
stored record; UpdateBucket takes a whole bucket and converts it to a record, and the conversion
has no place for the ownership controls and the notifications. Where a configuration has the same
fields on both sides, one type stands for both. -/
namespace MaxIOFS.BucketSettings
open ByteString OrderedStore Records BucketManager

def zeroTime : Int := -62135596800000000000

structure LifecycleExpiration where
  days : Option Int
  expiredObjectDeleteMarker : Option Bool

structure LifecycleTransition where
  days : Option Int
  storageClass : Bytes

structure LifecycleConfigRule where
  (id status filter : Bytes)
  expiration : Option LifecycleExpiration
  transition : Option LifecycleTransition
  (noncurrentDays daysAfterInitiation : Option Int)

structure CORSConfigRule where
  id : Bytes
  (allowedOrigins allowedMethods allowedHeaders exposeHeaders : List Bytes)
  maxAgeSeconds : Option Int

structure EncryptionConfig where
  (type kmsKeyID : Bytes)

structure Bucket where
  (name tenantID ownerID ownerType region : Bytes)
  isPublic : Bool
  versioning : Option Bytes
  objectLock : Option ObjectLock
  policy : Option Policy
  lifecycle : Option (List LifecycleConfigRule)
  cors : Option (List CORSConfigRule)
  encryption : Option EncryptionConfig
  publicAccessBlock : Option PublicAccessBlock
  website : Option Website
  logging : Option Logging
  (tags metadata : Store Bytes Bytes)
  (objectCount totalSize : Int)
  quota : Option BucketQuota
  ha : Option BucketHA

-- A default retention has a mode and a length, no date.
def convertRetention (retention : Retention) : Retention := { retention with retainUntilDate := zeroTime }
def convertObjectLock (lock : ObjectLock) : ObjectLock := { lock with defaultRetention := lock.defaultRetention.map convertRetention }

def toMetadataLifecycleRule (rule : LifecycleConfigRule) : LifecycleRule where
  id := rule.id
  status := rule.status
  filter := some rule.filter
  expiration := rule.expiration.map fun e => ⟨e.days.getD 0, e.expiredObjectDeleteMarker.getD false⟩
  transitions := (rule.transition.map fun t => ⟨t.days.getD 0, t.storageClass⟩).toList
  noncurrentDays := rule.noncurrentDays
  daysAfterInitiation := rule.daysAfterInitiation

def fromMetadataLifecycleRule (rule : LifecycleRule) : LifecycleConfigRule where
  id := rule.id
  status := rule.status
  filter := rule.filter.getD []
  expiration := rule.expiration.map fun e => ⟨some e.days, some e.expiredObjectDeleteMarker⟩
  transition := rule.transitions.head?.map fun t => ⟨some t.days, t.storageClass⟩
  noncurrentDays := rule.noncurrentDays
  daysAfterInitiation := rule.daysAfterInitiation

def toMetadataLifecycle (config : Option (List LifecycleConfigRule)) : Option (List LifecycleRule) := config.map (·.map toMetadataLifecycleRule)
def fromMetadataLifecycle (config : Option (List LifecycleRule)) : Option (List LifecycleConfigRule) :=
  config.map (·.map fromMetadataLifecycleRule)

def toMetadataCORSRule (rule : CORSConfigRule) : CORSRule :=
  ⟨rule.id, rule.allowedOrigins, rule.allowedMethods, rule.allowedHeaders, rule.exposeHeaders, rule.maxAgeSeconds.getD 0⟩
def fromMetadataCORSRule (rule : CORSRule) : CORSConfigRule :=
  ⟨rule.id, rule.allowedOrigins, rule.allowedMethods, rule.allowedHeaders, rule.exposeHeaders, some rule.maxAgeSeconds⟩

def toMetadataCORS (config : Option (List CORSConfigRule)) : Option (List CORSRule) := config.map (·.map toMetadataCORSRule)
def fromMetadataCORS (config : Option (List CORSRule)) : Option (List CORSConfigRule) := config.map (·.map fromMetadataCORSRule)

def toMetadataEncryption (config : Option EncryptionConfig) : Option (List (Option SSEConfig)) := config.map fun e => [some ⟨e.type, e.kmsKeyID⟩]
def fromMetadataEncryption (config : Option (List (Option SSEConfig))) : Option EncryptionConfig := do
  let rules ← config
  let rule ← rules.head?
  let sse ← rule
  some ⟨sse.sseAlgorithm, sse.kmsMasterKeyID⟩

def toMetadataBucket (b : Bucket) : BucketMetadata where
  name := b.name
  tenantID := b.tenantID
  ownerID := b.ownerID
  ownerType := b.ownerType
  region := b.region
  isPublic := b.isPublic
  versioningStatus := b.versioning
  objectLock := b.objectLock.map convertObjectLock
  policy := b.policy
  lifecycle := toMetadataLifecycle b.lifecycle
  cors := toMetadataCORS b.cors
  encryption := toMetadataEncryption b.encryption
  publicAccessBlock := b.publicAccessBlock
  website := b.website
  logging := b.logging
  tags := b.tags
  metadata := b.metadata
  objectCount := b.objectCount
  totalSize := b.totalSize
  quota := b.quota
  ha := b.ha

def fromMetadataBucket (m : BucketMetadata) : Bucket where
  name := m.name
  tenantID := m.tenantID
  ownerID := m.ownerID
  ownerType := m.ownerType
  region := m.region
  isPublic := m.isPublic
  versioning := m.versioningStatus
  objectLock := m.objectLock.map convertObjectLock
  policy := m.policy
  lifecycle := fromMetadataLifecycle m.lifecycle
  cors := fromMetadataCORS m.cors
  encryption := fromMetadataEncryption m.encryption
  publicAccessBlock := m.publicAccessBlock
  website := m.website
  logging := m.logging
  tags := m.tags
  metadata := m.metadata
  objectCount := m.objectCount
  totalSize := m.totalSize
  quota := m.quota
  ha := m.ha

structure Converted (m : BucketMetadata) : Prop where
  objectLock : m.objectLock.map convertObjectLock = m.objectLock
  lifecycle : ∃ config, m.lifecycle = toMetadataLifecycle config
  cors : ∃ config, m.cors = toMetadataCORS config
  encryption : ∃ config, m.encryption = toMetadataEncryption config

theorem convertTwice (lock : ObjectLock) : convertObjectLock (convertObjectLock lock) = convertObjectLock lock := by
  obtain ⟨_,retention,_⟩ := lock
  cases retention <;> rfl

theorem lifecycleRuleBack (rule : LifecycleConfigRule) :
    toMetadataLifecycleRule (fromMetadataLifecycleRule (toMetadataLifecycleRule rule)) = toMetadataLifecycleRule rule := by
  cases rule with
  | mk id status filter expiration transition noncurrentDays daysAfterInitiation => cases expiration <;> cases transition <;> rfl

theorem lifecycleBack (config : Option (List LifecycleConfigRule)) :
    toMetadataLifecycle (fromMetadataLifecycle (toMetadataLifecycle config)) = toMetadataLifecycle config := by
  cases config with
  | none => rfl
  | some rules => simp [toMetadataLifecycle,fromMetadataLifecycle,lifecycleRuleBack]

theorem corsBack (config : Option (List CORSConfigRule)) : toMetadataCORS (fromMetadataCORS (toMetadataCORS config)) = toMetadataCORS config := by
  cases config with
  | none => rfl
  | some rules => simp [toMetadataCORS,fromMetadataCORS,toMetadataCORSRule,fromMetadataCORSRule]

theorem encryptionBack (config : Option EncryptionConfig) :
    toMetadataEncryption (fromMetadataEncryption (toMetadataEncryption config)) = toMetadataEncryption config := by
  cases config <;> rfl

theorem bucketBack {m} (converted : Converted m) : toMetadataBucket (fromMetadataBucket m) =
    { m with ownershipControls := [], notification := none } := by
  obtain ⟨lock,⟨_,ruled⟩,⟨_,shared⟩,⟨_,sealed⟩⟩ := converted
  have twice : (m.objectLock.map convertObjectLock).map convertObjectLock = m.objectLock := by rw [lock,lock]
  simp only [toMetadataBucket,fromMetadataBucket,twice,ruled,shared,sealed,lifecycleBack,corsBack,encryptionBack]

inductive Field where
  | versioning | objectLock | policy | lifecycle | cors | encryption | publicAccessBlock | ownershipControls
  | website | notification | logging | tags | metadata | quota | ha | ownerID | ownerType | region | isPublic
  deriving DecidableEq

def Field.Value : Field → Type
  | versioning => Option Bytes
  | objectLock => Option ObjectLock
  | policy => Option Policy
  | lifecycle => Option (List LifecycleRule)
  | cors => Option (List CORSRule)
  | encryption => Option (List (Option SSEConfig))
  | publicAccessBlock => Option PublicAccessBlock
  | website => Option Website
  | notification => Option Notification
  | logging => Option Logging
  | tags | metadata => Store Bytes Bytes
  | quota => Option BucketQuota
  | ha => Option BucketHA
  | ownershipControls | ownerID | ownerType | region => Bytes
  | isPublic => Bool

def Field.get (m : BucketMetadata) : (f : Field) → f.Value
  | versioning => m.versioningStatus
  | objectLock => m.objectLock
  | policy => m.policy
  | lifecycle => m.lifecycle
  | cors => m.cors
  | encryption => m.encryption
  | publicAccessBlock => m.publicAccessBlock
  | ownershipControls => m.ownershipControls
  | website => m.website
  | notification => m.notification
  | logging => m.logging
  | tags => m.tags
  | metadata => m.metadata
  | quota => m.quota
  | ha => m.ha
  | ownerID => m.ownerID
  | ownerType => m.ownerType
  | region => m.region
  | isPublic => m.isPublic

abbrev Assignment := (f : Field) × f.Value

def assign (m : BucketMetadata) : Assignment → BucketMetadata
  | ⟨.versioning, v⟩ => { m with versioningStatus := v }
  | ⟨.objectLock, v⟩ => { m with objectLock := v }
  | ⟨.policy, v⟩ => { m with policy := v }
  | ⟨.lifecycle, v⟩ => { m with lifecycle := v }
  | ⟨.cors, v⟩ => { m with cors := v }
  | ⟨.encryption, v⟩ => { m with encryption := v }
  | ⟨.publicAccessBlock, v⟩ => { m with publicAccessBlock := v }
  | ⟨.ownershipControls, v⟩ => { m with ownershipControls := v }
  | ⟨.website, v⟩ => { m with website := v }
  | ⟨.notification, v⟩ => { m with notification := v }
  | ⟨.logging, v⟩ => { m with logging := v }
  | ⟨.tags, v⟩ => { m with tags := v }
  | ⟨.metadata, v⟩ => { m with metadata := v }
  | ⟨.quota, v⟩ => { m with quota := v }
  | ⟨.ha, v⟩ => { m with ha := v }
  | ⟨.ownerID, v⟩ => { m with ownerID := v }
  | ⟨.ownerType, v⟩ => { m with ownerType := v }
  | ⟨.region, v⟩ => { m with region := v }
  | ⟨.isPublic, v⟩ => { m with isPublic := v }

def lastSet (f : Field) : List Assignment → f.Value → f.Value
  | [], v => v
  | ⟨g, x⟩ :: rest, v => lastSet f rest (if same : g = f then same ▸ x else v)

theorem getAssign (f : Field) (m : BucketMetadata) (a : Assignment) : f.get (assign m a) = if same : a.1 = f then same ▸ a.2 else f.get m := by
  obtain ⟨g,_⟩ := a
  cases g <;> cases f <;> rfl

theorem getAssigned (f : Field) (assignments : List Assignment) (m : BucketMetadata) :
    f.get (assignments.foldl assign m) = lastSet f assignments (f.get m) := by
  induction assignments generalizing m with
  | nil => rfl
  | cons a rest ih =>
    rw [List.foldl_cons,ih,getAssign]
    rfl

theorem lastSetAppend (f : Field) (before after : List Assignment) (v : f.Value) :
    lastSet f (before ++ after) v = lastSet f after (lastSet f before v) := by
  induction before generalizing v with
  | nil => rfl
  | cons a rest ih =>
    rw [List.cons_append,lastSet,ih]
    rfl

inductive Edit where
  | versioning (config : Option Bytes)
  | objectLock (config : Option ObjectLock)
  | policy (config : Option Policy)
  | lifecycle (config : Option (List LifecycleConfigRule))
  | cors (config : Option (List CORSConfigRule))
  | encryption (config : Option EncryptionConfig)
  | publicAccessBlock (config : Option PublicAccessBlock)
  | website (config : Option Website)
  | logging (config : Option Logging)
  | tags (tags : Store Bytes Bytes)
  | metadata (metadata : Store Bytes Bytes)
  | quota (quota : Option BucketQuota)
  | ha (ha : Option BucketHA)
  | owner (ownerID ownerType : Bytes)
  | region (region : Bytes)
  | isPublic (isPublic : Bool)

def Edit.onBucket (b : Bucket) : Edit → Bucket
  | versioning v => { b with versioning := v }
  | objectLock v => { b with objectLock := v }
  | policy v => { b with policy := v }
  | lifecycle v => { b with lifecycle := v }
  | cors v => { b with cors := v }
  | encryption v => { b with encryption := v }
  | publicAccessBlock v => { b with publicAccessBlock := v }
  | website v => { b with website := v }
  | logging v => { b with logging := v }
  | tags v => { b with tags := v }
  | metadata v => { b with metadata := v }
  | quota v => { b with quota := v }
  | ha v => { b with ha := v }
  | owner id type => { b with ownerID := id, ownerType := type }
  | region v => { b with region := v }
  | isPublic v => { b with isPublic := v }

def Edit.assigned : Edit → List Assignment
  | versioning v => [⟨.versioning, v⟩]
  | objectLock v => [⟨.objectLock, v.map convertObjectLock⟩]
  | policy v => [⟨.policy, v⟩]
  | lifecycle v => [⟨.lifecycle, toMetadataLifecycle v⟩]
  | cors v => [⟨.cors, toMetadataCORS v⟩]
  | encryption v => [⟨.encryption, toMetadataEncryption v⟩]
  | publicAccessBlock v => [⟨.publicAccessBlock, v⟩]
  | website v => [⟨.website, v⟩]
  | logging v => [⟨.logging, v⟩]
  | tags v => [⟨.tags, v⟩]
  | metadata v => [⟨.metadata, v⟩]
  | quota v => [⟨.quota, v⟩]
  | ha v => [⟨.ha, v⟩]
  | owner id type => [⟨.ownerID, id⟩, ⟨.ownerType, type⟩]
  | region v => [⟨.region, v⟩]
  | isPublic v => [⟨.isPublic, v⟩]

inductive Setting where
  | set (edit : Edit)
  | setObjectLockConfig (config : Option ObjectLock)
  | setOwnershipControls (objectOwnership : Bytes)
  | setNotification (config : Option Notification)
  | updateBucket (edits : List Edit)

def setBucketPolicy (policy : Option Policy) : Setting := .set (.policy policy)
def deleteBucketPolicy : Setting := setBucketPolicy none
def setVersioning (config : Option Bytes) : Setting := .set (.versioning config)
def setLifecycle (config : Option (List LifecycleConfigRule)) : Setting := .set (.lifecycle config)
def deleteLifecycle : Setting := setLifecycle none
def setCORS (config : Option (List CORSConfigRule)) : Setting := .set (.cors config)
def deleteCORS : Setting := setCORS none
def setWebsite (config : Option Website) : Setting := .set (.website config)
def deleteWebsite : Setting := setWebsite none
def setQuota (quota : Option BucketQuota) : Setting := .set (.quota quota)
def deleteQuota : Setting := setQuota none
def setPublicAccessBlock (config : Option PublicAccessBlock) : Setting := .set (.publicAccessBlock config)
def deletePublicAccessBlock : Setting := setPublicAccessBlock none
def setLogging (config : Option Logging) : Setting := .set (.logging config)
def deleteLogging : Setting := setLogging none
def setEncryption (config : Option EncryptionConfig) : Setting := .set (.encryption config)
def deleteEncryption : Setting := setEncryption none
def setBucketTags (tags : Store Bytes Bytes) : Setting := .set (.tags tags)
def deleteOwnershipControls : Setting := .setOwnershipControls []
def deleteNotification : Setting := .setNotification (some ⟨[], [], []⟩)

def Setting.change (m : BucketMetadata) : Setting → BucketMetadata
  | set edit => edit.assigned.foldl assign m
  | setObjectLockConfig config => withObjectLock (config.map convertObjectLock) m
  | setOwnershipControls v => { m with ownershipControls := v }
  | setNotification v => { m with notification := v }
  | updateBucket edits => toMetadataBucket (edits.foldl Edit.onBucket (fromMetadataBucket m))

def Setting.assigned : Setting → List Assignment
  | set edit => edit.assigned
  | setObjectLockConfig config =>
    ⟨.objectLock, config.map convertObjectLock⟩ :: if (config.map ObjectLock.enabled).getD false then [⟨.versioning, some (ascii "Enabled")⟩]
    else []
  | setOwnershipControls v => [⟨.ownershipControls, v⟩]
  | setNotification v => [⟨.notification, v⟩]
  | updateBucket edits => edits.flatMap Edit.assigned

-- UpdateBucket keeps the fields it does not know only where they are unset.
def Setting.Complete (m : BucketMetadata) : Setting → Prop
  | updateBucket _ => m.ownershipControls = [] ∧ m.notification = none
  | _ => True

theorem editConverted (b : Bucket) (edit : Edit) : toMetadataBucket (edit.onBucket b) = edit.assigned.foldl assign (toMetadataBucket b) := by
  cases edit <;> rfl

theorem editsConverted (edits : List Edit) (b : Bucket) :
    toMetadataBucket (edits.foldl Edit.onBucket b) = (edits.flatMap Edit.assigned).foldl assign (toMetadataBucket b) := by
  induction edits generalizing b with
  | nil => rfl
  | cons edit rest ih => rw [List.foldl_cons,ih,editConverted,List.flatMap_cons,List.foldl_append]

theorem lockAssigned (config : Option ObjectLock) (m : BucketMetadata) :
    withObjectLock (config.map convertObjectLock) m = (Setting.setObjectLockConfig config).assigned.foldl assign m := by
  cases config with
  | none => rfl
  | some lock =>
    obtain ⟨enabled,_⟩ := lock
    cases enabled <;> rfl

theorem changeAssigns (setting : Setting) {m} (converted : Converted m) (complete : setting.Complete m) :
    setting.change m = setting.assigned.foldl assign m := by
  cases setting with
  | set edit => rfl
  | setObjectLockConfig config => exact lockAssigned config m
  | setOwnershipControls v => rfl
  | setNotification v => rfl
  | updateBucket edits =>
    obtain ⟨controls,notification⟩ := complete
    have same : toMetadataBucket (fromMetadataBucket m) = m := by rw [bucketBack converted,← controls,← notification]
    rw [Setting.change,editsConverted,same]
    rfl

theorem lockConverted (config : Option ObjectLock) : (config.map convertObjectLock).map convertObjectLock = config.map convertObjectLock := by
  rw [Option.map_map]
  exact congrArg (config.map ·) (funext convertTwice)

theorem toMetadataConverted (b : Bucket) : Converted (toMetadataBucket b) where
  objectLock := lockConverted b.objectLock
  lifecycle := ⟨_,rfl⟩
  cors := ⟨_,rfl⟩
  encryption := ⟨_,rfl⟩

theorem changeConverted (setting : Setting) {m} (converted : Converted m) : Converted (setting.change m) := by
  obtain ⟨lock,lifecycle,cors,encryption⟩ := converted
  cases setting with
  | set edit =>
    cases edit with
    | objectLock config => exact ⟨lockConverted config,lifecycle,cors,encryption⟩
    | lifecycle config => exact ⟨lock,⟨config,rfl⟩,cors,encryption⟩
    | cors config => exact ⟨lock,lifecycle,⟨config,rfl⟩,encryption⟩
    | encryption config => exact ⟨lock,lifecycle,cors,⟨config,rfl⟩⟩
    | _ => exact ⟨lock,lifecycle,cors,encryption⟩
  | setObjectLockConfig config => exact ⟨lockConverted config,lifecycle,cors,encryption⟩
  | setOwnershipControls v => exact ⟨lock,lifecycle,cors,encryption⟩
  | setNotification v => exact ⟨lock,lifecycle,cors,encryption⟩
  | updateBucket edits => exact toMetadataConverted _

def identity (m : BucketMetadata) : Bytes × Bytes × Int × Int := (m.tenantID, m.name, m.objectCount, m.totalSize)

theorem assignIdentity (assignments : List Assignment) (m : BucketMetadata) : identity (assignments.foldl assign m) = identity m := by
  induction assignments generalizing m with
  | nil => rfl
  | cons a rest ih =>
    obtain ⟨f,_⟩ := a
    rw [List.foldl_cons,ih]
    cases f <;> rfl

theorem changeIdentity (setting : Setting) (m : BucketMetadata) : identity (setting.change m) = identity m := by
  cases setting with
  | set edit => exact assignIdentity edit.assigned m
  | setObjectLockConfig config => rfl
  | setOwnershipControls v => rfl
  | setNotification v => rfl
  | updateBucket edits =>
    rw [Setting.change,editsConverted,assignIdentity]
    rfl

end MaxIOFS.BucketSettings
