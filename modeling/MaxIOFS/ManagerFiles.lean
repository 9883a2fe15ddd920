import MaxIOFS.FileFrame
import MaxIOFS.RecordChanges

/-! The files a call of the object manager leaves alone. -/
namespace MaxIOFS.ManagerFiles
open ByteString FileTree Effects FileFrame ObjectManager RecordChanges Records MetadataStore Filesystem Keeps OrderedStore

section
variable {α : Type} {I : Files → Prop}

theorem keepsFiles {m : Action Files StorageError α} (h : Keeps I m) : Keeps (fun s => I s.files) (storage m) := by
  intro s holds
  rw [wpStorage]
  exact h s.files holds

theorem keepsWrites (write : Database → Except MetadataError Database) : Keeps (fun s => I s.files) (database write) := by
  intro s holds
  rw [wpDatabase]
  cases write s.db <;> exact holds

theorem keepsMetrics (path : Bytes) (count size : Int) : Keeps (fun s => I s.files) (bucketMetrics path count size) := .ignore (keepsWrites _)

theorem keepsTenant (path : Bytes) (change : Store Bytes Tenant → Bytes → Store Bytes Tenant) :
    Keeps (fun s => I s.files) (tenantStorage path change) :=
  .ite (fun _ => .pure _) (fun _ => .update fun _ holds => holds)

section
variable (path : Bytes) (size : Int) (enabled : Bool) (existing : Option ObjectMetadata)
include path size enabled existing

theorem keepsPutMetrics : Keeps (fun s => I s.files) (updateBucketMetricsAfterPut path size enabled existing) :=
  putMetricsBy (.pure _) (keepsMetrics path) size enabled existing

theorem keepsPutTenant : Keeps (fun s => I s.files) (updateTenantQuotaAfterPut path size enabled existing) := by
  unfold updateTenantQuotaAfterPut
  exact keepsTenant _ _

end

theorem keepsFolders (call : Call) (bucket key : Bytes) : Keeps (fun s => I s.files) (ensureImplicitFolders call bucket key) := by
  refine .each fun folder _ => .bind (.gets _) fun existing => ?_
  cases existing with
  | some _ => exact .pure _
  | none => exact .ignore (keepsWrites _)

theorem keepsRecord (call : Call) (pending : Pending) : Keeps (fun s => I s.files) (recordObject call pending) := by
  refine .bind (.gets _) fun existing => .bind (keepsWrites _) fun _ => .bind ?_ fun _ => .pure _
  exact .bind (keepsFolders _ _ _) fun _ => .bind (keepsPutMetrics _ _ _ _) fun _ =>
    keepsPutTenant _ _ _ _

end

section
variable {node : Node} {call : Call} {bucket key versionID : Bytes} {s : State} {q : Path} {x : Answer}

section
variable {data : Bytes} (start : At q x s.files)
    (stores : ∀ id data m, chooseVersion call (isBucketVersioningEnabled s bucket) = .ok id →
      Keeps (At q x) (put node.host call.seconds (objectPathOf (isBucketVersioningEnabled s bucket) bucket key id) data m))
    (beside : ∀ id, chooseVersion call (isBucketVersioningEnabled s bucket) = .ok id →
      Beside q (getFullPath (objectPathOf (isBucketVersioningEnabled s bucket) bucket key id)))
include start stores beside

theorem storeObjectAt {headers} : wp (storeObject node call bucket key data headers) (fun _ s' => At q x s'.files)
    (fun _ s' => At q x s'.files) s := by
  rw [storeObject,wpBind,wpCheck]
  refine ⟨fun _ => ?_,fun _ => start⟩
  rw [wpBind,wpGets,wpBind,wpObserve]
  split
  · rename_i id chosen
    have store : Keeps (fun s' => At q x s'.files)
        (storeData node call key (objectPathOf (isBucketVersioningEnabled s bucket) bucket key id) data headers) := by
      refine ite (fun _ => keepsFiles (stores _ _ _ chosen)) (fun _ => ?_)
      unfold storeEncryptedObject
      cases call.envelope with
      | none => exact fail _
      | some envelope => exact keepsFiles (stores _ _ _ chosen)
    have guard added : Keeps (fun s' => At q x s'.files) (checkQuota call bucket added) := ite (fun _ => pure _) (fun _ => keepsQuota)
    exact bind (check _ _) (fun _ => bind (gets _) fun added => bind (guard added) fun _ =>
      bind store fun _ => bind (keepsFiles (keepsGetMetadata (beside id chosen))) fun _ =>
      bind (gets _) fun _ => pure _) s start
  · exact start

theorem putObjectAt {headers} : At q x (putObject node call bucket key data headers s).2.files := by
  refine wpState (P := fun s' : State => At q x s'.files) ?_
  rw [putObject,wpBind]
  exact wpMono (storeObjectAt start stores beside) (keepsRecord call) (fun _ _ holds => holds)

end

theorem createDeleteMarkerAt (start : At q x s.files) : At q x (createDeleteMarker call bucket key s).2.files := by
  have whole : Keeps (fun s' => At q x s'.files) (createDeleteMarker call bucket key) :=
    .bind (.gets _) fun existing => .bind (.observe _) fun _ => .bind (keepsWrites _) fun _ =>
      .bind (.ite (fun _ => keepsMetrics _ _ _) fun _ => .pure _) fun _ => .pure _
  exact whole.after start

theorem keepsPromote (bucket key versionID : Bytes) : Keeps (fun s' => At q x s'.files) (promoteNext node bucket key versionID) := by
  refine .bind (.gets _) fun versions => .ite (fun _ => .ignore (keepsWrites _)) fun _ => ?_
  cases nextLatest versionID versions with
  | none => exact .pure _
  | some next => exact .ignore (.bind (.observe _) fun _ => keepsWrites _)

theorem keepsVersionMetrics (path : Bytes) (deleted : ObjectMetadata) (freed : Int) (next : Option ObjectVersion) :
    Keeps (fun s' => At q x s'.files) (metricsAfterVersionDelete path deleted freed next) := by
  cases next with
  | none => exact .ite (fun _ => .pure _) (fun _ => keepsMetrics _ _ _)
  | some ver =>
    exact .ite (fun _ => .ite (fun _ => .pure _) (fun _ => keepsMetrics _ _ _)) (fun _ => .ite (fun _ => keepsMetrics _ _ _) (fun _ => .pure _))

theorem deleteSpecificVersionAt {bypass} (start : At q x s.files)
    (deletes : ∀ obj, s.db.getObject bucket key versionID = .ok obj → lockError call.now bypass obj = none →
      Keeps (At q x) (delete (getVersionedObjectPath bucket key versionID))) :
    At q x (deleteSpecificVersion node call bucket key versionID bypass s).2.files := by
  refine wpState (P := fun s' : State => At q x s'.files) ?_
  rw [deleteSpecificVersion,wpBind,wpGets]
  split
  · exact start
  rw [wpBind]
  refine getObjectRecordSpec (fun obj read => ?_) (fun _ => start)
  rw [wpBind]
  refine checkLockSpec (fun unlocked => ?_) (fun _ => start)
  have file : Keeps (fun s' => At q x s'.files) (deleteVersionFile bucket key versionID obj.size) :=
    ite (fun _ => keepsFiles (deletes obj read unlocked)) (fun _ => pure _)
  exact bind (keepsWrites _) (fun _ => bind file.attempt fun deletion =>
    ite (fun _ => bind (keepsPromote _ _ _) fun _ => keepsVersionMetrics _ _ _ _) fun _ => pure _) s start

theorem keepsExists (path : Bytes) : Keeps (fun s' => At q x s'.files) (exists_ path) := .observe _

section
variable (beside : Beside q (getFullPath (getObjectPath bucket key)))
include beside

theorem keepsObjectMetadata : Keeps (fun s' => At q x s'.files) (getObjectMetadata node bucket key) := by
  refine .bind (.check _ _) fun _ => .bind (.gets _) fun record => ?_
  cases record with
  | some obj => exact .bind (keepsExists _) fun _ => .bind (.check _ _) fun _ => .pure _
  | none =>
    exact .bind (keepsExists _) fun _ => .bind (.check _ _) fun _ =>
      .bind (keepsFiles (keepsGetMetadata beside)) fun _ => .pure _

theorem keepsForVersion : Keeps (fun s' => At q x s'.files) (getObjectMetadataForVersion node bucket key versionID) :=
  .ite (fun _ => keepsObjectMetadata beside) fun _ => .bind (.observe _) fun _ => .pure _

theorem keepsSetter {edit : Object → Action State Error Unit} (edits : ∀ obj, Keeps (fun s' => At q x s'.files) (edit obj)) :
    Keeps (fun s' => At q x s'.files) (do let obj ← getObjectMetadataForVersion node bucket key versionID; edit obj) :=
  .bind (keepsForVersion beside) edits

end

theorem setObjectRetentionAt (config : Option Retention) (beside : Beside q (getFullPath (getObjectPath bucket key)))
    (start : At q x s.files) : At q x (setObjectRetention node call bucket key config versionID s).2.files := by
  refine after (keepsSetter beside fun obj => ?_) start
  cases shortens call.now config obj with
  | some e => exact .fail _
  | none => exact keepsWrites _

theorem setObjectLegalHoldAt (config : Option Bytes) (beside : Beside q (getFullPath (getObjectPath bucket key)))
    (start : At q x s.files) : At q x (setObjectLegalHold node call bucket key config versionID s).2.files :=
  after (keepsSetter beside fun _ => keepsWrites _) start

theorem setRestoreStatusAt (status : Bytes) (expires : Option Int) (beside : Beside q (getFullPath (getObjectPath bucket key)))
    (start : At q x s.files) : At q x (setRestoreStatus node call bucket key status expires versionID s).2.files :=
  after (keepsSetter beside fun _ => keepsWrites _) start

theorem setObjectTaggingAt (tags : Option (List (Bytes × Bytes))) (beside : Beside q (getFullPath (getObjectPath bucket key)))
    (start : At q x s.files) : At q x (setObjectTagging node call bucket key tags versionID s).2.files :=
  after (keepsSetter beside fun _ => .bind (.check _ _) fun _ => keepsWrites _) start

theorem setObjectACLAt (acl : Option ACL) (beside : Beside q (getFullPath (getObjectPath bucket key)))
    (start : At q x s.files) : At q x (setObjectACL node call bucket key acl versionID s).2.files := by
  refine after (keepsSetter beside fun obj => .bind (keepsWrites _) fun _ =>
    .ite (fun _ => .pure _) fun _ => ?_) start
  cases acl with
  | none => exact .fail _
  | some acl => exact keepsWrites _

theorem updateObjectMetadataAt (updates : StagedCommit.Metadata) (beside : ∀ path, Beside q (getFullPath path))
    (room : ∀ path, q <+: (getFullPath path).dropLast → x ≠ none) (start : At q x s.files) :
    At q x (updateObjectMetadata node call bucket key updates s).2.files := by
  have whole : Keeps (fun s' => At q x s'.files) (updateObjectMetadata node call bucket key updates) :=
    .bind (.check _ _) fun _ => .bind (.gets _) fun record => .bind (keepsExists _) fun _ =>
      .bind (.check _ _) fun _ => .bind (keepsFiles (keepsGetMetadata (beside _))) fun existing =>
      .bind (keepsFiles (keepsSetMetadata (beside _) (room _))) fun _ =>
      .bind (keepsObjectMetadata (beside _)) fun _ => keepsWrites _
  exact whole.after start

end

end MaxIOFS.ManagerFiles
