import MaxIOFS.Multipart

/-! What the calls of the object manager do to the records of objects and versions. Every
call is a short list of changes of six kinds; counters, uploads and files change beside
them. The invariants over whole runs are proved from the kinds, not from the calls. -/
namespace MaxIOFS.RecordChanges
open OrderedStore ByteString Effects MetadataStore Records ObjectManager ObjectMetadata BucketMetadata

inductive Change where
  | insert (obj : ObjectMetadata)
  | plain (obj : ObjectMetadata)
  | adopt (obj : ObjectMetadata)
  | edit (key versionID : Bytes) (old new : ObjectMetadata)
  | drop (key versionID : Bytes) (bypassGovernance : Bool)
  | erase (key : Bytes) (bypassGovernance : Bool)

structure SameIdentity (old new : ObjectMetadata) : Prop where
  bucket : new.bucket = old.bucket
  key : new.key = old.key
  versionID : new.versionID = old.versionID
  isLatest : new.isLatest = old.isLatest

def promotion (sorting : VersionSort) (bucket key versionID : Bytes) (db : Database) : Database :=
  if db.getObjectVersions sorting bucket key = [] then
    match db.deleteObject bucket key with
    | .ok db' => db'
    | .error _ => db
  else match nextLatest versionID (db.getObjectVersions sorting bucket key) with
    | none => db
    | some next => match db.getObject bucket key next.versionID with
      | .error _ => db
      | .ok obj => match db.putObjectVersion obj { next with isLatest := true } with
        | .ok db' => db'
        | .error _ => db

inductive Effect (sorting : VersionSort) (bucket : Bytes) (now : Int) (db : Database) : Change → Database → Prop
  | insert {obj db'} (done : db.putObjectVersion obj { versionOf obj with isLatest := true } = .ok db') :
      Effect sorting bucket now db (.insert obj) db'
  | plain {obj db'} (done : db.putObject now obj = .ok db') : Effect sorting bucket now db (.plain obj) db'
  | adopt {obj db'} (free : ∀ old, db.getObject bucket obj.key [] ≠ .ok old) (done : db.putObject now obj = .ok db') :
      Effect sorting bucket now db (.adopt obj) db'
  | edit {key versionID old new db'} (read : db.getObject bucket key versionID = .ok old)
      (same : SameIdentity old new) (done : db.putObject now new = .ok db') :
      Effect sorting bucket now db (.edit key versionID old new) db'
  | drop {key versionID bypass target old db'}
      (listed : (db.getObjectVersions sorting bucket key).find? (fun ver => decide (ver.versionID = versionID)) = some target)
      (read : db.getObject bucket key versionID = .ok old) (unlocked : lockError now bypass old = none)
      (done : db.deleteObjectVersion bucket key versionID = .ok db') :
      Effect sorting bucket now db (.drop key versionID bypass) (if target.isLatest then promotion sorting bucket key versionID db' else db')
  | erase {key bypass old db'} (read : db.getObject bucket key [] = .ok old) (unlocked : lockError now bypass old = none)
      (done : db.deleteObject bucket key = .ok db') : Effect sorting bucket now db (.erase key bypass) db'

section
variable {db db' : Database} {now : Int}

theorem putObjectBuckets {obj} (done : db.putObject now obj = .ok db') : db'.buckets = db.buckets := by
  obtain ⟨rfl,_⟩ := putObjectWrites done
  rfl

theorem putObjectVersionBuckets {obj version} (done : db.putObjectVersion obj version = .ok db') : db'.buckets = db.buckets := by
  obtain ⟨rfl,_⟩ := putVersionWrites done
  rfl

theorem deleteObjectBuckets {bucket key} (done : db.deleteObject bucket key = .ok db') : db'.buckets = db.buckets := by
  obtain ⟨_,_,rfl⟩ := deleteObjectErases done
  rfl

theorem deleteObjectVersionBuckets {bucket key v} (done : db.deleteObjectVersion bucket key v = .ok db') : db'.buckets = db.buckets := by
  obtain ⟨_,_,rfl⟩ := deleteVersionErases done
  rfl

theorem promotionBuckets (sorting : VersionSort) (bucket key v : Bytes) (db : Database) :
    (promotion sorting bucket key v db).buckets = db.buckets := by
  unfold promotion
  split
  · split
    · rename_i done
      exact deleteObjectBuckets done
    · rfl
  · split
    · rfl
    split
    · rfl
    split
    · rename_i done
      exact putObjectVersionBuckets done
    · rfl

theorem effectBuckets {sorting bucket change} (effect : Effect sorting bucket now db change db') : db'.buckets = db.buckets := by
  cases effect with
  | insert done => exact putObjectVersionBuckets done
  | plain done => exact putObjectBuckets done
  | adopt _ done => exact putObjectBuckets done
  | edit _ _ done => exact putObjectBuckets done
  | drop _ _ _ done =>
    split
    · rw [promotionBuckets]
      exact deleteObjectVersionBuckets done
    · exact deleteObjectVersionBuckets done
  | erase _ _ done => exact deleteObjectBuckets done

end

structure Quiet (db db' : Database) : Prop where
  objects : db'.objects = db.objects
  versions : db'.versions = db.versions
  deleted : db'.deletedBuckets = db.deletedBuckets
  status : ∀ key, (db'.buckets.get key).map versioningStatus = (db.buckets.get key).map versioningStatus
  tagIndex : db'.tagIndex = db.tagIndex

theorem versioningSame {s s'} (bucket : Bytes) (same : ∀ key,
    (s'.db.buckets.get key).map versioningStatus = (s.db.buckets.get key).map versioningStatus) :
    isBucketVersioningEnabled s' bucket = isBucketVersioningEnabled s bucket := by
  have here := same (bucketKey (parseBucketPath bucket).1 (parseBucketPath bucket).2)
  unfold isBucketVersioningEnabled bucketOf Database.getBucket
  cases found : s.db.buckets.get (bucketKey (parseBucketPath bucket).1 (parseBucketPath bucket).2) <;>
    cases found' : s'.db.buckets.get (bucketKey (parseBucketPath bucket).1 (parseBucketPath bucket).2) <;>
    simp_all

theorem Quiet.refl (db : Database) : Quiet db db := ⟨rfl,rfl,rfl,fun _ => rfl,rfl⟩

theorem Quiet.trans {db mid db'} (first : Quiet db mid) (second : Quiet mid db') : Quiet db db' :=
  ⟨second.objects.trans first.objects,second.versions.trans first.versions,second.deleted.trans first.deleted,
    fun key => (second.status key).trans (first.status key),second.tagIndex.trans first.tagIndex⟩

inductive Trace (sorting : VersionSort) (bucket : Bytes) (now : Int) : Database → List Change → Database → Prop
  | done {db} : Trace sorting bucket now db [] db
  | quiet {db mid db' changes} (same : Quiet db mid) (rest : Trace sorting bucket now mid changes db') :
      Trace sorting bucket now db changes db'
  | step {db mid db' change changes} (first : Effect sorting bucket now db change mid)
      (rest : Trace sorting bucket now mid changes db') : Trace sorting bucket now db (change :: changes) db'

section
variable {sorting} {bucket} {now} {allowed}

theorem Trace.append {db mid db' first rest} (before : Trace sorting bucket now db first mid)
    (after : Trace sorting bucket now mid rest db') : Trace sorting bucket now db (first ++ rest) db' := by
  induction before with
  | done => exact after
  | quiet same _ ih => exact .quiet same (ih after)
  | step first _ ih => exact .step first (ih after)

def Follows (sorting : VersionSort) (bucket : Bytes) (now : Int) (allowed : Change → Prop) (start db : Database) : Prop :=
  ∃ changes, Trace sorting bucket now start changes db ∧ ∀ change ∈ changes, allowed change

theorem Follows.refl (db : Database) : Follows sorting bucket now allowed db db := ⟨[],.done,by simp⟩

theorem Follows.step {start db db' change} (before : Follows sorting bucket now allowed start db)
    (effect : Effect sorting bucket now db change db') (ok : allowed change) : Follows sorting bucket now allowed start db' := by
  obtain ⟨changes,trace,all⟩ := before
  refine ⟨changes ++ [change],trace.append (.step effect .done),?_⟩
  intro c mem
  rcases List.mem_append.mp mem with old | new
  · exact all c old
  · rw [List.mem_singleton.mp new]
    exact ok

theorem Follows.quiet {start db db'} (before : Follows sorting bucket now allowed start db)
    (same : Quiet db db') : Follows sorting bucket now allowed start db' := by
  obtain ⟨changes,trace,all⟩ := before
  have longer := trace.append (.quiet same .done)
  rw [List.append_nil] at longer
  exact ⟨changes,longer,all⟩

theorem Follows.allow {start db allowed'} (follows : Follows sorting bucket now allowed start db)
    (more : ∀ change, allowed change → allowed' change) : Follows sorting bucket now allowed' start db := by
  obtain ⟨changes,trace,all⟩ := follows
  exact ⟨changes,trace,fun change mem => more change (all change mem)⟩

theorem Follows.keeps {P : Database → Prop} {start db} (follows : Follows sorting bucket now allowed start db)
    (quiet : ∀ {db db'}, Quiet db db' → P db → P db') (step : ∀ {db change db'}, allowed change → Effect sorting bucket now db change db' →
      P db → P db')
    (holds : P start) : P db := by
  obtain ⟨_,trace,all⟩ := follows
  induction trace with
  | done => exact holds
  | quiet same _ ih => exact ih (quiet same holds) all
  | step first _ ih =>
    exact ih (step (all _ List.mem_cons_self) first holds) (fun c mem => all c (List.mem_cons_of_mem _ mem))

end

section
variable {α : Type} {P : Database → Prop} {I : State → Prop}

theorem filesStorage (files : ∀ {s t}, I s → I { s with files := t }) (m : Action Filesystem.Files Filesystem.StorageError α) :
    Keeps I (storage m) := by
  intro s holds
  simp only [storage,wpMapError]
  exact wpOfState (files holds)

theorem keepsStorage (m : Action Filesystem.Files Filesystem.StorageError α) : Keeps (fun s => P s.db) (storage m) :=
  filesStorage (fun holds => holds) m

theorem keepsDatabase {write} (step : ∀ {db db'}, P db → write db = .ok db' → P db') : Keeps (fun s => P s.db) (database write) := by
  intro s holds
  unfold wp database
  cases done : write s.db with
  | ok db => exact step holds done
  | error e => exact holds

theorem keepsUpdate {write} (same : ∀ s, (write s).db = s.db) : Keeps (fun s => P s.db) (update write : Action State Error Unit) :=
  .update (fun s holds => by rw [same]; exact holds)

end

section
variable {sorting} {bucket} {now} {allowed} {start}

theorem metricsQuiet {db db' tenantID name count size} (done : db.updateBucketMetrics tenantID name count size = .ok db') : Quiet db db' := by
  unfold Database.updateBucketMetrics at done
  split at done <;> try contradiction
  rename_i found here
  cases done
  refine ⟨rfl,rfl,rfl,fun key => ?_,rfl⟩
  rw [Store.getSet]
  split
  · rename_i same
    rw [← same,here]
    rfl
  · rfl

theorem followsMetrics (path : Bytes) (count size : Int) :
    Keeps (fun s => Follows sorting bucket now allowed start s.db) (bucketMetrics path count size) :=
  .ignore (keepsDatabase (fun before done => before.quiet (metricsQuiet done)))

theorem followsTenant {path change} : Keeps (fun s => Follows sorting bucket now allowed start s.db) (tenantStorage path change) := by
  exact .ite (fun _ => .pure _) (fun _ => keepsUpdate (fun _ => rfl))

theorem putMetricsBy {path} {M : Action State Error Unit → Prop} (still : M (pure ()))
    (moves : ∀ count size, M (bucketMetrics path count size)) (size : Int) (enabled : Bool) (existing : Option ObjectMetadata) :
    M (updateBucketMetricsAfterPut path size enabled existing) := by
  unfold updateBucketMetricsAfterPut
  split
  · split <;> exact moves _ _
  split
  · exact moves _ _
  split
  · exact still
  · exact moves _ _

theorem followsPutMetrics (path : Bytes) (size : Int) (enabled : Bool) (existing : Option ObjectMetadata) :
    Keeps (fun s => Follows sorting bucket now allowed start s.db) (updateBucketMetricsAfterPut path size enabled existing) :=
  putMetricsBy (.pure _) (followsMetrics path) size enabled existing

theorem keepsQuota {P call path size new} : Keeps P (withinQuota call path size new) := by
  exact .bind (.gets _) fun _ => .bind (.check _ _) fun _ =>
    .bind (.gets _) fun _ => .check _ _

theorem followsPutTenant {path size enabled existing} :
    Keeps (fun s => Follows sorting bucket now allowed start s.db) (updateTenantQuotaAfterPut path size enabled existing) := by
  unfold updateTenantQuotaAfterPut
  exact followsTenant

end

def PutChange (enabled : Bool) (call : Call) (bucket key : Bytes) : Change → Prop
  | .insert obj => enabled = true ∧ key ≠ [] ∧ obj.bucket = bucket ∧ obj.key = key ∧
      chooseVersion call true = .ok obj.versionID ∧ obj.tags = empty
  | .plain obj => enabled = false ∧ obj.bucket = bucket ∧ obj.key = key ∧ obj.versionID = []
  | .adopt obj => obj.bucket = bucket ∧ obj.key ∈ implicitFolders key ∧ obj.versionID = []
  | _ => False

theorem folderPrefixesSlash {current parts folder} (mem : folder ∈ folderPrefixes current parts) : isFolderMarker folder = true := by
  induction parts generalizing current with
  | nil => simp [folderPrefixes] at mem
  | cons part rest ih =>
    unfold folderPrefixes at mem
    split at mem
    · exact ih mem
    rcases List.mem_cons.mp mem with here | later
    · rw [here,isFolderMarker,hasSuffixIff]
      exact List.suffix_append _ _
    · exact ih later

theorem implicitFolderOther {key folder} (mem : folder ∈ implicitFolders key) : folder ≠ key := by
  unfold implicitFolders at mem
  split at mem
  · simp at mem
  rename_i file
  rintro rfl
  exact file (folderPrefixesSlash mem)

theorem validName {key} (valid : validateObjectName key = true) : key ≠ [] := by
  rintro rfl
  simp [validateObjectName] at valid

theorem chooseVersionDisabled (call : Call) : chooseVersion call false = .ok [] := rfl

theorem storedNone {s bucket key} (missing : stored s bucket key = none) (old : ObjectMetadata) : s.db.getObject bucket key [] ≠ .ok old := by
  intro found
  simp [stored,found] at missing

theorem storedSome {s bucket key obj} (found : stored s bucket key = some obj) : s.db.getObject bucket key [] = .ok obj := by
  unfold stored at found
  split at found <;> try contradiction
  rename_i read
  cases found
  exact read

section
variable {node : Node} {call : Call} {bucket key : Bytes} {enabled : Bool} {start : Database} {allowed : Change → Prop}

theorem filesStoreData {I} (files : ∀ {s t}, I s → I { s with files := t }) (node : Node) (call : Call)
    (key path data : Bytes) (headers : Headers) : Keeps I (storeData node call key path data headers) := by
  refine .ite (fun _ => filesStorage files _) (fun _ => ?_)
  unfold storeEncryptedObject
  cases call.envelope with
  | none => exact .fail _
  | some envelope => exact filesStorage files _

theorem storeObjectSpec {node call bucket key data headers s} : wp (storeObject node call bucket key data headers)
      (fun pending s' => s'.db = s.db ∧ key ≠ [] ∧ pending.versioningEnabled = isBucketVersioningEnabled s bucket ∧
        pending.object.bucket = bucket ∧ pending.object.key = key ∧ pending.object.tags = none ∧
        chooseVersion call (isBucketVersioningEnabled s bucket) = .ok pending.object.versionID) (fun _ s' => s'.db = s.db) s := by
  have guard added : Keeps (fun s' => s'.db = s.db) (checkQuota call bucket added) := .ite (fun _ => .pure _) (fun _ => keepsQuota)
  simp only [storeObject,wpBind,wpCheck,wpGets,wpObserve]
  refine ⟨fun valid => ?_,fun _ => trivial⟩
  split
  · rename_i versionID chosen
    refine ⟨fun _ => ?_,fun _ => trivial⟩
    refine wpMono (guard _ s rfl) (fun _ s₁ same₁ => ?_) (fun _ _ same => same)
    rw [wpBind]
    refine wpMono (filesStoreData (fun same => same) node call _ _ _ headers s₁ same₁) (fun _ s₂ same₂ => ?_) (fun _ _ same => same)
    rw [wpBind]
    refine wpMono (keepsStorage (P := (· = s.db)) _ s₂ same₂) (fun final s₃ same₃ => ?_) (fun _ _ same => same)
    exact ⟨same₃,validName valid,rfl,rfl,rfl,rfl,chosen⟩
  · trivial

theorem followsFolders (permitted : ∀ folder ∈ implicitFolders key, allowed (.adopt (folderObject call.now bucket folder))) :
    Keeps (fun s => Follows node.sorting bucket call.now allowed start s.db) (ensureImplicitFolders call bucket key) := by
  refine .each (fun folder mem => ?_)
  intro s before
  rw [wpBind,wpGets]
  cases existing : stored s bucket folder with
  | some obj => exact before
  | none =>
    rw [wpIgnore,wpDatabase]
    split
    · rename_i db done
      exact before.step (.adopt (storedNone existing) done) (permitted folder mem)
    · exact before

theorem saveRecordBy {object s Q E}
    (inserts : enabled = true → ∀ db, s.db.putObjectVersion (toMetadataObject object) (latestVersion object) = .ok db → Q () { s with db})
    (writes : enabled = false → ∀ db, s.db.putObject call.now (toMetadataObject object) = .ok db → Q () { s with db})
    (failed : ∀ e, E e s) : wp (saveRecord call enabled object) Q E s := by
  rw [saveRecord,wpDatabase]
  split
  · rename_i db done
    split at done
    · exact inserts ‹_› db done
    · exact writes (by simpa using ‹¬ enabled = true›) db done
  · exact failed _

theorem saveRecordFollows {object} (inserts : enabled = true → allowed (.insert (toMetadataObject object)))
    (writes : enabled = false → allowed (.plain (toMetadataObject object))) :
    Keeps (fun s => Follows node.sorting bucket call.now allowed start s.db) (saveRecord call enabled object) := by
  refine keepsDatabase fun before done => ?_
  split at done
  · rename_i on
    exact before.step (.insert done) (inserts on)
  · rename_i off
    exact before.step (.plain done) (writes (by simpa using off))

theorem followsFinish {pending existing} (home : pending.object.bucket = bucket)
    (adopts : ∀ folder ∈ implicitFolders pending.object.key, allowed (.adopt (folderObject call.now bucket folder))) :
    Keeps (fun s => Follows node.sorting bucket call.now allowed start s.db) (finishPut call pending existing) := by
  unfold finishPut
  rw [home]
  exact .bind (followsFolders adopts) fun _ => .bind (followsPutMetrics _ _ _ _) fun _ => followsPutTenant

theorem recordObjectFollows {pending s} (before : Follows node.sorting bucket call.now allowed start s.db)
    (inserts : pending.versioningEnabled = true → allowed (.insert (toMetadataObject pending.object)))
    (writes : pending.versioningEnabled = false → allowed (.plain (toMetadataObject pending.object)))
    (adopts : ∀ folder ∈ implicitFolders pending.object.key, allowed (.adopt (folderObject call.now bucket folder)))
    (home : pending.object.bucket = bucket) : Follows node.sorting bucket call.now allowed start (recordObject call pending s).2.db := by
  have whole : Keeps (fun s => Follows node.sorting bucket call.now allowed start s.db) (recordObject call pending) :=
    .bind (.gets _) fun _ => .bind (saveRecordFollows inserts writes) fun _ =>
      .bind (followsFinish home adopts) fun _ => .pure _
  exact whole.after before

end

theorem putObjectFollows (node : Node) (call : Call) (bucket key data : Bytes) (headers : Headers) (s : State) :
    Follows node.sorting bucket call.now (PutChange (isBucketVersioningEnabled s bucket) call bucket key) s.db
      (putObject node call bucket key data headers s).2.db := by
  refine wpState (P := fun s' : State => Follows _ _ _ _ s.db s'.db) ?_
  rw [putObject,wpBind]
  refine wpMono storeObjectSpec ?_ ?_
  · intro pending s' ⟨same,present,mode,home,named,untagged,chosen⟩
    have before : Follows node.sorting bucket call.now (PutChange (isBucketVersioningEnabled s bucket) call bucket key) s.db s'.db :=
      same ▸ .refl _
    refine wpOfState (recordObjectFollows before ?_ ?_ ?_ home)
    · intro on
      rw [mode] at on
      exact ⟨on,present,home,named,on ▸ chosen,by simp [toMetadataObject,untagged,Store.setAll]⟩
    · intro off
      rw [mode] at off
      rw [off] at chosen
      exact ⟨off,home,named,(Except.ok.inj chosen).symm⟩
    · intro folder mem
      exact ⟨rfl,named ▸ mem,rfl⟩
  · intro _ s' same
    exact same ▸ .refl _

def DeleteChange (enabled : Bool) (call : Call) (bucket key : Bytes) (bypass : Bool) (versionID : Bytes) : Change → Prop
  | .insert obj => enabled = true ∧ versionID = [] ∧ key ≠ [] ∧ chooseVersion call true = .ok obj.versionID ∧
      obj = deleteMarkerObject call.now bucket key obj.versionID
  | .drop target version flag => versionID ≠ [] ∧ target = key ∧ version = versionID ∧ flag = bypass
  | .erase target flag => enabled = false ∧ versionID = [] ∧ target = key ∧ flag = bypass
  | _ => False

theorem promoteNextSpec {node bucket key versionID s} : wp (promoteNext node bucket key versionID)
    (fun _ s' => s' = { s with db := promotion node.sorting bucket key versionID s.db }) (fun _ _ => False) s := by
  rw [promoteNext,wpBind,wpGets,wpIte]
  unfold promotion
  refine ⟨fun empty => ?_,fun some_ => ?_⟩
  · rw [if_pos empty,wpIgnore,wpDatabase]
    cases s.db.deleteObject bucket key with
    | ok db => rfl
    | error e => rfl
  · rw [if_neg some_]
    cases nextLatest versionID (s.db.getObjectVersions node.sorting bucket key) with
    | none => rfl
    | some next =>
      dsimp only
      rw [wpIgnore,wpBind,getObjectRecord,wpObserve]
      cases read : s.db.getObject bucket key next.versionID with
      | error e => cases e <;> rfl
      | ok obj =>
        dsimp only
        rw [wpDatabase]
        cases s.db.putObjectVersion obj { next with isLatest := true } with
        | ok db => rfl
        | error e => rfl

section
variable {node : Node} {call : Call} {bucket key versionID : Bytes} {bypass : Bool} {s : State}

theorem checkLockSpec {obj Q E} (open_ : lockError call.now bypass obj = none → Q () s) (locked : ∀ e, E e s) :
    wp (checkLock call.now bypass obj) Q E s := by
  unfold checkLock
  split
  · exact locked _
  · rename_i free
    exact open_ free

theorem getObjectRecordSpec {Q E} (found : ∀ obj, s.db.getObject bucket key versionID = .ok obj → Q obj s) (missing : ∀ e, E e s) :
    wp (getObjectRecord bucket key versionID) Q E s := by
  rw [getObjectRecord,wpObserve]
  cases read : s.db.getObject bucket key versionID with
  | ok obj => exact found obj read
  | error e => cases e <;> exact missing _

theorem quietVersionMetrics {start} (path : Bytes) (deleted : ObjectMetadata) (freed : Int) (next : Option ObjectVersion) :
    Keeps (fun s => Quiet start s.db) (metricsAfterVersionDelete path deleted freed next) := by
  have metrics count size : Keeps (fun s => Quiet start s.db) (bucketMetrics path count size) :=
    .ignore (keepsDatabase (fun before done => before.trans (metricsQuiet done)))
  cases next with
  | none => exact .ite (fun _ => .pure _) (fun _ => metrics _ _)
  | some ver =>
    exact .ite (fun _ => .ite (fun _ => .pure _) (fun _ => metrics _ _)) (fun _ => .ite (fun _ => metrics _ _) (fun _ => .pure _))

theorem keepsVersionFile {P : Database → Prop} (size : Int) : Keeps (fun s => P s.db) (deleteVersionFile bucket key versionID size) :=
  .ite (fun _ => keepsStorage _) (fun _ => .pure _)

structure Droppable (sorting : VersionSort) (bucket key versionID : Bytes) (now : Int) (bypass : Bool) (db mid : Database)
    (target : ObjectVersion) (old : ObjectMetadata) : Prop where
  listed : (db.getObjectVersions sorting bucket key).find? (fun ver => decide (ver.versionID = versionID)) = some target
  read : db.getObject bucket key versionID = .ok old
  unlocked : lockError now bypass old = none
  done : db.deleteObjectVersion bucket key versionID = .ok mid

theorem deleteSpecificVersionDrops {node call bucket key versionID bypass s} :
    (∃ mid target old, Droppable node.sorting bucket key versionID call.now bypass s.db mid target old ∧
      Quiet (if target.isLatest then promotion node.sorting bucket key versionID mid else mid)
        (deleteSpecificVersion node call bucket key versionID bypass s).2.db) ∨
    (deleteSpecificVersion node call bucket key versionID bypass s).2.db = s.db ∧
      ¬ ∃ mid target old, Droppable node.sorting bucket key versionID call.now bypass s.db mid target old := by
  refine wpState (P := fun s' : State => (∃ mid target old, Droppable node.sorting bucket key versionID call.now bypass s.db mid target old ∧
    Quiet (if target.isLatest then promotion node.sorting bucket key versionID mid else mid) s'.db) ∨
    s'.db = s.db ∧ ¬ ∃ mid target old, Droppable node.sorting bucket key versionID call.now bypass s.db mid target old) ?_
  rw [deleteSpecificVersion,wpBind,wpGets]
  cases listed : (s.db.getObjectVersions node.sorting bucket key).find? (fun ver => decide (ver.versionID = versionID)) with
  | none =>
    refine .inr ⟨rfl,fun ⟨_,_,_,able⟩ => ?_⟩
    have again := able.listed
    rw [listed] at again
    cases again
  | some target =>
    rw [wpBind,getObjectRecord,wpObserve]
    cases read : s.db.getObject bucket key versionID with
    | error e =>
      have unreadable : ¬ ∃ mid target old, Droppable node.sorting bucket key versionID call.now bypass s.db mid target old := by
        rintro ⟨_,_,_,able⟩
        have again := able.read
        rw [read] at again
        cases again
      cases e <;> exact .inr ⟨rfl,unreadable⟩
    | ok obj =>
      dsimp only
      rw [wpBind]
      unfold checkLock
      cases lock : lockError call.now bypass obj with
      | some e =>
        refine .inr ⟨rfl,fun ⟨_,_,_,able⟩ => ?_⟩
        cases (able.read.symm.trans read)
        have again := able.unlocked
        rw [lock] at again
        cases again
      | none =>
        rw [wpPure,wpBind,wpDatabase]
        cases done : s.db.deleteObjectVersion bucket key versionID with
        | error e =>
          refine .inr ⟨rfl,fun ⟨_,_,_,able⟩ => ?_⟩
          have again := able.done
          rw [done] at again
          cases again
        | ok mid =>
          have able : Droppable node.sorting bucket key versionID call.now bypass s.db mid target obj := ⟨listed,read,lock,done⟩
          have finish freed s₁ (same : s₁.db = mid) : wp (if target.isLatest = true then do
                  promoteNext node bucket key versionID
                  metricsAfterVersionDelete bucket obj freed (nextLatest versionID (s.db.getObjectVersions node.sorting bucket key))
                else pure ())
                (fun _ s' => Quiet (if target.isLatest then promotion node.sorting bucket key versionID mid else mid) s'.db)
                (fun _ s' => Quiet (if target.isLatest then promotion node.sorting bucket key versionID mid else mid) s'.db) s₁ := by
            rw [wpIte]
            refine ⟨fun latest => ?_,fun older => ?_⟩
            · rw [wpBind]
              refine wpSure promoteNextSpec fun _ s₂ promoted => ?_
              refine quietVersionMetrics _ _ _ _ s₂ ?_
              rw [if_pos latest,← same,promoted]
              exact .refl _
            · rw [if_neg older,← same]
              exact Quiet.refl _
          dsimp only
          rw [wpBind,wpAttempt]
          exact wpMono (keepsVersionFile (P := (· = mid)) obj.size _ rfl)
            (fun _ s₁ same => wpMono (finish _ s₁ same) (fun _ _ quiet => .inl ⟨mid,target,obj,able,quiet⟩)
              (fun _ _ quiet => .inl ⟨mid,target,obj,able,quiet⟩))
            (fun _ s₁ same => wpMono (finish _ s₁ same) (fun _ _ quiet => .inl ⟨mid,target,obj,able,quiet⟩)
              (fun _ _ quiet => .inl ⟨mid,target,obj,able,quiet⟩))

theorem deleteSpecificVersionFollows {node call bucket key versionID bypass s} :
    Follows node.sorting bucket call.now (fun change => change = .drop key versionID bypass) s.db
      (deleteSpecificVersion node call bucket key versionID bypass s).2.db := by
  rcases deleteSpecificVersionDrops with ⟨_,_,_,able,quiet⟩ | ⟨same,_⟩
  · have dropped : Follows node.sorting bucket call.now (· = .drop key versionID bypass) s.db _ :=
      (Follows.refl s.db).step (.drop able.listed able.read able.unlocked able.done) rfl
    exact dropped.quiet quiet
  · rw [same]
    exact .refl _

def MarkerChange (call : Call) (bucket key : Bytes) (change : Change) : Prop :=
  ∃ id, chooseVersion call true = .ok id ∧ change = .insert (deleteMarkerObject call.now bucket key id)

theorem createDeleteMarkerFollows (node : Node) (call : Call) (bucket key : Bytes) (s : State) :
    Follows node.sorting bucket call.now (MarkerChange call bucket key) s.db (createDeleteMarker call bucket key s).2.db := by
  refine wpState (P := fun s' : State => Follows _ _ _ _ s.db s'.db) ?_
  rw [createDeleteMarker,wpBind,wpGets,wpBind,wpObserve]
  split
  · rename_i id chosen
    rw [wpBind,wpDatabase]
    split
    · rename_i db done
      have after : Follows node.sorting bucket call.now (MarkerChange call bucket key) s.db db :=
        (Follows.refl s.db).step (.insert done) ⟨id,chosen,rfl⟩
      rw [wpBind]
      exact Keeps.ite (fun _ => followsMetrics _ _ _) (fun _ => Keeps.pure _) _ after
    · exact .refl _
  · exact .refl _

theorem followsDeleteFile {sorting home now} {allowed} {start} :
    Keeps (fun s => Follows sorting home now allowed start s.db) (deleteFile bucket key) :=
  .bind (.ignore (keepsStorage _)) fun _ => keepsUpdate (fun _ => rfl)

theorem deletePermanentlyFollows {sorting call bucket key bypass s} :
    Follows sorting bucket call.now (fun change => change = .erase key bypass) s.db
      (deletePermanently call bucket key bypass s).2.db := by
  refine wpState (P := fun s' : State => Follows _ _ _ _ s.db s'.db) ?_
  rw [deletePermanently,wpBind,wpGets]
  split
  · exact followsDeleteFile s (.refl _)
  · exact .refl _
  rename_i obj read
  rw [wpBind]
  refine checkLockSpec (fun unlocked => ?_) (fun _ => .refl _)
  have rest : Keeps (fun s' => Follows sorting bucket call.now (· = .erase key bypass) s.db s'.db) (do
        deleteFile bucket key
        bucketMetrics bucket (-1) (-obj.size)
        tenantStorage bucket (fun tenants id => decrementTenantStorage tenants id obj.size)) :=
    .bind followsDeleteFile fun _ => .bind (followsMetrics _ _ _) fun _ => followsTenant
  rw [wpBind,deleteRecord,wpDatabase]
  cases done : s.db.deleteObject bucket key with
  | ok db => exact rest _ ((Follows.refl s.db).step (.erase read unlocked done) rfl)
  | error e => cases e <;> first | exact rest _ (.refl _) | exact .refl _

theorem resolvedNamed {key} (named : key ≠ []) : resolveFolderDeleteKey s bucket key ≠ [] := by
  unfold resolveFolderDeleteKey
  split
  · exact named
  split
  · exact named
  split
  · simp
  · exact named

theorem deleteObjectFollows (node : Node) (call : Call) (bucket key : Bytes) (bypass : Bool) (versionID : Bytes) (s : State) :
    Follows node.sorting bucket call.now
      (DeleteChange (isBucketVersioningEnabled s bucket) call bucket (resolveFolderDeleteKey s bucket key) bypass versionID)
      s.db (deleteObject node call bucket key bypass versionID s).2.db := by
  refine wpState (P := fun s' : State => Follows _ _ _ _ s.db s'.db) ?_
  rw [deleteObject,wpBind,wpCheck]
  refine ⟨fun valid => ?_,fun _ => .refl _⟩
  rw [wpBind,wpGets,wpBind,wpGets,wpIte]
  refine ⟨fun specific => ?_,fun current => ?_⟩
  · rw [wpBind]
    refine wpOfState ?_
    refine (deleteSpecificVersionFollows).allow ?_
    rintro _ rfl
    exact ⟨specific,rfl,rfl,rfl⟩
  · have current : versionID = [] := by simpa using current
    rw [wpIte]
    refine ⟨fun on => ?_,fun off => ?_⟩
    · refine wpOfState ?_
      refine (createDeleteMarkerFollows node call bucket _ s).allow ?_
      rintro _ ⟨id,chosen,rfl⟩
      exact ⟨on,current,resolvedNamed (validName valid),chosen,rfl⟩
    · rw [wpBind]
      refine wpOfState ?_
      refine (deletePermanentlyFollows).allow ?_
      rintro _ rfl
      exact ⟨by simpa using off,current,rfl,rfl⟩

end

inductive Source (s : State) (bucket key versionID : Bytes) : Object → Prop
  | record {old} (read : s.db.getObject bucket key versionID = .ok old) :
      Source s bucket key versionID (fromMetadataObject old)
  | file {m} (current : versionID = []) (missing : stored s bucket key = none)
      (present : Filesystem.exists_ s.files (getObjectPath bucket key) = .ok true) :
      Source s bucket key versionID (plainObject bucket key m)

def EditChange (s : State) (bucket key versionID : Bytes) (rel : ObjectMetadata → ObjectMetadata → Prop) : Change → Prop
  | .edit target version old new => target = key ∧ version = versionID ∧ s.db.getObject bucket key versionID = .ok old ∧ rel old new
  | .adopt obj => versionID = [] ∧ Filesystem.exists_ s.files (getObjectPath bucket key) = .ok true ∧
      obj.bucket = bucket ∧ obj.key = key ∧ obj.versionID = []
  | _ => False

section
variable {node : Node} {call : Call} {bucket key versionID : Bytes} {s : State}
variable {rel : ObjectMetadata → ObjectMetadata → Prop}

theorem existsSpec {path Q E} (known : ∀ found, Filesystem.exists_ s.files path = .ok found → Q found s) (unknown : ∀ e, E e s) :
    wp (exists_ path) Q E s := by
  rw [exists_,wpObserve]
  cases read : Filesystem.exists_ s.files path with
  | ok found => exact known found read
  | error e => exact unknown _

theorem getObjectMetadataSpec (node : Node) (bucket key : Bytes) (s : State) :
    wp (getObjectMetadata node bucket key) (fun obj s' => s'.db = s.db ∧ Source s bucket key [] obj) (fun _ s' => s'.db = s.db) s := by
  rw [getObjectMetadata,wpBind,wpCheck]
  refine ⟨fun _ => ?_,fun _ => rfl⟩
  rw [wpBind,wpGets]
  cases record : stored s bucket key with
  | some obj =>
    rw [wpBind]
    refine existsSpec (fun found _ => ?_) (fun _ => rfl)
    rw [wpBind,wpCheck]
    exact ⟨fun _ => ⟨rfl,.record (storedSome record)⟩,fun _ => rfl⟩
  | none =>
    rw [wpBind]
    refine existsSpec (fun found read => ?_) (fun _ => rfl)
    rw [wpBind,wpCheck]
    refine ⟨fun present => ?_,fun _ => rfl⟩
    rw [wpBind]
    refine wpMono (keepsStorage (P := (· = s.db)) _ s rfl) (fun m s' same => ?_) (fun _ _ same => same)
    exact ⟨same,.file rfl record (present ▸ read)⟩

theorem getForVersionSpec (node : Node) (bucket key versionID : Bytes) (s : State) : wp (getObjectMetadataForVersion node bucket key versionID)
      (fun obj s' => s'.db = s.db ∧ Source s bucket key versionID obj) (fun _ s' => s'.db = s.db) s := by
  rw [getObjectMetadataForVersion,wpIte]
  refine ⟨fun current => ?_,fun _ => ?_⟩
  · subst current
    exact getObjectMetadataSpec node bucket key s
  · rw [wpBind]
    exact getObjectRecordSpec (fun obj read => ⟨rfl,.record read⟩) (fun _ => rfl)

theorem saveFollows {obj new s'} (same : s'.db = s.db) (source : Source s bucket key versionID obj)
    (identity : SameIdentity (toMetadataObject obj) new)
    (related : ∀ old, obj = fromMetadataObject old → rel old new) :
    wp (save call new) (fun _ s' => Follows node.sorting bucket call.now (EditChange s bucket key versionID rel) s.db s'.db)
      (fun _ s' => Follows node.sorting bucket call.now (EditChange s bucket key versionID rel) s.db s'.db) s' := by
  rw [save,wpDatabase]
  split
  · rename_i db done
    rw [same] at done
    cases source with
    | @record old read =>
      have kept : SameIdentity old new := ⟨identity.bucket,identity.key,identity.versionID,identity.isLatest⟩
      exact (Follows.refl s.db).step (.edit read kept done) ⟨rfl,rfl,read,related _ rfl⟩
    | file current missing present =>
      have named : new.key = key := identity.key
      have free old : s.db.getObject bucket new.key [] ≠ .ok old := named ▸ storedNone missing old
      exact (Follows.refl s.db).step (.adopt free done) ⟨current,present,identity.bucket,named,identity.versionID⟩
  · exact same ▸ .refl _

theorem setterFollows {edit : Object → Action State Error Unit} (edits : ∀ {obj s'}, s'.db = s.db → Source s bucket key versionID obj →
      wp (edit obj) (fun _ s' => Follows node.sorting bucket call.now (EditChange s bucket key versionID rel) s.db s'.db)
        (fun _ s' => Follows node.sorting bucket call.now (EditChange s bucket key versionID rel) s.db s'.db) s') :
    Follows node.sorting bucket call.now (EditChange s bucket key versionID rel) s.db
      ((do let obj ← getObjectMetadataForVersion node bucket key versionID; edit obj) s).2.db := by
  refine wpState (P := fun s' : State => Follows _ _ _ _ s.db s'.db) ?_
  rw [wpBind]
  exact wpMono (getForVersionSpec node bucket key versionID s) (fun obj s' read => edits read.1 read.2) (fun _ _ same => same ▸ .refl _)

def KeepsLock (old new : ObjectMetadata) : Prop := new.retention = old.retention ∧ new.legalHold = old.legalHold

def SameTags (tags tags' : Store Bytes Bytes) : Prop := ∀ name, tags.get name = tags'.get name

def Tagging (rel : ObjectMetadata → ObjectMetadata → Prop) (tags : ObjectMetadata → Store Bytes Bytes)
    (old new : ObjectMetadata) : Prop := rel old new ∧ SameTags new.tags (tags old)

theorem tagsRoundTrip (old : ObjectMetadata) : SameTags (toMetadataObject (fromMetadataObject old)).tags old.tags := by
  intro name
  have same : (toMetadataObject (fromMetadataObject old)).tags = empty.setAll old.tags.entries := by
    change empty.setAll ((if old.tags.entries = [] then none else some old.tags.entries).getD []) = _
    split
    · rename_i none_
      rw [none_]
      rfl
    · rfl
  rw [same,Store.getSetEntries,Store.getEmpty,Option.or_none]

def SetsRetention (now : Int) (config : Option Retention) (old new : ObjectMetadata) : Prop :=
  new.retention = config ∧ new.legalHold = old.legalHold ∧ shortens now config (fromMetadataObject old) = none

def SetsLegalHold (config : Option Bytes) (old new : ObjectMetadata) : Prop :=
  new.retention = old.retention ∧ new.legalHold = decide (config = some legalHoldOn)

theorem holdRoundTrip (old : ObjectMetadata) : decide ((fromMetadataObject old).legalHold = some legalHoldOn) = old.legalHold := by
  change decide (some (if old.legalHold = true then legalHoldOn else legalHoldOff) = some legalHoldOn) = old.legalHold
  cases old.legalHold <;> decide

theorem setObjectRetentionFollows (config : Option Retention) :
    Follows node.sorting bucket call.now (EditChange s bucket key versionID (Tagging (SetsRetention call.now config) tags)) s.db
      (setObjectRetention node call bucket key config versionID s).2.db := by
  refine setterFollows fun {obj s'} same source => ?_
  cases refused : shortens call.now config obj with
  | some e => exact same ▸ .refl _
  | none =>
    refine saveFollows same source ⟨rfl,rfl,rfl,rfl⟩ ?_
    rintro old rfl
    exact ⟨⟨rfl,holdRoundTrip old,refused⟩,tagsRoundTrip old⟩

theorem setObjectLegalHoldFollows (config : Option Bytes) :
    Follows node.sorting bucket call.now (EditChange s bucket key versionID (Tagging (SetsLegalHold config) tags)) s.db
      (setObjectLegalHold node call bucket key config versionID s).2.db := by
  refine setterFollows fun {obj s'} same source => ?_
  refine saveFollows same source ⟨rfl,rfl,rfl,rfl⟩ ?_
  rintro old rfl
  exact ⟨⟨rfl,rfl⟩,tagsRoundTrip old⟩

theorem setRestoreStatusFollows (status : Bytes) (expiresAt : Option Int) :
    Follows node.sorting bucket call.now (EditChange s bucket key versionID (Tagging KeepsLock tags)) s.db
      (setRestoreStatus node call bucket key status expiresAt versionID s).2.db := by
  refine setterFollows fun {obj s'} same source => ?_
  refine saveFollows same source ⟨rfl,rfl,rfl,rfl⟩ ?_
  rintro old rfl
  exact ⟨⟨rfl,holdRoundTrip old⟩,tagsRoundTrip old⟩

theorem setObjectTaggingFollows (tags : Option (List (Bytes × Bytes))) :
    Follows node.sorting bucket call.now (EditChange s bucket key versionID (Tagging KeepsLock fun _ => empty.setAll (tags.getD []))) s.db
      (setObjectTagging node call bucket key tags versionID s).2.db := by
  refine setterFollows fun {obj s'} same source => ?_
  rw [wpBind,wpCheck]
  refine ⟨fun _ => saveFollows same source ⟨rfl,rfl,rfl,rfl⟩ ?_,fun _ => same ▸ .refl _⟩
  rintro old rfl
  exact ⟨⟨rfl,holdRoundTrip old⟩,fun _ => rfl⟩

theorem setObjectACLFollows (acl : Option ACL) : Follows node.sorting bucket call.now
    (EditChange s bucket key versionID (Tagging KeepsLock tags)) s.db
      (setObjectACL node call bucket key acl versionID s).2.db := by
  refine setterFollows fun {obj s'} same source => ?_
  rw [wpBind]
  refine wpMono (saveFollows same source ⟨rfl,rfl,rfl,rfl⟩ ?_) (fun _ s₁ saved => ?_) (fun _ _ saved => saved)
  · rintro old rfl
    exact ⟨⟨rfl,holdRoundTrip old⟩,tagsRoundTrip old⟩
  rw [wpIte]
  refine ⟨fun _ => saved,fun _ => ?_⟩
  cases acl with
  | none => exact saved
  | some acl =>
    exact saved.quiet ⟨rfl,rfl,rfl,fun _ => rfl,rfl⟩

theorem updateObjectMetadataFollows (updates : StagedCommit.Metadata) :
    Follows node.sorting bucket call.now (EditChange s bucket key [] (Tagging KeepsLock tags)) s.db
      (updateObjectMetadata node call bucket key updates s).2.db := by
  refine wpState (P := fun s' : State => Follows _ _ _ _ s.db s'.db) ?_
  rw [updateObjectMetadata,wpBind,wpCheck]
  refine ⟨fun _ => ?_,fun _ => .refl _⟩
  rw [wpBind,wpGets]
  rw [wpBind]
  refine existsSpec (fun found checked => ?_) (fun _ => .refl _)
  rw [wpBind,wpCheck]
  refine ⟨fun present => ?_,fun _ => .refl _⟩
  rw [wpBind]
  refine wpMono (keepsStorage (P := (· = s.db)) _ s rfl) (fun existing s₁ same₁ => ?_) (fun _ _ same => same ▸ .refl _)
  rw [wpBind]
  refine wpMono (keepsStorage (P := (· = s.db)) _ s₁ same₁) (fun _ s₂ same₂ => ?_) (fun _ _ same => same ▸ .refl _)
  rw [wpBind]
  refine wpMono (getObjectMetadataSpec node bucket key s₂) (fun obj s₃ read => ?_) (fun _ _ same => (same.trans same₂) ▸ .refl _)
  have source : Source s bucket key [] obj := by
    obtain ⟨_,source⟩ := read
    cases source with
    | record found => exact .record (same₂ ▸ found)
    | file current missing _ =>
      have gone : stored s bucket key = none := by
        unfold stored at missing ⊢
        rwa [same₂] at missing
      refine .file current gone ?_
      rw [gone] at checked
      exact present ▸ checked
  refine saveFollows (read.1.trans same₂) source ⟨rfl,rfl,rfl,rfl⟩ ?_
  rintro old rfl
  exact ⟨⟨rfl,holdRoundTrip old⟩,tagsRoundTrip old⟩

end

def CompleteChange (enabled : Bool) (call : Call) (bucket key : Bytes) : Change → Prop
  | .insert obj => enabled = true ∧ obj.bucket = bucket ∧ obj.key = key ∧ obj.versionID = generateVersionID call ∧
      obj.tags = empty
  | .plain obj => enabled = false ∧ obj.bucket = bucket ∧ obj.key = key ∧ obj.versionID = []
  | _ => False

section
variable {I : State → Prop} (files : ∀ {s t}, I s → I { s with files := t }) {node : Node} {call : Call}
variable {cleanup : Action State Error Unit}

theorem wpOnErrorKeeps {α I m} {Q : α → State → Prop} {s} (main : wp m Q (fun _ => I) s) (after : Keeps I cleanup) :
    wp (onError m cleanup) Q (fun _ => I) s := by
  rw [onError,wpBind,wpAttempt]
  refine wpMono main (fun _ _ ok => ok) (fun e s' kept => ?_)
  rw [wpBind]
  exact wpMono (after s' kept) (fun _ _ kept => kept) (fun _ _ kept => kept)

include files in
theorem filesReadPart (path : Bytes) : Keeps I (readPart node path) := by
  refine .bind (filesStorage files _) fun result => ?_
  obtain ⟨data,_⟩ := result
  cases data with
  | some bytes => exact .pure _
  | none => exact .fail _

include files in
theorem filesReadParts (uploadID : Bytes) (parts : List Part) : Keeps I (readParts node uploadID parts) := by
  induction parts with
  | nil => exact .pure _
  | cons part rest ih =>
    exact .bind (filesReadPart files _) fun _ => .bind ih fun _ => .pure _

include files in
theorem filesCombine (uploadID : Bytes) (parts : List Part) (path : Bytes) : Keeps I (combineMultipartParts node call uploadID parts path) := by
  have contentType : Keeps I (partContentType node uploadID parts) := by
    cases parts with
    | nil => exact .pure _
    | cons part rest =>
      refine .bind (.attempt (filesStorage files _)) fun result => ?_
      cases result <;> exact .pure _
  exact .bind contentType fun _ => .bind (filesReadParts files _ _) fun _ => filesStorage files _

include files in
theorem filesEncryptCombined (path : Bytes) (upload : MultipartUpload) : Keeps I (encryptCombined node call path upload) := by
  have store data size etag : Keeps I (storeEncryptedMultipartObject node call path data upload size etag) := by
    unfold storeEncryptedMultipartObject
    cases call.envelope with
    | none => exact .fail _
    | some envelope => exact filesStorage files _
  refine .bind (filesStorage files _) fun m => .bind (filesReadPart files _) fun data => .bind (store _ _ _) fun _ =>
    .bind (.attempt (filesStorage files _)) fun result => ?_
  cases result <;> exact .pure _

theorem abortQuiet {db db' uploadID} (done : db.abortMultipartUpload uploadID = .ok db') : Quiet db db' := by
  unfold Database.abortMultipartUpload at done
  cases found : db.getMultipartUpload uploadID with
  | error e => rw [found] at done; cases done
  | ok upload =>
    rw [found] at done
    cases done
    exact ⟨rfl,rfl,rfl,fun _ => rfl,rfl⟩

theorem followsCleanup {sorting home now allowed start}
    (bucket uploadID : Bytes) (size : Int) (existing : Option ObjectMetadata) (parts : List Part) (enabled : Bool) :
    Keeps (fun s => Follows sorting home now allowed start s.db) (updateMetricsAndCleanupMultipart bucket uploadID size existing parts enabled) :=
  .bind (followsPutMetrics _ _ _ _) fun _ => .bind followsPutTenant fun _ =>
    .bind (.ignore (keepsDatabase fun before done => before.quiet (abortQuiet done))) fun _ =>
      .each fun _ _ => .ignore (keepsStorage _)

end

section
variable {node} {call} {uploadID} {parts} {s}

theorem completeBy {I Q} (start : I s) (files : ∀ {s t}, I s → I { s with files := t })
    (joins : ∀ upload total etag, s.db.getMultipartUpload uploadID = .ok upload → validateAndCalculatePartsSize s uploadID parts = .ok total →
      let enabled := isBucketVersioningEnabled s upload.bucket
      let existing := stored s upload.bucket upload.key
      let added := multipartGrowth enabled existing total
      let version := if enabled then generateVersionID call else []
      let path := objectPathOf enabled upload.bucket upload.key version
      (decide (added.1 ≤ 0) || checkTenantStorageQuota s call (parseBucketPath upload.bucket).1 added.1) = true →
      checkBucketStorageQuota s upload.bucket added.1 added.2 = true → computeMultipartETag node s uploadID parts = .ok etag →
      wp (combineMultipartParts node call uploadID parts path) (fun _ s₁ =>
        wp (encryptCombined node call path upload) (fun sizes s₂ =>
          wp (saveRecord call enabled (multipartObject upload version etag sizes.1 sizes.2)) (fun _ s₃ =>
            wp (updateMetricsAndCleanupMultipart upload.bucket uploadID sizes.1 existing parts enabled)
              (fun _ s₄ => Q (multipartObject upload version etag sizes.1 sizes.2) s₄)
              (fun _ => I) s₃) (fun _ => I) s₂) (fun _ => I) s₁) (fun _ => I) s) :
    wp (doCompleteMultipartUpload node call uploadID parts) Q (fun _ => I) s := by
  have discards path : Keeps I (ignore (storage (Filesystem.delete path)) : Action State Error Unit) := .ignore (filesStorage files _)
  rw [doCompleteMultipartUpload,wpBind,getUpload,wpObserve]
  cases found : s.db.getMultipartUpload uploadID with
  | error e => exact start
  | ok upload =>
    dsimp only
    rw [wpBind,wpGets,wpBind,wpObserve]
    split <;> try exact start
    rw [wpBind,wpGets,wpBind,withinQuota,wpBind,wpGets,wpBind,wpCheck]
    refine ⟨fun tenant => ?_,fun _ => start⟩
    rw [wpBind,wpGets,wpCheck]
    refine ⟨fun room => ?_,fun _ => start⟩
    rw [wpBind,wpObserve]
    split <;> try exact start
    rw [wpBind]
    refine wpMono (joins upload _ _ found ‹_› tenant room ‹_›) (fun _ s₁ encrypts => ?_) (fun _ _ kept => kept)
    rw [wpBind]
    refine wpMono (wpOnErrorKeeps encrypts (discards _)) (fun _ s₂ saves => ?_) (fun _ _ kept => kept)
    rw [wpBind]
    refine wpMono (wpOnErrorKeeps saves (discards _)) (fun _ s₃ cleans => ?_) (fun _ _ kept => kept)
    rw [wpBind]
    exact cleans

theorem completeFollows {upload} (found : s.db.getMultipartUpload uploadID = .ok upload) : Follows node.sorting upload.bucket call.now
      (CompleteChange (isBucketVersioningEnabled s upload.bucket) call upload.bucket upload.key) s.db
      (doCompleteMultipartUpload node call uploadID parts s).2.db := by
  refine wpState (P := fun s' : State => Follows _ _ _ _ s.db s'.db) (completeBy (.refl _) (fun before => before) ?_)
  intro upload' total etag found' listed enabled existing added version path _ _ _
  cases found.symm.trans found'
  refine wpMono (filesCombine (fun before => before) _ _ _ s (.refl _)) (fun _ s₁ before => ?_) (fun _ _ before => before)
  refine wpMono (filesEncryptCombined (fun before => before) _ _ s₁ before) (fun sizes s₂ before => ?_) (fun _ _ before => before)
  refine wpMono (saveRecordFollows (fun on => ?_) (fun off => ?_) s₂ before) (fun _ s₃ before => ?_) (fun _ _ before => before)
  · exact ⟨on,rfl,rfl,if_pos on,rfl⟩
  · exact ⟨off,rfl,rfl,if_neg (by simpa using off)⟩
  · exact followsCleanup _ _ _ _ _ _ s₃ before

end

end MaxIOFS.RecordChanges
