import MaxIOFS.CreationPaths
import MaxIOFS.Utf8

/-! The default rule of a locked bucket, applied twice: the manager copies the date the rule was
stored with, and the handler of PutObject counts the rule's days or years from now. What each
request that creates an object leaves of it. -/
namespace MaxIOFS.DefaultRetention
open Calendar OrderedStore ByteString Effects ObjectManager RecordChanges Records MetadataStore StoredObjects
    SetterFrames HandlerSteps CreationPaths Filesystem S3Handler FileTree ObjectMetadata

def Written (bucket key id : Bytes) (kept : Option Retention) (db : Database) : Prop :=
  ∃ r, db.objects.get (objectKey bucket key) = some r ∧ r.bucket = bucket ∧ r.key = key ∧ r.versionID = id ∧ r.retention = kept ∧
    (id ≠ [] → r.isLatest = true ∧ db.versions.get (objectVersionKey bucket key id) = some r)

section
variable {node : Node} {call : Call} {bucket key id : Bytes} {kept : Option Retention} {db db' : Database} {s s' : State}

theorem Written.record (written : Written bucket key id kept db) : ∃ r, db.record bucket key id = some r ∧ r.retention = kept := by
  obtain ⟨r,current,_,_,_,retained,listed⟩ := written
  refine ⟨r,?_,retained⟩
  unfold Database.record
  split
  · exact current
  · rename_i present
    exact (listed present).2

theorem Written.quiet (written : Written bucket key id kept db) (same : Quiet db db') : Written bucket key id kept db' := by
  unfold Written
  rw [same.objects,same.versions]
  exact written

theorem putWritten {r now} (here : r.bucket = bucket) (keyed : r.key = key) (version : r.versionID = id)
    (latest : id ≠ [] → r.isLatest = true) (done : db.putObject now r = .ok db') : Written bucket key id r.retention db' := by
  subst here keyed version
  obtain ⟨rfl,_⟩ := putObjectWrites done
  refine ⟨stamped now r,?_,rfl,rfl,rfl,rfl,fun present => ⟨latest present,?_⟩⟩
  · dsimp only [writeObject]
    have current : (stamped now r).versionID = [] ∨ (stamped now r).isLatest = true := by
      by_cases plain : r.versionID = []
      · exact .inl plain
      · exact .inr (latest plain)
    rw [if_pos current]
    exact Store.getSetSame ..
  · dsimp only [writeObject]
    rw [if_neg (show ¬ (stamped now r).versionID = [] from present)]
    exact Store.getSetSame ..

theorem saveWritten {enabled object} (here : object.bucket = bucket) (keyed : object.key = key)
    (version : object.versionID = id) (plain : enabled = false → id = []) :
    wp (saveRecord call enabled object) (fun _ s' => Written bucket key id object.retention s'.db ∧ s'.files = s.files) (fun _ _ => True) s := by
  refine saveRecordBy (fun _ db done => ?_) (fun off db done => ?_) fun _ => trivial
  · subst here keyed version
    obtain ⟨rfl,_⟩ := putVersionWrites done
    exact ⟨⟨versioned (toMetadataObject object) (latestVersion object),Store.getSetSame ..,rfl,rfl,rfl,rfl,fun _ => ⟨rfl,Store.getSetSame ..⟩⟩,rfl⟩
  · exact ⟨putWritten here keyed version (absurd (plain off)) done,rfl⟩

theorem adoptWritten {folder now} (other : folder ≠ key) (written : Written bucket key id kept db)
    (done : db.putObject now (folderObject now bucket folder) = .ok db') : Written bucket key id kept db' := by
  obtain ⟨r,current,rest⟩ := written
  obtain ⟨rfl,_⟩ := putObjectWrites done
  refine ⟨r,?_,rest⟩
  have address : objectKey bucket folder ≠ objectKey bucket key := fun same => other (VersionHistory.objectKeyInj same)
  exact (Store.getSetOther _ _ address).trans current

end

def lockOf (db : Database) (bucket : Bytes) : Option ObjectLock :=
  (db.buckets.get (bucketKey (parseBucketPath bucket).1 (parseBucketPath bucket).2)).bind BucketMetadata.objectLock

def Ruled (bucket : Bytes) (lock : ObjectLock) (db : Database) : Prop := lockOf db bucket = some lock ∧ bucket ∉ db.deletedBuckets

section
variable {node : Node} {call : Call} {bucket key id : Bytes} {lock : ObjectLock} {kept : Option Retention} {db db' : Database} {s s' : State}

theorem Ruled.same (ruled : Ruled bucket lock db) (buckets : db'.buckets = db.buckets) (deleted : db'.deletedBuckets = db.deletedBuckets) :
    Ruled bucket lock db' := by
  unfold Ruled lockOf
  rw [buckets,deleted]
  exact ruled

theorem saveRuled {enabled object} (here : object.bucket = bucket) (given : lockOf s.db bucket = some lock) :
    wp (saveRecord call enabled object) (fun _ s' => Ruled bucket lock s'.db) (fun _ _ => True) s := by
  subst here
  refine saveRecordBy (fun _ db done => ?_) (fun _ db done => ?_) fun _ => trivial
  · obtain ⟨rfl,open_⟩ := putVersionWrites done
    exact ⟨given,open_⟩
  · obtain ⟨rfl,_,_,open_⟩ := putObjectWrites done
    exact ⟨given,open_⟩

theorem Ruled.metrics {tenantID name count size} (ruled : Ruled bucket lock db)
    (done : db.updateBucketMetrics tenantID name count size = .ok db') : Ruled bucket lock db' := by
  have quiet := metricsQuiet done
  refine ⟨?_,quiet.deleted ▸ ruled.2⟩
  unfold Database.updateBucketMetrics at done
  split at done <;> try contradiction
  rename_i found here
  cases done
  have given := ruled.1
  unfold lockOf at given ⊢
  rw [Store.getSet]
  split
  · rename_i same
    rw [← same,here] at given
    exact given
  · exact given

theorem finishKeeps {I} {pending existing}
    (metrics : ∀ {s db tenantID name count size}, I s → s.db.updateBucketMetrics tenantID name count size = .ok db → I { s with db})
    (folders : ∀ {s db folder}, folder ∈ implicitFolders pending.object.key → I s →
      s.db.putObject call.now (folderObject call.now pending.object.bucket folder) = .ok db → I { s with db})
    (tenants : ∀ {s tenants}, I s → I { s with tenants}) : Keeps I (finishPut call pending existing) := by
  have counts path count size : Keeps I (bucketMetrics path count size) := by
    refine .ignore fun s holds => ?_
    rw [wpDatabase]
    split
    · exact metrics holds ‹_›
    · exact holds
  have adopts : Keeps I (ensureImplicitFolders call pending.object.bucket pending.object.key) := by
    refine .each fun folder mem => .bind (.gets _) fun existing => ?_
    cases existing with
    | some _ => exact .pure _
    | none =>
      refine .ignore fun s holds => ?_
      rw [wpDatabase]
      split
      · exact folders mem holds ‹_›
      · exact holds
  refine .bind adopts fun _ => .bind ?_ fun _ => ?_
  · exact putMetricsBy (.pure _) (counts _) _ _ _
  · exact .ite (fun _ => .pure _) (fun _ => .update fun s holds => tenants holds)

theorem finishWritten {pending existing files} (here : pending.object.bucket = bucket)
    (keyed : pending.object.key = key) : Keeps (fun s => Written bucket key id kept s.db ∧ Ruled bucket lock s.db ∧ s.files = files)
      (finishPut call pending existing) := by
  subst here keyed
  refine finishKeeps (fun holds done => ?_) (fun mem holds done => ?_) (fun holds => holds)
  · exact ⟨holds.1.quiet (metricsQuiet done),holds.2.1.metrics done,holds.2.2⟩
  · exact ⟨adoptWritten (implicitFolderOther mem) holds.1 done,(putObjectWrites done).1 ▸ holds.2.1,holds.2.2⟩

theorem recordWritten {pending} (here : pending.object.bucket = bucket) (keyed : pending.object.key = key)
    (version : pending.object.versionID = id) (plain : pending.versioningEnabled = false → id = []) (given : lockOf s.db bucket = some lock) :
    wp (recordObject call pending) (fun object s' => object = pending.object ∧ Written bucket key id pending.object.retention s'.db ∧
      Ruled bucket lock s'.db ∧ s'.files = s.files) (fun _ _ => True) s := by
  rw [recordObject,wpBind,wpGets,wpBind]
  refine wpLax (wpAnd (saveWritten here keyed version plain) (saveRuled here given)) fun _ s₁ saved => ?_
  rw [wpBind]
  refine wpLax (finishWritten here keyed s₁ ⟨saved.1.1,saved.2,saved.1.2⟩) fun _ s₂ done => ?_
  exact ⟨rfl,done⟩

end

structure Ready (bucket key id : Bytes) (kept : Option Retention) (lock : ObjectLock) (s : State) : Prop where
  written : Written bucket key id kept s.db
  ruled : Ruled bucket lock s.db
  valid : validateObjectName key = true
  present : exists_ s.files (pathOf bucket key id) = .ok true

section
variable {node : Node} {call : Call} {bucket key id : Bytes} {lock : ObjectLock} {kept : Option Retention} {s s' : State}

theorem savedWritten {r new} (same : SameWrite r new) (here : r.bucket = bucket) (keyed : r.key = key)
    (version : r.versionID = id) (latest : id ≠ [] → r.isLatest = true) (saved : Saved call new s s') :
    Written bucket key id new.retention s'.db ∧ s'.db.buckets = s.db.buckets ∧ s'.db.deletedBuckets = s.db.deletedBuckets ∧
    s'.files = s.files := by
  obtain ⟨_,_,done,rfl⟩ := saved
  have written := putWritten (same.bucket.trans here) (same.key.trans keyed) (same.versionID.trans version)
    (fun present => same.isLatest.trans (latest present)) done
  obtain ⟨rfl,_⟩ := putObjectWrites done
  exact ⟨written,rfl,rfl,rfl⟩

theorem setterKept (setter : Setter) (other : ∀ config, setter ≠ .retention config) (r : ObjectMetadata) :
    (setter.written r).retention = r.retention := by
  cases setter with
  | retention config => exact absurd rfl (other config)
  | tagging _ | clearTagging | acl _ | legalHold _ | restore _ _ => rfl

section
variable (setter : Setter) (given : setter ≠ .acl none) (other : ∀ config, setter ≠ .retention config) (home : bucket ≠ [])
include setter given other home

theorem setterWritten (named : key ≠ []) : Keeps (fun s => Written bucket key id kept s.db) (setter.perform node call bucket key []) := by
  intro s written
  obtain ⟨r,current,here,keyed,version,retained,listed⟩ := written
  refine wpMono (setterSaves setter given (storedAt home named current here keyed)) (fun _ s' saved => ?_) (fun _ s' failed => ?_)
  · have after := savedWritten (writtenSame setter r) here keyed version (fun present => (listed present).1) saved
    rw [setterKept setter other,retained] at after
    exact after.1
  · rw [failed.1]
    exact ⟨r,current,here,keyed,version,retained,listed⟩

theorem setterReady : Keeps (Ready bucket key id kept lock) (setter.perform node call bucket key []) := by
  intro s ready
  obtain ⟨r,current,here,keyed,version,retained,listed⟩ := ready.written
  refine wpMono (setterSaves setter given (storedAt home (validName ready.valid) current here keyed)) (fun _ s' saved => ?_)
    (fun _ s' failed => failed.1 ▸ ready)
  obtain ⟨written,buckets,deleted,files⟩ := savedWritten (writtenSame setter r) here keyed version (fun present => (listed present).1) saved
  rw [setterKept setter other,retained] at written
  exact ⟨written,ready.ruled.same buckets deleted,ready.valid,files ▸ ready.present⟩

end

theorem retentionReady {rule config} (home : bucket ≠ []) (ready : Ready bucket key id (some rule) lock s) :
    wp (setObjectRetention node call bucket key (some config) []) (fun _ s' => Ready bucket key id (some config) lock s' ∧
        ¬ (call.now < rule.retainUntilDate ∧ config.retainUntilDate < rule.retainUntilDate))
      (fun _ s' => s' = s ∧ call.now < rule.retainUntilDate ∧ config.retainUntilDate < rule.retainUntilDate) s := by
  obtain ⟨r,current,here,keyed,version,retained,listed⟩ := ready.written
  have named := validName ready.valid
  have old : (fromMetadataObject r).retention = some rule := retained
  rw [setObjectRetention,wpBind]
  refine wpMono (readCurrent (storedAt home named current here keyed)) (fun obj s₁ read => ?_) (fun _ _ failed => ?_)
  · obtain ⟨rfl,rfl⟩ := read
    unfold shortens
    rw [old]
    dsimp only
    by_cases short : call.now < rule.retainUntilDate ∧ config.retainUntilDate < rule.retainUntilDate
    · rw [if_pos ⟨short.1,decide_eq_true short.2⟩]
      exact ⟨rfl,short⟩
    rw [if_neg (fun both => short ⟨both.1,of_decide_eq_true both.2⟩)]
    change wp (save call ((Setter.retention (some config)).written r)) _ _ s₁
    rw [save,wpDatabase]
    have same := writtenSame (.retention (some config)) r
    cases done : s₁.db.putObject call.now ((Setter.retention (some config)).written r) with
    | error e =>
      unfold Database.putObject Database.rejectsWrite at done
      rw [same.bucket,same.key,here,keyed,if_neg (not_or.mpr ⟨home,named⟩),if_neg (by simpa using ready.ruled.2)] at done
      contradiction
    | ok db =>
      obtain ⟨written,buckets,deleted,_⟩ := savedWritten same here keyed version (fun present => (listed present).1) ⟨db,db.objectACLs,done,rfl⟩
      exact ⟨⟨written,ready.ruled.same buckets deleted,ready.valid,ready.present⟩,short⟩
  · exact absurd ⟨ready.valid,version ▸ ready.present⟩ failed.2

end

def appliedDate (now date stored : Int) : Int :=
  if date = zeroTime ∨ now < stored ∧ date < stored then stored else date

section
variable {node : Node} {bucket key id : Bytes} {lock : ObjectLock} {rule : Retention} {r : Request} {now date : Int} {s : State}

theorem lockFound : (bucketOf s bucket).bind BucketMetadata.objectLock = lockOf s.db bucket := by
  unfold bucketOf lockOf Database.getBucket
  dsimp only
  cases s.db.buckets.get (bucketKey (parseBucketPath bucket).1 (parseBucketPath bucket).2) <;> rfl

section
variable (given : lockOf s.db bucket = some lock) (enabled : lock.enabled = true) (ruled : lock.defaultRetention = some rule)
include given enabled ruled

theorem managerRule : defaultRetention s bucket = some rule := by
  have found := lockFound.trans given
  obtain ⟨_,stored,locked⟩ := Option.bind_eq_some_iff.mp found
  simp [defaultRetention,stored,locked,enabled,ruled]

theorem handlerRule (dated : ruleDate now lock = some date) : bucketDefault now s bucket =
    if date = zeroTime then none else some ⟨rule.mode,date⟩ := by
  have found := lockFound.trans given
  obtain ⟨_,stored,locked⟩ := Option.bind_eq_some_iff.mp found
  unfold bucketDefault
  rw [stored,Option.bind_some,locked,Option.bind_some,if_pos enabled,ruled,dated]
  by_cases zero : date = zeroTime
  · simp [zero]
  · simp [zero]

end

theorem defaultReady (home : bucket ≠ []) (enabled : lock.enabled = true) (ruled : lock.defaultRetention = some rule)
    (dated : ruleDate now lock = some date) (ready : Ready bucket key id (some rule) lock s) :
    wp (applyDefaultBucketRetention node bucket key r now)
      (fun _ s' => Ready bucket key id (some ⟨rule.mode,appliedDate now date rule.retainUntilDate⟩) lock s') (fun _ _ => True) s := by
  rw [applyDefaultBucketRetention,wpBind,wpGets,handlerRule ready.ruled.1 enabled ruled dated]
  by_cases zero : date = zeroTime
  · rw [if_pos zero,appliedDate,if_pos (.inl zero)]
    exact ready
  rw [if_neg zero]
  rw [wpIgnore]
  refine wpMono (retentionReady home ready) (fun _ s' done => ?_) (fun _ s' failed => ?_)
  · have longer : ¬ (now < rule.retainUntilDate ∧ date < rule.retainUntilDate) := done.2
    rw [appliedDate,if_neg (not_or.mpr ⟨zero,longer⟩)]
    exact done.1
  obtain ⟨rfl,first,second⟩ := failed
  have short : now < rule.retainUntilDate ∧ date < rule.retainUntilDate := ⟨first,second⟩
  rw [appliedDate,if_pos (.inr short)]
  exact ready

end

section
variable {lib : Library} {node : Node} {bucket key : Bytes} {r : Request} {clock : Nat → Int} {lock : ObjectLock} {rule : Retention}
  {applied : Int} {s s' : State}

structure Unrecorded (bucket key : Bytes) (rule : Retention) (pending : Pending) (s : State) : Prop where
  home : pending.object.bucket = bucket
  keyed : pending.object.key = key
  plain : pending.versioningEnabled = false → pending.object.versionID = []
  retention : pending.object.retention = some rule
  valid : validateObjectName key = true
  present : exists_ s.files (pathOf bucket key pending.object.versionID) = .ok true

def Recorded (bucket key : Bytes) (lock : ObjectLock) (rule : Retention) (applied : Int) (n : Nat) (object : Object) : Stage → State → Prop
  | .retention, s => n = 3 ∧ Ready bucket key object.versionID (some rule) lock s
  | .defaultRetention, s => n = 4 ∧ Ready bucket key object.versionID (some rule) lock s
  | _, s => Ready bucket key object.versionID (some ⟨rule.mode, applied⟩) lock s

def Reached (bucket key : Bytes) (lock : ObjectLock) (rule : Retention) (applied : Int) (n : Nat) : Phase → State → Prop
  | .waiting, s => n = 0 ∧ lockOf s.db bucket = some lock
  | .checked _, s => n = 1 ∧ lockOf s.db bucket = some lock
  | .stored _ pending, s => n = 2 ∧ lockOf s.db bucket = some lock ∧ Unrecorded bucket key rule pending s
  | .recorded _ object stage, s => Recorded bucket key lock rule applied n object stage s
  | .answered (.ok object), s => Written bucket key object.versionID (some ⟨rule.mode, applied⟩) s.db
  | .answered (.error _), _ => True

theorem storeUnrecorded (call : Call) (data : Bytes) (headers : Headers) (managed : defaultRetention s bucket = some rule) :
    wp (storeObject node call bucket key data headers) (fun pending s' => s'.db = s.db ∧ Unrecorded bucket key rule pending s')
    (fun _ _ => True) s := by
  have same : wp (storeObject node call bucket key data headers) (fun _ s' => s'.db = s.db) (fun _ _ => True) s :=
    wpLax storeObjectSpec fun _ _ spec => spec.1
  refine wpLax (wpAnd same (wpAnd storeObjectSource storePresent)) fun pending s' done => ?_
  obtain ⟨same,⟨valid,_,chosen,_,fresh,retention,_⟩,present⟩ := done
  refine ⟨same,fresh.bucket,fresh.key,fun off => ?_,retention.trans managed,valid,present⟩
  rw [← fresh.mode,off] at chosen
  exact fresh.versionID.trans (Except.ok.inj ((chooseVersionDisabled call).symm.trans chosen)).symm

section
variable (home : bucket ≠ []) (unasked : lockHeaders lib r = none) (enabled : lock.enabled = true) (ruled : lock.defaultRetention = some rule)
include home unasked enabled ruled

section
variable {date} (dated : ruleDate (clock 4) lock = some date)
include dated

theorem finishReached {n tags object stage} (reached : Recorded bucket key lock rule
    (appliedDate (clock 4) date rule.retainUntilDate) n object stage s) :
    wp (finish lib node bucket key r (clock n) tags object stage)
      (Reached bucket key lock rule (appliedDate (clock 4) date rule.retainUntilDate) (n + 1)) (fun _ _ => True) s := by
  cases stage with
  | retention =>
    obtain ⟨rfl,ready⟩ := reached
    rw [finish,applyObjectLockFromHeaders.eq_def,unasked]
    exact ⟨rfl,ready⟩
  | defaultRetention =>
    obtain ⟨rfl,ready⟩ := reached
    rw [finish,wpBind]
    exact wpLax (defaultReady home enabled ruled dated ready) fun _ _ ready => ready
  | legalHold =>
    rw [finish,wpBind,applyLegalHold,wpIte]
    refine ⟨fun _ => ?_,fun _ => reached⟩
    rw [wpIgnore]
    exact wpMono (setterReady (.legalHold (some legalHoldOn)) (by simp) (by simp) home s reached) (fun _ _ ready => ready) (fun _ _ ready => ready)
  | acl =>
    rw [finish,wpBind,applyObjectCannedACLHeader.eq_def]
    cases given : cannedACL r with
    | none => exact reached
    | some acl =>
      rw [wpIgnore]
      exact wpMono (setterReady (.acl (some acl)) (by simp) (by simp) home s reached) (fun _ _ ready => ready) (fun _ _ ready => ready)
  | tagging =>
    rw [finish,tag.eq_def]
    cases tags with
    | none => exact reached.written
    | some tags =>
      rw [wpBind,wpAttempt]
      exact wpLax (setterReady (.tagging (some tags)) (by simp) (by simp) home s reached) fun _ _ ready => ready.written

theorem stepReached {n phase} (reached : Reached bucket key lock rule (appliedDate (clock 4) date rule.retainUntilDate) n phase s) :
    wp (advance lib node bucket key r (clock n) phase)
      (Reached bucket key lock rule (appliedDate (clock 4) date rule.retainUntilDate) (n + 1)) (fun _ _ => True) s := by
  cases phase with
  | waiting =>
    obtain ⟨rfl,given⟩ := reached
    refine wpLax acceptSpec fun phase s' done => ?_
    obtain ⟨same,⟨code,rfl⟩ | ⟨tags,rfl⟩⟩ := done
    · trivial
    · exact ⟨rfl,same ▸ given⟩
  | checked tags =>
    obtain ⟨rfl,given⟩ := reached
    rw [advance,store,wpBind,wpAttempt]
    refine wpLax (storeUnrecorded _ _ _ (managerRule given enabled ruled)) fun pending s' done => ?_
    exact ⟨rfl,done.1 ▸ given,done.2⟩
  | stored tags pending =>
    obtain ⟨rfl,given,unrecorded⟩ := reached
    rw [advance,record,wpBind,wpAttempt]
    refine wpLax (recordWritten unrecorded.home unrecorded.keyed rfl unrecorded.plain given) fun object s' done => ?_
    obtain ⟨rfl,written,ruled',files⟩ := done
    rw [unrecorded.retention] at written
    exact ⟨rfl,written,ruled',unrecorded.valid,files ▸ unrecorded.present⟩
  | recorded tags object stage =>
    exact finishReached home unasked enabled ruled dated reached
  | answered answer =>
    cases answer with
    | ok object => exact reached
    | error code => trivial

theorem stepsReached (left : Nat) {n phase s} (reached : Reached bucket key lock rule
    (appliedDate (clock 4) date rule.retainUntilDate) n phase s) :
    wp (steps lib node bucket key r clock left n phase) (fun phase s' => ∃ m,
      Reached bucket key lock rule (appliedDate (clock 4) date rule.retainUntilDate) m phase s') (fun _ _ => True) s := by
  induction left generalizing n phase s with
  | zero => exact ⟨n,reached⟩
  | succ left ih =>
    rw [steps,wpBind]
    exact wpLax (stepReached home unasked enabled ruled dated reached) fun _ _ next => ih next

end

end

theorem putCarries (home : bucket ≠ []) (unasked : lockHeaders lib r = none) (given : lockOf s.db bucket = some lock)
    (enabled : lock.enabled = true) (ruled : lock.defaultRetention = some rule) {date} (dated : ruleDate (clock 4) lock = some date) :
    wp (putObjectRequest lib node bucket key r clock) (fun answer s' => ∀ object, answer = .ok object →
      Written bucket key object.versionID (some ⟨rule.mode,appliedDate (clock 4) date rule.retainUntilDate⟩) s'.db) (fun _ _ => True) s := by
  rw [putObjectRequest,wpBind]
  refine wpLax (stepsReached home unasked enabled ruled dated 8 ⟨rfl,given⟩) fun phase s' reached => ?_
  obtain ⟨_,reached⟩ := reached
  cases phase with
  | answered answer =>
    rintro object rfl
    exact reached
  | waiting | checked _ | stored _ _ | recorded _ _ _ =>
    rintro object same
    contradiction

end

section
variable {node : Node} {bucket key : Bytes} {rule : Retention} {kept : Option Retention} {s : State}

theorem putObjectCarries {lock} (call : Call) (data : Bytes) (headers : Headers) (given : lockOf s.db bucket = some lock)
    (enabled : lock.enabled = true) (ruled : lock.defaultRetention = some rule) :
    wp (putObject node call bucket key data headers) (fun object s' => Written bucket key object.versionID (some rule) s'.db)
    (fun _ _ => True) s := by
  rw [putObject,wpBind]
  refine wpLax (storeUnrecorded call data headers (managerRule given enabled ruled)) fun pending s₁ done => ?_
  obtain ⟨same,unrecorded⟩ := done
  refine wpLax (recordWritten unrecorded.home unrecorded.keyed rfl unrecorded.plain (same ▸ given)) fun object s₂ done => ?_
  obtain ⟨rfl,written,_⟩ := done
  exact unrecorded.retention ▸ written

theorem cannedWritten {id} (home : bucket ≠ []) (named : key ≠ []) (r : Request) (now : Int) :
    Keeps (fun s => Written bucket key id kept s.db) (applyObjectCannedACLHeader node bucket key r now) := by
  unfold applyObjectCannedACLHeader
  cases cannedACL r with
  | none => exact .pure _
  | some acl => exact .ignore (setterWritten (.acl (some acl)) (by simp) (by simp) home named)

theorem getObjectRecords {P : Database → Prop} (sourceBucket sourceKey version : Bytes) :
    Keeps (fun s => P s.db) (getObject node sourceBucket sourceKey version) := by
  have reads : Keeps (fun s => P s.db) (recordToRead sourceBucket sourceKey version) :=
    .ite (fun _ => .gets _) (fun _ => .bind (.observe _) fun _ => .pure _)
  refine .bind (.check _ _) fun _ => .bind reads fun record =>
    .bind (.mapError _ (keepsStorage _)) fun found => ?_
  cases record with
  | none => exact .observe _
  | some obj => exact .ite (fun _ => .fail _) (fun _ => .observe _)

theorem sourceTagsRecords {P : Database → Prop} (sourceBucket sourceKey version : Bytes) :
    Keeps (fun s => P s.db) (sourceTags node sourceBucket sourceKey version) := by
  have reads : Keeps (fun s => P s.db) (getObjectTagging node sourceBucket sourceKey version) := by
    refine .bind (fun s holds => ?_) fun _ => .pure _
    exact wpMono (getForVersionSpec node sourceBucket sourceKey version s) (fun _ _ spec => spec.1 ▸ holds) (fun _ _ same => same ▸ holds)
  refine .bind reads.attempt fun tags => ?_
  cases tags <;> exact .pure _

def Leaves (bucket key : Bytes) (kept : Option Retention) (answer : Answer) (s : State) : Prop :=
  ∀ object, answer = .ok object → Written bucket key object.versionID kept s.db

theorem refused {code} : Leaves bucket key kept (.error code) s := fun _ same => by contradiction

section
variable {lock} (home : bucket ≠ []) (named : key ≠ []) (given : lockOf s.db bucket = some lock) (enabled : lock.enabled = true)
    (ruled : lock.defaultRetention = some rule)
include home named given enabled ruled

theorem copyFoundCarries {lib r clock} (sourceBucket sourceKey version : Bytes) (source : Object) (data : Option Bytes) :
    wp (copyFound node bucket key r clock lib sourceBucket sourceKey version source data) (Leaves bucket key (some rule)) (fun _ _ => True) s := by
  unfold copyFound
  rw [wpIte]
  refine ⟨fun _ => refused,fun _ => ?_⟩
  rw [wpIte]
  refine ⟨fun _ => refused,fun _ => ?_⟩
  rw [wpIte]
  refine ⟨fun _ => refused,fun _ => ?_⟩
  split
  · exact refused
  · exact refused
  rw [wpBind,wpAttempt]
  refine wpMono (putObjectCarries _ _ _ given enabled ruled) (fun object s₁ written => ?_) (fun _ _ _ => refused)
  rw [wpBind]
  refine wpLax (cannedWritten home named _ _ s₁ written) fun _ s₂ written => ?_
  have tags (m : Action State Empty (Option (List (Bytes × Bytes))))
    (quiet : Keeps (fun s => Written bucket key object.versionID (some rule) s.db) m) :
      wp m (fun tags s₃ => wp (copyTags node bucket key r tags object (clock 2)) (Leaves bucket key (some rule)) (fun _ _ => True) s₃)
        (fun _ _ => True) s₂ := by
    refine wpLax (quiet s₂ written) fun tags s₃ written => ?_
    cases tags with
    | none =>
      rintro _ same
      cases same
      exact written
    | some tags =>
      rw [copyTags,wpBind,wpAttempt]
      refine wpMono (setterWritten (.tagging (some tags)) (by simp) (by simp) home named s₃ written)
        (fun _ s₄ written => ?_) (fun _ _ _ => refused)
      rintro _ same
      cases same
      exact written
  rw [wpIte]
  refine ⟨fun _ => ?_,fun _ => ?_⟩
  · rw [wpBind]
    exact tags _ (sourceTagsRecords _ _ _)
  · exact tags _ (.pure _)

theorem copyCarries {lib r clock bucketPath} :
    wp (copyObject node bucket key r clock lib bucketPath) (Leaves bucket key (some rule)) (fun _ _ => True) s := by
  unfold copyObject
  split
  · exact refused
  rw [wpBind,wpAttempt]
  refine wpMono (getObjectRecords (P := fun db => lockOf db bucket = some lock) _ _ _ s given) (fun found s₁ given => ?_) (fun e s₁ _ => ?_)
  · exact copyFoundCarries home named given enabled ruled _ _ _ _ _
  split
  · contradiction
  · exact refused
  · exact refused

end

theorem postCarries {lock} (call : Call) (form : PostForm) (given : lockOf s.db bucket = some lock)
    (enabled : lock.enabled = true) (ruled : lock.defaultRetention = some rule) :
    wp (handlePresignedPost node call bucket key form) (Leaves bucket key (some rule)) (fun _ _ => True) s := by
  rw [handlePresignedPost,wpBind,wpAttempt]
  refine wpMono (putObjectCarries _ _ _ given enabled ruled) (fun object s₁ written => ?_) (fun _ _ _ => refused)
  rw [wpIte]
  refine ⟨fun _ => refused,fun _ => ?_⟩
  rintro _ same
  cases same
  exact written

theorem completeWritten {call uploadID parts upload} (found : s.db.getMultipartUpload uploadID = .ok upload) :
    wp (doCompleteMultipartUpload node call uploadID parts) (fun object s' => Written upload.bucket upload.key object.versionID none s'.db)
      (fun _ _ => True) s := by
  have anything {α : Type} (m : Action State Error α) s : wp m (fun _ _ => True) (fun _ _ => True) s := wpOfState trivial
  refine completeBy trivial (fun _ => trivial) ?_
  intro upload' total etag found' _ enabled existing _ version path _ _ _
  cases found.symm.trans found'
  refine wpLax (anything _ s) fun _ s₁ _ => wpLax (anything _ s₁) fun sizes s₂ _ => ?_
  refine wpLax (saveWritten rfl rfl rfl fun off => if_neg (by simpa using off)) fun _ s₃ saved => ?_
  have cleaned : Keeps (fun s' : State => Follows node.sorting upload.bucket call.now (fun _ => False) s₃.db s'.db) _ :=
    followsCleanup upload.bucket uploadID sizes.1 existing parts enabled
  refine wpLax (cleaned s₃ (.refl _)) fun _ s₄ follows => ?_
  exact follows.keeps (fun quiet written => written.quiet quiet) (fun never => never.elim) saved.1

theorem completeCarries {r clock uploadID parts} (home : bucket ≠ []) (named : key ≠ [])
    (addressed : ∀ upload, s.db.getMultipartUpload uploadID = .ok upload → upload.bucket = bucket ∧ upload.key = key) :
    wp (completeMultipartUpload node bucket key r clock uploadID parts) (Leaves bucket key none) (fun _ _ => True) s := by
  rw [completeMultipartUpload,wpBind,wpGets,wpIte]
  refine ⟨fun _ => refused,fun _ => ?_⟩
  rw [wpBind,wpAttempt]
  cases found : s.db.getMultipartUpload uploadID with
  | error e =>
    rw [doCompleteMultipartUpload,wpBind,getUpload,wpObserve,found]
    exact refused
  | ok upload =>
    obtain ⟨rfl,rfl⟩ := addressed upload found
    refine wpMono (completeWritten found) (fun object s₁ written => ?_) (fun _ _ _ => refused)
    rw [wpBind]
    refine wpLax (cannedWritten home named _ _ s₁ written) fun _ s₂ written => ?_
    rintro _ same
    cases same
    exact written

end

def Covers (clock : Nat → Int) (lock : ObjectLock) (rule : Retention) (due : Int) : Creation → Prop
  | .put _ => ∀ date, ruleDate (clock 4) lock = some date → due ≤ appliedDate (clock 4) date rule.retainUntilDate
  | .copy _ => due ≤ rule.retainUntilDate
  | .post _ _ => due ≤ rule.retainUntilDate
  | .complete _ _ _ => False

theorem ruleDated {now due lock} (dated : ruleDate now lock = some due) (later : Int) : ∃ date, ruleDate later lock = some date := by
  unfold ruleDate at dated ⊢
  split at dated
  · exact ⟨_,rfl⟩
  · exact ⟨_,rfl⟩
  · contradiction

def Addressed (bucket key : Bytes) (s : State) : Creation → Prop
  | .complete _ uploadID _ => ∀ upload, s.db.getMultipartUpload uploadID = .ok upload → upload.bucket = bucket ∧ upload.key = key
  | _ => True

def pinnedID : Creation → Bytes
  | .put r | .copy r | .complete r _ _ => r.call.replicatedVersionID
  | .post call _ => call.replicatedVersionID

-- The retention call writes the record under the key that JSON gives back, so the key has to be UTF-8.
-- Only the cluster's own requests pin a version ID.
structure FromClient (key : Bytes) (creation : Creation) : Prop where
  named : key ≠ []
  text : Utf8.Text key
  unpinned : pinnedID creation = []

def Unlocked (lib : Library) : Creation → Prop
  | .put r => lockHeaders lib r = none
  | _ => True

section
variable {lib : CopyLibrary} {node : Node} {bucketPath : Bytes → Bytes} {bucket key : Bytes} {clock : Nat → Int} {creation : Creation}
  {lock : ObjectLock} {rule : Retention} {due : Int} {s s' : State} {object : Object}

theorem carriedIff {id mode kept} (written : Written bucket key id kept s.db) :
    (∃ record until_, s.db.record bucket key id = some record ∧ record.retention = some ⟨mode,until_⟩ ∧ due ≤ until_) ↔
      ∃ until_, kept = some ⟨mode,until_⟩ ∧ due ≤ until_ := by
  obtain ⟨r,found,retained⟩ := written.record
  constructor
  · rintro ⟨_,until_,here,locked,late⟩
    cases (found.symm.trans here)
    exact ⟨until_,retained.symm.trans locked,late⟩
  · rintro ⟨until_,rfl,late⟩
    exact ⟨r,until_,found,retained,late⟩

theorem datedIff {id mode date} (written : Written bucket key id (some ⟨mode,date⟩) s.db) :
    (∃ record until_, s.db.record bucket key id = some record ∧ record.retention = some ⟨mode,until_⟩ ∧ due ≤ until_) ↔ due ≤ date := by
  rw [carriedIff written]
  constructor
  · rintro ⟨_,same,late⟩
    cases same
    exact late
  · exact fun late => ⟨date,rfl,late⟩

end

/-! A rule of one day, stored as the lock's configuration stores it, without a date. -/

def dailyLock : ObjectLock := { enabled := true, defaultRetention := some ⟨governance, zeroTime⟩, days := some 1 }

def lockedBucket : State where
  db := { emptyDatabase with
    buckets := empty.set (bucketKey [] (ascii "b"))
      { name := ascii "b", tenantID := [], versioningStatus := some (ascii "Enabled"), objectLock := some dailyLock
        objectCount := 0, totalSize := 0, quota := none } }
  files := Tree.empty
  tenants := empty

def noLibrary : CopyLibrary := { parseTime := fun _ => none, parseQuery := fun _ => none, parseHTTPTime := fun _ => none, pathUnescape := some }

def seconds (n : Nat) : Int := fromSeconds n

def serveHere (creation : Creation) : Except Empty Answer × State :=
  creation.serve noLibrary ManagerRuns.smallNode id (ascii "b") (ascii "k") seconds lockedBucket

def retentionMade : Except Empty Answer × State → Option (Bytes × Option (Option Retention))
  | (.ok (.ok object), s) => some (object.versionID, (s.db.record (ascii "b") (ascii "k") object.versionID).map retention)
  | _ => none

theorem servedOf {result v found} (shown : retentionMade result = some (v, found)) : ∃ object s', result = (.ok (.ok object), s') ∧
      (s'.db.record (ascii "b") (ascii "k") object.versionID).map retention = found := by
  unfold retentionMade at shown
  split at shown <;> try contradiction
  rename_i object s'
  simp only [Option.some.injEq,Prod.mk.injEq] at shown
  exact ⟨object,s',rfl,shown.2⟩

def plainPut : Creation := .put ⟨ManagerRuns.callAt 0, none, ascii "data", empty⟩
def plainPost : Creation := .post (ManagerRuns.callAt 0) ⟨empty, ascii "data"⟩

end MaxIOFS.DefaultRetention
