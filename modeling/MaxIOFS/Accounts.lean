import MaxIOFS.Completions
import MaxIOFS.Totals

/-! What the calls do to the records and to the counters kept beside them. A weighing sums the
records of the buckets under one path; the counters are those of the bucket and of its tenant. -/
namespace MaxIOFS.Accounts
open ByteString (Bytes ascii)
open OrderedStore Effects MetadataStore Records ObjectManager RecordChanges VersionHistory VersionMoves
    Filesystem StoredObjects PartFiles Completions Totals

structure Weighing where
  front : Bytes
  (object version : ObjectMetadata → Int)
  stamp : ∀ now obj, object (stamped now obj) = object obj
  demote : ∀ obj, version (demoted obj) = version obj
  folder : ∀ now bucket key, object (folderObject now bucket key) = 0

namespace Weighing

def objectWeight (W : Weighing) (q : Bytes) (obj : ObjectMetadata) : Int := if ascii "obj:" ++ W.front <+: q then W.object obj else 0

def versionWeight (W : Weighing) (q : Bytes) (obj : ObjectMetadata) : Int := if ascii "version:" ++ W.front <+: q then W.version obj else 0

def total (W : Weighing) (db : Database) : Int := Totals.total W.objectWeight db.objects + Totals.total W.versionWeight db.versions

def Covers (W : Weighing) (bucket : Bytes) : Prop := W.front <+: bucket ++ colon

def current (W : Weighing) (db : Database) (bucket key : Bytes) : Int := ((db.objects.get (objectKey bucket key)).map W.object).getD 0

def standing (W : Weighing) (db : Database) (bucket key v : Bytes) : Int :=
  ((db.versions.get (objectVersionKey bucket key v)).map W.version).getD 0

def gain (W : Weighing) (enabled : Bool) (db : Database) (obj : ObjectMetadata) : Int :=
  if enabled then W.object (marked obj) + W.version (marked obj) - W.current db obj.bucket obj.key - W.standing db obj.bucket obj.key obj.versionID
  else W.object obj - W.current db obj.bucket obj.key

end Weighing

section
variable {W : Weighing} {db db' : Database} {bucket key v : Bytes} {now : Int}

section
variable (covers : W.Covers bucket)
include covers

theorem objectCovered (key : Bytes) (obj : ObjectMetadata) : W.objectWeight (objectKey bucket key) obj = W.object obj := by
  refine if_pos ?_
  obtain ⟨rest,shape⟩ := covers
  exact ⟨rest ++ key,by simp [objectKey,← shape]⟩

theorem versionCovered (key v : Bytes) (obj : ObjectMetadata) : W.versionWeight (objectVersionKey bucket key v) obj = W.version obj := by
  refine if_pos ?_
  obtain ⟨rest,shape⟩ := covers
  exact ⟨rest ++ key ++ colon ++ v,by simp [objectVersionKey,versionPrefix,← shape]⟩

theorem currentWeight (db : Database) (key : Bytes) :
    weightOf W.objectWeight (objectKey bucket key) (db.objects.get (objectKey bucket key)) = W.current db bucket key := by
  unfold Weighing.current
  cases db.objects.get (objectKey bucket key) with
  | none => rfl
  | some obj => exact objectCovered covers key obj

theorem standingWeight (db : Database) (key v : Bytes) :
    weightOf W.versionWeight (objectVersionKey bucket key v) (db.versions.get (objectVersionKey bucket key v)) = W.standing db bucket key v := by
  unfold Weighing.standing
  cases db.versions.get (objectVersionKey bucket key v) with
  | none => rfl
  | some obj => exact versionCovered covers key v obj

end

theorem demotionsWeight (W : Weighing) (db : Database) (bucket key : Bytes) : ∀ e ∈ db.demotions bucket key,
    weightOf W.versionWeight e.1 (db.versions.get e.1) = W.versionWeight e.1 e.2 := by
  intro e mem
  obtain ⟨_,listed,rfl⟩ := List.mem_map.mp mem
  obtain ⟨found,_⟩ := Store.memScan.mp (List.mem_filter.mp listed).1
  rw [found]
  unfold weightOf Weighing.versionWeight
  rw [Option.map_some,Option.getD_some,W.demote]

theorem totalPut {obj} (covers : W.Covers obj.bucket) (plain : obj.versionID = []) (done : db.putObject now obj = .ok db') :
    W.total db' = W.total db - W.current db obj.bucket obj.key + W.object obj := by
  obtain ⟨rfl,_⟩ := putObjectWrites done
  have id : (stamped now obj).versionID = [] := plain
  have written := totalSet W.objectWeight db.objects (objectKey obj.bucket obj.key) (stamped now obj)
  rw [currentWeight covers,objectCovered covers,W.stamp] at written
  simp only [Weighing.total,writeObject,id,if_true]
  change total W.objectWeight (db.objects.set (objectKey obj.bucket obj.key) (stamped now obj)) + _ = _
  omega

theorem totalPutVersion {obj version} (covers : W.Covers obj.bucket)
    (latest : version.isLatest = true) (done : db.putObjectVersion obj version = .ok db') :
    W.total db' = W.total db - W.current db obj.bucket obj.key - W.standing db obj.bucket obj.key version.versionID +
      W.object (versioned obj version) + W.version (versioned obj version) := by
  obtain ⟨rfl,_⟩ := putVersionWrites done
  have same := demotionsWeight W db obj.bucket obj.key
  have distinct := demotionKeys db obj.bucket obj.key
  have objects := totalSet W.objectWeight db.objects (objectKey obj.bucket obj.key) (versioned obj version)
  have versions := totalSet W.versionWeight (db.versions.setAll (db.demotions obj.bucket obj.key))
    (objectVersionKey obj.bucket obj.key version.versionID) (versioned obj version)
  rw [currentWeight covers,objectCovered covers] at objects
  rw [weightSetAll distinct same,totalSetAll distinct same,standingWeight covers,versionCovered covers] at versions
  simp only [Weighing.total,writeVersion,latest,if_true]
  omega

theorem totalErase (covers : W.Covers bucket) (done : db.deleteObject bucket key = .ok db') :
    W.total db' = W.total db - W.current db bucket key := by
  obtain ⟨_,_,rfl⟩ := deleteObjectErases done
  have erased := totalDelete W.objectWeight db.objects (objectKey bucket key)
  rw [currentWeight covers] at erased
  simp only [Weighing.total]
  omega

theorem totalDrop (covers : W.Covers bucket) (done : db.deleteObjectVersion bucket key v = .ok db') :
    W.total db' = W.total db - W.standing db bucket key v := by
  obtain ⟨_,_,rfl⟩ := deleteVersionErases done
  have dropped := totalDelete W.versionWeight db.versions (objectVersionKey bucket key v)
  rw [standingWeight covers] at dropped
  simp only [Weighing.total]
  omega

end

abbrev Buckets := Store Bytes BucketMetadata
abbrev Tenants := Store Bytes Tenant

def charged (bucket : Bytes) (count size : Int) (buckets : Buckets) : Buckets :=
  let k := bucketKey (parseBucketPath bucket).1 (parseBucketPath bucket).2
  match buckets.get k with
  | none => buckets
  | some found => buckets.set k
      { found with
        objectCount := max 0 (found.objectCount + count)
        totalSize := max 0 (found.totalSize + size) }

def used (bucket : Bytes) (change : Tenants → Bytes → Tenants) (tenants : Tenants) : Tenants :=
  if (parseBucketPath bucket).1 = [] then tenants else change tenants (parseBucketPath bucket).1

def putCharge (bucket : Bytes) (size : Int) (enabled : Bool) (existing : Option ObjectMetadata) (buckets : Buckets) : Buckets :=
  if enabled then charged bucket (if visible existing then 0 else 1) size buckets
  else match existing with
    | none => charged bucket 1 size buckets
    | some obj => if size - obj.size = 0 then buckets else charged bucket 0 (size - obj.size) buckets

def putUsage (bucket : Bytes) (size : Int) (enabled : Bool) (existing : Option ObjectMetadata) (tenants : Tenants) : Tenants :=
  used bucket (fun tenants id => incrementTenantStorage tenants id (if enabled then size else match existing with
    | none => size
    | some obj => size - obj.size)) tenants

section
variable {bucket : Bytes} {count size : Int} {enabled : Bool} {existing : Option ObjectMetadata} {s : State}

variable (bucket count size s) in
theorem bucketMetricsIs : bucketMetrics bucket count size s =
    (.ok (), { s with db := { s.db with buckets := charged bucket count size s.db.buckets } }) := by
  unfold bucketMetrics charged ignore database Database.updateBucketMetrics
  dsimp only
  cases s.db.buckets.get (bucketKey (parseBucketPath bucket).1 (parseBucketPath bucket).2) <;> rfl

theorem tenantStorageIs (change : Tenants → Bytes → Tenants) (s : State) :
    tenantStorage bucket change s = (.ok (), { s with tenants := used bucket change s.tenants }) := by
  by_cases global : (parseBucketPath bucket).1 = []
  · rw [tenantStorage,used,if_pos global,if_pos global]
    rfl
  · rw [tenantStorage,used,if_neg global,if_neg global]
    rfl

theorem putMetricsIs : updateBucketMetricsAfterPut bucket size enabled existing s =
    (.ok (), { s with db := { s.db with buckets := putCharge bucket size enabled existing s.db.buckets } }) := by
  unfold updateBucketMetricsAfterPut putCharge
  cases enabled with
  | true =>
    rw [if_pos rfl]
    split <;> exact bucketMetricsIs ..
  | false =>
    rw [if_neg Bool.false_ne_true]
    cases existing with
    | none => exact bucketMetricsIs ..
    | some obj =>
      dsimp only
      split
      · rfl
      · exact bucketMetricsIs ..

theorem putTenantIs : updateTenantQuotaAfterPut bucket size enabled existing s =
    (.ok (), { s with tenants := putUsage bucket size enabled existing s.tenants }) := by
  unfold updateTenantQuotaAfterPut
  cases existing <;> exact tenantStorageIs _ s

end

structure Booked (bucket : Bytes) (gain : Weighing → Int) (buckets : Buckets → Buckets) (tenants : Tenants → Tenants) (s s' : State) : Prop where
  records : ∀ W : Weighing, W.Covers bucket → W.total s'.db = W.total s.db + gain W
  buckets : s'.db.buckets = buckets s.db.buckets
  tenants : s'.tenants = tenants s.tenants

def Untouched (s s' : State) : Prop := s'.db = s.db ∧ s'.tenants = s.tenants

def Written (enabled : Bool) (obj : ObjectMetadata) (s s' : State) : Prop :=
  Booked obj.bucket (fun W => W.gain enabled s.db obj) (putCharge obj.bucket obj.size enabled (stored s obj.bucket obj.key))
    (putUsage obj.bucket obj.size enabled (stored s obj.bucket obj.key)) s s'

section
variable {node : Node} {call : Call} {bucket key : Bytes} {enabled : Bool} {s start : State} {gain : Weighing → Int}
  {buckets : Buckets → Buckets} {tenants : Tenants → Tenants}

theorem Untouched.files {t files} (same : Untouched s t) : Untouched s { t with files} := same

theorem Booked.files {t files} (booked : Booked bucket gain buckets tenants start t) : Booked bucket gain buckets tenants start { t with files} :=
  ⟨booked.records,booked.buckets,booked.tenants⟩

theorem Booked.put (booked : Booked bucket gain id id start s) (size : Int) (enabled : Bool) (existing : Option ObjectMetadata) :
    Booked bucket gain (putCharge bucket size enabled existing) (putUsage bucket size enabled existing) start { s with
        db := { s.db with buckets := putCharge bucket size enabled existing s.db.buckets }
        tenants := putUsage bucket size enabled existing s.tenants } :=
  ⟨booked.records,congrArg (putCharge bucket size enabled existing) booked.buckets,congrArg (putUsage bucket size enabled existing) booked.tenants⟩

theorem saveBooked {object} (plain : enabled = false → object.versionID = []) (s : State) : wp (saveRecord call enabled object)
      (fun _ s' => Booked object.bucket (fun W => W.gain enabled s.db (toMetadataObject object)) id id s s') (fun _ s' => s' = s) s := by
  refine saveRecordBy (fun on db done => ?_) (fun off db done => ?_) fun _ => rfl
  · subst on
    refine ⟨fun W covers => ?_,putObjectVersionBuckets done,rfl⟩
    rw [totalPutVersion covers rfl done]
    have record : versioned (toMetadataObject object) (latestVersion object) = marked (toMetadataObject object) := rfl
    rw [record]
    change _ - _ - W.standing s.db object.bucket object.key object.versionID + _ + _ =
      _ + (_ + _ - _ - W.standing s.db object.bucket object.key object.versionID)
    omega
  · subst off
    refine ⟨fun W covers => ?_,putObjectBuckets done,rfl⟩
    rw [totalPut covers (plain rfl) done,Weighing.gain,if_neg Bool.false_ne_true]
    omega

theorem foldersBooked : Surely (Booked bucket gain buckets tenants start) (ensureImplicitFolders call bucket key) := by
  refine .each fun folder _ s booked => ?_
  rw [wpBind,wpGets]
  cases existing : stored s bucket folder with
  | some obj => exact booked
  | none =>
    rw [wpIgnore,wpDatabase]
    cases done : s.db.putObject call.now (folderObject call.now bucket folder) with
    | error e => exact booked
    | ok db =>
      obtain ⟨_,home,named,_⟩ := putObjectWrites done
      refine ⟨fun W covers => ?_,(putObjectBuckets done).trans booked.buckets,booked.tenants⟩
      have nothing : W.current s.db bucket folder = 0 := by
        have absent : s.db.objects.get (objectKey bucket folder) = none := freeCurrent home named (storedNone existing)
        rw [Weighing.current,absent]
        rfl
      have weightless := W.folder call.now bucket folder
      have before := booked.records W covers
      have home : W.Covers (folderObject call.now bucket folder).bucket := covers
      have after := totalPut home rfl done
      change W.total db = _ - W.current s.db bucket folder + _ at after
      change W.total db = _
      omega

theorem finishBooked {pending existing} (home : pending.object.bucket = bucket)
    (booked : Booked bucket gain id id start s) : wp (finishPut call pending existing)
      (fun _ s' => Booked bucket gain (putCharge bucket pending.object.size pending.versioningEnabled existing)
        (putUsage bucket pending.object.size pending.versioningEnabled existing) start s') (fun _ _ => False) s := by
  rw [finishPut,home,wpBind]
  refine wpMono (foldersBooked s booked) (fun _ s₁ booked => ?_) (fun _ _ never => never)
  rw [wpBind]
  refine wpIs putMetricsIs ?_
  refine wpIs putTenantIs ?_
  exact booked.put _ _ _

theorem storeUntouched (node : Node) (call : Call) (bucket key data : Bytes) (headers : Headers) (s : State) :
    wp (storeObject node call bucket key data headers) (fun pending s' => Untouched s s' ∧
      pending.versioningEnabled = isBucketVersioningEnabled s bucket ∧
        chooseVersion call (isBucketVersioningEnabled s bucket) = .ok pending.object.versionID ∧
        ∃ final retention, pending.object = newObject node call bucket key data headers pending.object.versionID final retention)
      (fun _ s' => Untouched s s') s := by
  refine storeObjectBy (fun _ _ => ⟨rfl,rfl⟩) ?_
  intro id _ chosen _ _ path
  refine wpMono (filesStoreData (I := Untouched s) Untouched.files node call _ _ _ headers s ⟨rfl,rfl⟩)
    (fun _ s₁ same => ?_) (fun _ _ same => same)
  refine wpMono (filesStorage (I := Untouched s) Untouched.files _ s₁ same) (fun final s₂ same => ?_) (fun _ _ same => same)
  exact ⟨same,rfl,chosen,final,_,rfl⟩

theorem Booked.since {mid s'} (same : Untouched s mid) (booked : Booked bucket gain buckets tenants mid s') :
    Booked bucket gain buckets tenants s s' :=
  ⟨fun W covers => same.1 ▸ booked.records W covers,same.1 ▸ booked.buckets,same.2 ▸ booked.tenants⟩

theorem recordBooked {pending} (plain : pending.versioningEnabled = false → pending.object.versionID = []) (s : State) :
    wp (recordObject call pending) (fun obj s' => obj = pending.object ∧ Written pending.versioningEnabled (toMetadataObject obj) s s')
      (fun _ s' => s' = s) s := by
  rw [recordObject,wpBind,wpGets,wpBind]
  refine wpMono (saveBooked plain s) (fun _ s₁ booked => ?_) (fun _ _ same => same)
  rw [wpBind]
  refine wpSure (finishBooked rfl booked) fun _ s₂ booked => ?_
  exact ⟨rfl,booked⟩

theorem putBooked {node call bucket key data headers s} : wp (putObject node call bucket key data headers)
      (fun obj s' => Written (isBucketVersioningEnabled s bucket) (toMetadataObject obj) s s' ∧
        chooseVersion call (isBucketVersioningEnabled s bucket) = .ok obj.versionID ∧
        ∃ final retention, obj = newObject node call bucket key data headers obj.versionID final retention) (fun _ s' => Untouched s s') s := by
  rw [putObject,wpBind]
  refine wpMono (storeUntouched node call bucket key data headers s) (fun pending s₁ stored => ?_) (fun _ _ same => same)
  obtain ⟨same,mode,chosen,shape⟩ := stored
  have plain : pending.versioningEnabled = false → pending.object.versionID = [] := by
    intro off
    rw [← mode,off] at chosen
    exact (Except.ok.inj chosen).symm
  refine wpMono (recordBooked plain s₁) (fun obj s₂ done => ?_) (fun _ s₂ failed => failed ▸ same)
  obtain ⟨rfl,written⟩ := done
  have written : Written pending.versioningEnabled (toMetadataObject pending.object) s s₂ := by
    unfold Written stored at written ⊢
    rw [same.1] at written
    exact written.since same
  exact ⟨mode ▸ written,chosen,shape⟩

end

section
variable {node : Node} {call : Call} {uploadID bucket : Bytes} {parts : List Part} {enabled : Bool} {s start : State} {gain : Weighing → Int}

theorem Booked.aborted {buckets tenants db} (booked : Booked bucket gain buckets tenants start s)
    (done : s.db.abortMultipartUpload uploadID = .ok db) :
    Booked bucket gain buckets tenants start { s with db} := by
  unfold Database.abortMultipartUpload at done
  cases found : s.db.getMultipartUpload uploadID with
  | error e =>
    rw [found] at done
    cases done
  | ok upload =>
    rw [found] at done
    cases done
    exact ⟨booked.records,booked.buckets,booked.tenants⟩

theorem discardBooked {buckets} {tenants} : Surely (ε := Error) (Booked bucket gain buckets tenants start)
    (each parts fun part => ignore (storage (delete (getMultipartPartPath uploadID part.partNumber)))) :=
  .each fun _ _ => .ignore (filesStorage Booked.files _)

theorem cleanupBooked {size existing} (booked : Booked bucket gain id id start s) :
    wp (updateMetricsAndCleanupMultipart bucket uploadID size existing parts enabled)
      (fun _ s' => Booked bucket gain (putCharge bucket size enabled existing) (putUsage bucket size enabled existing) start s')
      (fun _ _ => False) s := by
  rw [updateMetricsAndCleanupMultipart,wpBind]
  refine wpIs putMetricsIs ?_
  rw [wpBind]
  refine wpIs putTenantIs ?_
  have booked := booked.put size enabled existing
  rw [wpBind,wpIgnore,wpDatabase]
  split <;> rename_i done
  · exact discardBooked _ (booked.aborted done)
  · exact discardBooked _ booked

def Completed (node : Node) (call : Call) (uploadID : Bytes) (parts : List Part) (s : State) (obj : Object) (s' : State) : Prop :=
  ∃ upload etag modified, s.db.getMultipartUpload uploadID = .ok upload ∧ etag ≠ [] ∧
    obj = multipartObject upload (if isBucketVersioningEnabled s upload.bucket then generateVersionID call else []) etag
      (recordedSize (partsBytes node.host s.files uploadID parts).length) modified ∧
    Written (isBucketVersioningEnabled s upload.bucket) (toMetadataObject obj) s s'

theorem completeBooked (node : Node) (call : Call) (uploadID : Bytes) (parts : List Part) (s : State) :
    wp (doCompleteMultipartUpload node call uploadID parts) (Completed node call uploadID parts s) (fun _ s' => Untouched s s') s := by
  refine completeBy ⟨rfl,rfl⟩ Untouched.files ?_
  intro upload total etag found _ enabled existing _ version path _ _ computed
  refine wpMono (wpAnd (joinHeld upload) (filesCombine (I := Untouched s) Untouched.files uploadID parts _ s ⟨rfl,rfl⟩))
    (fun _ s₁ combined => ?_) (fun _ _ failed => failed.2)
  obtain ⟨sized,same₁⟩ := combined
  refine wpMono (wpAnd sized (filesEncryptCombined (I := Untouched s) Untouched.files _ upload s₁ same₁))
    (fun sizes s₂ encrypted => ?_) (fun _ _ failed => failed.2)
  obtain ⟨joined,same₂⟩ := encrypted
  refine wpMono (saveBooked (fun off => if_neg (by simpa using off)) s₂) (fun _ s₃ saved => ?_) (fun _ _ failed => failed ▸ same₂)
  rw [same₂.1] at saved
  refine wpSure (cleanupBooked saved) fun _ s₄ booked => ?_
  exact ⟨upload,etag,sizes.2,found,multipartETagPresent computed,by rw [joined.size],booked.since same₂⟩

end

def versionCharge (bucket : Bytes) (deleted : ObjectMetadata) (freed : Int) (next : Option ObjectVersion) (buckets : Buckets) : Buckets :=
  match next with
  | none => if isMetadataDeleteMarker deleted then buckets else charged bucket (-1) (-freed) buckets
  | some ver =>
    if isMetadataDeleteMarker deleted then
      if isVersionDeleteMarker ver then buckets else charged bucket 1 0 buckets
    else if isVersionDeleteMarker ver then charged bucket (-1) (-freed) buckets
    else buckets

section
variable {node : Node} {call : Call} {bucket key v : Bytes} {bypass : Bool} {s : State}

theorem versionMetricsIs {deleted freed next} : metricsAfterVersionDelete bucket deleted freed next s =
    (.ok (), { s with db := { s.db with buckets := versionCharge bucket deleted freed next s.db.buckets } }) := by
  unfold metricsAfterVersionDelete versionCharge
  cases next with
  | none =>
    dsimp only
    split
    · rfl
    · exact bucketMetricsIs ..
  | some ver =>
    dsimp only
    split
    · split
      · rfl
      · exact bucketMetricsIs ..
    split
    · exact bucketMetricsIs ..
    · rfl

theorem permanentBooked : wp (deletePermanently call bucket key bypass)
    (fun _ s' => stored s bucket key = none ∧ Untouched s s' ∨ ∃ obj, stored s bucket key = some obj ∧
      Booked bucket (fun W => -W.current s.db bucket key) (charged bucket (-1) (-obj.size))
        (used bucket (fun tenants id => decrementTenantStorage tenants id obj.size)) s s') (fun _ s' => Untouched s s') s := by
  have start : Untouched s s := ⟨rfl,rfl⟩
  have file {I} files : Surely I (deleteFile bucket key) := .bind (.ignore (filesStorage files _)) fun _ => .update fun _ kept => files kept
  rw [deletePermanently,wpBind,wpGets]
  split
  · rename_i missing
    refine wpSure (file (I := Untouched s) Untouched.files s start) fun _ _ same => .inl ⟨?_,same⟩
    rw [stored,missing]
  · exact start
  rename_i obj read
  rw [wpBind]
  refine checkLockSpec (fun _ => ?_) (fun _ => start)
  obtain ⟨home,named,raw,record,_⟩ := readRecord read
  have found : s.db.objects.get (objectKey bucket key) = some raw := record
  rw [wpBind,deleteRecord,wpDatabase]
  cases done : s.db.deleteObject bucket key with
  | error e =>
    unfold Database.deleteObject at done
    rw [if_neg (by simp [home,named]),found] at done
    contradiction
  | ok db =>
    dsimp only
    have erased : Booked bucket (fun W => -W.current s.db bucket key) id id s { s with db := db } := by
      refine ⟨fun W covers => ?_,deleteObjectBuckets done,rfl⟩
      have after : W.total db = _ := totalErase covers done
      rw [after]
      omega
    rw [wpBind]
    refine wpSure (file Booked.files _ erased) fun _ s₂ erased => ?_
    rw [wpBind]
    refine wpIs (bucketMetricsIs ..) ?_
    refine wpIs (tenantStorageIs ..) ?_
    refine .inr ⟨obj,by rw [stored,read],erased.records,?_,?_⟩
    · exact congrArg (charged bucket (-1) (-obj.size)) erased.buckets
    · exact congrArg (used bucket fun tenants id => decrementTenantStorage tenants id obj.size) erased.tenants

theorem markerBooked : wp (createDeleteMarker call bucket key) (fun versionID s' => chooseVersion call true = .ok versionID ∧
      Booked bucket (fun W => W.gain true s.db (deleteMarkerObject call.now bucket key versionID))
        (fun buckets => if visible (stored s bucket key) then charged bucket (-1) 0 buckets else buckets) id s s')
        (fun _ s' => Untouched s s') s := by
  have start : Untouched s s := ⟨rfl,rfl⟩
  rw [createDeleteMarker,wpBind,wpGets,wpBind,wpObserve]
  cases chosen : chooseVersion call true with
  | error e => exact start
  | ok versionID =>
    dsimp only
    rw [wpBind,wpDatabase]
    cases done : s.db.putObjectVersion (deleteMarkerObject call.now bucket key versionID)
        { versionOf (deleteMarkerObject call.now bucket key versionID) with isLatest := true } with
    | error e => exact start
    | ok db =>
      have records (W : Weighing) (covers : W.Covers bucket) :
          W.total db = W.total s.db + W.gain true s.db (deleteMarkerObject call.now bucket key versionID) := by
        have home : W.Covers (deleteMarkerObject call.now bucket key versionID).bucket := covers
        rw [totalPutVersion home rfl done]
        change _ - _ - W.standing s.db bucket key versionID + W.object (marked _) + W.version (marked _) =
          _ + (_ + _ - _ - W.standing s.db bucket key versionID)
        omega
      have same := putObjectVersionBuckets done
      dsimp only
      rw [wpBind,hideMetrics]
      cases shown : visible (stored s bucket key) with
      | false =>
        refine ⟨rfl,records,?_,rfl⟩
        exact same
      | true =>
        refine wpIs (bucketMetricsIs ..) ?_
        refine ⟨rfl,records,?_,rfl⟩
        exact congrArg (charged bucket (-1) 0) same

def freed (bucket key v : Bytes) (old : ObjectMetadata) (s : State) : Int :=
  if removed (deleteVersionFile bucket key v old.size s).1 then old.size else 0

theorem fileDeleted {db} (size : Int) : (deleteVersionFile bucket key v size { s with db}).1 = (deleteVersionFile bucket key v size s).1 := by
  unfold deleteVersionFile
  split
  · unfold storage mapError within
    cases delete (getVersionedObjectPath bucket key v) s.files with
    | mk result t => cases result <;> rfl
  · rfl

/-- What the deletion of a version books: the drop of its record and, under the latest, the promotion of the next. -/
theorem versionBooked : wp (deleteSpecificVersion node call bucket key v bypass)
    (fun _ s' => ∃ mid target old, Droppable node.sorting bucket key v call.now bypass s.db mid target old ∧
      Booked bucket (fun W => W.total (if target.isLatest then promotion node.sorting bucket key v mid else mid) - W.total s.db)
        (fun buckets => if target.isLatest then versionCharge bucket old (freed bucket key v old s)
          (nextLatest v (s.db.getObjectVersions node.sorting bucket key)) buckets else buckets) id s s') (fun _ s' => Untouched s s') s := by
  have start : Untouched s s := ⟨rfl,rfl⟩
  rw [deleteSpecificVersion,wpBind,wpGets]
  cases listed : (s.db.getObjectVersions node.sorting bucket key).find? (fun ver => decide (ver.versionID = v)) with
  | none => exact start
  | some target =>
    rw [wpBind,getObjectRecord,wpObserve]
    cases read : s.db.getObject bucket key v with
    | error e => cases e <;> exact start
    | ok old =>
      dsimp only
      rw [wpBind]
      refine checkLockSpec (fun unlocked => ?_) (fun _ => start)
      rw [wpBind,wpDatabase]
      cases done : s.db.deleteObjectVersion bucket key v with
      | error e => exact start
      | ok mid =>
        dsimp only
        have able : Droppable node.sorting bucket key v call.now bypass s.db mid target old := ⟨listed,read,unlocked,done⟩
        have same := deleteObjectVersionBuckets done
        have file : Keeps (Untouched { s with db := mid }) (deleteVersionFile bucket key v old.size) := by
          exact .ite (fun _ => filesStorage (I := Untouched { s with db := mid }) Untouched.files _) (fun _ => .pure _)
        have kept := file.after ⟨rfl,rfl⟩
        rw [wpBind]
        refine wpIs (show attempt (deleteVersionFile bucket key v old.size) _ = (.ok _, _) from rfl) ?_
        rw [fileDeleted,wpIte]
        refine ⟨fun latest => ?_,fun older => ?_⟩
        · rw [wpBind]
          refine wpSure (promoteNextSpec ..) fun _ s₂ promoted => ?_
          subst promoted
          refine wpIs versionMetricsIs ?_
          refine ⟨mid,target,old,able,fun W _ => ?_,?_,kept.2⟩
          · rw [if_pos latest]
            rw [kept.1]
            change W.total (promotion node.sorting bucket key v mid) = _
            omega
          · rw [if_pos latest]
            rw [kept.1,promotionBuckets]
            exact congrArg (versionCharge bucket old _ _) same
        · refine ⟨mid,target,old,able,fun W _ => ?_,?_,kept.2⟩
          · rw [if_neg older,kept.1]
            change W.total mid = _
            omega
          · rw [if_neg older,kept.1]
            exact same

end

end MaxIOFS.Accounts
