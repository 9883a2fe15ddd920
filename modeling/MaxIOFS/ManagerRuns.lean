import MaxIOFS.JsonRecords
import MaxIOFS.VersionMoves

/-! Runs of the object manager on one bucket, one call after another. Every call of a run
changes the records only as its kind permits. -/
namespace MaxIOFS.ManagerRuns
open ByteString Effects MetadataStore Records ObjectManager RecordChanges VersionHistory VersionMoves List ObjectMetadata OrderedStore Runs
variable {call : Call} {node : Node} {next s : State} {b : UInt8}

inductive Request where
  | put (key data : Bytes) (headers : Headers)
  | delete (key : Bytes) (bypassGovernance : Bool) (versionID : Bytes)
  | createUpload (uploadID key : Bytes) (headers : Headers)
  | uploadPart (uploadID : Bytes) (partNumber : Int) (data : Bytes)
  | complete (uploadID : Bytes) (parts : List Part)
  | setRetention (key : Bytes) (config : Option Retention) (versionID : Bytes)
  | setLegalHold (key : Bytes) (config : Option Bytes) (versionID : Bytes)
  | setTagging (key : Bytes) (tags : Option (List (Bytes × Bytes))) (versionID : Bytes)
  | setACL (key : Bytes) (acl : Option ACL) (versionID : Bytes)
  | setRestore (key status : Bytes) (expiresAt : Option Int) (versionID : Bytes)
  | updateMetadata (key : Bytes) (updates : StagedCommit.Metadata)

structure Event where
  call : Call
  request : Request

def perform (node : Node) (bucket : Bytes) (s : State) (e : Event) : State :=
  match e.request with
  | .put key data headers => (putObject node e.call bucket key data headers s).2
  | .delete key bypass versionID => (deleteObject node e.call bucket key bypass versionID s).2
  | .createUpload uploadID key headers => (createMultipartUpload e.call uploadID bucket key headers s).2
  | .uploadPart uploadID partNumber data => (uploadPart node e.call uploadID partNumber data s).2
  | .complete uploadID parts => (doCompleteMultipartUpload node e.call uploadID parts s).2
  | .setRetention key config versionID => (setObjectRetention node e.call bucket key config versionID s).2
  | .setLegalHold key config versionID => (setObjectLegalHold node e.call bucket key config versionID s).2
  | .setTagging key tags versionID => (setObjectTagging node e.call bucket key tags versionID s).2
  | .setACL key acl versionID => (setObjectACL node e.call bucket key acl versionID s).2
  | .setRestore key status expiresAt versionID => (setRestoreStatus node e.call bucket key status expiresAt versionID s).2
  | .updateMetadata key updates => (updateObjectMetadata node e.call bucket key updates s).2

def ownUpload (bucket : Bytes) (s : State) : Request → Bool
  | .complete uploadID _ => match s.db.getMultipartUpload uploadID with
    | .ok upload => decide (upload.bucket = bucket) && validateObjectName upload.key
    | .error _ => true
  | _ => true

def step (node : Node) (bucket : Bytes) (s : State) (e : Event) : Option State :=
  if ownUpload bucket s e.request then some (perform node bucket s e) else none

variable {e : Event}

theorem stepPerforms {bucket} (stepped : step node bucket s e = some next) : ownUpload bucket s e.request = true ∧
    next = perform node bucket s e := by
  unfold step at stepped
  split at stepped <;> try contradiction
  rename_i own
  exact ⟨own,(Option.some.inj stepped).symm⟩

structure NewBucket (bucket : Bytes) (s : State) : Prop where
  named : bucket ≠ []
  versions : ∀ q obj, s.db.versions.get q = some obj → ¬ versionSpace bucket <+: q
  objects : ∀ q obj, s.db.objects.get q = some obj → ¬ objectSpace bucket <+: q
  open_ : bucket ∉ s.db.deletedBuckets

theorem NewBucket.filed {bucket} (new : NewBucket bucket s) : Filed bucket s.db :=
  ⟨fun q obj stored inside => (new.versions q obj stored inside).elim,fun q obj stored inside => (new.objects q obj stored inside).elim,new.open_⟩

theorem NewBucket.view {bucket} (new : NewBucket bucket s) (key : Bytes) : view bucket s.db key = Ledger.vacant := by
  refine Ledger.History.ext ?_ (funext fun v => ?_)
  · exact Option.eq_none_iff_forall_ne_some.mpr fun obj stored => new.objects _ obj stored inObjectSpace
  · refine Option.eq_none_iff_forall_ne_some.mpr fun obj stored => ?_
    exact new.versions _ obj (versionsInIff.mp stored).1 (inVersionSpace bucket key v)

def Plain (e : Event) : Prop := ByteString.colon ∉ e.call.replicatedVersionID

instance (e : Event) : Decidable (Plain e) := inferInstanceAs (Decidable (_ ∉ _))

def Request.names : Request → List Bytes
  | .put key _ _ | .delete key _ _ | .createUpload _ key _ => [key]
  | .uploadPart .. | .complete .. => []
  | .setTagging key tags _ => key :: (tags.getD []).flatMap fun tag => [tag.1, tag.2]
  | .setRetention key _ _ | .setLegalHold key _ _ | .setACL key _ _ | .setRestore key _ _ _ | .updateMetadata key _ => [key]

/-- The names that come with the request are UTF-8: what JSON keeps of them is all of them. -/
structure Sent (e : Event) : Prop where
  plain : Plain e
  text : ∀ name ∈ e.call.replicatedVersionID :: e.request.names, Utf8.Text name

instance (e : Event) : Decidable (Sent e) :=
  decidable_of_iff (Plain e ∧ ∀ name ∈ e.call.replicatedVersionID :: e.request.names, Utf8.Text name) ⟨fun both => ⟨both.1, both.2⟩,
    fun sent => ⟨sent.plain, sent.text⟩⟩

def Permitted (s : State) (bucket : Bytes) (e : Event) : Change → Prop :=
  let enabled := isBucketVersioningEnabled s bucket
  match e.request with
  | .put key _ _ => PutChange enabled e.call bucket key
  | .delete key bypass versionID =>
    DeleteChange enabled e.call bucket (resolveFolderDeleteKey s bucket key) bypass versionID
  | .createUpload .. => fun _ => False
  | .uploadPart .. => fun _ => False
  | .complete uploadID _ => fun change => ∃ upload, s.db.getMultipartUpload uploadID = .ok upload ∧
      upload.key ≠ [] ∧ CompleteChange enabled e.call bucket upload.key change
  | .setRetention key config versionID =>
    EditChange s bucket key versionID (Tagging (SetsRetention e.call.now config) tags)
  | .setLegalHold key config versionID => EditChange s bucket key versionID (Tagging (SetsLegalHold config) tags)
  | .setTagging key tags versionID =>
    EditChange s bucket key versionID (Tagging KeepsLock fun _ => empty.setAll (tags.getD []))
  | .setACL key _ versionID => EditChange s bucket key versionID (Tagging KeepsLock tags)
  | .setRestore key _ _ versionID => EditChange s bucket key versionID (Tagging KeepsLock tags)
  | .updateMetadata key _ => EditChange s bucket key [] (Tagging KeepsLock tags)

section
variable {sorting : VersionSort} {bucket : Bytes} {now : Int} {allowed : Change → Prop} {start : Database}

theorem followsUpload (call : Call) (uploadID home key : Bytes) (headers : Headers) :
    Keeps (fun s => Follows sorting bucket now allowed start s.db) (createMultipartUpload call uploadID home key headers) := by
  refine .bind (.check _ _) fun _ => .bind (keepsDatabase fun before done => ?_) fun _ => .pure _
  unfold Database.createMultipartUpload at done
  split at done <;> try contradiction
  cases done
  exact before.quiet ⟨rfl,rfl,rfl,fun _ => rfl,rfl⟩

theorem putPartQuiet {db db' part} (done : db.putPart part = .ok db') : Quiet db db' := by
  obtain ⟨_,rfl⟩ := putPartWrites done
  exact ⟨rfl,rfl,rfl,fun _ => rfl,rfl⟩

theorem followsPart {node call uploadID partNumber data} :
    Keeps (fun s => Follows sorting bucket now allowed start s.db) (uploadPart node call uploadID partNumber data) := by
  refine .bind (.check _ _) fun _ => .bind (.observe _) fun _ =>
    .bind (keepsStorage _) fun _ => .bind (keepsStorage _) fun _ =>
    .bind (.attempt (keepsDatabase fun before done => before.quiet (putPartQuiet done))) fun result => ?_
  cases result with
  | ok _ => exact .pure _
  | error e => exact .bind (.ignore (keepsStorage _)) fun _ => .fail _

end

theorem performFollows {bucket} (own : ownUpload bucket s e.request = true) :
    Follows node.sorting bucket e.call.now (Permitted s bucket e) s.db (perform node bucket s e).db := by
  obtain ⟨call,request⟩ := e
  cases request with
  | put key data headers => exact putObjectFollows node call bucket key data headers s
  | delete key bypass versionID => exact deleteObjectFollows node call bucket key bypass versionID s
  | createUpload uploadID key headers => exact (followsUpload call uploadID bucket key headers).after (.refl _)
  | uploadPart uploadID partNumber data => exact (followsPart).after (.refl _)
  | complete uploadID parts =>
    cases found : s.db.getMultipartUpload uploadID with
    | ok upload =>
      have valid : upload.bucket = bucket ∧ validateObjectName upload.key = true := by
        simpa [ownUpload,found] using own
      have follows : Follows node.sorting upload.bucket call.now _ s.db
        (doCompleteMultipartUpload node call uploadID parts s).2.db := completeFollows found
      rw [valid.1] at follows
      exact follows.allow (fun change ok => ⟨upload,found,validName valid.2,ok⟩)
    | error e =>
      have untouched : (doCompleteMultipartUpload node call uploadID parts s).2.db = s.db := by
        refine wpState (P := fun s' : State => s'.db = s.db) ?_
        rw [doCompleteMultipartUpload,wpBind,getUpload,wpObserve,found]
      change Follows _ _ _ _ _ (doCompleteMultipartUpload node call uploadID parts s).2.db
      rw [untouched]
      exact .refl _
  | setRetention key config versionID => exact setObjectRetentionFollows config
  | setLegalHold key config versionID => exact setObjectLegalHoldFollows config
  | setTagging key tags versionID => exact setObjectTaggingFollows tags
  | setACL key acl versionID => exact setObjectACLFollows acl
  | setRestore key status expiresAt versionID => exact setRestoreStatusFollows status expiresAt
  | updateMetadata key updates => exact updateObjectMetadataFollows updates

def On (bucket : Bytes) (db : Database) : Prop :=
  (db.buckets.get (bucketKey (parseBucketPath bucket).1 (parseBucketPath bucket).2)).map BucketMetadata.versioningStatus =
    some (some (ascii "Enabled"))

theorem onIff {bucket} : isBucketVersioningEnabled s bucket = true ↔ On bucket s.db := by
  unfold isBucketVersioningEnabled bucketOf On Database.getBucket
  cases found : s.db.buckets.get (bucketKey (parseBucketPath bucket).1 (parseBucketPath bucket).2) <;> simp [found]

theorem stepVersioning {bucket} (stepped : step node bucket s e = some next) (on : isBucketVersioningEnabled s bucket = true) :
    isBucketVersioningEnabled next bucket = true := by
  obtain ⟨own,rfl⟩ := stepPerforms stepped
  rw [onIff] at on ⊢
  refine (performFollows own).keeps (fun same holds => (same.status _).trans holds) (fun _ effect holds => ?_) on
  unfold On
  rw [effectBuckets effect]
  exact holds

def Separator (b : UInt8) : Prop := b = ByteString.colon ∨ b = slash

theorem hexPlain {bytes} (mem : b ∈ hex bytes) : ¬ Separator b := by
  have small : ∀ k < 16, hexDigit k ≠ ByteString.colon ∧ hexDigit k ≠ slash := by decide
  obtain ⟨_,_,rfl⟩ := mem_map.mp mem
  obtain ⟨noColon,noSlash⟩ := small _ (Nat.mod_lt _ (by decide))
  exact not_or.mpr ⟨noColon,noSlash⟩

theorem numberPlain {i} (mem : b ∈ formatInt i) : ¬ Separator b := by
  have high : ¬ (ByteString.colon = 45 ∨ 48 ≤ ByteString.colon ∧ ByteString.colon ≤ 57) := by decide
  have low : ¬ (slash = 45 ∨ 48 ≤ slash ∧ slash ≤ 57) := by decide
  rintro (rfl | rfl)
  · exact high (formatIntByte mem)
  · exact low (formatIntByte mem)

theorem generatedPlain (mem : b ∈ generateVersionID call) : ¬ Separator b := by
  unfold generateVersionID at mem
  split at mem
  · rcases mem_append.mp mem with front | last
    · rcases mem_append.mp front with number | dot
      · exact numberPlain number
      rw [mem_singleton.mp (show b ∈ [46] from dot)]
      unfold Separator
      decide
    · exact hexPlain last
  · exact numberPlain mem

theorem generatedPresent (call : Call) : generateVersionID call ≠ [] := by
  have present := formatIntNonempty call.now
  unfold generateVersionID
  split <;> simp [present]

theorem chosenPlain {id} (colonFree : ByteString.colon ∉ call.replicatedVersionID)
    (chosen : chooseVersion call true = .ok id) : ByteString.colon ∉ id ∧ id ≠ [] := by
  unfold chooseVersion at chosen
  rw [if_pos rfl] at chosen
  split at chosen
  · cases chosen
    exact ⟨fun mem => generatedPlain mem (.inl rfl),generatedPresent call⟩
  rename_i pinned
  split at chosen <;> try contradiction
  cases chosen
  exact ⟨colonFree,pinned⟩

theorem chosenSegment {id} (chosen : chooseVersion call true = .ok id) : slash ∉ id ∧ id ≠ [] := by
  unfold chooseVersion at chosen
  rw [if_pos rfl] at chosen
  split at chosen
  · cases chosen
    exact ⟨fun mem => generatedPlain mem (.inr rfl),generatedPresent call⟩
  rename_i pinned
  split at chosen <;> try contradiction
  rename_i valid
  cases chosen
  simp only [validateReplicatedVersionID,Bool.and_eq_true,Bool.not_eq_true',decide_eq_false_iff_not] at valid
  exact ⟨valid.1.1.2,pinned⟩

theorem versionedPlain {id} (segment : slash ∉ id) (present : id ≠ []) (bucket key : Bytes) :
    hasSuffix [slash] (getVersionedObjectPath bucket key id) = false := by
  rw [Bool.eq_false_iff]
  intro ends
  obtain ⟨_,same⟩ := hasSuffixIff.mp ends
  obtain ⟨_,shown⟩ := Option.ne_none_iff_exists'.mp (fun none_ => present (List.getLast?_eq_none_iff.mp none_))
  have ending := congrArg List.getLast? same
  rw [getVersionedObjectPath,List.getLast?_append,List.getLast?_append,shown] at ending
  simp only [List.getLast?_singleton,Option.some_or,Option.some.injEq] at ending
  exact segment (ending ▸ List.mem_of_getLast? shown)

theorem permittedTame {bucket change} (colonFree : ByteString.colon ∉ e.call.replicatedVersionID) (permitted : Permitted s bucket e change) :
    Tame bucket change := by
  obtain ⟨call,request⟩ := e
  have edits {key v} {rel} (ok : EditChange s bucket key v rel change) : Tame bucket change := by
    cases change <;> simp only [EditChange] at ok <;> try trivial
    exact ⟨ok.2.2.1,ok.2.2.2.2⟩
  cases request with
  | put key data headers =>
    cases change <;> simp only [Permitted,PutChange] at permitted
    · obtain ⟨_,named,home,key_,chosen,_⟩ := permitted
      obtain ⟨plain,version⟩ := chosenPlain colonFree chosen
      exact ⟨⟨home,key_ ▸ named,plain⟩,version⟩
    · exact ⟨permitted.2.1,permitted.2.2.2⟩
    · exact ⟨permitted.1,permitted.2.2⟩
  | delete key bypass versionID =>
    cases change <;> simp only [Permitted] at permitted <;> try trivial
    obtain ⟨_,_,named,chosen,same⟩ := permitted
    obtain ⟨plain,version⟩ := chosenPlain colonFree chosen
    rw [same] at plain version ⊢
    exact ⟨⟨rfl,named,plain⟩,version⟩
  | createUpload uploadID key headers => exact permitted.elim
  | uploadPart uploadID partNumber data => exact permitted.elim
  | complete uploadID parts =>
    obtain ⟨_,_,named,ok⟩ := permitted
    cases change <;> simp only [CompleteChange] at ok
    · obtain ⟨_,home,key_,id,_⟩ := ok
      have colonFree : ByteString.colon ∉ generateVersionID call := fun mem => generatedPlain mem (.inl rfl)
      exact ⟨⟨home,key_ ▸ named,id ▸ colonFree⟩,id ▸ generatedPresent call⟩
    · exact ⟨ok.2.1,ok.2.2.2⟩
  | setRetention key config versionID => exact edits permitted
  | setLegalHold key config versionID => exact edits permitted
  | setTagging key tags versionID => exact edits permitted
  | setACL key acl versionID => exact edits permitted
  | setRestore key status expiresAt versionID => exact edits permitted
  | updateMetadata key updates => exact edits permitted

theorem filedSame {bucket db db'} (filed : Filed bucket db) (objects : db'.objects = db.objects)
    (versions : db'.versions = db.versions) (deleted : db'.deletedBuckets = db.deletedBuckets) : Filed bucket db' :=
  ⟨versions ▸ filed.versions,objects ▸ filed.objects,deleted ▸ filed.open_⟩

theorem stepFiled {bucket} (home : bucket ≠ []) (filed : Filed bucket s.db)
    (plain : Plain e) (stepped : step node bucket s e = some next) : Filed bucket next.db := by
  obtain ⟨own,rfl⟩ := stepPerforms stepped
  refine (performFollows own).keeps (fun same holds => filedSame holds same.objects same.versions same.deleted)
    (fun permitted effect holds => ?_) filed
  exact (effectMoves holds home (permittedTame plain permitted) effect).1

theorem runFiled {bucket final events} (new : NewBucket bucket s)
    (plain : ∀ e ∈ events, Plain e) (done : run (step node bucket) s events = some final) : Filed bucket final.db :=
  runKeeps (fun filed ok stepped => stepFiled new.named filed ok stepped) new.filed (alongOf plain s) done

def byTime : VersionSort where
  sort := List.insertionSort (fun a b => b.lastModified ≤ a.lastModified)
  perm := perm_insertionSort _
  newestFirst versions := by
    have : Std.Total (fun a b : ObjectVersion => b.lastModified ≤ a.lastModified) := ⟨fun _ _ => Int.le_total _ _⟩
    have : IsTrans ObjectVersion (fun a b => b.lastModified ≤ a.lastModified) := ⟨fun _ _ _ ab bc => bc.trans ab⟩
    exact pairwise_insertionSort _ _

def smallNode : Node where
  host := { md5 := fun data => ascii "m" ++ data, encode := fun _ => [], decode := fun _ => none, directorySize := 0, directoryTime := fun _ => 0 }
  checksum := fun _ => id
  encryptStream := fun dek data => dek ++ data
  decryptStream := fun _ dek data => if dek <+: data then some (data.drop dek.length) else none
  kekByVersion := fun _ => some []
  unwrap := fun wrapped _ _ => some wrapped
  multipartDigest := fun _ => some []
  sorting := byTime

def callAt (seconds : Int) : Call where
  now := fromSeconds seconds
  random := none
  envelope := some ⟨[1], [1], [1], 1⟩
  replicatedVersionID := []
  replicatedLastModified := none
  bypassQuota := false
  clusterStorage := none

def newBucket (versioning : Option Bytes) : State where
  db := { emptyDatabase with
    buckets := empty.set (bucketKey [] (ascii "b"))
      { name := ascii "b", tenantID := [], versioningStatus := versioning, objectLock := none
        objectCount := 0, totalSize := 0, quota := none } }
  files := FileTree.Tree.empty
  tenants := empty

theorem newBucketEmpty (versioning : Option Bytes) : NewBucket (ascii "b") (newBucket versioning) := by
  refine ⟨by decide,?_,?_,not_mem_nil⟩
  · intro q obj stored
    cases stored
  · intro q obj stored
    cases stored

def versionedBucket : State := newBucket (some (ascii "Enabled"))

end MaxIOFS.ManagerRuns
