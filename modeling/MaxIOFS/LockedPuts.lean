import MaxIOFS.HandlerSteps
import MaxIOFS.LatestVersion
import MaxIOFS.RetentionLaw

/-! PutObject requests with lock headers on one key of a versioned bucket. The lock is set by a
call of its own on the version that is current by then, and its failure is not answered; so a
version is locked as asked when its request finds it current. -/
namespace MaxIOFS.LockedPuts
open Function (update update_self update_of_ne)
open ByteString FileTree Effects Runs Ledger ObjectManager RecordChanges Records MetadataStore StoredFiles
    StoredObjects VersionHistory VersionMoves FileFrame ManagerFiles OrderedStore
  SetterFrames HandlerSteps S3Handler RetentionLaw
open Filesystem
open ManagerRuns (generatedPresent generatedPlain chosenSegment filedSame smallNode callAt versionedBucket)
open List Option

def version : Phase → Option Bytes
  | .stored _ pending => some pending.object.versionID
  | .recorded _ object _ => some object.versionID
  | .answered (.ok object) => some object.versionID
  | _ => none

section
variable (lib : Library) (bucket key : Bytes) (requests : Nat → Request)

-- No two versions share an identifier, and a lock is set while the request's version is current
-- and the retention the bucket gave it does not outlast the one asked for.
def Own (w : World) (e : Event) : Prop :=
  let r := requests e.caller
  match w.phase e.caller with
  | .checked _ => (∀ j, version (w.phase j) ≠ some (generateVersionID (r.at e.now))) ∧
      (view bucket w.state.db key).versions (generateVersionID (r.at e.now)) = none
  | .recorded _ object .retention => ∀ retention, lockHeaders lib r = some retention →
      currentVersion w.state bucket key = object.versionID ∧
      ∀ record, stored w.state bucket key = some record → shortens e.now (some retention) (fromMetadataObject record) = none
  | .recorded _ object .defaultRetention => bucketDefault e.now w.state bucket ≠ none →
      currentVersion w.state bucket key = object.versionID
  | .recorded _ object .legalHold => legalHoldStatus r = legalHoldOn → currentVersion w.state bucket key = object.versionID
  | _ => True

end

abbrev Lock := Option Retention × Bool

def lockOf (record : ObjectMetadata) : Lock := (record.retention, record.legalHold)

def Retained (lib : Library) (r : Request) (lock : Lock) : Prop := ∀ retention, lockHeaders lib r = some retention → lock.1 = some retention

def Held (r : Request) (lock : Lock) : Prop := legalHoldStatus r = legalHoldOn → lock.2 = true

def Locked (lib : Library) (r : Request) (lock : Lock) : Stage → Prop
  | .retention => True
  | .defaultRetention => lockHeaders lib r = none
  | .legalHold => Retained lib r lock
  | .acl => Retained lib r lock ∧ Held r lock
  | .tagging => Retained lib r lock ∧ Held r lock

section
variable {node : Node} {call : Call} {bucket key id data : Bytes} {headers : Headers} {s : State}

theorem generatedByte {b} (mem : b ∈ generateVersionID call) : b ≠ 109 := by
  have digits : ∀ k < 16, hexDigit k ≠ 109 := by decide
  have number {i} (mem : b ∈ formatInt i) : b ≠ 109 := by
    rintro rfl
    have := formatIntByte mem
    exact absurd this (by decide)
  unfold generateVersionID at mem
  split at mem
  · rcases mem_append.mp mem with front | last
    · rcases mem_append.mp front with first | dot
      · exact number first
      · rw [mem_singleton.mp (show b ∈ [46] from dot)]
        decide
    · obtain ⟨_,_,rfl⟩ := mem_map.mp last
      exact digits _ (Nat.mod_lt _ (by decide))
  · exact number mem

theorem generatedNotDot (call : Call) : generateVersionID call ≠ ascii "." := by
  intro same
  obtain ⟨first,rest,shape⟩ : ∃ first rest, formatInt call.now = first :: rest := exists_cons_of_ne_nil (ByteString.formatIntNonempty call.now)
  have byte := formatIntByte (shape ▸ mem_cons_self : first ∈ formatInt call.now)
  have dot : first = 46 := by
    unfold generateVersionID at same
    split at same
    · rw [shape] at same
      exact (List.cons.inj same).1
    · rw [shape] at same
      exact (List.cons.inj same).1
  subst dot
  exact absurd byte (by decide)

theorem versionFileIs (segment : slash ∉ id) (present : id ≠ []) (named : id ≠ ascii ".") :
    versionFile bucket key id = getFullPath (bucket ++ ascii "/.versions/" ++ key) ++ [id] := by
  have shape : getVersionedObjectPath bucket key id = (bucket ++ ascii "/.versions/" ++ key) ++ slash :: id := by
    simp [getVersionedObjectPath]
  rw [versionFile,shape,fullAppend,fullName segment present named]

theorem generatedFile (bucket key : Bytes) (call : Call) : versionFile bucket key (generateVersionID call) =
    getFullPath (bucket ++ ascii "/.versions/" ++ key) ++ [generateVersionID call] :=
  versionFileIs (fun mem => generatedPlain mem (.inr rfl)) (generatedPresent call) (generatedNotDot call)

theorem generatedOrdinary (bucket key : Bytes) (call : Call) : OrdinaryName (versionFile bucket key (generateVersionID call)) := by
  rw [generatedFile]
  intro name last
  rw [List.getLast?_concat] at last
  cases last
  have absent {suffix} letter : ¬ suffix <:+ generateVersionID call := fun inside => generatedByte (inside.subset letter) rfl
  exact ⟨absent (by decide),absent (by decide)⟩

theorem chosenGenerated (client : call.replicatedVersionID = []) (chosen : chooseVersion call true = .ok id) : id = generateVersionID call := by
  rw [chooseVersion,if_pos client] at chosen
  exact (Except.ok.inj chosen).symm

structure Owned (bucket key v : Bytes) (files : Files) : Prop where
  valid : validateObjectName key = true
  path : validatePath (getVersionedObjectPath bucket key v) = true
  generated : ∃ call, v = generateVersionID call
  file : ∃ f, files.get (versionFile bucket key v) = some (.file f)

theorem heldFile {t p enc m} (holds : Holds t p enc m) : ∃ f, t.get p = some (.file f) := by
  obtain ⟨_,found⟩ := holds.data
  exact ⟨_,found⟩

theorem storeOwned (client : call.replicatedVersionID = []) (on : isBucketVersioningEnabled s bucket = true) :
    wp (storeObject node call bucket key data headers) (fun pending s' =>
      Fresh node true bucket key (generateVersionID call) data pending ∧ Owned bucket key (generateVersionID call) s'.files)
      (fun _ _ => True) s := by
  have chosen : chooseVersion call true = .ok (generateVersionID call) := by
    rw [chooseVersion,if_pos rfl,if_pos client]
  cases folder : isFolderMarker key with
  | false =>
    refine wpLax (storeObjectHeld on chosen folder) fun pending s' done => ?_
    obtain ⟨_,admitted,fresh,_,_,_,_,holds⟩ := done
    exact ⟨fresh,admitted.name,admitted.path,⟨call,rfl⟩,heldFile holds⟩
  | true =>
    refine wpLax (Envelopes.storeObjectClear on chosen folder) fun pending s' done => ?_
    obtain ⟨_,valid,fresh,path,_,holds,_⟩ := done
    exact ⟨fresh,valid,path,⟨call,rfl⟩,heldFile holds⟩

theorem Owned.beside {v files} (owned : Owned bucket key v files) (p : Path) : Beside (versionFile bucket key v) p := by
  obtain ⟨call,rfl⟩ := owned.generated
  refine ordinaryBeside (generatedOrdinary bucket key call) ?_ p
  rw [generatedFile]
  exact concat_ne_nil _ _

theorem storeBeside {v} (client : call.replicatedVersionID = []) (on : isBucketVersioningEnabled s bucket = true)
    (owned : Owned bucket key v s.files) (different : v ≠ generateVersionID call) :
    wp (storeObject node call bucket key data headers) (fun _ s' => Owned bucket key v s'.files) (fun _ s' => Owned bucket key v s'.files) s := by
  obtain ⟨f,file⟩ := owned.file
  have kept : wp (storeObject node call bucket key data headers) (fun _ s' => At (versionFile bucket key v) (some (.file f)) s'.files)
      (fun _ s' => At (versionFile bucket key v) (some (.file f)) s'.files) s := by
    refine storeObjectAt file (fun id stored m chosen => ?_) (fun id _ => owned.beside _)
    rw [on] at chosen ⊢
    obtain ⟨segment,some_⟩ := chosenSegment chosen
    have mine := chosenGenerated client chosen
    have apart : versionFile bucket key id ≠ versionFile bucket key v := by
      obtain ⟨_,rfl⟩ := owned.generated
      rw [mine,generatedFile,generatedFile]
      exact fun same => different (List.cons.inj (append_cancel_left same)).1.symm
    exact keepsPutPlain (ManagerRuns.versionedPlain segment some_ _ _) ⟨owned.beside _,apart,fun _ => by simp,fun _ _ _ => by simp⟩
  exact wpMono kept (fun _ _ still => ⟨owned.valid,owned.path,owned.generated,f,still⟩)
    (fun _ _ still => ⟨owned.valid,owned.path,owned.generated,f,still⟩)

theorem finishView (node : Node) {pending existing h} (home : bucket ≠ []) (here : pending.object.bucket = bucket)
    (keyed : pending.object.key = key) :
    Keeps (fun s => Filed bucket s.db ∧ view bucket s.db key = h) (finishPut call pending existing) := by
  intro s start
  let allowed : Change → Prop := fun change => ∃ folder ∈ implicitFolders key, change = .adopt (folderObject call.now bucket folder)
  have follows : wp (finishPut call pending existing) (fun _ s' => Follows node.sorting bucket call.now allowed s.db s'.db)
      (fun _ s' => Follows node.sorting bucket call.now allowed s.db s'.db) s :=
    followsFinish here (fun folder mem => ⟨folder,keyed ▸ mem,rfl⟩) s (Follows.refl s.db)
  have kept (s' : State) (followed : Follows node.sorting bucket call.now allowed s.db s'.db) : Filed bucket s'.db ∧
      view bucket s'.db key = h := by
    refine followed.keeps (P := fun db => Filed bucket db ∧ view bucket db key = h) (fun same holds => ?_) (fun adopts effect holds => ?_) start
    · exact ⟨filedSame holds.1 same.objects same.versions same.deleted,(viewQuiet same key).trans holds.2⟩
    obtain ⟨folder,mem,rfl⟩ := adopts
    have tame : Tame bucket (.adopt (folderObject call.now bucket folder)) := ⟨rfl,rfl⟩
    obtain ⟨filed,target,move,others⟩ := effectMoves holds.1 home tame effect
    have named : folder = target := LatestVersion.adoptKey move
    exact ⟨filed,(others key (named ▸ (implicitFolderOther mem).symm)).trans holds.2⟩
  exact wpMono follows (fun _ s' => kept s') (fun _ s' => kept s')

theorem recordView {pending} (home : bucket ≠ []) (named : key ≠ []) (filed : Filed bucket s.db)
    (fresh : Fresh node true bucket key id data pending) (present : id ≠ []) (plain : (58 : UInt8) ∉ id) :
    wp (recordObject call pending) (fun object s' => object = pending.object ∧ s'.files = s.files ∧ (∀ q,
        (s'.db.buckets.get q).map BucketMetadata.versioningStatus = (s.db.buckets.get q).map BucketMetadata.versioningStatus) ∧
        Filed bucket s'.db ∧ view bucket s'.db key = (view bucket s.db key).insert shape id (marked (toMetadataObject pending.object)))
      (fun _ _ => False) s := by
  have viewed : wp (recordObject call pending) (fun object s' => object = pending.object ∧ Filed bucket s'.db ∧
      view bucket s'.db key = (view bucket s.db key).insert shape id (marked (toMetadataObject pending.object))) (fun _ _ => True) s := by
    rw [recordObject,wpBind,wpGets,wpBind,saveRecord,wpDatabase,fresh.mode]
    rw [if_pos rfl]
    cases done : s.db.putObjectVersion (toMetadataObject pending.object) (latestVersion pending.object) with
    | error e => trivial
    | ok db =>
      have identity : versioned (toMetadataObject pending.object) (latestVersion pending.object) = marked (toMetadataObject pending.object) := rfl
      have own : (latestVersion pending.object).versionID = id := fresh.versionID
      have keyed : (toMetadataObject pending.object).key = key := fresh.key
      have identified : Identified bucket (marked (toMetadataObject pending.object)) :=
        ⟨fresh.bucket,ne_of_eq_of_ne keyed named,fun mem => plain (own ▸ mem)⟩
      have result := putObjectVersionView filed (identity ▸ identified) (own.symm ▸ present) rfl done
      have start : Filed bucket db ∧ view bucket db key = (view bucket s.db key).insert shape id (marked (toMetadataObject pending.object)) := by
        refine ⟨result.1,(result.2 key).trans ?_⟩
        rw [if_pos keyed.symm,own,identity]
      dsimp only
      rw [wpBind]
      exact wpLax (finishView node home fresh.bucket fresh.key { s with db := db } start) fun _ s' kept => ⟨rfl,kept⟩
  refine wpMono (wpAnd (recordObjectVersion filed.open_ fresh) viewed) (fun object s' both => ?_) (fun _ _ never => never.1)
  obtain ⟨recorded,same,filed',shown⟩ := both
  exact ⟨same,recorded.files,recorded.status,filed',shown⟩

theorem Owned.present {v files} (owned : Owned bucket key v files) : Filesystem.exists_ files (pathOf bucket key v) = .ok true := by
  obtain ⟨call,rfl⟩ := owned.generated
  obtain ⟨_,file⟩ := owned.file
  rw [versionFile] at file
  have path : pathOf bucket key (generateVersionID call) = getVersionedObjectPath bucket key (generateVersionID call) :=
    if_neg (generatedPresent call)
  unfold Filesystem.exists_
  rw [path,if_pos owned.path,FileTree.Tree.statFile.mpr file]

structure Current (bucket key : Bytes) (s : State) (c : ObjectMetadata) : Prop where
  stored : stored s bucket key = some c
  home : c.bucket = bucket
  keyed : c.key = key
  version : c.versionID ≠ []
  plain : (58 : UInt8) ∉ c.versionID
  latest : c.isLatest = true
  listed : (view bucket s.db key).versions c.versionID = some c

theorem currentOf {v record} (home : bucket ≠ []) (filed : Filed bucket s.db)
    (consistent : (view bucket s.db key).Consistent shape) (found : (view bucket s.db key).versions v = some record) :
    ∃ c, Current bucket key s c := by
  obtain ⟨c,current,version⟩ := consistent.covered v record found
  obtain ⟨keyed,identified⟩ := filed.current current
  obtain ⟨_,id⟩ := ne_none_iff_exists'.mp version
  obtain ⟨present,rfl⟩ := shapeIdIff.mp id
  obtain ⟨listed,latest⟩ := consistent.pointed c _ current id
  exact ⟨c,storedAt home (keyed ▸ identified.key) current identified.bucket keyed,identified.bucket,keyed,present,identified.plain,latest,listed⟩

theorem Current.is {c} (current : Current bucket key s c) : currentVersion s bucket key = c.versionID := by
  rw [currentVersion,current.stored]
  rfl

theorem savedView {c new s'} (filed : Filed bucket s.db)
    (consistent : (view bucket s.db key).Consistent shape) (current : Current bucket key s c) (same : SameIdentity c new)
    (saved : Saved call new s s') : Filed bucket s'.db ∧ (view bucket s'.db key).Consistent shape ∧
      (view bucket s'.db key).versions = update (view bucket s.db key).versions c.versionID (some (stamped call.now new)) ∧
      s'.files = s.files ∧ s'.db.buckets = s.db.buckets := by
  obtain ⟨db,_,done,rfl⟩ := saved
  obtain ⟨filed',views⟩ := putObjectView filed (same.bucket.trans current.home) (same.versionID ▸ current.plain) done
  have shown := views key
  rw [if_pos (same.key.trans current.keyed).symm] at shown
  have own : (stamped call.now new).versionID = c.versionID := same.versionID
  have id : shape.id (stamped call.now new) = some c.versionID := by
    rw [shapeId (own.symm ▸ current.version),own]
  have versions : (view bucket db key).versions = update (view bucket s.db key).versions c.versionID (some (stamped call.now new)) := by
    rw [shown,History.putVersion id]
  have still : (view bucket db key).Consistent shape := by
    rw [shown]
    exact History.consistentEdit consistent current.listed id same.isLatest
  exact ⟨filedSame filed' rfl rfl rfl,still,versions,rfl,(putObjectBuckets done : db.buckets = s.db.buckets)⟩

theorem settable {setter c} (home : bucket ≠ []) (filed : Filed bucket s.db)
    (current : Current bucket key s c) (owned : Owned bucket key c.versionID s.files) (accepted : accepts call.now c setter) :
    Settable setter call bucket key c s := by
  refine ⟨owned.valid,owned.present,accepted,?_⟩
  have same := writtenSame setter c
  have here : (setter.written c).bucket = bucket := same.bucket.trans current.home
  have keyed : (setter.written c).key = key := same.key.trans current.keyed
  unfold Database.putObject Database.rejectsWrite
  rw [here,keyed,if_neg (not_or.mpr ⟨home,validName owned.valid⟩),if_neg (by simpa using filed.open_)]
  exact ⟨_,rfl⟩

end

def recorded : Phase → Option Bytes
  | .recorded _ object _ => some object.versionID
  | .answered (.ok object) => some object.versionID
  | _ => none

def LockedIn (lib : Library) (r : Request) (lock : Lock) : Phase → Prop
  | .recorded _ _ stage => Locked lib r lock stage
  | .answered (.ok _) => Retained lib r lock ∧ Held r lock
  | _ => True

def lockAt (bucket key : Bytes) (s : State) (v : Bytes) : Option Lock := ((view bucket s.db key).versions v).map lockOf

structure Inv (lib : Library) (node : Node) (bucket key : Bytes) (requests : Nat → Request) (w : World) : Prop where
  filed : Filed bucket w.state.db
  on : isBucketVersioningEnabled w.state bucket = true
  consistent : ∀ i v, recorded (w.phase i) = some v → (view bucket w.state.db key).Consistent shape
  distinct : ∀ i j v, version (w.phase i) = some v → version (w.phase j) = some v → i = j
  owned : ∀ i v, version (w.phase i) = some v → Owned bucket key v w.state.files
  pending : ∀ i tags pending, w.phase i = .stored tags pending →
    Fresh node true bucket key pending.object.versionID (requests i).data pending ∧ lockAt bucket key w.state pending.object.versionID = none
  locked : ∀ i v, recorded (w.phase i) = some v → ∃ lock, lockAt bucket key w.state v = some lock ∧ LockedIn lib (requests i) lock (w.phase i)

section
variable {lib : Library} {node : Node} {bucket key : Bytes} {requests : Nat → Request} {w next : World} {e : Event}

theorem recordedVersion {phase v} (made : recorded phase = some v) : version phase = some v := by
  cases phase with
  | recorded tags object stage => exact made
  | answered answer =>
    cases answer with
    | ok object => exact made
    | error code => contradiction
  | waiting | checked _ | stored _ _ => contradiction

structure Advanced (lib : Library) (node : Node) (bucket key : Bytes) (requests : Nat → Request) (w next : World) (caller : Nat)
    (phase : Phase) : Prop where
  updated : next.phase = update w.phase caller phase
  filed : Filed bucket next.state.db
  on : isBucketVersioningEnabled next.state bucket = true
  consistent : ∀ i v, recorded (next.phase i) = some v → (view bucket next.state.db key).Consistent shape
  files : ∀ j v, j ≠ caller → version (w.phase j) = some v → Owned bucket key v next.state.files
  spared : ∀ v, version phase ≠ some v → lockAt bucket key next.state v = lockAt bucket key w.state v
  mine : ∀ v, version phase = some v → (∀ j, j ≠ caller → version (w.phase j) ≠ some v) ∧ Owned bucket key v next.state.files
  pending : ∀ tags pending, phase = .stored tags pending → Fresh node true bucket key pending.object.versionID (requests caller).data pending ∧
    lockAt bucket key next.state pending.object.versionID = none
  locked : ∀ v, recorded phase = some v → ∃ lock, lockAt bucket key next.state v = some lock ∧ LockedIn lib (requests caller) lock phase

theorem advancedInv {caller phase} (inv : Inv lib node bucket key requests w)
    (step : Advanced lib node bucket key requests w next caller phase) : Inv lib node bucket key requests next := by
  have self : next.phase caller = phase := by rw [step.updated,update_self]
  have rest {j} (other : j ≠ caller) : next.phase j = w.phase j := by rw [step.updated,update_of_ne other]
  have apart {j} {v} other theirs : version phase ≠ some v := fun own => (step.mine v own).1 j other theirs
  refine ⟨step.filed,step.on,step.consistent,fun i j v first second => ?_,fun j v theirs => ?_,fun j tags pending here => ?_,fun j v made => ?_⟩
  · by_cases left : i = caller
    · subst left
      by_contra other
      rw [self] at first
      rw [rest (Ne.symm other)] at second
      exact apart (Ne.symm other) second first
    · rw [rest left] at first
      by_cases right : j = caller
      · subst right
        rw [self] at second
        exact absurd second (apart left first)
      · rw [rest right] at second
        exact inv.distinct i j v first second
  · by_cases own : j = caller
    · subst own
      rw [self] at theirs
      exact (step.mine v theirs).2
    · rw [rest own] at theirs
      exact step.files j v own theirs
  · by_cases own : j = caller
    · subst own
      rw [self] at here
      exact step.pending tags pending here
    rw [rest own] at here
    obtain ⟨fresh,absent⟩ := inv.pending j tags pending here
    exact ⟨fresh,(step.spared _ (apart own (by rw [here]; rfl))).trans absent⟩
  · by_cases own : j = caller
    · subst own
      rw [self] at made ⊢
      exact step.locked v made
    rw [rest own] at made ⊢
    obtain ⟨lock,found,holds⟩ := inv.locked j v made
    exact ⟨lock,(step.spared v (apart own (recordedVersion made))).trans found,holds⟩

theorem unrecordedAdvance {caller phase} (inv : Inv lib node bucket key requests w)
    (updated : next.phase = update w.phase caller phase) (db : next.state.db = w.state.db) (none_ : recorded phase = none)
    (files : ∀ j v, j ≠ caller → version (w.phase j) = some v → Owned bucket key v next.state.files)
    (mine : ∀ v, version phase = some v → (∀ j, j ≠ caller → version (w.phase j) ≠ some v) ∧ Owned bucket key v next.state.files)
    (pending : ∀ tags pending, phase = .stored tags pending → Fresh node true bucket key pending.object.versionID (requests caller).data pending ∧
      lockAt bucket key w.state pending.object.versionID = none) : Advanced lib node bucket key requests w next caller phase where
  updated := updated
  filed := db ▸ inv.filed
  on := (versioningSame bucket fun q => by rw [db]).trans inv.on
  consistent := by
    intro i v made
    rw [updated] at made
    by_cases own : i = caller
    · subst own
      rw [update_self,none_] at made
      contradiction
    · rw [update_of_ne own] at made
      exact db ▸ inv.consistent i v made
  files := files
  spared := fun v _ => by rw [lockAt,db]; rfl
  mine := mine
  pending := fun tags pending_ here => by
    obtain ⟨fresh,absent⟩ := pending tags pending_ here
    exact ⟨fresh,by rw [lockAt,db]; exact absent⟩
  locked := fun v made => by rw [none_] at made; contradiction

theorem acceptAt {q x r} (beside : ∀ p, Beside q p) : Keeps (fun s : State => At q x s.files) (accept lib node bucket key r) := by
  have checks : Keeps (fun s => At q x s.files) (precondition node bucket key r) :=
    .ite (fun _ => .bind (.attempt (keepsObjectMetadata (beside _))) fun _ => .pure _) fun _ => .pure _
  refine .bind (.gets _) fun _ => .ite (fun _ => .pure _) fun _ => .bind checks fun _ =>
    .ite (fun _ => ?_) fun _ => .pure _
  cases parseS3TaggingHeader lib (header r.headers (ascii "x-amz-tagging")) with
  | ok tags => exact .pure _
  | error e => exact .pure _

theorem acceptAdvance {caller phase} (inv : Inv lib node bucket key requests w) (updated : next.phase = update w.phase caller phase)
    (advanced : accept lib node bucket key (requests caller) w.state = (.ok phase, next.state)) :
    Advanced lib node bucket key requests w next caller phase := by
  obtain ⟨db,own⟩ := wpOk acceptSpec advanced
  have nothing : version phase = none ∧ recorded phase = none := by
    rcases own with ⟨_,rfl⟩ | ⟨tags,rfl⟩
    · exact ⟨rfl,rfl⟩
    · exact ⟨rfl,rfl⟩
  refine unrecordedAdvance inv updated db nothing.2 (fun j v _ theirs => ?_) (fun v mine => ?_) (fun tags pending here => ?_)
  · have owned := inv.owned j v theirs
    obtain ⟨f,file⟩ := owned.file
    have still : At (versionFile bucket key v) (some (.file f)) next.state.files :=
      wpOk (Q := fun _ s' => At (versionFile bucket key v) (some (.file f)) s'.files) (acceptAt owned.beside w.state file) advanced
    exact ⟨owned.valid,owned.path,owned.generated,f,still⟩
  · rw [nothing.1] at mine
    contradiction
  · rw [here] at nothing
    cases nothing.1

theorem storeAdvance {tags phase} (client : (requests e.caller).call.replicatedVersionID = [])
    (inv : Inv lib node bucket key requests w) (here : w.phase e.caller = .checked tags) (own : Own lib bucket key requests w e)
    (updated : next.phase = update w.phase e.caller phase)
    (advanced : store node bucket key (requests e.caller) e.now tags w.state = (.ok phase, next.state)) :
    Advanced lib node bucket key requests w next e.caller phase := by
  unfold Own at own
  rw [here] at own
  obtain ⟨unused,absent⟩ := own
  have same : wp (storeObject node ((requests e.caller).at e.now) bucket key (requests e.caller).data (requests e.caller).headers)
      (fun _ s' => s'.db = w.state.db) (fun _ s' => s'.db = w.state.db) w.state :=
    wpMono (storeObjectSpec ..) (fun _ _ done => done.1) (fun _ _ db => db)
  have pinned : ((requests e.caller).at e.now).replicatedVersionID = [] := client
  have others j v theirs : wp (storeObject node ((requests e.caller).at e.now) bucket key (requests e.caller).data (requests e.caller).headers)
        (fun _ s' => Owned bucket key v s'.files) (fun _ s' => Owned bucket key v s'.files) w.state :=
    storeBeside pinned inv.on (inv.owned j v theirs) fun mine => unused j (mine ▸ theirs)
  have after {P} {answer} (spec : wp (storeObject node ((requests e.caller).at e.now) bucket key
      (requests e.caller).data (requests e.caller).headers) (fun _ => P) (fun _ => P) w.state)
      (done : storeObject node ((requests e.caller).at e.now) bucket key (requests e.caller).data (requests e.caller).headers w.state =
        (answer, next.state)) : P next.state := by
    have reached := wpState spec
    rwa [done] at reached
  rcases storeCases advanced with ⟨pending,done,rfl⟩ | ⟨_,failed,rfl⟩
  · obtain ⟨fresh,owned⟩ := wpOk (storeOwned pinned inv.on) done
    have named : pending.object.versionID = generateVersionID ((requests e.caller).at e.now) := fresh.versionID
    refine unrecordedAdvance inv updated (after same done) rfl (fun j v _ theirs => after (others j v theirs) done) (fun v mine => ?_)
      (fun tags' pending' shape_ => ?_)
    · cases mine
      rw [named]
      exact ⟨fun j _ => unused j,owned⟩
    cases shape_
    refine ⟨named ▸ fresh,?_⟩
    rw [lockAt,named,absent]
    rfl
  · exact unrecordedAdvance inv updated (after same failed) rfl (fun j v _ theirs => after (others j v theirs) failed)
      (fun v mine => by contradiction) (fun _ _ shape_ => by contradiction)

theorem lockInsert {s s' id v obj} (shown : view bucket s'.db key = (view bucket s.db key).insert shape id (marked obj)) :
    lockAt bucket key s' v = if v = id then some (lockOf obj) else lockAt bucket key s v := by
  unfold lockAt
  rw [shown]
  unfold History.insert
  dsimp only
  split
  · rfl
  cases (view bucket s.db key).versions v with
  | none => rfl
  | some record => rfl

theorem recordAdvance {tags pending phase} (home : bucket ≠ []) (inv : Inv lib node bucket key requests w)
    (here : w.phase e.caller = .stored tags pending)
    (updated : next.phase = update w.phase e.caller phase)
    (advanced : record (requests e.caller) e.now tags pending w.state = (.ok phase, next.state)) :
    Advanced lib node bucket key requests w next e.caller phase := by
  obtain ⟨fresh,_⟩ := inv.pending _ _ _ here
  have own : version (w.phase e.caller) = some pending.object.versionID := by
    rw [here]
    rfl
  have owned := inv.owned _ _ own
  obtain ⟨call,generated⟩ := owned.generated
  have present : pending.object.versionID ≠ [] := generated ▸ generatedPresent call
  have plain : (58 : UInt8) ∉ pending.object.versionID := fun mem => generatedPlain (generated ▸ mem) (.inl rfl)
  have spec : wp (recordObject ((requests e.caller).at e.now) pending) _ _ w.state :=
    recordView home (validName owned.valid) inv.filed fresh present plain
  rcases recordCases advanced with ⟨_,done,rfl⟩ | ⟨_,failed,rfl⟩
  · obtain ⟨rfl,files,status,filed,shown⟩ := wpOk spec done
    have consistent : (view bucket next.state.db key).Consistent shape := by
      rw [shown]
      exact History.consistentInsert (inv.filed.named key) (shapeId present) rfl
    exact {
      updated := updated
      filed := filed
      on := (versioningSame bucket status).trans inv.on
      consistent := fun _ _ _ => consistent
      files := fun j v _ theirs => files ▸ inv.owned j v theirs
      spared := fun v other => by rw [lockInsert shown,if_neg fun same => other (congrArg some same.symm)]
      mine := fun v mine => by
        cases mine
        exact ⟨fun j other theirs => other (inv.distinct j _ _ theirs own),files ▸ owned⟩
      pending := fun _ _ shape_ => by contradiction
      locked := fun v made => by
        cases made
        exact ⟨_,by rw [lockInsert shown,if_pos rfl],trivial⟩ }
  · unfold wp at spec
    rw [failed] at spec
    exact spec.elim

structure Around (bucket key : Bytes) (s s' : State) : Prop where
  filed : Filed bucket s'.db
  consistent : (view bucket s'.db key).Consistent shape
  files : s'.files = s.files
  buckets : s'.db.buckets = s.db.buckets

theorem lockSaved {call} {setter : Setter} {c} {s s' : State} (filed : Filed bucket s.db)
    (consistent : (view bucket s.db key).Consistent shape) (current : Current bucket key s c)
    (saved : Saved call (setter.written c) s s') : Around bucket key s s' ∧
      ∀ v, lockAt bucket key s' v = if v = c.versionID then some (lockOf (setter.written c)) else lockAt bucket key s v := by
  obtain ⟨filed',consistent',versions,files,buckets⟩ := savedView filed consistent current (writtenSame setter c).toSameIdentity saved
  refine ⟨⟨filed',consistent',files,buckets⟩,fun v => ?_⟩
  unfold lockAt
  rw [versions]
  by_cases here : v = c.versionID
  · rw [if_pos here,here,update_self]
    rfl
  · rw [if_neg here,update_of_ne here]

section
variable {tags : Option (List (Bytes × Bytes))} {object : Object} {stage : Stage} {phase : Phase} {s' : State} {caller : Nat}

section
variable (inv : Inv lib node bucket key requests w) (here : w.phase caller = .recorded tags object stage) (around : Around bucket key w.state s')
    (own : ∀ v, version phase = some v → v = object.versionID)
include inv here around own

section
variable (past : ∀ tags pending, phase ≠ .stored tags pending)
include past

theorem finishAdvance (spared : ∀ v, version phase ≠ some v → lockAt bucket key s' v = lockAt bucket key w.state v)
    (locked : ∀ v, recorded phase = some v → ∃ lock, lockAt bucket key s' v = some lock ∧ LockedIn lib (requests caller) lock phase) :
    Advanced lib node bucket key requests w ⟨s',update w.phase caller phase⟩ caller phase where
  updated := rfl
  filed := around.filed
  on := (versioningSame bucket fun q => by rw [around.buckets]).trans inv.on
  consistent := fun _ _ _ => around.consistent
  files := fun j v _ theirs => around.files ▸ inv.owned j v theirs
  spared := spared
  mine := by
    intro v mine
    cases own v mine
    have before : version (w.phase caller) = some object.versionID := by
      rw [here]
      rfl
    exact ⟨fun j other theirs => other (inv.distinct j _ _ theirs before),around.files ▸ inv.owned _ _ before⟩
  pending := fun tags pending shape_ => absurd shape_ (past tags pending)
  locked := locked

theorem keptAdvance (same : ∀ v, lockAt bucket key s' v = lockAt bucket key w.state v)
    (moves : ∀ lock, Locked lib (requests caller) lock stage → LockedIn lib (requests caller) lock phase) :
    Advanced lib node bucket key requests w ⟨s',update w.phase caller phase⟩ caller phase := by
  refine finishAdvance inv here around own past (fun v _ => same v) (fun v made => ?_)
  cases own v (recordedVersion made)
  obtain ⟨lock,found,holds⟩ := inv.locked caller object.versionID (by rw [here]; rfl)
  rw [here] at holds
  exact ⟨lock,(same _).trans found,moves lock holds⟩

end

end

theorem ownAdvance {call} {setter : Setter} {c : ObjectMetadata} (after : Stage) (inv : Inv lib node bucket key requests w)
    (here : w.phase caller = .recorded tags object stage) (current : Current bucket key w.state c) (mine : c.versionID = object.versionID)
    (saved : Saved call (setter.written c) w.state s') (holds : Locked lib (requests caller) (lockOf (setter.written c)) after) :
    Advanced lib node bucket key requests w ⟨s',update w.phase caller (.recorded tags object after)⟩ caller (.recorded tags object after) := by
  obtain ⟨around,locks⟩ := lockSaved inv.filed (inv.consistent caller object.versionID (by rw [here]; rfl)) current saved
  refine finishAdvance inv here around (fun v own => (some.inj own).symm) (fun _ _ shape_ => by contradiction) (fun v other => ?_)
    (fun v made => ?_)
  · rw [locks,if_neg fun same => other (congrArg some (mine.symm.trans same.symm))]
  · cases made
    exact ⟨_,by rw [locks,if_pos mine.symm],holds⟩

theorem otherAdvance {call c} (setter : Setter) (inv : Inv lib node bucket key requests w)
    (here : w.phase caller = .recorded tags object stage) (current : Current bucket key w.state c)
    (own : ∀ v, version phase = some v → v = object.versionID) (past : ∀ tags pending, phase ≠ .stored tags pending)
    (keeps : lockOf (setter.written c) = lockOf c) (saved : Saved call (setter.written c) w.state s')
    (moves : ∀ lock, Locked lib (requests caller) lock stage → LockedIn lib (requests caller) lock phase) :
    Advanced lib node bucket key requests w ⟨s',update w.phase caller phase⟩ caller phase := by
  obtain ⟨around,locks⟩ := lockSaved inv.filed (inv.consistent caller object.versionID (by rw [here]; rfl)) current saved
  refine keptAdvance inv here around own past (fun v => ?_) moves
  rw [locks]
  by_cases hit : v = c.versionID
  · rw [if_pos hit,hit,keeps,lockAt,current.listed]
    rfl
  · rw [if_neg hit]

theorem finishSpec (home : bucket ≠ []) (inv : Inv lib node bucket key requests w) (here : w.phase e.caller = .recorded tags object stage)
    (own : Own lib bucket key requests w e) : wp (finish lib node bucket key (requests e.caller) e.now tags object stage)
      (fun phase s' => Advanced lib node bucket key requests w ⟨s',update w.phase e.caller phase⟩ e.caller phase) (fun _ _ => True) w.state := by
  have made : recorded (w.phase e.caller) = some object.versionID := by
    rw [here]
    rfl
  have owned := inv.owned _ _ (recordedVersion made)
  have consistent := inv.consistent _ _ made
  obtain ⟨lock,found,holds⟩ := inv.locked _ _ made
  rw [here] at holds
  obtain ⟨record,listed,rfl⟩ := map_eq_some_iff.mp found
  obtain ⟨c,current⟩ := currentOf home inv.filed consistent listed
  have still : Around bucket key w.state w.state := ⟨inv.filed,consistent,rfl,rfl⟩
  have ours {after : Stage} (v : Bytes) (own : version (.recorded tags object after) = some v) : v = object.versionID := (some.inj own).symm
  have never {after : Stage} (tags' : Option (List (Bytes × Bytes))) (pending : Pending) :
      Phase.recorded tags object after ≠ .stored tags' pending := by simp
  have works (setter : Setter) (mine : currentVersion w.state bucket key = object.versionID)
      (accepted : accepts e.now c setter) : Settable setter ((requests e.caller).at e.now) bucket key c w.state :=
    settable home inv.filed current ((current.is.symm.trans mine) ▸ owned) accepted
  unfold Own at own
  rw [here] at own
  cases stage with
  | retention =>
    rw [finish,wpBind,applyObjectLockFromHeaders.eq_def]
    cases asked : lockHeaders lib (requests e.caller) with
    | none => exact keptAdvance inv here still ours never (fun _ => rfl) (fun _ _ => asked)
    | some retention =>
      obtain ⟨mine,longer⟩ := own retention asked
      rw [wpBind,wpAttempt]
      refine wpMono (setterSaves (.retention (some retention)) (by simp) current.stored) (fun _ s' saved => ?_) (fun _ s' failed => ?_)
      · refine ownAdvance .legalHold inv here current (current.is.symm.trans mine) saved (fun other again => ?_)
        exact asked.symm.trans again
      · exact absurd (works (.retention (some retention)) mine (longer c current.stored)) failed.2
  | defaultRetention =>
    have unasked : lockHeaders lib (requests e.caller) = none := holds
    have vacuous (lock : Lock) : Retained lib (requests e.caller) lock := by
      intro retention asked
      rw [unasked] at asked
      contradiction
    rw [finish,wpBind,applyDefaultBucketRetention,wpBind,wpGets]
    cases rule : bucketDefault e.now w.state bucket with
    | none => exact keptAdvance inv here still ours never (fun _ => rfl) (fun lock _ => vacuous lock)
    | some retention =>
      have mine := own (by rw [rule]; simp)
      rw [wpIgnore]
      refine wpMono (setterSaves (.retention (some retention)) (by simp) current.stored) (fun _ s' saved => ?_) (fun _ s' failed => ?_)
      · exact ownAdvance .legalHold inv here current (current.is.symm.trans mine) saved (vacuous _)
      · exact failed.1 ▸ keptAdvance inv here still ours never (fun _ => rfl) (fun lock _ => vacuous lock)
  | legalHold =>
    rw [finish,wpBind,applyLegalHold,wpIte]
    refine ⟨fun asked => ?_,fun unasked => ?_⟩
    · have mine := own asked
      have same : c.versionID = object.versionID := current.is.symm.trans mine
      have self : record = c := by
        have listed' := current.listed
        rw [same,listed] at listed'
        exact some.inj listed'
      subst self
      rw [wpIgnore]
      refine wpMono (setterSaves (.legalHold (some legalHoldOn)) (by simp) current.stored) (fun _ s' saved => ?_) (fun _ s' failed => ?_)
      · exact ownAdvance .acl inv here current same saved ⟨holds,fun _ => rfl⟩
      · exact absurd (works (.legalHold (some legalHoldOn)) mine trivial) failed.2
    · exact keptAdvance inv here still ours never (fun _ => rfl) (fun lock kept => ⟨kept,fun asked => absurd asked unasked⟩)
  | acl =>
    rw [finish,wpBind,applyObjectCannedACLHeader.eq_def]
    cases cannedACL (requests e.caller) with
    | none => exact keptAdvance inv here still ours never (fun _ => rfl) (fun _ kept => kept)
    | some acl =>
      dsimp only
      rw [wpIgnore]
      refine wpMono (setterSaves (.acl (some acl)) (by simp) current.stored) (fun _ s' saved => ?_) (fun _ s' failed => ?_)
      · exact otherAdvance (.acl (some acl)) inv here current ours never (Prod.ext rfl (holdRoundTrip c)) saved (fun _ kept => kept)
      · exact failed.1 ▸ keptAdvance inv here still ours never (fun _ => rfl) (fun _ kept => kept)
  | tagging =>
    have answered (v : Bytes) (own : version (.answered (.ok object)) = some v) : v = object.versionID := (some.inj own).symm
    rw [finish,tag.eq_def]
    cases tags with
    | none => exact keptAdvance inv here still answered (by simp) (fun _ => rfl) (fun _ kept => kept)
    | some tags =>
      dsimp only
      rw [wpBind,wpAttempt]
      refine wpMono (setterSaves (.tagging (some tags)) (by simp) current.stored) (fun _ s' saved => ?_) (fun _ s' failed => ?_)
      · exact otherAdvance (.tagging (some tags)) inv here current answered (by simp) (Prod.ext rfl (holdRoundTrip c)) saved (fun _ kept => kept)
      · exact failed.1 ▸ keptAdvance inv here still (fun v none_ => by contradiction) (by simp) (fun _ => rfl) (fun _ _ => trivial)

end

theorem stepAdvanced (home : bucket ≠ []) (client : ∀ i, (requests i).call.replicatedVersionID = [])
    (inv : Inv lib node bucket key requests w) (own : Own lib bucket key requests w e)
    (stepped : step lib node bucket key requests w e = some next) :
    ∃ phase, Advanced lib node bucket key requests w next e.caller phase := by
  obtain ⟨running,phase,advanced,updated⟩ := stepAdvances stepped
  refine ⟨phase,?_⟩
  cases here : w.phase e.caller with
  | waiting =>
    rw [here] at advanced
    exact acceptAdvance inv updated advanced
  | checked tags =>
    rw [here] at advanced
    exact storeAdvance (client _) inv here own updated advanced
  | stored tags pending =>
    rw [here] at advanced
    exact recordAdvance home inv here updated advanced
  | recorded tags object stage =>
    rw [here] at advanced
    obtain ⟨_,_⟩ := next
    subst updated
    exact wpOk (Q := fun phase s' => Advanced lib node bucket key requests w ⟨s',update w.phase e.caller phase⟩ e.caller phase)
      (finishSpec home inv here own) advanced
  | answered answer =>
    rw [here] at running
    contradiction

theorem beginInv {s} (filed : Filed bucket s.db) (on : isBucketVersioningEnabled s bucket = true) :
    Inv lib node bucket key requests (begin_ s) where
  filed := filed
  on := on
  consistent := fun _ _ made => by contradiction
  distinct := fun _ _ _ first => by contradiction
  owned := fun _ _ made => by contradiction
  pending := fun _ _ _ here => by contradiction
  locked := fun _ _ made => by contradiction

end

/-- The requests are a client's: no version is pinned, and the key is UTF-8. -/
structure FromClient (key : Bytes) (requests : Nat → Request) : Prop where
  unpinned : ∀ i, (requests i).call.replicatedVersionID = []
  text : Utf8.Text key

/-- While every request finds its own version current when it sets a lock, a request that was answered
with success has its version locked as it asked, and no step of a request changes the lock of another version. -/
theorem lockedWhenAnswered {lib : Library} {node : Node} {bucket key : Bytes} {requests : Nat → Request} {s mid : State} {w : World}
    {before : List Act} {events : List Event} (new : ManagerRuns.NewBucket bucket s) (sent : ∀ a ∈ before, SentAct a)
    (started : run (act node bucket) s before = some mid) (enabled : isBucketVersioningEnabled mid bucket = true)
    (client : FromClient key requests) (own : Along (step lib node bucket key requests) (Own lib bucket key requests) (begin_ mid) events)
    (ran : run (step lib node bucket key requests) (begin_ mid) events = some w) : (∀ i object, w.phase i = .answered (.ok object) → ∃ record,
      w.state.db.versions.get (objectVersionKey bucket key object.versionID) = some record ∧ record.key = key ∧
      (∀ retention, lockHeaders lib (requests i) = some retention → record.retention = some retention) ∧
      (legalHoldStatus (requests i) = legalHoldOn → record.legalHold = true)) ∧
    ∀ e next, Own lib bucket key requests w e → step lib node bucket key requests w e = some next →
      ∀ v, version (next.phase e.caller) ≠ some v → lockAt bucket key next.state v = lockAt bucket key w.state v := by
  have coherent : Coherent bucket mid.db := runKeeps (coherentAct new.named)
    (coherentNew new) (alongOf (fun a mem => (sent a mem).plain) s) started
  have inv : Inv lib node bucket key requests w := by
    refine runKeeps (fun inv own stepped => ?_) (beginInv coherent.filed enabled) own ran
    obtain ⟨phase,advanced⟩ := stepAdvanced new.named client.unpinned inv own stepped
    exact advancedInv inv advanced
  constructor
  · intro i object here
    obtain ⟨_,found,holds⟩ := inv.locked i object.versionID (by rw [here]; rfl)
    rw [here] at holds
    obtain ⟨record,listed,rfl⟩ := map_eq_some_iff.mp found
    obtain ⟨stored,named⟩ := versionsInIff.mp listed
    exact ⟨record,stored,named,holds.1,holds.2⟩
  · intro e next own stepped v other
    obtain ⟨_,advanced⟩ := stepAdvanced new.named client.unpinned inv own stepped
    rw [advanced.updated,update_self] at other
    exact advanced.spared v other

def ownCheck (n : Nat) (lib : Library) (bucket key : Bytes) (requests : Nat → Request) (w : World) (e : Event) : Bool :=
  match w.phase e.caller with
  | .checked _ => (List.range n).all (fun j => decide (version (w.phase j) ≠ some (generateVersionID ((requests e.caller).at e.now)))) &&
      ((view bucket w.state.db key).versions (generateVersionID ((requests e.caller).at e.now))).isNone
  | .recorded _ object .retention => decide (currentVersion w.state bucket key = object.versionID) &&
      ((stored w.state bucket key).map fun record =>
        (shortens e.now (lockHeaders lib (requests e.caller)) (fromMetadataObject record)).isNone).getD true
  | .recorded _ object _ => decide (currentVersion w.state bucket key = object.versionID)
  | _ => true

section
variable {lib : Library} {node : Node} {bucket key : Bytes} {requests : Nat → Request} {w : World} {n : Nat}

theorem ownChecked {e} (few : Few n w) (ok : ownCheck n lib bucket key requests w e = true) :
    Own lib bucket key requests w e := by
  unfold ownCheck at ok
  unfold Own
  dsimp only
  cases here : w.phase e.caller with
  | checked tags =>
    rw [here] at ok
    obtain ⟨apart,fresh⟩ := (Bool.and_eq_true _ _).mp ok
    have distinct := fewAll few (fun phase => decide (version phase ≠ some (generateVersionID ((requests e.caller).at e.now))))
      (by simp [version]) apart
    exact ⟨fun j => of_decide_eq_true (distinct j),isNone_iff_eq_none.mp fresh⟩
  | recorded tags object stage =>
    rw [here] at ok
    cases stage with
    | retention =>
      obtain ⟨mine,longer⟩ := (Bool.and_eq_true _ _).mp ok
      intro retention asked
      refine ⟨of_decide_eq_true mine,fun record found => ?_⟩
      rw [found,asked] at longer
      exact isNone_iff_eq_none.mp longer
    | defaultRetention => exact fun _ => of_decide_eq_true ok
    | legalHold => exact fun _ => of_decide_eq_true ok
    | acl | tagging => trivial
  | waiting | stored _ _ | answered _ => trivial

theorem fewChecked {events} (early : ∀ e ∈ events, e.caller < n) (few : Few n w)
    (ok : checked (step lib node bucket key requests) (ownCheck n lib bucket key requests) w events = true) :
    Along (step lib node bucket key requests) (Own lib bucket key requests) w events :=
  alongChecked (I := Few n) (fun few _ check => ownChecked few check) fewStep early few ok

end

def dates : Library := ⟨fun raw => if raw = ascii "later" then some (fromSeconds 1000) else none, fun _ => none⟩

def lockedPuts (i : Nat) : Request where
  call := callAt i
  user := none
  data := if i = 0 then ascii "one" else ascii "other"
  headers := if i = 0 then (empty.set (ascii "x-amz-object-lock-mode") compliance).set
    (ascii "x-amz-object-lock-retain-until-date") (ascii "later") else empty.set (ascii "x-amz-object-lock-legal-hold") legalHoldOn

def turn (i : Nat) (seconds : Int) : Event := ⟨i, fromSeconds seconds⟩

def answeredVersion : Phase → Option Bytes
  | .answered (.ok object) => some object.versionID
  | _ => none

theorem answeredOf {phase v} (shown : answeredVersion phase = some v) : ∃ object, phase = .answered (.ok object) ∧ object.versionID = v := by
  unfold answeredVersion at shown
  split at shown <;> try contradiction
  rename_i object
  exact ⟨object,rfl,some.inj shown⟩

-- The requests check, store and record in turns, but the second records only after the first has set its lock.
def oneAfterAnother : List Event := [turn 0 5, turn 1 6, turn 0 7] ++ [8, 9, 10, 11, 12].map (turn 0) ++ [14, 15, 16, 17, 18, 19, 20].map (turn 1)

theorem locksInTurn : ∃ w first second record record', run (step dates smallNode (ascii "b") (ascii "k") lockedPuts) (begin_ versionedBucket)
      oneAfterAnother = some w ∧ w.phase 0 = .answered (.ok first) ∧ w.phase 1 = .answered (.ok second) ∧ first.versionID ≠ second.versionID ∧
    w.state.db.versions.get (objectVersionKey (ascii "b") (ascii "k") first.versionID) = some record ∧
    record.retention = some ⟨compliance, fromSeconds 1000⟩ ∧
    w.state.db.versions.get (objectVersionKey (ascii "b") (ascii "k") second.versionID) = some record' ∧ record'.legalHold = true := by
  obtain ⟨w,ran,answered,answered'⟩ : ∃ w, run (step dates smallNode (ascii "b") (ascii "k") lockedPuts) (begin_ versionedBucket)
      oneAfterAnother = some w ∧ answeredVersion (w.phase 0) = some (formatInt (fromSeconds 7)) ∧
      answeredVersion (w.phase 1) = some (formatInt (fromSeconds 14)) := by
    decide +kernel
  obtain ⟨first,here,named⟩ := answeredOf answered
  obtain ⟨second,there,named'⟩ := answeredOf answered'
  have own : Along (step dates smallNode (ascii "b") (ascii "k") lockedPuts) (Own dates (ascii "b") (ascii "k") lockedPuts)
      (begin_ versionedBucket) oneAfterAnother := fewChecked (n := 2) (by decide) (fun _ _ => rfl) (by decide +kernel)
  have started : run (act smallNode (ascii "b")) versionedBucket [] = some versionedBucket := rfl
  obtain ⟨locked,-⟩ := lockedWhenAnswered (ManagerRuns.newBucketEmpty _) (by simp) started (by decide) ⟨fun _ => rfl,by decide⟩ own ran
  obtain ⟨record,found,_,retained,_⟩ := locked 0 first here
  obtain ⟨record',found',_,_,held⟩ := locked 1 second there
  exact ⟨w,first,second,record,record',ran,here,there,by rw [named,named']; decide,found,retained _ (by decide),found',held (by decide)⟩

theorem lockOnOtherVersion : ∃ w object other record record', run (step dates smallNode (ascii "b") (ascii "k") lockedPuts)
    (begin_ versionedBucket)
      ([turn 0 5, turn 0 6, turn 0 7] ++ [turn 1 8, turn 1 9, turn 1 10] ++ [11, 12, 13, 14].map (turn 0)) = some w ∧
    lockHeaders dates (lockedPuts 0) = some ⟨compliance, fromSeconds 1000⟩ ∧ w.phase 0 = .answered (.ok object) ∧
    w.state.db.versions.get (objectVersionKey (ascii "b") (ascii "k") object.versionID) = some record ∧ record.retention = none ∧
    version (w.phase 1) = some other ∧ other ≠ object.versionID ∧
    w.state.db.versions.get (objectVersionKey (ascii "b") (ascii "k") other) = some record' ∧
    record'.retention = some ⟨compliance, fromSeconds 1000⟩ := by
  obtain ⟨w,ran,answered,theirs,⟨record,found,bare⟩,record',found',locked⟩ : ∃ w,
      run (step dates smallNode (ascii "b") (ascii "k") lockedPuts) (begin_ versionedBucket)
        ([turn 0 5,turn 0 6,turn 0 7] ++ [turn 1 8,turn 1 9,turn 1 10] ++ [11,12,13,14].map (turn 0)) = some w ∧
      answeredVersion (w.phase 0) = some (formatInt (fromSeconds 6)) ∧ version (w.phase 1) = some (formatInt (fromSeconds 9)) ∧
      (∃ r, w.state.db.versions.get (objectVersionKey (ascii "b") (ascii "k") (formatInt (fromSeconds 6))) = some r ∧ r.retention = none) ∧
      ∃ r, w.state.db.versions.get (objectVersionKey (ascii "b") (ascii "k") (formatInt (fromSeconds 9))) = some r ∧
        r.retention = some ⟨compliance,fromSeconds 1000⟩ := by
    decide +kernel
  obtain ⟨object,here,named⟩ := answeredOf answered
  exact ⟨w,object,_,record,record',ran,by decide,here,named ▸ found,bare,theirs,named ▸ (by decide),found',locked⟩

end MaxIOFS.LockedPuts
