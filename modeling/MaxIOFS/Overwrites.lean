import MaxIOFS.Completions
import MaxIOFS.KeyFrame

/-! Writes over an object under retention or legal hold, on a bucket whose versioning is not
enabled. Neither PutObject nor the completion of an upload looks at the lock of the record
it replaces; a version written before keeps its own record and file. -/
namespace MaxIOFS.Overwrites
open OrderedStore ByteString FileTree Effects Runs ObjectManager RecordChanges Records MetadataStore StoredFiles StoredObjects ObjectReads KeyFrame
open ManagerRuns ManagerFiles FileFrame Filesystem
open Completions (Outside objectNames partNames partsAway)

inductive Write where
  | put (call : Call) (data : Bytes) (headers : Headers)
  | complete (call : Call) (uploadID : Bytes) (parts : List Part)

def Write.now : Write → Int
  | .put call _ _ => call.now
  | .complete call _ _ => call.now

def attempted (node : Node) (bucket key : Bytes) (s : State) : Write → Except Error Object × State
  | .put call data headers => putObject node call bucket key data headers s
  | .complete call uploadID parts => doCompleteMultipartUpload node call uploadID parts s

def bytesAt (node : Node) (bucket key v : Bytes) (s : State) : Option Bytes := (getObject node bucket key v s).1.toOption.bind Prod.snd

def Respects (node : Node) (bucket key v : Bytes) (s : State) (outcome : Except Error Object × State) : Prop :=
  outcome.1.isOk = false ∨ (∀ d, bytesAt node bucket key v s = some d → bytesAt node bucket key v outcome.2 = some d) ∧
    ∀ old, s.db.getObject bucket key v = .ok old →
      ∃ new, outcome.2.db.getObject bucket key v = .ok new ∧ new.retention = old.retention ∧ new.legalHold = old.legalHold

structure FolderAdmitted (node : Node) (call : Call) (s : State) (bucket key data : Bytes) (headers : Headers) : Prop where
  name : validateObjectName key = true
  checksum : checksumAccepted node headers data = true
  room : Room s call bucket (growth false (stored s bucket key) data.length)
  path : validatePath (getObjectPath bucket key) = true

structure Completable (node : Node) (call : Call) (s : State) (uploadID : Bytes) (parts : List Part) (upload : MultipartUpload) : Prop where
  found : s.db.getMultipartUpload uploadID = .ok upload
  listed : ∃ total, validateAndCalculatePartsSize s uploadID parts = .ok total ∧
    let added := multipartGrowth false (stored s upload.bucket upload.key) total
    (decide (added.1 ≤ 0) || checkTenantStorageQuota s call (parseBucketPath upload.bucket).1 added.1) = true ∧
      checkBucketStorageQuota s upload.bucket added.1 added.2 = true
  etag : ∃ etag, computeMultipartETag node s uploadID parts = .ok etag
  path : validatePath (getObjectPath upload.bucket upload.key) = true
  envelope : call.envelope ≠ none
  open_ : upload.bucket ∉ s.db.deletedBuckets

def SameLock (s : State) (bucket : Bytes) (r : ObjectMetadata) : Prop := defaultRetention s bucket = r.retention ∧ r.legalHold = false

def Spared (node : Node) (bucket key : Bytes) (r : ObjectMetadata) (s : State) : Write → Prop
  | .put call data headers => r.versionID ≠ [] ∨ bucket ∈ s.db.deletedBuckets ∨
      if isFolderMarker key then ¬ FolderAdmitted node call s bucket key data headers ∨ bytesAt node bucket key [] s = none ∧ SameLock s bucket r
      else ¬ Admitted node call s false bucket key [] data headers ∨ (∀ d, bytesAt node bucket key [] s = some d → d = data) ∧ SameLock s bucket r
  | .complete call uploadID parts => r.versionID ≠ [] ∨ ∀ upload, upload.bucket = bucket → ¬ Completable node call s uploadID parts upload

/-! A version's file lies deeper than the file of its key. -/

section
variable (bucket key v : Bytes)

theorem suffixLength (p : Path) (suffix : Bytes) : (withSuffix p suffix).length = p.length := by
  by_cases empty : p = []
  · subst empty
    rfl
  · have present := List.length_pos_iff.mpr empty
    rw [withSuffixEq empty,List.length_append,List.length_dropLast,List.length_singleton]
    omega

theorem objectShape : getFullPath (getObjectPath bucket key) = getFullPath bucket ++ getFullPath key := by
  rw [getObjectPath,List.append_assoc,List.singleton_append,fullAppend]

theorem versionShape : getFullPath (getVersionedObjectPath bucket key v) =
    getFullPath bucket ++ ascii ".versions" :: (getFullPath key ++ getFullPath v) := by
  have shape : getVersionedObjectPath bucket key v = bucket ++ slash :: (ascii ".versions" ++ slash :: (key ++ slash :: v)) := by
    simp [getVersionedObjectPath,ascii,slash]
  rw [shape,fullAppend,fullAppend,fullAppend,show getFullPath (ascii ".versions") = [ascii ".versions"] by decide]
  rfl

structure Deeper (p p' : Path) : Prop where
  clear : Clear p p'
  folder : FolderClear p p'
  other : p ≠ p'

theorem versionDeeper : Deeper (getFullPath (getObjectPath bucket key)) (getFullPath (getVersionedObjectPath bucket key v)) := by
  rw [objectShape,versionShape]
  generalize getFullPath bucket = home, getFullPath key = name, getFullPath v = version
  have longer : (home ++ name).length < (home ++ ascii ".versions" :: (name ++ version)).length := by
    simp only [List.length_append,List.length_cons]
    omega
  have shorter {a : Path} (small : a.length ≤ (home ++ name).length) : a ≠ home ++ ascii ".versions" :: (name ++ version) := by
    rintro rfl
    omega
  have inside {suffix} (above : withSuffix (home ++ ascii ".versions" :: (name ++ version)) suffix <+: home ++ name) : False := by
    have small := above.length_le
    rw [suffixLength] at small
    omega
  refine ⟨⟨shorter (suffixLength ..).le,shorter (suffixLength ..).le,inside,inside⟩,⟨fun above => ?_,fun a above => ?_,fun same => ?_⟩,
    shorter le_rfl⟩
  · exact absurd above.length_le (not_le.mpr longer)
  · exact shorter ((suffixLength ..).trans_le above.length_le)
  · -- The lengths leave only an empty version, and then one side has one marker more.
    have lengths := congrArg List.length same
    have counts := congrArg (List.count folderMarker) same
    simp only [markerIn,List.length_append,List.length_cons,List.length_nil] at lengths
    have none_ : version = [] := List.length_eq_zero_iff.mp (by omega)
    simp [markerIn,none_,folderMarker,ascii] at counts

end

section
variable {node : Node} {call : Call} {bucket key data : Bytes} {headers : Headers} {s : State} {r : ObjectMetadata}

theorem recordDeleted {pending} (deleted : pending.object.bucket ∈ s.db.deletedBuckets) :
    wp (recordObject call pending) (fun _ _ => False) (fun _ _ => True) s := by
  rw [recordObject,wpBind,wpGets,wpBind]
  refine saveRecordBy (fun _ db done => ?_) (fun _ db done => ?_) fun _ => trivial
  · exact absurd deleted (putVersionWrites done).2
  · exact absurd deleted (putObjectWrites done).2.2.2

theorem putDeleted (deleted : bucket ∈ s.db.deletedBuckets) :
    wp (putObject node call bucket key data headers) (fun _ _ => False) (fun _ _ => True) s := by
  rw [putObject,wpBind]
  refine wpLax storeObjectSpec fun pending s₁ done => ?_
  obtain ⟨db,_,_,here,_⟩ := done
  exact recordDeleted (by rw [db,here]; exact deleted)

theorem failedOf {α : Type} {m : Action State Error α} {E : Error → State → Prop} (never : wp m (fun _ _ => False) E s) :
    (m s).1.isOk = false := by
  unfold wp at never
  split at never <;> rename_i result <;> rw [result]
  · exact never.elim
  · rfl

theorem writtenBytes {r' enc m t} (cipher : Cipher node) (valid : validateObjectName key = true)
    (path : validatePath (getObjectPath bucket key) = true)
    (found : stored t bucket key = some r') (written : Written node s bucket key data r')
    (holds : Holds t.files (getFullPath (getObjectPath bucket key)) enc m) (sealed_ : Sealed node m enc data) :
    bytesAt node bucket key [] t = some data := by
  have current : currentVersion t bucket key = [] := by
    rw [currentVersion,found]
    exact written.versionID
  have spec := getObjectHeld (v := []) valid path holds sealed_ current (fun obj same => by
    rw [found] at same
    cases same
    simp [isMetadataDeleteMarker,written.etag,cipher.digest])
  unfold wp at spec
  split at spec <;> rename_i result
  · rw [bytesAt,result]
    exact spec.1
  · exact spec.elim

theorem putFileIff (home : bucket ≠ []) (current : s.db.getObject bucket key [] = .ok r) (off : isBucketVersioningEnabled s bucket = false)
    (cipher : Cipher node)
    (opens : ∀ envelope, call.envelope = some envelope → Opens node envelope) (file : isFolderMarker key = false)
    (open_ : bucket ∉ s.db.deletedBuckets) :
    Respects node bucket key [] s (putObject node call bucket key data headers s) ↔ ¬ Admitted node call s false bucket key [] data headers ∨
        (∀ d, bytesAt node bucket key [] s = some d → d = data) ∧ SameLock s bucket r := by
  have spec : wp (putObject node call bucket key data headers) _ _ s := putObjectPlainSpec home off open_ file cipher opens
  unfold Respects
  unfold wp at spec
  split at spec <;> rename_i result <;> rw [result]
  · obtain ⟨admitted,_,⟨r',found,written⟩,_,_,holds,sealed_⟩ := spec
    have bytes := writtenBytes cipher admitted.name admitted.path found written holds sealed_
    rw [bytes]
    constructor
    · rintro (failed | ⟨same,lock⟩)
      · contradiction
      obtain ⟨_,read,retention,hold⟩ := lock r current
      rw [storedSome found] at read
      cases read
      exact .inr ⟨fun d before => (Option.some.inj (same d before)).symm,written.retention.symm.trans retention,hold.symm.trans written.hold⟩
    · rintro (refused | ⟨same,retention,hold⟩)
      · exact absurd admitted refused
      refine .inr ⟨fun d before => congrArg some (same d before).symm,fun old before => ?_⟩
      cases (current.symm.trans before)
      exact ⟨r',storedSome found,written.retention.trans retention,written.hold.trans hold.symm⟩
  · exact ⟨fun _ => .inl spec.1,fun _ => .inl rfl⟩

theorem folderRefused (off : isBucketVersioningEnabled s bucket = false) (folder : isFolderMarker key = true)
    (refused : ¬ FolderAdmitted node call s bucket key data headers) :
    wp (putObject node call bucket key data headers) (fun _ _ => False) (fun _ _ => True) s := by
  rw [putObject,wpBind]
  refine storeObjectBy (fun _ _ => trivial) ?_
  rw [off]
  intro id name chosen checksum room path
  rw [storeData,if_pos folder,storeUnencryptedObject,wpStorage,put,wpBind,wpCheck]
  exact ⟨fun path => absurd ⟨name,checksum,room,path⟩ refused,fun _ => trivial⟩

theorem folderKept (home : bucket ≠ []) (current : s.db.getObject bucket key [] = .ok r)
    (off : isBucketVersioningEnabled s bucket = false) (folder : isFolderMarker key = true) (open_ : bucket ∉ s.db.deletedBuckets)
    (empty : bytesAt node bucket key [] s = none)
    (lock : SameLock s bucket r) : Respects node bucket key [] s (putObject node call bucket key data headers s) := by
  have spec : wp (putObject node call bucket key data headers) (fun _ s' => ∃ r', stored s' bucket key = some r' ∧
      r'.retention = r.retention ∧ r'.legalHold = r.legalHold) (fun _ _ => True) s := by
    rw [putObject,wpBind]
    refine wpLax (wpAnd storeObjectSpec (storeObjectFolder off folder)) fun pending s₁ done => ?_
    obtain ⟨⟨db,_⟩,named,fresh,retention,hold,_⟩ := done
    refine wpSure (recordObjectPlain home named (db ▸ open_) fresh) fun _ s' recorded => ?_
    refine ⟨_,storedAt home named recorded.record fresh.bucket fresh.key,retention.trans lock.1,?_⟩
    rw [lock.2]
    change (toMetadataObject pending.object).legalHold = false
    simp [toMetadataObject,hold]
  unfold Respects
  rw [empty]
  unfold wp at spec
  split at spec <;> rename_i result <;> rw [result]
  · obtain ⟨r',found,retention,hold⟩ := spec
    refine .inr ⟨fun _ none_ => by contradiction,fun old before => ?_⟩
    cases (current.symm.trans before)
    exact ⟨r',storedSome found,retention,hold⟩
  · exact .inl rfl

theorem unversionedPut {db db' : Database} {now obj} (plain : obj.versionID = []) (done : db.putObject now obj = .ok db') :
    db'.versions = db.versions := by
  obtain ⟨rfl,_⟩ := putObjectWrites done
  have version : (stamped now obj).versionID = [] := plain
  dsimp only [writeObject]
  rw [if_pos version]

theorem putVersions (off : isBucketVersioningEnabled s bucket = false) :
    (putObject node call bucket key data headers s).2.db.versions = s.db.versions := by
  have follows := putObjectFollows node call bucket key data headers s
  rw [off] at follows
  refine follows.keeps (fun quiet holds => quiet.versions.trans holds) (fun permitted effect holds => ?_) rfl
  cases effect with
  | insert => exact absurd permitted.1 (by simp)
  | plain done => exact (unversionedPut permitted.2.2.2 done).trans holds
  | adopt free done => exact (unversionedPut permitted.2.2 done).trans holds
  | edit => exact permitted.elim
  | drop => exact permitted.elim
  | erase => exact permitted.elim

theorem recordedFile {v d} (version : v ≠ []) (bytes : bytesAt node bucket key v s = some d) :
    ∃ f, s.files.get (getFullPath (getVersionedObjectPath bucket key v)) = some (.file f) := by
  obtain ⟨⟨_,_⟩,answered,some_⟩ := Option.bind_eq_some_iff.mp bytes
  cases some_
  have file := readFile (toOptionIff.mp answered)
  rwa [pathIn,if_neg version,pathOf,if_neg version] at file

theorem versionRespected {v} {outcome : Except Error Object × State} (version : v ≠ []) (versions : outcome.2.db.versions = s.db.versions)
    (files : ∀ f, s.files.get (getFullPath (getVersionedObjectPath bucket key v)) = some (.file f) →
      Standing (getFullPath (getVersionedObjectPath bucket key v)) s.files outcome.2.files) : Respects node bucket key v s outcome := by
  have record : outcome.2.db.getObject bucket key v = s.db.getObject bucket key v := by
    simp only [Database.getObject,Database.record,if_neg version,versions]
  refine .inr ⟨fun d bytes => ?_,fun old before => ⟨old,record.trans before,rfl,rfl⟩⟩
  obtain ⟨f,found⟩ := recordedFile version bytes
  have same : SameVersion bucket key v s outcome.2 := ⟨record,⟨f,found⟩,files f found⟩
  rw [bytesAt,← (agreesGetVersion version s _ same).1]
  exact bytes

theorem versionKept {v} (off : isBucketVersioningEnabled s bucket = false) (version : v ≠ []) (named : key ≠ []) :
    Respects node bucket key v s (putObject node call bucket key data headers s) := by
  obtain ⟨clear,folder,other⟩ := versionDeeper bucket key v
  refine versionRespected version (putVersions off) fun f found => putObjectFiles off named found clear ?_
  split
  · exact folder
  · exact other

end

section
variable {node : Node} {call : Call} {uploadID : Bytes} {parts : List Part} {upload : MultipartUpload} {s : State}

theorem anyway {α β m} {next : α → Action State Error β} {Q s}
    (rest : ∀ a s', wp (next a) Q (fun _ _ => True) s') : wp (m >>= next) Q (fun _ _ => True) s := by
  rw [wpBind]
  exact wpLax (wpOfState (P := fun _ => True) trivial) fun a s' _ => rest a s'

theorem combineValid (path : Bytes) : wp (combineMultipartParts node call uploadID parts path)
    (fun _ s' => validatePath path = true ∧ s'.db = s.db) (fun _ _ => True) s := by
  have valid : wp (combineMultipartParts node call uploadID parts path) (fun _ _ => validatePath path = true) (fun _ _ => True) s :=
    anyway fun _ _ => anyway fun _ _ => by
      rw [wpStorage]
      exact putValid
  exact wpLax (wpAnd valid (filesCombine (I := (·.db = s.db)) (fun same => same) uploadID parts path s rfl)) fun _ _ both => both

theorem encryptEnvelope (path : Bytes) : wp (encryptCombined node call path upload)
    (fun _ s' => call.envelope ≠ none ∧ s'.db = s.db) (fun _ _ => True) s := by
  have envelope : wp (encryptCombined node call path upload) (fun _ _ => call.envelope ≠ none) (fun _ _ => True) s := by
    refine anyway fun m s₁ => anyway fun data s₂ => ?_
    rw [wpBind]
    unfold storeEncryptedMultipartObject
    cases given : call.envelope with
    | none => trivial
    | some envelope =>
      refine wpLax (wpOfState (P := fun _ => True) trivial) fun _ s₃ _ => ?_
      exact wpLax (wpOfState (P := fun _ => True) trivial) fun _ _ _ => by simp
  exact wpLax (wpAnd envelope (filesEncryptCombined (I := (·.db = s.db)) (fun same => same) path upload s rfl)) fun _ _ both => both

section
variable {p' : Path} {before : Files} {f : File}

theorem presentFile (found : before.get p' = some (.file f)) : p' ≠ [] := by
  rintro rfl
  rw [before.getRoot] at found
  contradiction

theorem standingBy {α} {m : Action Files StorageError α} (each : ∀ q ∈ names p', ∀ x, Keeps (At q x) m) :
    Keeps (fun s : State => Standing p' before s.files) (storage m) := by
  intro s standing
  rw [wpStorage]
  exact wpOfState fun q mem => (each q mem _).after (standing q mem)

section
variable (found : before.get p' = some (.file f)) (deeper : Deeper (getFullPath (getObjectPath upload.bucket upload.key)) p')
    (named : upload.key ≠ [])
include found deeper

theorem standingObject : Keeps (fun s : State => Standing p' before s.files)
    (storage (getMetadata node.host (getObjectPath upload.bucket upload.key))) ∧ Keeps (fun s : State => Standing p' before s.files)
    (readPart node (getObjectPath upload.bucket upload.key)) := by
  have beside q (mem : q ∈ names p') := namesBeside (presentFile found) deeper.clear.parted deeper.other mem
  refine ⟨standingBy fun q mem x => keepsGetMetadata (beside q mem),.bind (standingBy fun q mem x => keepsGet (beside q mem)) fun read => ?_⟩
  obtain ⟨data,_⟩ := read
  cases data with
  | some bytes => exact .pure _
  | none => exact .fail _

include named

theorem standingPut (data : Bytes) (m : StagedCommit.Metadata) : Keeps (fun s : State => Standing p' before s.files)
    (storage (put node.host call.seconds (getObjectPath upload.bucket upload.key) data m)) := by
  intro s standing
  rw [wpStorage]
  have here : s.files.get p' = some (.file f) := (standing p' (by simp [names])).trans found
  refine wpOfState fun q mem => Eq.trans ?_ (standing q mem)
  cases folder : isFolderMarker upload.key with
  | true =>
    exact (putFolderFrame (folderPath folder) (presentFile found) deeper.clear deeper.folder mem).after (rfl : At q (s.files.get q) s.files)
  | false =>
    exact (putFileFrame (plainPath folder named) here (presentFile found) deeper.clear deeper.other mem).after (rfl : At q (s.files.get q) s.files)

theorem standingEncrypt : Keeps (fun s : State => Standing p' before s.files)
    (encryptCombined node call (getObjectPath upload.bucket upload.key) upload) := by
  have store data size etag : Keeps (fun s : State => Standing p' before s.files)
      (storeEncryptedMultipartObject node call (getObjectPath upload.bucket upload.key) data upload size etag) := by
    unfold storeEncryptedMultipartObject
    cases call.envelope with
    | none => exact .fail _
    | some envelope => exact standingPut found deeper named _ _
  obtain ⟨sidecar,data⟩ : Keeps _ (storage (getMetadata node.host (getObjectPath upload.bucket upload.key))) ∧ _ := standingObject found deeper
  refine .bind sidecar fun m => .bind data fun data => .bind (store _ _ _) fun _ => .bind (.attempt sidecar) fun result => ?_
  cases result <;> exact .pure _

end

section
variable {bucket key v : Bytes} (outside : Outside bucket)
include outside

theorem standingPart (n : Int) : Keeps (fun s : State => Standing (getFullPath (pathOf bucket key v)) before s.files)
    (storage (getMetadata node.host (getMultipartPartPath uploadID n))) ∧
    Keeps (fun s : State => Standing (getFullPath (pathOf bucket key v)) before s.files)
    (readPart node (getMultipartPartPath uploadID n)) := by
  have beside q (mem : q ∈ names (getFullPath (pathOf bucket key v))) : Beside q (PartFiles.partFile uploadID n) := by
    have apart := objectNames outside mem
    exact ⟨fun same => apart (same ▸ partNames uploadID n (by simp [names])),fun same => apart (same ▸ partNames uploadID n (by simp [names]))⟩
  refine ⟨standingBy fun q mem x => keepsGetMetadata (beside q mem),.bind (standingBy fun q mem x => keepsGet (beside q mem)) fun read => ?_⟩
  obtain ⟨data,_⟩ := read
  cases data with
  | some bytes => exact .pure _
  | none => exact .fail _

theorem standingParts (parts : List Part) : Keeps (fun s : State => Standing (getFullPath (pathOf bucket key v)) before s.files)
    (readParts node uploadID parts) := by
  induction parts with
  | nil => exact .pure _
  | cons part rest ih => exact .bind (standingPart outside part.partNumber).2 fun _ => .bind ih fun _ => .pure _

theorem standingCombine (found : before.get (getFullPath (pathOf bucket key v)) = some (.file f))
    (deeper : Deeper (getFullPath (getObjectPath upload.bucket upload.key)) (getFullPath (pathOf bucket key v))) (named : upload.key ≠ []) :
    Keeps (fun s : State => Standing (getFullPath (pathOf bucket key v)) before s.files)
      (combineMultipartParts node call uploadID parts (getObjectPath upload.bucket upload.key)) := by
  refine .bind ?_ fun _ => .bind (standingParts outside parts) fun _ => standingPut found deeper named _ _
  cases parts with
  | nil => exact .pure _
  | cons part rest =>
    refine .bind (.attempt (standingPart outside part.partNumber).1) fun m => ?_
    cases m <;> exact .pure _

theorem standingCleanup (size : Int) (existing : Option ObjectMetadata) (enabled : Bool) :
    Keeps (fun s : State => Standing (getFullPath (pathOf bucket key v)) before s.files)
      (updateMetricsAndCleanupMultipart upload.bucket uploadID size existing parts enabled) :=
  .bind (keepsPutMetrics _ _ _ _) fun _ => .bind (keepsPutTenant _ _ _ _) fun _ => .bind (.ignore (keepsWrites _)) fun _ =>
    .each fun _ _ => .ignore (standingBy fun _ mem _ => partsAway outside mem)

end

end

theorem completeVersions (found : s.db.getMultipartUpload uploadID = .ok upload) (off : isBucketVersioningEnabled s upload.bucket = false) :
    (doCompleteMultipartUpload node call uploadID parts s).2.db.versions = s.db.versions := by
  have follows : Follows node.sorting upload.bucket call.now _ s.db (doCompleteMultipartUpload node call uploadID parts s).2.db :=
    completeFollows found
  rw [off] at follows
  refine follows.keeps (fun quiet holds => quiet.versions.trans holds) (fun permitted effect holds => ?_) rfl
  cases effect with
  | insert => exact absurd permitted.1 (by simp)
  | plain done => exact (unversionedPut permitted.2.2.2 done).trans holds
  | adopt => exact permitted.elim
  | edit => exact permitted.elim
  | drop => exact permitted.elim
  | erase => exact permitted.elim

theorem completeKept {v} (off : isBucketVersioningEnabled s upload.bucket = false) (outside : Outside upload.bucket) (named : upload.key ≠ [])
    (found : s.db.getMultipartUpload uploadID = .ok upload) (version : v ≠ []) :
    Respects node upload.bucket upload.key v s (doCompleteMultipartUpload node call uploadID parts s) := by
  cases result : doCompleteMultipartUpload node call uploadID parts s with | mk answer s' =>
  cases answer with
  | error e => exact .inl rfl
  | ok object =>
    refine versionRespected version (by rw [← completeVersions found off,result]) fun f file => ?_
    have path : getVersionedObjectPath upload.bucket upload.key v = pathOf upload.bucket upload.key v := by rw [pathOf,if_neg version]
    have deeper := versionDeeper upload.bucket upload.key v
    rw [path] at deeper file ⊢
    have spec : wp (doCompleteMultipartUpload node call uploadID parts)
        (fun _ s' => Standing (getFullPath (pathOf upload.bucket upload.key v)) s.files s'.files) (fun _ _ => True) s := by
      refine completeBy trivial (fun _ => trivial) ?_
      intro upload' total etag found' _ enabled existing _ id place _ _ _
      cases found.symm.trans found'
      have plain : place = getObjectPath upload.bucket upload.key := if_neg (by simp [enabled,off])
      rw [plain]
      refine wpLax (standingCombine outside file deeper named s fun _ _ => rfl) fun _ s₁ standing => ?_
      refine wpLax (standingEncrypt file deeper named s₁ standing) fun sizes s₂ standing => ?_
      refine wpLax ((keepsWrites _ : Keeps (fun s : State => Standing _ _ s.files) (saveRecord _ _ _)) s₂ standing) fun _ s₃ standing => ?_
      exact wpLax (standingCleanup outside _ _ _ s₃ standing) fun _ _ standing => standing
    have kept := wpOk spec result
    exact kept

structure Joined (upload : MultipartUpload) (record : ObjectMetadata) : Prop where
  bucket : record.bucket = upload.bucket
  key : record.key = upload.key
  retention : record.retention = none
  hold : record.legalHold = false

theorem saveJoined {object} (versionID etag : Bytes) (size modified : Int) (same : object = multipartObject upload versionID etag size modified)
    (plain : versionID = []) : wp (saveRecord call false object) (fun _ s' => upload.bucket ∉ s.db.deletedBuckets ∧ upload.bucket ≠ [] ∧
      upload.key ≠ [] ∧ ∃ record, s'.db.objects.get (objectKey upload.bucket upload.key) = some record ∧ Joined upload record)
      (fun _ _ => True) s := by
  subst same plain
  refine saveRecordBy nofun (fun _ db done => ?_) fun _ => trivial
  obtain ⟨rfl,home,named,open_⟩ := putObjectWrites done
  exact ⟨open_,home,named,stamped call.now (toMetadataObject (multipartObject upload [] etag size modified)),
    Store.getSetSame _ _ _,rfl,rfl,rfl,rfl⟩

theorem completeSpec (off : ∀ upload, s.db.getMultipartUpload uploadID = .ok upload → isBucketVersioningEnabled s upload.bucket = false) :
    wp (doCompleteMultipartUpload node call uploadID parts) (fun _ s' => ∃ upload, Completable node call s uploadID parts upload ∧
      upload.bucket ≠ [] ∧ upload.key ≠ [] ∧ ∃ record, s'.db.objects.get (objectKey upload.bucket upload.key) = some record ∧ Joined upload record)
      (fun _ _ => True) s := by
  refine completeBy trivial (fun _ => trivial) ?_
  intro upload total etag found listed enabled existing _ version path tenant room tagged
  have plain : enabled = false := off upload found
  refine wpLax (combineValid _) fun _ s₁ combined => ?_
  refine wpLax (encryptEnvelope _) fun sizes s₂ encrypted => ?_
  refine wpLax (plain ▸ saveJoined version etag sizes.1 sizes.2 rfl (if_neg (by simp [plain]))) fun _ s₃ saved => ?_
  obtain ⟨open_,home,named,record,entry,joined⟩ := saved
  have same : s₂.db = s.db := encrypted.2.trans combined.2
  have cleanup : Keeps (fun s' : State => Follows node.sorting upload.bucket call.now (fun _ => False) s₃.db s'.db) _ :=
    followsCleanup upload.bucket uploadID sizes.1 existing parts enabled
  refine wpLax (cleanup s₃ (.refl _)) fun _ s₄ follows => ?_
  refine ⟨upload,⟨found,⟨total,listed,?_⟩,⟨etag,tagged⟩,?_,encrypted.1,same ▸ open_⟩,home,named,record,?_,joined⟩
  · exact plain ▸ ⟨tenant,room⟩
  · rw [show path = getObjectPath upload.bucket upload.key from if_neg (by simp [plain])] at combined
    exact combined.1
  · exact follows.keeps (P := fun db => db.objects.get (objectKey upload.bucket upload.key) = some record)
      (fun quiet holds => by rw [quiet.objects]; exact holds) (fun never => never.elim) entry

end

def Fits (node : Node) (bucket key : Bytes) (s : State) : Write → Prop
  | .put call _ _ => ∀ envelope, call.envelope = some envelope → Opens node envelope
  | .complete _ uploadID _ => Outside bucket ∧ ∀ upload, s.db.getMultipartUpload uploadID = .ok upload → upload.bucket = bucket ∧ upload.key = key

section
variable {node : Node} {bucket key : Bytes} {s : State} {r : ObjectMetadata}

theorem lockLost {now : Int} {new : ObjectMetadata} (locked : lockError now false r ≠ none) (retention : new.retention = r.retention)
    (hold : new.legalHold = r.legalHold) : ¬ (new.retention = none ∧ new.legalHold = false) := by
  intro ⟨none_,off⟩
  apply locked
  unfold lockError
  rw [← hold,off,← retention,none_]
  rfl

theorem completeRespects {call uploadID parts} (off : isBucketVersioningEnabled s bucket = false)
    (current : s.db.getObject bucket key [] = .ok r) (locked : lockError call.now false r ≠ none)
    (fits : Fits node bucket key s (.complete call uploadID parts)) :
    (Respects node bucket key [] s (doCompleteMultipartUpload node call uploadID parts s) →
      (doCompleteMultipartUpload node call uploadID parts s).1.isOk = false) ∧
    ((∀ upload, upload.bucket = bucket → ¬ Completable node call s uploadID parts upload) →
      (doCompleteMultipartUpload node call uploadID parts s).1.isOk = false) := by
  have spec : wp (doCompleteMultipartUpload node call uploadID parts) _ _ s := completeSpec fun upload found => (fits.2 upload found).1.symm ▸ off
  unfold wp at spec
  split at spec <;> rename_i result <;> rw [result]
  · obtain ⟨upload,completable,home,named,_,entry,joined⟩ := spec
    obtain ⟨rfl,rfl⟩ := fits.2 upload completable.found
    refine ⟨?_,fun refused => absurd completable (refused upload rfl)⟩
    rintro (failed | ⟨_,lock⟩)
    · exact failed
    obtain ⟨_,read,retention,hold⟩ := lock r current
    rw [Database.getObject,if_neg (by simp [home,named]),Database.record,entry] at read
    cases read
    exact absurd ⟨joined.retention,joined.hold⟩ (lockLost locked retention hold)
  · exact ⟨fun _ => rfl,fun _ => rfl⟩

theorem uploadRespects {call uploadID parts} (off : isBucketVersioningEnabled s bucket = false) (named : key ≠ [])
    (fits : Fits node bucket key s (.complete call uploadID parts)) {v} (version : v ≠ []) :
    Respects node bucket key v s (doCompleteMultipartUpload node call uploadID parts s) := by
  cases found : s.db.getMultipartUpload uploadID with
  | error e =>
    have spec : wp (doCompleteMultipartUpload node call uploadID parts) (fun _ _ => False) (fun _ _ => True) s := by
      rw [doCompleteMultipartUpload,wpBind,getUpload,wpObserve,found]
      trivial
    exact .inl (failedOf spec)
  | ok upload =>
    obtain ⟨rfl,rfl⟩ := fits.2 upload found
    exact completeKept off fits.1 named found version

/-- A write on a locked object respects it where it is refused, repeats the object, or where the object is an older version, which
stays in place. Of files put over a plain object these are all the cases, and no completion over one that succeeds respects it. -/
theorem lockedObjectSpared (w : Write) (cipher : Cipher node) (off : isBucketVersioningEnabled s bucket = false)
    (current : s.db.getObject bucket key [] = .ok r) (locked : lockError w.now false r ≠ none) (fits : Fits node bucket key s w) :
    (Spared node bucket key r s w → Respects node bucket key r.versionID s (attempted node bucket key s w)) ∧
    (Respects node bucket key r.versionID s (attempted node bucket key s w) → match w with
      | .put call data headers => isFolderMarker key = false → Spared node bucket key r s (.put call data headers)
      | .complete .. => r.versionID ≠ [] ∨ (attempted node bucket key s w).1.isOk = false) := by
  have names : bucket ≠ [] ∧ key ≠ [] := by
    unfold Database.getObject at current
    split at current <;> try contradiction
    rename_i named
    exact not_or.mp named
  by_cases version : r.versionID ≠ []
  · cases w with
    | put call data headers => exact ⟨fun _ => versionKept off version names.2,fun _ _ => .inl version⟩
    | complete call uploadID parts => exact ⟨fun _ => uploadRespects off names.2 fits version,fun _ => .inl version⟩
  have plain := not_not.mp version
  rw [plain]
  cases w with
  | put call data headers =>
    by_cases deleted : bucket ∈ s.db.deletedBuckets
    · exact ⟨fun _ => .inl (failedOf (putDeleted deleted)),fun _ _ => .inr (.inl deleted)⟩
    refine ⟨fun spared => ?_,fun respects file => .inr (.inr ?_)⟩
    · have spared := (Or.resolve_left spared version).resolve_left deleted
      split at spared
      · rename_i folder
        rcases spared with refused | ⟨empty,lock⟩
        · exact .inl (failedOf (folderRefused off folder refused))
        · exact folderKept names.1 current off folder deleted empty lock
      · rename_i file
        exact (putFileIff names.1 current off cipher fits (by simpa using file) deleted).mpr spared
    · rw [if_neg (by rw [file]; simp)]
      exact (putFileIff names.1 current off cipher fits file deleted).mp respects
  | complete call uploadID parts =>
    obtain ⟨lost,refused⟩ := completeRespects off current locked fits
    exact ⟨fun spared => .inl (refused (Or.resolve_left spared version)),fun respects => .inr (lost respects)⟩

end

def partBytes : Bytes := List.replicate 31 48

def lockedRun : List Event :=
  [⟨callAt 5, .put (ascii "k") [7] empty⟩, ⟨callAt 6, .createUpload (ascii "u") (ascii "k") empty⟩,
    ⟨callAt 7, .uploadPart (ascii "u") 1 partBytes⟩,
    ⟨callAt 8, .setRetention (ascii "k") (some ⟨compliance, fromSeconds 100⟩) []⟩]

theorem lockedReached : ∃ s r, run (step smallNode (ascii "b")) (newBucket none) lockedRun = some s ∧
    isBucketVersioningEnabled s (ascii "b") = false ∧ s.db.getObject (ascii "b") (ascii "k") [] = .ok r ∧
    r.versionID = [] ∧ lockError (fromSeconds 9) false r ≠ none := by
  obtain ⟨s,ran,off,r,current,plain,locked⟩ : ∃ s, run (step smallNode (ascii "b")) (newBucket none) lockedRun = some s ∧
      isBucketVersioningEnabled s (ascii "b") = false ∧ ∃ r, (s.db.getObject (ascii "b") (ascii "k") []).toOption = some r ∧
        r.versionID = [] ∧ lockError (fromSeconds 9) false r ≠ none := by decide +kernel
  exact ⟨s,r,ran,off,toOptionIff.mp current,plain,locked⟩

theorem keylessPutSpares : ∃ s r, run (step smallNode (ascii "b")) (newBucket none) lockedRun = some s ∧
    s.db.getObject (ascii "b") (ascii "k") [] = .ok r ∧ Respects smallNode (ascii "b") (ascii "k") r.versionID s
      (attempted smallNode (ascii "b") (ascii "k") s (.put { callAt 9 with envelope := none } [8] empty)) := by
  obtain ⟨s,r,ran,off,current,plain,locked⟩ := lockedReached
  refine ⟨s,r,ran,current,(lockedObjectSpared (.put { callAt 9 with envelope := none } [8] empty) sampleCipher
    off current locked (fun envelope given => ?_)).1 (.inr (.inr ?_))⟩
  · exact absurd given (by simp)
  · exact .inl fun admitted => admitted.envelope rfl

-- The put and the completion both succeed, and the bytes under retention are gone.
theorem lockedObjectReplaced : ∃ s r, run (step smallNode (ascii "b")) (newBucket none) lockedRun = some s ∧
    isBucketVersioningEnabled s (ascii "b") = false ∧ s.db.getObject (ascii "b") (ascii "k") [] = .ok r ∧
    r.versionID = [] ∧ lockError (fromSeconds 9) false r ≠ none ∧ ¬ Respects smallNode (ascii "b") (ascii "k") [] s
      (attempted smallNode (ascii "b") (ascii "k") s (.put (callAt 9) [8] empty)) ∧ ¬ Respects smallNode (ascii "b") (ascii "k") [] s
      (attempted smallNode (ascii "b") (ascii "k") s (.complete (callAt 9) (ascii "u") [⟨1, ascii "m" ++ partBytes⟩])) := by
  obtain ⟨s,r,ran,off,current,plain,locked⟩ := lockedReached
  obtain ⟨s',again,before,put,joined⟩ : ∃ s, run (step smallNode (ascii "b")) (newBucket none) lockedRun = some s ∧
      let put := attempted smallNode (ascii "b") (ascii "k") s (.put (callAt 9) [8] empty)
      let joined := attempted smallNode (ascii "b") (ascii "k") s (.complete (callAt 9) (ascii "u") [⟨1,ascii "m" ++ partBytes⟩])
      bytesAt smallNode (ascii "b") (ascii "k") [] s = some [7] ∧
      (put.1.isOk = true ∧ bytesAt smallNode (ascii "b") (ascii "k") [] put.2 = some [8]) ∧
        joined.1.isOk = true ∧ bytesAt smallNode (ascii "b") (ascii "k") [] joined.2 = some partBytes := by decide +kernel
  cases ran.symm.trans again
  have replaced {outcome : Except Error Object × State} {d : Bytes} (other : d ≠ [7])
      (facts : outcome.1.isOk = true ∧ bytesAt smallNode (ascii "b") (ascii "k") [] outcome.2 = some d) :
      ¬ Respects smallNode (ascii "b") (ascii "k") [] s outcome := by
    rintro (failed | ⟨kept,_⟩)
    · exact absurd (failed.symm.trans facts.1) (by simp)
    · exact other (Option.some.inj (facts.2.symm.trans (kept [7] before)))
  exact ⟨s,r,ran,off,current,plain,locked,replaced (by decide) put,replaced (by decide) joined⟩

end MaxIOFS.Overwrites
