import MaxIOFS.PartFiles

/-! What a completed upload leaves: the joined parts encrypted at the object's path, under a sidecar
that ends with the upload's own entries. -/
namespace MaxIOFS.Completions
open ByteString OrderedStore FileTree Effects MetadataStore Records ObjectManager RecordChanges
open StagedCommit (Metadata calculated entry sizeKey etagKey)
open Filesystem FileFrame StoredFiles StoredObjects ObjectReads PartFiles ManagerFiles List

def systemRoot : Bytes := ascii ".maxiofs"

def Outside (bucket : Bytes) : Prop := ∃ first rest, getFullPath bucket = first :: rest ∧ first ≠ systemRoot

theorem suffixRoot {first} (rest : Path) {suffix} : (withSuffix (first :: rest) suffix).head? =
    some (if rest = [] then first ++ suffix else first) := by
  cases rest with
  | nil => rfl
  | cons second more =>
    have last : (first :: second :: more).getLast? = some ((second :: more).getLast (by simp)) := by
      rw [List.getLast?_cons_cons,List.getLast?_eq_some_getLast]
    simp [withSuffix,last]

theorem partRoot (uploadID : Bytes) (n : Int) : ∃ second more, partFile uploadID n = systemRoot :: second :: more := by
  have shape : ascii ".maxiofs/multipart/parts/" ++ uploadID = systemRoot ++ slash :: (ascii "multipart/parts/" ++ uploadID) := by
    simp [systemRoot,ascii,slash]
  have root : getFullPath systemRoot = [systemRoot] := by decide
  have rest : ∀ l, l ++ [fiveDigits n] ≠ [] := by simp
  obtain ⟨second,more,tail⟩ := exists_cons_of_ne_nil (rest (getFullPath (ascii "multipart/parts/" ++ uploadID)))
  refine ⟨second,more,?_⟩
  rw [partShape,shape,fullAppend,root,append_assoc,tail]
  rfl

section
variable {bucket key v uploadID : Bytes} {n : Int} {q : Path}

theorem partNames (uploadID : Bytes) (n : Int) (mem : q ∈ names (partFile uploadID n)) : q.head? = some systemRoot := by
  obtain ⟨_,_,shape⟩ := partRoot uploadID n
  simp only [names,shape,mem_cons,not_mem_nil,or_false] at mem
  rcases mem with rfl | rfl | rfl
  · rfl
  · exact suffixRoot _
  · exact suffixRoot _

theorem pathRoot (bucket key v : Bytes) : ∃ more, getFullPath (pathOf bucket key v) = getFullPath bucket ++ more := by
  unfold pathOf
  split
  · exact ⟨getFullPath key,by rw [getObjectPath,append_assoc,singleton_append,fullAppend]⟩
  refine ⟨getFullPath (ascii ".versions/" ++ key ++ [slash] ++ v),?_⟩
  have shape : getVersionedObjectPath bucket key v = bucket ++ slash :: (ascii ".versions/" ++ key ++ [slash] ++ v) := by
    simp [getVersionedObjectPath,ascii,slash]
  rw [shape,fullAppend]

section
variable (outside : Outside bucket) (mem : q ∈ names (getFullPath (pathOf bucket key v)))
include outside mem

theorem objectNames : q.head? ≠ some systemRoot := by
  obtain ⟨first,rest,shape,other⟩ := outside
  obtain ⟨more,path⟩ := pathRoot bucket key v
  have ending : ∀ suffix ∈ [ascii ".metadata",ascii ".metadata-staging"], ¬ suffix <:+ systemRoot := by decide
  have suffixed {suffix} (listed : suffix ∈ [ascii ".metadata",ascii ".metadata-staging"]) :
      (withSuffix (first :: (rest ++ more)) suffix).head? ≠ some systemRoot := by
    rw [suffixRoot]
    split
    · exact fun same => ending suffix listed (Option.some.inj same ▸ suffix_append ..)
    · exact fun same => other (Option.some.inj same)
  rw [path,shape] at mem
  simp only [names,mem_cons,not_mem_nil,or_false] at mem
  rcases mem with rfl | rfl | rfl
  · exact fun same => other (Option.some.inj same)
  · exact suffixed (by simp)
  · exact suffixed (by simp)

theorem partsAway {x} : Keeps (At q x) (delete (getMultipartPartPath uploadID n)) := by
  have apart := objectNames outside mem
  refine keepsDelete ⟨fun same => apart ?_,fun same => apart ?_⟩ fun inside => apart ?_
  · exact same ▸ partNames uploadID n (by simp [names,partFile])
  · exact same ▸ partNames uploadID n (by simp [names,partFile])
  obtain ⟨_,_,shape⟩ := partRoot uploadID n
  obtain ⟨_,rfl⟩ := inside
  rw [show getFullPath (getMultipartPartPath uploadID n) = _ from shape]
  rfl

end

end

def recordedSize (size : Nat) : Int := (parseInt (formatNat size)).1

theorem recordedNonneg (size : Nat) : 0 ≤ recordedSize size := parseUnsigned (formatNatUnsigned _)

theorem recordedSmall {size : Nat} (small : (size : Int) ≤ maxInt64) : recordedSize size = size := by
  rw [recordedSize,parseFormatted,if_neg (not_lt.mpr small)]

theorem sidecarSize (md5 : Bytes → Bytes) (now : Int) (data : Bytes) (m : Metadata) :
    (parseInt (entry (calculated md5 now data m) sizeKey)).1 = recordedSize data.length := by
  have size : entry (calculated md5 now data m) sizeKey = formatNat data.length := by
    unfold entry calculated
    rw [Store.getSetOther _ _ (by decide),Store.getSetOther _ _ (by decide),Store.getSetSame]
    rfl
  rw [size,recordedSize]

def uploadEntries (upload : MultipartUpload) : List (Bytes × Bytes) := upload.metadata.entries.filter (fun e => e.1 ≠ contentTypeKey)

def joinedSidecar (node : Node) (call : Call) (upload : MultipartUpload) (data : Bytes) (envelope : Envelope) : Metadata :=
  calculated node.host.md5 call.seconds (node.encryptStream envelope.dek data)
    ((((empty.setAll (encryptionEntries (recordedSize data.length) (node.host.md5 data))).set contentTypeKey
      (uploadContentType upload)).setAll envelope.entries).setAll (uploadEntries upload))

section
variable {node : Node} {call : Call} {uploadID path : Bytes} {parts : List Part} {upload : MultipartUpload} {s : State}

structure Joined (node : Node) (call : Call) (upload : MultipartUpload) (path data : Bytes) (sizes : Int × Int) (s : State) : Prop where
  size : sizes.1 = recordedSize data.length
  valid : validatePath path = true
  file : hasSuffix [slash] path = false
  held : ∃ envelope, call.envelope = some envelope ∧
    Holds s.files (getFullPath path) (node.encryptStream envelope.dek data) (joinedSidecar node call upload data envelope)

theorem encryptHeld {data m} (plain : hasSuffix [slash] path = false) (valid : validatePath path = true)
    (holds : Holds s.files (getFullPath path) data (calculated node.host.md5 call.seconds data m)) :
    wp (encryptCombined node call path upload) (Joined node call upload path data) (fun _ _ => True) s := by
  rw [encryptCombined,wpBind,wpStorage]
  refine wpIs (getMetadataHeld valid holds) ?_
  rw [sidecarSize,StagedCommit.calculatedEtag,wpBind,readPart,wpBind,wpStorage]
  refine wpIs (getHeld valid holds) ?_
  rw [wpPure,wpBind,storeEncryptedMultipartObject]
  cases given : call.envelope with
  | none => trivial
  | some envelope =>
    rw [wpStorage]
    refine wpLax (putPlainSpec plain) fun _ t stored => ?_
    obtain ⟨_,_,held⟩ := stored
    rw [wpBind,wpAttempt,wpStorage]
    refine wpIs (getMetadataHeld valid held) ?_
    exact ⟨rfl,valid,plain,envelope,given,held⟩

theorem putJoined {data m} (upload : MultipartUpload) : wp (storage (put node.host call.seconds path data m))
    (fun _ s' => wp (encryptCombined node call path upload) (Joined node call upload path data) (fun _ _ => True) s') (fun _ _ => True) s := by
  rw [wpStorage]
  cases folder : hasSuffix [slash] path with
  | false => exact wpLax (putPlainSpec folder) fun _ t stored => encryptHeld folder stored.1 stored.2.2
  | true =>
    refine wpLax (putSlashDir folder) fun _ t stored => ?_
    obtain ⟨present,isdir⟩ := stored
    rw [encryptCombined,wpBind,wpStorage]
    refine wpLax (keepsGetMetadata (besideSelf present) t isdir) fun m t' isdir => ?_
    rw [wpBind,readPart,wpBind,wpStorage]
    refine wpLax (getDirectory isdir) fun read _ none_ => ?_
    obtain ⟨_,_⟩ := read
    cases none_
    trivial

theorem joinHeld (upload : MultipartUpload) : wp (combineMultipartParts node call uploadID parts path)
    (fun _ s' => wp (encryptCombined node call path upload) (Joined node call upload path (partsBytes node.host s.files uploadID parts))
      (fun _ _ => True) s') (fun _ _ => True) s := by
  rw [combineMultipartParts,wpBind]
  refine wpLax (keepsContentType parts s fun _ => rfl) fun contentType s₁ same => ?_
  rw [wpBind]
  refine wpLax (readPartsSpec parts same) fun data s₂ joined => ?_
  subst joined
  exact putJoined upload

end

theorem multipartETagPresent {node s uploadID etag parts} (computed : computeMultipartETag node s uploadID parts = .ok etag) : etag ≠ [] := by
  unfold computeMultipartETag at computed
  split at computed <;> try contradiction
  cases computed
  simp [formatNatNonempty]

def versionFor (call : Call) (s : State) (upload : MultipartUpload) : Bytes :=
  if isBucketVersioningEnabled s upload.bucket then generateVersionID call else []

structure Points (object : Object) (r : ObjectMetadata) : Prop where
  bucket : r.bucket = object.bucket
  key : r.key = object.key
  versionID : r.versionID = object.versionID
  etag : r.etag = object.etag

section
variable {node : Node} {call : Call} {uploadID bucket : Bytes} {parts : List Part} {upload : MultipartUpload} {s : State}

theorem savePoints {enabled object} (plain : enabled = false → object.versionID = []) :
    wp (saveRecord call enabled object) (fun _ s' => s'.files = s.files ∧
      ∃ r, s'.db.objects.get (objectKey object.bucket object.key) = some r ∧ Points object r) (fun _ _ => True) s := by
  refine saveRecordBy (fun _ db done => ?_) (fun off db done => ?_) fun _ => trivial
  · obtain ⟨rfl,_⟩ := putVersionWrites done
    exact ⟨rfl,_,Store.getSetSame ..,rfl,rfl,rfl,rfl⟩
  have unversioned : (stamped call.now (toMetadataObject object)).versionID = [] := plain off
  obtain ⟨rfl,_⟩ := putObjectWrites done
  refine ⟨rfl,stamped call.now (toMetadataObject object),?_,rfl,rfl,rfl,rfl⟩
  dsimp only [writeObject]
  rw [if_pos (.inl unversioned)]
  exact Store.getSetSame ..

theorem cleanupAt {q x size existing enabled} (away : ∀ n, Keeps (At q x) (delete (getMultipartPartPath uploadID n))) :
    Keeps (fun s => At q x s.files) (updateMetricsAndCleanupMultipart bucket uploadID size existing parts enabled) :=
  .bind (keepsPutMetrics _ _ _ _) fun _ => .bind (keepsPutTenant _ _ _ _) fun _ =>
    .bind (.ignore (keepsWrites _)) fun _ => .each fun part _ => .ignore (keepsFiles (away part.partNumber))

structure Completion (node : Node) (call : Call) (s : State) (uploadID : Bytes) (parts : List Part) (upload : MultipartUpload) (object : Object)
    (s' : State) : Prop where
  found : s.db.getMultipartUpload uploadID = .ok upload
  made : ∃ etag modified, etag ≠ [] ∧ object = multipartObject upload (versionFor call s upload) etag
    (recordedSize (partsBytes node.host s.files uploadID parts).length) modified
  record : ∃ r, s'.db.objects.get (objectKey upload.bucket upload.key) = some r ∧ Points object r
  files : Outside upload.bucket → ∃ sizes,
    Joined node call upload (pathOf upload.bucket upload.key (versionFor call s upload)) (partsBytes node.host s.files uploadID parts) sizes s'

theorem joinedKept {path data sizes s'} (joined : Joined node call upload path data sizes s)
    (same : ∀ q ∈ names (getFullPath path), s'.files.get q = s.files.get q) : Joined node call upload path data sizes s' := by
  obtain ⟨envelope,given,holds⟩ := joined.held
  exact ⟨joined.size,joined.valid,joined.file,envelope,given,holdsKept holds same⟩

structure Assembled (node : Node) (call : Call) (upload : MultipartUpload) (version etag data : Bytes) (object : Object) (s' : State) :
    Prop where
  made : ∃ modified, object = multipartObject upload version etag (recordedSize data.length) modified
  record : ∃ r, s'.db.objects.get (objectKey upload.bucket upload.key) = some r ∧ Points object r
  files : Outside upload.bucket → ∃ sizes, Joined node call upload (pathOf upload.bucket upload.key version) data sizes s'

theorem assembledPath (call : Call) (upload : MultipartUpload) (enabled : Bool) :
    objectPathOf enabled upload.bucket upload.key (if enabled then generateVersionID call else []) =
      pathOf upload.bucket upload.key (if enabled then generateVersionID call else []) := by
  unfold objectPathOf pathOf
  cases enabled with
  | true => rw [if_pos rfl,if_pos rfl,if_neg (ManagerRuns.generatedPresent call)]
  | false => rfl

theorem cleanupKeeps (node : Node) (call : Call) (uploadID version : Bytes) (parts : List Part) (enabled : Bool) (size : Int)
    (existing : Option ObjectMetadata) {r} (entry : s.db.objects.get (objectKey upload.bucket upload.key) = some r) :
    wp (updateMetricsAndCleanupMultipart upload.bucket uploadID size existing parts enabled)
      (fun _ s' => s'.db.objects.get (objectKey upload.bucket upload.key) = some r ∧ (Outside upload.bucket →
        ∀ q ∈ names (getFullPath (pathOf upload.bucket upload.key version)), s'.files.get q = s.files.get q)) (fun _ _ => True) s := by
  have record : Keeps (fun s' : State => Follows node.sorting upload.bucket call.now (fun _ => False) s.db s'.db) _ :=
    followsCleanup upload.bucket uploadID size existing parts enabled
  have away outside q (mem : q ∈ names (getFullPath (pathOf upload.bucket upload.key version))) :
      (updateMetricsAndCleanupMultipart upload.bucket uploadID size existing parts enabled s).2.files.get q = s.files.get q :=
    (cleanupAt fun n => partsAway outside mem).after rfl
  refine wpLax (wpAnd (record s (.refl _)) (wpOfState (P := fun s' => Outside upload.bucket →
    ∀ q ∈ names (getFullPath (pathOf upload.bucket upload.key version)), s'.files.get q = s.files.get q) away))
    fun _ s' done => ⟨?_,done.2⟩
  exact done.1.keeps (P := fun db => db.objects.get (objectKey upload.bucket upload.key) = some r)
    (fun quiet holds => quiet.objects ▸ holds) (fun never => never.elim) entry

theorem completeHeld (node : Node) (call : Call) (uploadID : Bytes) (parts : List Part) (s : State) :
    wp (doCompleteMultipartUpload node call uploadID parts) (fun object s' => ∃ upload, Completion node call s uploadID parts upload object s')
      (fun _ _ => True) s := by
  refine completeBy trivial (fun _ => trivial) ?_
  intro upload total etag found _ enabled existing _ version path _ _ computed
  refine wpLax (joinHeld upload) fun _ s₁ combined => ?_
  refine wpLax combined fun sizes s₂ joined => ?_
  refine wpLax (savePoints fun off => if_neg (by simpa using off)) fun _ s₃ saved => ?_
  obtain ⟨files,r,entry,points⟩ := saved
  refine wpLax (cleanupKeeps node call uploadID version parts enabled sizes.1 existing entry) fun _ s₄ done => ?_
  rw [show path = _ from assembledPath call upload enabled] at joined
  refine ⟨upload,found,⟨etag,sizes.2,multipartETagPresent computed,by rw [← joined.size]; rfl⟩,⟨r,done.1,points⟩,
    fun outside => ⟨_,joinedKept joined fun q mem => ?_⟩⟩
  exact (done.2 outside q mem).trans (by rw [files])

end

end MaxIOFS.Completions
