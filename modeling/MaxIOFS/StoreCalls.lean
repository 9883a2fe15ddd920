import MaxIOFS.MetadataStore
import MaxIOFS.Threads

/-! The calls of the metadata store cut at their locks, reads and commits. Bucket creations share
one lock, deletions and object writes one for each bucket path, and metric updates one for each
bucket key; updates of a bucket's record and multipart records take none. -/
namespace MaxIOFS.StoreCalls
open ByteString (Bytes ascii)
open MetadataStore Records Threads Function Database

inductive Lock where
  | creation
  | mutation (path : Bytes)
  | metrics (key : Bytes)
  deriving DecidableEq

structure Shared where
  db : Database
  locks : Lock → Option Nat

inductive Operation where
  | createBucket (bucket : BucketMetadata)
  | updateBucket (bucket : BucketMetadata)
  | changeBucket (tenantID name : Bytes) (change : BucketMetadata → BucketMetadata)
  | deleteBucket (tenantID name : Bytes)
  | deleteBucketIfEmpty (tenantID name : Bytes)
  | updateBucketMetrics (tenantID name : Bytes) (countDelta sizeDelta : Int)
  | putObject (now : Int) (obj : ObjectMetadata)
  | putObjectVersion (obj : ObjectMetadata) (version : ObjectVersion)
  | createMultipartUpload (upload : MultipartUpload)
  | putPart (part : PartMetadata)
  | abortMultipartUpload (uploadID : Bytes)

abbrev Result := Except MetadataError Unit

inductive Point where
  | start
  | locked
  | checked
  | noObjects
  | scanned
  | read (bucket : BucketMetadata)
  | changed (bucket : BucketMetadata)
  | written
  | opened (upload : MultipartUpload)
  | collected (upload : MultipartUpload) (keys : List Bytes)
  | leaving (result : Result)
  | returned (result : Result)

def acquire (lock : Lock) (i : Nat) (s : Shared) : Option (Point × Shared) :=
  match s.locks lock with
  | none => some (.locked, { s with locks := update s.locks lock (some i) })
  | some _ => none

def release (lock : Lock) (result : Result) (s : Shared) : Point × Shared := (.returned result, { s with locks := update s.locks lock none })

def Shared.write (s : Shared) (change : Database → Database) : Shared := { s with db := change s.db }

def setBucket (bucket : BucketMetadata) (db : Database) : Database :=
  { db with buckets := db.buckets.set (bucketKey bucket.tenantID bucket.name) bucket }

def clearDeleted (tenantID name : Bytes) (db : Database) : Database :=
  { db with deletedBuckets := db.deletedBuckets.filter (· ≠ bucketPathForMutation tenantID name) }

def removeBucket (tenantID name : Bytes) (db : Database) : Database := { db with buckets := db.buckets.delete (bucketKey tenantID name) }

def markDeleted (tenantID name : Bytes) (db : Database) : Database :=
  { db with deletedBuckets := bucketPathForMutation tenantID name :: db.deletedBuckets }

def counted (countDelta sizeDelta : Int) (bucket : BucketMetadata) : BucketMetadata :=
  { bucket with
    objectCount := max 0 (bucket.objectCount + countDelta)
    totalSize := max 0 (bucket.totalSize + sizeDelta) }

def dropUpload (upload : MultipartUpload) (uploadID : Bytes) (keys : List Bytes) (db : Database) : Database :=
  { db with
    parts := db.parts.deleteAll keys
    uploadIndex := db.uploadIndex.delete (multipartIndexKey upload.bucket uploadID)
    uploads := db.uploads.delete (multipartUploadKey uploadID) }

def exists_ (db : Database) (tenantID name : Bytes) : Bool := (db.buckets.get (bucketKey tenantID name)).isSome

def createTurn (i : Nat) (bucket : BucketMetadata) (s : Shared) : Point → Option (Point × Shared)
  | .start => acquire .creation i s
  | .locked => some (if exists_ s.db bucket.tenantID bucket.name then .leaving (.error .bucketAlreadyExists) else .checked, s)
  | .checked =>
    some (if s.db.buckets.entries.any (fun e => e.2.name = bucket.name) then .leaving (.error .bucketAlreadyExists) else .scanned, s)
  | .scanned => some (.written, s.write (setBucket bucket))
  | .written => some (.leaving (.ok ()), s.write (clearDeleted bucket.tenantID bucket.name))
  | .leaving result => some (release .creation result s)
  | _ => none

def updateTurn (bucket : BucketMetadata) (s : Shared) : Point → Option (Point × Shared)
  | .start => some (if exists_ s.db bucket.tenantID bucket.name then .changed bucket else .returned (.error .bucketNotFound), s)
  | .changed bucket => some (.written, s.write (setBucket bucket))
  | .written => some (.returned (.ok ()), s.write (clearDeleted bucket.tenantID bucket.name))
  | _ => none

-- The manager refuses a record of another name or tenant, so the change is of the other fields.
def changeTurn (tenantID name : Bytes) (change : BucketMetadata → BucketMetadata) (s : Shared) : Point → Option (Point × Shared)
  | .start => some (match s.db.buckets.get (bucketKey tenantID name) with
    | some bucket => .read { change bucket with tenantID := tenantID, name := name }
    | none => .returned (.error .bucketNotFound), s)
  | .read bucket => some (if exists_ s.db tenantID name then .changed bucket else .returned (.error .bucketNotFound), s)
  | .changed bucket => some (.written, s.write (setBucket bucket))
  | .written => some (.returned (.ok ()), s.write (clearDeleted tenantID name))
  | _ => none

def deleteTurn (i : Nat) (tenantID name : Bytes) (ifEmpty : Bool) (s : Shared) : Point → Option (Point × Shared)
  | .start => acquire (.mutation (bucketPathForMutation tenantID name)) i s
  | .locked => some (if exists_ s.db tenantID name then (if ifEmpty then .checked else .scanned)
      else .leaving (.error .bucketNotFound), s)
  | .checked => some (if s.db.objects.scan (ascii "obj:" ++ bucketPathForMutation tenantID name ++ colon) ≠ []
      then .leaving (.error .bucketNotEmpty) else .noObjects, s)
  | .noObjects => some (if s.db.versions.scan (ascii "version:" ++ bucketPathForMutation tenantID name ++ colon) ≠ []
      then .leaving (.error .bucketNotEmpty) else .scanned, s)
  | .scanned => some (.written, s.write (removeBucket tenantID name))
  | .written => some (.leaving (.ok ()), s.write (markDeleted tenantID name))
  | .leaving result => some (release (.mutation (bucketPathForMutation tenantID name)) result s)
  | _ => none

def metricsTurn (i : Nat) (tenantID name : Bytes) (countDelta sizeDelta : Int) (s : Shared) : Point → Option (Point × Shared)
  | .start => acquire (.metrics (bucketKey tenantID name)) i s
  | .locked => some (match s.db.buckets.get (bucketKey tenantID name) with
    | some bucket => .changed (counted countDelta sizeDelta bucket)
    | none => .leaving (.error .bucketNotFound), s)
  | .changed bucket => some (.leaving (.ok ()), s.write fun db => { db with buckets := db.buckets.set (bucketKey tenantID name) bucket })
  | .leaving result => some (release (.metrics (bucketKey tenantID name)) result s)
  | _ => none

def putTurn (i : Nat) (path : Bytes) (commit : Database → Database) (s : Shared) : Point → Option (Point × Shared)
  | .start => acquire (.mutation path) i s
  | .locked => some (if s.db.rejectsWrite path then .leaving (.error .bucketNotFound) else .checked, s)
  | .checked => some (.leaving (.ok ()), s.write commit)
  | .leaving result => some (release (.mutation path) result s)
  | _ => none

def uploadTurn (upload : MultipartUpload) (s : Shared) : Point → Option (Point × Shared)
  | .start => some (if upload.uploadID = [] then (.returned (.error .uploadIDRequired), s)
      else (.returned (.ok ()), s.write (writeUpload upload)))
  | _ => none

def partTurn (part : PartMetadata) (s : Shared) : Point → Option (Point × Shared)
  | .start =>
    some (if part.uploadID = [] ∨ part.partNumber ≤ 0 then .returned (.error .invalidPartMetadata) else .locked, s)
  | .locked => some (if (s.db.uploads.get (multipartUploadKey part.uploadID)).isSome then .checked
      else .returned (.error .uploadNotFound), s)
  | .checked => some (.returned (.ok ()), s.write fun db => { db with parts := db.parts.set (partKey part.uploadID part.partNumber) part })
  | _ => none

def abortTurn (uploadID : Bytes) (s : Shared) : Point → Option (Point × Shared)
  | .start => some (match s.db.uploads.get (multipartUploadKey uploadID) with
    | some upload => .opened upload
    | none => .returned (.error .uploadNotFound), s)
  | .opened upload => some (.collected upload ((s.db.parts.scan (partListPrefix uploadID)).map Prod.fst), s)
  | .collected upload keys => some (.returned (.ok ()), s.write (dropUpload upload uploadID keys))
  | _ => none

def Operation.turn (i : Nat) (op : Operation) (p : Point) (s : Shared) : Option (Point × Shared) :=
  match op with
  | .createBucket bucket => createTurn i bucket s p
  | .updateBucket bucket => updateTurn bucket s p
  | .changeBucket tenantID name change => changeTurn tenantID name change s p
  | .deleteBucket tenantID name => deleteTurn i tenantID name false s p
  | .deleteBucketIfEmpty tenantID name => deleteTurn i tenantID name true s p
  | .updateBucketMetrics tenantID name count size => metricsTurn i tenantID name count size s p
  | .putObject now obj =>
    if obj.bucket = [] ∨ obj.key = [] then
      (match p with | .start => some (.returned (.error .invalidKey), s) | _ => none)
    else putTurn i obj.bucket (writeObject now obj) s p
  | .putObjectVersion obj version => putTurn i obj.bucket (writeVersion obj version) s p
  | .createMultipartUpload upload => uploadTurn upload s p
  | .putPart part => partTurn part s p
  | .abortMultipartUpload uploadID => abortTurn uploadID s p

def Point.succeeded : Point → Bool
  | .returned (.ok ()) => true
  | _ => false

theorem Point.succeededReturned {p : Point} (done : p.succeeded = true) : p = .returned (.ok ()) := by
  unfold succeeded at done
  split at done
  · rfl
  · contradiction

instance (p : Point) : Decidable (p = .returned (.ok ())) := decidable_of_iff (p.succeeded = true) ⟨Point.succeededReturned, fun h => h ▸ rfl⟩

abbrev World := Threads.World Shared Point

def turnOf (calls : Nat → Operation) : Turn Shared Point := fun i p s => (calls i).turn i p s

def begin_ (db : Database) : World := ⟨⟨db, fun _ => none⟩, fun _ => .start⟩

section
variable {i : Nat} {s s' : Shared} {p p' : Point}

theorem acquired {lock} (taken : acquire lock i s = some (p', s')) : s.locks lock = none ∧ p' = .locked ∧
    s' = { s with locks := update s.locks lock (some i) } := by
  unfold acquire at taken
  split at taken
  case h_1 free =>
    cases taken
    exact ⟨free,rfl,rfl⟩
  case h_2 => cases taken

theorem acquireOther {lock lock'} (taken : acquire lock i s = some (p', s')) (apart : lock' ≠ lock) : s'.locks lock' = s.locks lock' := by
  obtain ⟨-,-,rfl⟩ := acquired taken
  exact update_of_ne apart _ _

theorem releaseOther {lock'} (lock : Lock) (apart : lock' ≠ lock) (result : Result) : (release lock result s).2.locks lock' = s.locks lock' :=
  update_of_ne apart _ _

end

/-! A call with nobody beside it does what the store's call does as one batch. -/

def answer (db : Database) : Except MetadataError Database → Result × Database
  | .ok db' => (.ok (), db')
  | .error e => (.error e, db)

def Database.changeBucket (db : Database) (tenantID name : Bytes) (change : BucketMetadata → BucketMetadata) :
    Except MetadataError Database := do
  let bucket ← db.getBucket tenantID name
  db.updateBucket { change bucket with tenantID := tenantID, name := name }

def Operation.whole (db : Database) : Operation → Except MetadataError Database
  | .createBucket bucket => db.createBucket bucket
  | .updateBucket bucket => db.updateBucket bucket
  | .changeBucket tenantID name change => Database.changeBucket db tenantID name change
  | .deleteBucket tenantID name => db.deleteBucket tenantID name
  | .deleteBucketIfEmpty tenantID name => db.deleteBucketIfEmpty tenantID name
  | .updateBucketMetrics tenantID name countDelta sizeDelta => db.updateBucketMetrics tenantID name countDelta sizeDelta
  | .putObject now obj => db.putObject now obj
  | .putObjectVersion obj version => db.putObjectVersion obj version
  | .createMultipartUpload upload => db.createMultipartUpload upload
  | .putPart part => db.putPart part
  | .abortMultipartUpload uploadID => db.abortMultipartUpload uploadID

inductive Answers (turn : Point → Shared → Option (Point × Shared)) : Point → Shared → Result × Database → Prop
  | here (result : Result) (s : Shared) : Answers turn (.returned result) s (result, s.db)
  | turn {p p' : Point} {s s' : Shared} {r : Result × Database} (taken : turn p s = some (p', s')) (later : Answers turn p' s' r) :
    Answers turn p s r

section
variable (i : Nat) (db : Database)

theorem putAnswers (path : Bytes) (commit : Database → Database) : Answers (fun p s => putTurn i path commit s p) .start ⟨db,fun _ => none⟩
    (answer db (if db.rejectsWrite path then .error .bucketNotFound else .ok (commit db))) := by
  refine .turn rfl (.turn rfl ?_)
  split
  · exact .turn rfl (.here _ _)
  · exact .turn rfl (.turn rfl (.here _ _))

theorem deleteAnswers (tenantID name : Bytes) (ifEmpty : Bool) :
    Answers (fun p s => deleteTurn i tenantID name ifEmpty s p) .start ⟨db,fun _ => none⟩
      (answer db (if ifEmpty then db.deleteBucketIfEmpty tenantID name else db.deleteBucket tenantID name)) := by
  refine .turn rfl (.turn rfl ?_)
  obtain there | ⟨bucket,there⟩ := (db.buckets.get (bucketKey tenantID name)).eq_none_or_eq_some
  all_goals simp only [deleteBucketIfEmpty,deleteBucket,exists_,there]
  · cases ifEmpty <;> exact .turn rfl (.here _ _)
  cases ifEmpty
  · exact .turn rfl (.turn rfl (.turn rfl (.here _ _)))
  refine .turn rfl ?_
  split
  · exact .turn rfl (.here _ _)
  refine .turn rfl ?_
  split
  · exact .turn rfl (.here _ _)
  · exact .turn rfl (.turn rfl (.turn rfl (.here _ _)))

theorem turnAnswers (op : Operation) : Answers (op.turn i) .start ⟨db,fun _ => none⟩ (answer db (op.whole db)) := by
  cases op with
  | createBucket bucket =>
    refine .turn rfl (.turn rfl ?_)
    obtain there | ⟨old,there⟩ := (db.buckets.get (bucketKey bucket.tenantID bucket.name)).eq_none_or_eq_some
    all_goals simp only [Operation.whole,createBucket,exists_,there,Option.isSome_some]
    · refine .turn rfl ?_
      split
      · exact .turn rfl (.here _ _)
      · exact .turn rfl (.turn rfl (.turn rfl (.here _ _)))
    · exact .turn rfl (.here _ _)
  | updateBucket bucket =>
    refine .turn rfl ?_
    obtain there | ⟨old,there⟩ := (db.buckets.get (bucketKey bucket.tenantID bucket.name)).eq_none_or_eq_some
    all_goals simp only [Operation.whole,updateBucket,exists_,there]
    · exact .here _ _
    · exact .turn rfl (.turn rfl (.here _ _))
  | changeBucket tenantID name change =>
    refine .turn rfl ?_
    obtain there | ⟨bucket,there⟩ := (db.buckets.get (bucketKey tenantID name)).eq_none_or_eq_some
    all_goals simp only [Operation.whole,Database.changeBucket,Database.getBucket,there]
    · exact .here _ _
    refine .turn rfl ?_
    simp only [bind,updateBucket,exists_,there]
    exact .turn rfl (.turn rfl (.here _ _))
  | deleteBucket tenantID name => exact deleteAnswers i db tenantID name false
  | deleteBucketIfEmpty tenantID name => exact deleteAnswers i db tenantID name true
  | updateBucketMetrics tenantID name countDelta sizeDelta =>
    refine .turn rfl (.turn rfl ?_)
    obtain there | ⟨bucket,there⟩ := (db.buckets.get (bucketKey tenantID name)).eq_none_or_eq_some
    all_goals simp only [Operation.whole,updateBucketMetrics,there]
    · exact .turn rfl (.here _ _)
    · exact .turn rfl (.turn rfl (.here _ _))
  | putObject now obj =>
    by_cases invalid : obj.bucket = [] ∨ obj.key = []
    · rw [Operation.whole,putObject,if_pos invalid]
      exact .turn (if_pos invalid) (.here _ _)
    have turns : Operation.turn i (.putObject now obj) = fun p s => putTurn i obj.bucket (writeObject now obj) s p := by
      funext p s
      exact if_neg invalid
    rw [turns,Operation.whole,putObject,if_neg invalid]
    exact putAnswers i db obj.bucket (writeObject now obj)
  | putObjectVersion obj version => exact putAnswers i db obj.bucket (writeVersion obj version)
  | createMultipartUpload upload =>
    by_cases unnamed : upload.uploadID = []
    · rw [Operation.whole,createMultipartUpload,if_pos unnamed]
      exact .turn (congrArg some (if_pos unnamed)) (.here _ _)
    · rw [Operation.whole,createMultipartUpload,if_neg unnamed]
      exact .turn (congrArg some (if_neg unnamed)) (.here _ _)
  | putPart part =>
    refine .turn rfl ?_
    simp only [Operation.whole,putPart]
    split
    · exact .here _ _
    refine .turn rfl ?_
    obtain there | ⟨upload,there⟩ := (db.uploads.get (multipartUploadKey part.uploadID)).eq_none_or_eq_some
    all_goals simp only [getMultipartUpload,there]
    · exact .here _ _
    · exact .turn rfl (.here _ _)
  | abortMultipartUpload uploadID =>
    refine .turn rfl ?_
    obtain there | ⟨upload,there⟩ := (db.uploads.get (multipartUploadKey uploadID)).eq_none_or_eq_some
    all_goals simp only [Operation.whole,abortMultipartUpload,getMultipartUpload,there]
    · exact .here _ _
    · exact .turn rfl (.turn rfl (.here _ _))

end

end MaxIOFS.StoreCalls
