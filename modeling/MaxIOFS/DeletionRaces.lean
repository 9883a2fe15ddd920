import MaxIOFS.BucketManager
import MaxIOFS.StoreCalls

/-! What is left of a bucket that was deleted. The deletion finds the bucket empty and removes its
record under the lock that writers of objects take, and marks the path; a writer that finds the
mark fails. The mark is taken away by a creation after it has stored the record, and records of
uploads are neither looked for nor kept out. -/
namespace MaxIOFS.DeletionRaces
open ByteString (Bytes ascii)
open MetadataStore Records Threads StoreCalls Runs BucketManager OrderedStore

structure Vacant (db : Database) (path : Bytes) : Prop where
  objects : db.objects.scan (ascii "obj:" ++ path ++ colon) = []
  versions : db.versions.scan (ascii "version:" ++ path ++ colon) = []
  uploads : ∀ k upload, db.uploads.get k = some upload → upload.bucket ≠ path

section
variable (tenantID name : Bytes)

def path : Bytes := bucketPathForMutation tenantID name
def Present (s : Shared) : Prop := (s.db.buckets.get (bucketKey tenantID name)).isSome = true
def Held (s : Shared) (i : Nat) : Prop := s.locks (.mutation (path tenantID name)) = some i

inductive OfPath : Operation → Prop where
  | delete : OfPath (.deleteBucketIfEmpty tenantID name)
  | create {bucket : BucketMetadata} (home : bucket.tenantID = tenantID) (named : bucket.name = name) : OfPath (.createBucket bucket)
  | put {now : Int} {obj : ObjectMetadata} (home : obj.bucket = path tenantID name) : OfPath (.putObject now obj)
  | putVersion {obj : ObjectMetadata} {version : ObjectVersion} (home : obj.bucket = path tenantID name) : OfPath (.putObjectVersion obj version)
  | upload {upload : MultipartUpload} (home : upload.bucket = path tenantID name) : OfPath (.createMultipartUpload upload)
  | part (part : PartMetadata) : OfPath (.putPart part)
  | abort (uploadID : Bytes) : OfPath (.abortMultipartUpload uploadID)

-- The record is removed while there is no upload and no creation that has yet to take the mark away,
-- and an upload begins while the bucket is there.
def Careful (calls : Nat → Operation) (w : World) (i : Nat) : Prop :=
  match calls i, w.point i with
  | .deleteBucketIfEmpty _ _, .scanned => (∀ k upload, w.shared.db.uploads.get k = some upload → upload.bucket ≠ path tenantID name) ∧
      ∀ j bucket, calls j = .createBucket bucket → w.point j ≠ .written
  | .createMultipartUpload _, .start => Present tenantID name w.shared
  | _, _ => True

def Known (s : Shared) (i : Nat) : Operation → Point → Prop
  | .deleteBucketIfEmpty _ _, .noObjects => Held tenantID name s i ∧ s.db.objects.scan (ascii "obj:" ++ path tenantID name ++ colon) = []
  | .deleteBucketIfEmpty _ _, .scanned => Held tenantID name s i ∧ s.db.objects.scan (ascii "obj:" ++ path tenantID name ++ colon) = [] ∧
      s.db.versions.scan (ascii "version:" ++ path tenantID name ++ colon) = []
  | .deleteBucketIfEmpty _ _, .locked | .deleteBucketIfEmpty _ _, .checked | .deleteBucketIfEmpty _ _, .written
  | .deleteBucketIfEmpty _ _, .leaving _ => Held tenantID name s i
  | .putObject _ _, .checked | .putObjectVersion _ _, .checked => Held tenantID name s i ∧ Present tenantID name s
  | .putObject _ _, .locked | .putObject _ _, .leaving _ | .putObjectVersion _ _, .locked
  | .putObjectVersion _ _, .leaving _ => Held tenantID name s i
  | .createBucket _, .checked | .createBucket _, .scanned => s.locks .creation = some i ∧ ¬ Present tenantID name s
  | .createBucket _, .written => s.locks .creation = some i ∧ Present tenantID name s
  | .createBucket _, .locked | .createBucket _, .leaving _ => s.locks .creation = some i
  | _, _ => True

end

section
variable {tenantID name : Bytes} {calls : Nat → Operation}
variable {i : Nat} {p : Point} {s s' : Shared} {w : World}

structure Inv (tenantID name : Bytes) (calls : Nat → Operation) (w : World) : Prop where
  known : ∀ i, Known tenantID name w.shared i (calls i) (w.point i)
  vacant : ¬ Present tenantID name w.shared → Vacant w.shared.db (path tenantID name)
  marked : ¬ Present tenantID name w.shared → path tenantID name ∈ w.shared.db.deletedBuckets ∨
    ∃ i, calls i = .deleteBucketIfEmpty tenantID name ∧ w.point i = .written

structure Rely (tenantID name : Bytes) (s s' : Shared) (j : Nat) (call : Operation) (p : Point) : Prop where
  mutation : Held tenantID name s j → Held tenantID name s' j ∧ s'.db.objects = s.db.objects ∧ s'.db.versions = s.db.versions ∧
    (Present tenantID name s → Present tenantID name s')
  creation : s.locks .creation = some j → s'.locks .creation = some j ∧ (¬ Present tenantID name s → ¬ Present tenantID name s')
  stored : ∀ bucket, call = .createBucket bucket → p = .written → Present tenantID name s → Present tenantID name s'

theorem knownKept {j call} (rely : Rely tenantID name s s' j call p) (known : Known tenantID name s j call p) :
    Known tenantID name s' j call p := by
  obtain ⟨mutation,creation,stored⟩ := rely
  unfold Known at known ⊢
  split at known
  case h_1 =>
    obtain ⟨held,objects⟩ := known
    obtain ⟨held',same,-⟩ := mutation held
    exact ⟨held',same ▸ objects⟩
  case h_2 =>
    obtain ⟨held,objects,versions⟩ := known
    obtain ⟨held',same,same',-⟩ := mutation held
    exact ⟨held',same ▸ objects,same' ▸ versions⟩
  case h_7 | h_8 =>
    obtain ⟨held',-,-,present⟩ := mutation known.1
    exact ⟨held',present known.2⟩
  case h_13 | h_14 =>
    obtain ⟨lock,absent⟩ := creation known.1
    exact ⟨lock,absent known.2⟩
  case h_15 bucket => exact ⟨(creation known.1).1,stored bucket rfl rfl known.2⟩
  case h_16 | h_17 => exact (creation known).1
  case h_18 => trivial
  all_goals exact (mutation known).1

structure Stepped (tenantID name : Bytes) (calls : Nat → Operation) (w : World) (i : Nat) (p : Point) (s : Shared) : Prop where
  known : Known tenantID name s i (calls i) p
  rely : ∀ j, j ≠ i → Rely tenantID name w.shared s j (calls j) (w.point j)
  vacant : ¬ Present tenantID name s → Vacant s.db (path tenantID name)
  marked : ¬ Present tenantID name s → path tenantID name ∈ s.db.deletedBuckets ∨ calls i = .deleteBucketIfEmpty tenantID name ∧ p = .written ∨
    ∃ k, k ≠ i ∧ calls k = .deleteBucketIfEmpty tenantID name ∧ w.point k = .written

theorem steppedInv (stepped : Stepped tenantID name calls w i p s) (inv : Inv tenantID name calls w) :
    Inv tenantID name calls (move w i (p, s)) where
  known := moveAll (P := fun s j p => Known tenantID name s j (calls j) p) stepped.known
    (fun j other => knownKept (stepped.rely j other)) inv.known
  vacant := stepped.vacant
  marked absent := by
    obtain listed | ⟨deletes,at_⟩ | ⟨k,other,deletes,at_⟩ := stepped.marked absent
    · exact .inl listed
    · exact .inr ⟨i,deletes,by rw [pointMove,at_]⟩
    · exact .inr ⟨k,deletes,by rw [pointOther w (p, s) other,at_]⟩

structure Quiet (db db' : Database) : Prop where
  buckets : db'.buckets = db.buckets
  objects : db'.objects = db.objects
  versions : db'.versions = db.versions
  deletedBuckets : db'.deletedBuckets = db.deletedBuckets
  uploads : ∀ {k upload}, db'.uploads.get k = some upload → db.uploads.get k = some upload

theorem quietSelf (db : Database) : Quiet db db := ⟨rfl,rfl,rfl,rfl,id⟩

theorem presentSame (same : s'.db.buckets = s.db.buckets) : Present tenantID name s' ↔ Present tenantID name s := by
  rw [Present,Present,same]

structure Locks (tenantID name : Bytes) (s s' : Shared) (i : Nat) : Prop where
  mutation : ∀ j, j ≠ i → Held tenantID name s j → Held tenantID name s' j
  creation : ∀ j, j ≠ i → s.locks .creation = some j → s'.locks .creation = some j

theorem quietStepped (inv : Inv tenantID name calls w) (quiet : Quiet w.shared.db s.db)
    (locks : Locks tenantID name w.shared s i) (before : w.point i ≠ .written) (known : Known tenantID name s i (calls i) p) :
    Stepped tenantID name calls w i p s := by
  have same : Present tenantID name s ↔ Present tenantID name w.shared := presentSame quiet.buckets
  refine ⟨known,fun j other => ⟨fun held => ⟨locks.mutation j other held,quiet.objects,quiet.versions,same.mpr⟩,
    fun held => ⟨locks.creation j other held,fun absent => absent ∘ same.mp⟩,fun _ _ _ => same.mpr⟩,fun absent => ?_,fun absent => ?_⟩
  · obtain ⟨objects,versions,uploads⟩ := inv.vacant (absent ∘ same.mpr)
    exact ⟨quiet.objects ▸ objects,quiet.versions ▸ versions,fun k upload found => uploads k upload (quiet.uploads found)⟩
  obtain listed | ⟨k,deletes,at_⟩ := inv.marked (absent ∘ same.mpr)
  · exact .inl (quiet.deletedBuckets ▸ listed)
  · exact .inr (.inr ⟨k,fun here => before (here ▸ at_),deletes,at_⟩)

theorem locksSelf (tenantID name : Bytes) (s : Shared) (i : Nat) : Locks tenantID name s s i := ⟨fun _ _ => id,fun _ _ => id⟩

theorem presentStepped (present : Present tenantID name s) (locks : Locks tenantID name w.shared s i)
    (objects : ∀ j, j ≠ i → Held tenantID name w.shared j → s.db.objects = w.shared.db.objects ∧ s.db.versions = w.shared.db.versions)
    (created : ∀ j, j ≠ i → w.shared.locks .creation = some j → Present tenantID name w.shared) (known : Known tenantID name s i (calls i) p) :
    Stepped tenantID name calls w i p s :=
  ⟨known,fun j other => ⟨fun held => ⟨locks.mutation j other held,(objects j other held).1,(objects j other held).2,fun _ => present⟩,
    fun held => ⟨locks.creation j other held,fun absent => absurd (created j other held) absent⟩,fun _ _ _ _ => present⟩,
    fun absent => absurd present absent,fun absent => absurd present absent⟩

theorem mutationTaken (taken : acquire (.mutation (path tenantID name)) i s = some (p, s')) : Locks tenantID name s s' i ∧
    Held tenantID name s' i := by
  have creation : s'.locks .creation = s.locks .creation := acquireOther taken nofun
  obtain ⟨free,-,rfl⟩ := acquired taken
  exact ⟨⟨fun j _ held => absurd (free.symm.trans held) nofun,fun j _ held => creation.trans held⟩,Function.update_self ..⟩

theorem mutationReleased (held : Held tenantID name s i) (result : Result) :
    Locks tenantID name s (release (.mutation (path tenantID name)) result s).2 i :=
  ⟨fun _ other held' => absurd (Option.some.inj (held'.symm.trans held)) other,fun _ _ held' => (releaseOther _ (by simp) result).trans held'⟩

theorem creationTaken (taken : acquire .creation i s = some (p, s')) : Locks tenantID name s s' i ∧ s'.locks .creation = some i := by
  have mutation : s'.locks (.mutation (path tenantID name)) = s.locks (.mutation (path tenantID name)) := acquireOther taken nofun
  obtain ⟨free,-,rfl⟩ := acquired taken
  exact ⟨⟨fun j _ held => mutation.trans held,fun j _ held => absurd (free.symm.trans held) nofun⟩,
    Function.update_self Lock.creation (some i) s.locks⟩

theorem creationReleased (held : s.locks .creation = some i) (result : Result) : Locks tenantID name s (release .creation result s).2 i :=
  ⟨fun _ _ held' => (releaseOther _ (by simp) result).trans held',fun _ other held' => absurd (Option.some.inj (held'.symm.trans held)) other⟩

theorem deleteStepped (call : calls i = .deleteBucketIfEmpty tenantID name) (inv : Inv tenantID name calls w)
    (careful : Careful tenantID name calls w i)
    (taken : deleteTurn i tenantID name true w.shared (w.point i) = some (p, s)) : Stepped tenantID name calls w i p s := by
  have known := inv.known i
  have idle := locksSelf tenantID name w.shared i
  unfold Careful at careful
  cases at_ : w.point i <;> rw [at_] at taken <;> simp only [deleteTurn,reduceCtorEq] at taken <;> rw [call,at_] at known careful
  case start =>
    obtain ⟨locks,held⟩ := mutationTaken taken
    obtain ⟨-,rfl,rfl⟩ := acquired taken
    refine quietStepped inv (quietSelf _) locks (by simp [at_]) ?_
    rw [call]
    exact held
  case locked =>
    cases taken
    refine quietStepped inv (quietSelf _) idle (by simp [at_]) ?_
    rw [call]
    split <;> exact known
  case checked =>
    cases taken
    refine quietStepped inv (quietSelf _) idle (by simp [at_]) ?_
    rw [call]
    split
    case isTrue => exact known
    case isFalse empty => exact ⟨known,not_not.mp empty⟩
  case noObjects =>
    cases taken
    refine quietStepped inv (quietSelf _) idle (by simp [at_]) ?_
    rw [call]
    split
    case isTrue => exact known.1
    case isFalse empty => exact ⟨known.1,known.2,not_not.mp empty⟩
  case scanned =>
    cases taken
    obtain ⟨held,objects,versions⟩ := known
    obtain ⟨uploads,stored⟩ := careful
    have gone : ¬ Present tenantID name (w.shared.write (removeBucket tenantID name)) := by
      simp [Present,Shared.write,removeBucket]
    refine ⟨by rw [call]; exact held,fun j other => ⟨fun held' => absurd (Option.some.inj (held'.symm.trans held)) other,
      fun held => ⟨held,fun _ => gone⟩,fun bucket creates at_ _ => absurd at_ (stored j bucket creates)⟩,fun _ => ⟨objects,versions,uploads⟩,
      fun _ => .inr (.inl ⟨call,rfl⟩)⟩
  case written =>
    cases taken
    refine ⟨by rw [call]; exact known,fun j _ => ⟨fun held => ⟨held,rfl,rfl,id⟩,fun held => ⟨held,id⟩,fun _ _ _ => id⟩,fun absent => ?_,
      fun _ => .inl List.mem_cons_self⟩
    obtain ⟨objects,versions,uploads⟩ := inv.vacant absent
    exact ⟨objects,versions,uploads⟩
  case leaving result =>
    cases taken
    refine quietStepped inv (quietSelf _) (mutationReleased known result) (by simp [at_]) ?_
    rw [call]
    trivial

theorem createStepped {bucket} (call : calls i = .createBucket bucket)
    (home : bucket.tenantID = tenantID) (named : bucket.name = name) (inv : Inv tenantID name calls w)
    (taken : createTurn i bucket w.shared (w.point i) = some (p, s)) : Stepped tenantID name calls w i p s := by
  have known := inv.known i
  have idle := locksSelf tenantID name w.shared i
  subst home
  subst named
  cases at_ : w.point i <;> rw [at_] at taken <;> simp only [createTurn,reduceCtorEq] at taken <;> rw [call,at_] at known
  case start =>
    obtain ⟨locks,held⟩ := creationTaken taken
    obtain ⟨-,rfl,rfl⟩ := acquired taken
    refine quietStepped inv (quietSelf _) locks (by simp [at_]) ?_
    rw [call]
    exact held
  case locked =>
    cases taken
    refine quietStepped inv (quietSelf _) idle (by simp [at_]) ?_
    rw [call]
    split
    case isTrue => exact known
    case isFalse absent => exact ⟨known,absent⟩
  case checked =>
    cases taken
    refine quietStepped inv (quietSelf _) idle (by simp [at_]) ?_
    rw [call]
    split
    case isTrue => exact known.1
    case isFalse => exact known
  case scanned =>
    cases taken
    have present : Present bucket.tenantID bucket.name (w.shared.write (setBucket bucket)) := by simp [Present,Shared.write,setBucket]
    refine presentStepped present ⟨fun _ _ => id,fun _ _ => id⟩ (fun _ _ _ => ⟨rfl,rfl⟩) (fun j other held => ?_) ?_
    · exact absurd (Option.some.inj (held.symm.trans known.1)) other
    · rw [call]
      exact ⟨known.1,present⟩
  case written =>
    cases taken
    refine presentStepped known.2 ⟨fun _ _ => id,fun _ _ => id⟩ (fun _ _ _ => ⟨rfl,rfl⟩) (fun _ _ _ => known.2) ?_
    rw [call]
    exact known.1
  case leaving result =>
    cases taken
    refine quietStepped inv (quietSelf _) (creationReleased known result) (by simp [at_]) ?_
    rw [call]
    trivial

def PutKnown (tenantID name : Bytes) (s : Shared) (i : Nat) : Point → Prop
  | .checked => Held tenantID name s i ∧ Present tenantID name s
  | .locked | .leaving _ => Held tenantID name s i
  | _ => True

theorem unmarkedPresent (inv : Inv tenantID name calls w) (call : calls i ≠ .deleteBucketIfEmpty tenantID name)
    (held : Held tenantID name w.shared i) (open_ : ¬ w.shared.db.rejectsWrite (path tenantID name) = true) : Present tenantID name w.shared := by
  by_contra absent
  obtain listed | ⟨k,deletes,at_⟩ := inv.marked absent
  · exact open_ (decide_eq_true listed)
  have theirs := inv.known k
  rw [deletes,at_] at theirs
  cases (held.symm.trans theirs)
  exact call deletes

theorem putStepped {commit}
    (knows : ∀ s p, Known tenantID name s i (calls i) p ↔ PutKnown tenantID name s i p) (call : calls i ≠ .deleteBucketIfEmpty tenantID name)
    (buckets : ∀ db, (commit db).buckets = db.buckets) (inv : Inv tenantID name calls w)
    (taken : putTurn i (path tenantID name) commit w.shared (w.point i) = some (p, s)) : Stepped tenantID name calls w i p s := by
  have known := (knows _ _).mp (inv.known i)
  have idle := locksSelf tenantID name w.shared i
  cases at_ : w.point i <;> rw [at_] at taken <;> simp only [putTurn,reduceCtorEq] at taken <;> rw [at_] at known
  case start =>
    obtain ⟨locks,held⟩ := mutationTaken taken
    obtain ⟨-,rfl,rfl⟩ := acquired taken
    exact quietStepped inv (quietSelf _) locks (by simp [at_]) ((knows _ _).mpr held)
  case locked =>
    cases taken
    refine quietStepped inv (quietSelf _) idle (by simp [at_]) ((knows _ _).mpr ?_)
    split
    case isTrue => exact known
    case isFalse open_ => exact ⟨known,unmarkedPresent inv call known open_⟩
  case checked =>
    cases taken
    obtain ⟨held,present⟩ := known
    refine presentStepped ((presentSame (buckets _)).mpr present) ⟨fun _ _ => id,fun _ _ => id⟩ (fun j other held' => ?_) (fun _ _ _ => present)
      ((knows _ _).mpr held)
    exact absurd (Option.some.inj (held'.symm.trans held)) other
  case leaving result =>
    cases taken
    exact quietStepped inv (quietSelf _) (mutationReleased known result) (by simp [at_]) ((knows _ _).mpr trivial)

theorem uploadStepped {upload} (call : calls i = .createMultipartUpload upload)
    (careful : Careful tenantID name calls w i) (taken : uploadTurn upload w.shared (w.point i) = some (p, s)) :
    Stepped tenantID name calls w i p s := by
  unfold Careful at careful
  cases at_ : w.point i <;> rw [at_] at taken <;> simp only [uploadTurn,reduceCtorEq] at taken
  rw [call,at_] at careful
  have known : Known tenantID name s i (calls i) p := by
    rw [call]
    trivial
  split at taken <;> cases taken
  · exact presentStepped careful (locksSelf tenantID name w.shared i) (fun _ _ _ => ⟨rfl,rfl⟩) (fun _ _ _ => careful) known
  · exact presentStepped careful ⟨fun _ _ => id,fun _ _ => id⟩ (fun _ _ _ => ⟨rfl,rfl⟩) (fun _ _ _ => careful) known

theorem partStepped {part} (call : calls i = .putPart part)
    (inv : Inv tenantID name calls w) (taken : partTurn part w.shared (w.point i) = some (p, s)) : Stepped tenantID name calls w i p s := by
  have idle := locksSelf tenantID name w.shared i
  have known s p : Known tenantID name s i (calls i) p := by
    rw [call]
    trivial
  cases at_ : w.point i <;> rw [at_] at taken <;> simp only [partTurn,reduceCtorEq] at taken
  case checked =>
    cases taken
    exact quietStepped inv ⟨rfl,rfl,rfl,rfl,id⟩ ⟨fun _ _ => id,fun _ _ => id⟩ (by simp [at_]) (known _ _)
  all_goals
    cases taken
    exact quietStepped inv (quietSelf _) idle (by simp [at_]) (known _ _)

theorem abortStepped {uploadID} (call : calls i = .abortMultipartUpload uploadID)
    (inv : Inv tenantID name calls w) (taken : abortTurn uploadID w.shared (w.point i) = some (p, s)) : Stepped tenantID name calls w i p s := by
  have idle := locksSelf tenantID name w.shared i
  have known s p : Known tenantID name s i (calls i) p := by
    rw [call]
    trivial
  cases at_ : w.point i <;> rw [at_] at taken <;> simp only [abortTurn,reduceCtorEq] at taken
  case collected upload keys =>
    cases taken
    refine quietStepped inv ⟨rfl,rfl,rfl,rfl,fun {k held} found => ?_⟩ ⟨fun _ _ => id,fun _ _ => id⟩ (by simp [at_]) (known _ _)
    simp only [Shared.write,dropUpload,Store.getDelete] at found
    split at found
    · contradiction
    · exact found
  all_goals
    cases taken
    exact quietStepped inv (quietSelf _) idle (by simp [at_]) (known _ _)

theorem stepKeeps {next} (mine : ∀ i, OfPath tenantID name (calls i)) (inv : Inv tenantID name calls w)
    (careful : Careful tenantID name calls w i) (step_ : step (turnOf calls) w i = some next) : Inv tenantID name calls next := by
  obtain ⟨p,s,taken,rfl⟩ := stepTurn step_
  refine steppedInv ?_ inv
  have of_ := mine i
  simp only [turnOf] at taken
  cases call : calls i <;> rw [call] at of_ taken
  case deleteBucketIfEmpty t n =>
    cases of_
    exact deleteStepped call inv careful taken
  case createBucket bucket =>
    cases of_ with
    | create home named => exact createStepped call home named inv taken
  case putObject now obj =>
    cases of_ with
    | put home =>
      simp only [Operation.turn,home] at taken
      split at taken
      case isTrue =>
        cases at_ : w.point i <;> rw [at_] at taken <;> cases taken
        exact quietStepped inv (quietSelf _) (locksSelf tenantID name w.shared i) (by simp [at_]) (by rw [call]; trivial)
      case isFalse =>
        refine putStepped (fun s p => ?_) (by simp [call]) (fun db => show (writeObject now obj db).buckets = db.buckets from rfl) inv taken
        rw [call]
        cases p <;> exact Iff.rfl
  case putObjectVersion obj version =>
    cases of_ with
    | putVersion home =>
      simp only [Operation.turn,home] at taken
      refine putStepped (fun s p => ?_) (by simp [call]) (fun db => show (writeVersion obj version db).buckets = db.buckets from rfl) inv taken
      rw [call]
      cases p <;> exact Iff.rfl
  case createMultipartUpload upload => exact uploadStepped call careful taken
  case putPart part => exact partStepped call inv taken
  case abortMultipartUpload uploadID => exact abortStepped call inv taken
  all_goals cases of_

theorem beginInv {db} (vacant : (db.buckets.get (bucketKey tenantID name)).isSome = false → Vacant db (path tenantID name) ∧
    path tenantID name ∈ db.deletedBuckets) : Inv tenantID name calls (begin_ db) where
  known i := by cases calls i <;> trivial
  vacant absent := (vacant (Bool.eq_false_iff.mpr absent)).1
  marked absent := .inl (vacant (Bool.eq_false_iff.mpr absent)).2

end

theorem deletedVacant {tenantID name : Bytes} {db : Database} {calls : Nat → Operation} {events : List Nat} {last : World}
    (start : (db.buckets.get (bucketKey tenantID name)).isSome = false → Vacant db (path tenantID name) ∧ path tenantID name ∈ db.deletedBuckets)
    (mine : ∀ i, OfPath tenantID name (calls i)) (ran : run (step (turnOf calls)) (begin_ db) events = some last)
    (careful : Along (step (turnOf calls)) (Careful tenantID name calls) (begin_ db) events) :
    (last.shared.db.buckets.get (bucketKey tenantID name) = none → Vacant last.shared.db (path tenantID name)) ∧
    ∀ i bucket, calls i = .createBucket bucket → last.point i = .scanned → Vacant last.shared.db (path tenantID name) := by
  have inv := runKeeps (stepKeeps mine) (beginInv start) careful ran
  refine ⟨fun absent => inv.vacant ?_,fun i bucket call at_ => inv.vacant ?_⟩
  · rw [Present,absent]
    exact nofun
  have known := inv.known i
  rw [call,at_] at known
  exact known.2

def bucket : BucketMetadata := freshBucket [] (ascii "b") (ascii "o") (ascii "user")
def there : Database := { emptyDatabase with buckets := empty.set (bucketKey [] (ascii "b")) bucket }
def object : ObjectMetadata := ObjectManager.folderObject 5 (ascii "b") (ascii "k")

def createDeletePut : Nat → Operation
  | 0 => .createBucket bucket
  | 1 => .deleteBucketIfEmpty [] (ascii "b")
  | _ => .putObject 5 object

theorem createDeletePutOf (i : Nat) : OfPath [] (ascii "b") (createDeletePut i) := by
  unfold createDeletePut
  split
  · exact .create rfl rfl
  · exact .delete
  · exact .put rfl

def atWritten : Point → Bool
  | .written => true
  | _ => false

def checkCareful (w : World) (i : Nat) : Bool :=
  match createDeletePut i, w.point i with
  | .deleteBucketIfEmpty _ _, .scanned => w.shared.db.uploads.entries.all (fun e => decide (e.2.bucket ≠ ascii "b")) &&
      (List.range 3).all fun j => !atWritten (w.point j)
  | .createMultipartUpload _, .start => false
  | _, _ => true

theorem checkSound {w i} (idle : Idle 3 .start w) (_ : i < 3) (passed : checkCareful w i = true) : Careful [] (ascii "b") createDeletePut w i := by
  unfold checkCareful at passed
  unfold Careful
  split at passed
  case h_1 =>
    obtain ⟨uploads,creations⟩ := (Bool.and_eq_true _ _).mp passed
    refine ⟨fun k upload found => ?_,fun j bucket _ at_ => ?_⟩
    · exact of_decide_eq_true (List.all_eq_true.mp uploads (k, upload) (Store.memEntries.mpr found))
    have clear : atWritten (w.point j) = false := allPoints (Q := fun p => atWritten p = false) idle rfl
      (fun j few => (Bool.not_eq_true' _).mp (List.all_eq_true.mp creations j (List.mem_range.mpr few))) j
    rw [at_] at clear
    contradiction
  case h_2 => contradiction
  case h_3 => trivial

def deleteThenPut : List Nat := [1, 1, 1, 1, 1, 1, 1, 2, 2, 2]

theorem putRefused : ∃ last, run (step (turnOf createDeletePut)) (begin_ there) deleteThenPut = some last ∧
    Vacant last.shared.db (path [] (ascii "b")) := by
  refine runShows (fun w => w.shared.db.buckets.get (bucketKey [] (ascii "b")) = none) (by decide +kernel) fun last ran gone => ?_
  have careful : Along (step (turnOf createDeletePut)) (Careful [] (ascii "b") createDeletePut) (begin_ there) deleteThenPut :=
    alongChecked checkSound stepIdle (by decide) (fun _ _ => rfl) (by decide +kernel)
  exact (deletedVacant (fun absent => absurd absent (by decide)) createDeletePutOf ran careful).1 gone

def upload : MultipartUpload := ⟨ascii "u", ascii "b", ascii "k", 0, [], empty⟩

def uploadAndDelete (i : Nat) : Operation := if i = 0 then .createMultipartUpload upload else .deleteBucketIfEmpty [] (ascii "b")

theorem uploadAndDeleteOf (i : Nat) : OfPath [] (ascii "b") (uploadAndDelete i) := by
  unfold uploadAndDelete
  split
  · exact .upload rfl
  · exact .delete

def deleted : Database := { emptyDatabase with deletedBuckets := [ascii "b"] }

-- An upload outlives its bucket; and a creation takes away the mark of a deletion that came after it.
theorem recordsLeft : (∀ i, OfPath [] (ascii "b") (uploadAndDelete i)) ∧ (∀ i, OfPath [] (ascii "b") (createDeletePut i)) ∧
    (∃ last, run (step (turnOf uploadAndDelete)) (begin_ there) [0, 1, 1, 1, 1, 1, 1, 1] = some last ∧
      last.point 0 = .returned (.ok ()) ∧ last.point 1 = .returned (.ok ()) ∧ last.shared.db.buckets.get (bucketKey [] (ascii "b")) = none ∧
      (last.shared.db.uploads.get (multipartUploadKey (ascii "u"))).isSome = true) ∧
    ∃ last, run (step (turnOf createDeletePut)) (begin_ deleted) [0, 0, 0, 0, 1, 1, 1, 1, 1, 1, 1, 0, 0, 2, 2, 2, 2] = some last ∧
      (∀ j < 3, last.point j = .returned (.ok ())) ∧ last.shared.db.buckets.get (bucketKey [] (ascii "b")) = none ∧
      (last.shared.db.objects.get (objectKey (ascii "b") (ascii "k"))).isSome = true := by
  refine ⟨uploadAndDeleteOf,createDeletePutOf,?_,?_⟩ <;> decide +kernel

end MaxIOFS.DeletionRaces
