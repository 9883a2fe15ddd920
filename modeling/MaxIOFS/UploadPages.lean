import MaxIOFS.Listing
import MaxIOFS.TagIndex
import MaxIOFS.Pagination

/-! The listing of a bucket's uploads in progress. The store reads its index of uploads up to a
cap that no request can raise; the handler sorts what it is given by key and identifier and cuts
pages from it. -/
namespace MaxIOFS.MetadataStore
open ByteString OrderedStore Records

def multipartListPrefix (bucket : Bytes) : Bytes := ascii "multipart_idx:" ++ bucket ++ colon

def uploadLoop (db : Database) (lower start : Bytes) : List (Bytes × Unit) → Nat → List MultipartUpload
  | [], _ | _, 0 => []
  | e :: rest, left + 1 => match db.getMultipartUpload (e.1.drop lower.length) with
    | .error _ => uploadLoop db lower start rest (left + 1)
    | .ok upload =>
      if start ≠ [] ∧ ¬ start <+: upload.key then uploadLoop db lower start rest (left + 1)
      else upload :: uploadLoop db lower start rest left

-- Both sorts are the host's: newest first in the store, by key and identifier in the handler.
structure UploadSort where
  newest : List MultipartUpload → List MultipartUpload
  newestPerm : ∀ uploads, (newest uploads).Perm uploads
  newestFirst : ∀ uploads, (newest uploads).Pairwise (fun a b => b.initiated ≤ a.initiated)
  byKey : List MultipartUpload → List MultipartUpload
  byKeyPerm : ∀ uploads, (byKey uploads).Perm uploads
  ordered : ∀ uploads, (byKey uploads).Pairwise (fun a b => a.key < b.key ∨ a.key = b.key ∧ a.uploadID ≤ b.uploadID)

def Database.listMultipartUploads (db : Database) (sorting : UploadSort) (bucket start : Bytes) (maxUploads : Int) : List MultipartUpload :=
  let lower := multipartListPrefix bucket
  let max := if maxUploads ≤ 0 then 1000 else maxUploads.toNat
  sorting.newest (uploadLoop db lower start (db.uploadIndex.scan lower) max)

end MaxIOFS.MetadataStore

namespace MaxIOFS.Handler
open ByteString MetadataStore Records

structure ListedUpload where
  (key uploadID storageClass : Bytes)
  initiated : Int
  deriving DecidableEq

structure ListUploadsRequest where
  (start delimiter keyMarker uploadIDMarker : Bytes)
  maxUploads : Option Int

structure ListUploadsResult where
  uploads : List ListedUpload
  isTruncated : Bool
  (nextKeyMarker nextUploadIDMarker : Bytes)

def listedUpload (upload : MultipartUpload) : ListedUpload :=
  ⟨upload.key, upload.uploadID, storageClassOrStandard upload.storageClass, upload.initiated⟩

def skippedUpload (keyMarker uploadIDMarker : Bytes) (upload : MultipartUpload) : Bool :=
  decide (keyMarker ≠ []) && (decide (upload.key < keyMarker) ||
    decide (upload.key = keyMarker) && (decide (uploadIDMarker = []) || decide (upload.uploadID ≤ uploadIDMarker)))

def uploadPageLoop (keyMarker uploadIDMarker : Bytes) (maxUploads : Nat) : List MultipartUpload → List ListedUpload → List ListedUpload × Bool
  | [], page => (page, false)
  | upload :: rest, page =>
    if skippedUpload keyMarker uploadIDMarker upload then uploadPageLoop keyMarker uploadIDMarker maxUploads rest page
    else if maxUploads ≤ page.length then (page, true)
    else uploadPageLoop keyMarker uploadIDMarker maxUploads rest (page ++ [listedUpload upload])

def paginateMultipartUploads (sorting : UploadSort) (uploads : List MultipartUpload) (keyMarker uploadIDMarker : Bytes) (maxUploads : Nat) :
    ListUploadsResult :=
  let (page, isTruncated) := uploadPageLoop keyMarker uploadIDMarker maxUploads (sorting.byKey uploads) []
  let last := if isTruncated then page.getLast? else none
  ⟨page, isTruncated, (last.map ListedUpload.key).getD [], (last.map ListedUpload.uploadID).getD []⟩

inductive ListUploadsError where
  | invalidArgument
  deriving DecidableEq

-- A number that cannot be read is refused like one that is not positive; prefix and delimiter are not read.
-- Left out: the XML encoder writes U+FFFD for the control characters of a marker.
def listMultipartUploads (db : Database) (sorting : UploadSort) (bucket : Bytes) (request : ListUploadsRequest) :
    Except ListUploadsError ListUploadsResult :=
  if request.maxUploads.any (fun parsed => decide (parsed ≤ 0)) then .error .invalidArgument
  else
    let maxUploads := match request.maxUploads with
      | some parsed => if 1000 < parsed then 1000 else parsed.toNat
      | none => 1000
    .ok (paginateMultipartUploads sorting (db.listMultipartUploads sorting bucket [] 1000) request.keyMarker request.uploadIDMarker maxUploads)

end MaxIOFS.Handler

namespace MaxIOFS.UploadPages
open ByteString OrderedStore MetadataStore Records Handler Pagination MultipartUpload List

def inProgress (db : Database) (bucket : Bytes) : List MultipartUpload :=
  (db.uploadIndex.scan (multipartListPrefix bucket)).filterMap fun e =>
    db.uploads.get (multipartUploadKey (e.1.drop (multipartListPrefix bucket).length))

theorem loopTakes (db : Database) (lower : Bytes) (entries : List (Bytes × Unit)) (left : Nat) :
    uploadLoop db lower [] entries left = (entries.filterMap fun e => db.uploads.get (multipartUploadKey (e.1.drop lower.length))).take left := by
  induction entries generalizing left with
  | nil => cases left <;> rfl
  | cons e rest ih =>
    cases left with
    | zero => simp [uploadLoop]
    | succ left =>
      rw [uploadLoop,Database.getMultipartUpload,filterMap_cons]
      cases db.uploads.get (multipartUploadKey (e.1.drop lower.length)) with
      | none => exact ih (left + 1)
      | some upload => simp [ih left]

theorem loopPages (keyMarker uploadIDMarker : Bytes) (maxUploads : Nat) (uploads : List MultipartUpload) (page : List ListedUpload)
    (short : page.length ≤ maxUploads) : uploadPageLoop keyMarker uploadIDMarker maxUploads uploads page =
      let kept := uploads.filter fun upload => !skippedUpload keyMarker uploadIDMarker upload
      (page ++ (kept.take (maxUploads - page.length)).map listedUpload, decide (maxUploads < page.length + kept.length)) := by
  induction uploads generalizing page with
  | nil =>
    have fits : ¬ maxUploads < page.length := by omega
    simp [uploadPageLoop,fits]
  | cons upload rest ih =>
    rw [uploadPageLoop]
    cases skips : skippedUpload keyMarker uploadIDMarker upload with
    | true => simp [skips,ih page short]
    | false =>
      simp only [Bool.false_eq_true,if_false,filter_cons,skips]
      split
      case isTrue full =>
        have exact_ : maxUploads - page.length = 0 := by omega
        simp [exact_]
        omega
      case isFalse room =>
        obtain ⟨n,size⟩ : ∃ n, maxUploads - page.length = n + 1 := ⟨maxUploads - page.length - 1,by omega⟩
        rw [ih (page ++ [listedUpload upload]) (by simp; omega)]
        simp [size]
        omega

def InProgress (db : Database) (bucket : Bytes) (upload : MultipartUpload) : Prop :=
  db.uploads.get (multipartUploadKey upload.uploadID) = some upload ∧ upload.bucket = bucket

structure Indexed (db : Database) (bucket : Bytes) : Prop where
  entry : ∀ {k}, (db.uploadIndex.get k).isSome = true → multipartListPrefix bucket <+: k →
    ∃ upload, k = multipartIndexKey bucket upload.uploadID ∧ InProgress db bucket upload
  listed : ∀ {upload}, InProgress db bucket upload → (db.uploadIndex.get (multipartIndexKey bucket upload.uploadID)).isSome = true
  named : ∀ {upload}, InProgress db bucket upload → upload.key ≠ [] ∧ upload.uploadID ≠ []

section
variable {db : Database} {bucket : Bytes}
variable {maxUploads : Option Int}

theorem dropIndex (bucket uploadID : Bytes) : (multipartIndexKey bucket uploadID).drop (multipartListPrefix bucket).length = uploadID := drop_left

theorem memInProgress (indexed : Indexed db bucket) {upload} : upload ∈ inProgress db bucket ↔ InProgress db bucket upload := by
  rw [inProgress,mem_filterMap]
  constructor
  · rintro ⟨⟨_,_⟩,mem,found⟩
    obtain ⟨present,below⟩ := Store.memScan.mp mem
    obtain ⟨_,rfl,progress⟩ := indexed.entry (Option.isSome_iff_exists.mpr ⟨_,present⟩) below
    rw [dropIndex] at found
    cases (progress.1.symm.trans found)
    exact progress
  · intro progress
    obtain ⟨_,present⟩ := Option.isSome_iff_exists.mp (indexed.listed progress)
    refine ⟨(multipartIndexKey bucket upload.uploadID, _),Store.memScan.mpr ⟨present,prefix_append _ _⟩,?_⟩
    rw [dropIndex]
    exact progress.1

theorem filterMapAll {α β γ : Type} {f} {g : β → γ} {h} {l : List α} (all : ∀ a ∈ l, ∃ b, f a = some b ∧ g b = h a) :
    (l.filterMap f).map g = l.map h := by
  induction l with
  | nil => rfl
  | cons a rest ih =>
    obtain ⟨_,found,same⟩ := all a mem_cons_self
    rw [filterMap_cons_some found,map_cons,map_cons,same,ih fun a mem => all a (mem_cons_of_mem _ mem)]

theorem identifiersDistinct (indexed : Indexed db bucket) : ((inProgress db bucket).map uploadID).Nodup := by
  have each e (mem : e ∈ db.uploadIndex.scan (multipartListPrefix bucket)) :
      ∃ upload, e.1 = multipartIndexKey bucket upload.uploadID ∧ InProgress db bucket upload := by
    obtain ⟨present,below⟩ := Store.memScan.mp mem
    exact indexed.entry (Option.isSome_iff_exists.mpr ⟨_,present⟩) below
  have identifiers : (inProgress db bucket).map uploadID =
      (db.uploadIndex.scan (multipartListPrefix bucket)).map fun e => e.1.drop (multipartListPrefix bucket).length := by
    refine filterMapAll fun e mem => ?_
    obtain ⟨upload,key,progress⟩ := each e mem
    rw [key,dropIndex]
    exact ⟨upload,progress.1,rfl⟩
  have keys : (db.uploadIndex.scan (multipartListPrefix bucket)).map Prod.fst =
      ((db.uploadIndex.scan (multipartListPrefix bucket)).map fun e => e.1.drop (multipartListPrefix bucket).length).map
        (multipartListPrefix bucket ++ ·) := by
    rw [map_map]
    refine map_congr_left fun e mem => ?_
    obtain ⟨_,key,-⟩ := each e mem
    rw [Function.comp_apply,key,dropIndex]
    rfl
  rw [identifiers]
  exact List.Nodup.of_map _ (keys ▸ Store.rangeKeysNodup ..)

def place (upload : MultipartUpload) : Lex (Bytes × Bytes) := toLex (upload.key, upload.uploadID)

def shown (db : Database) (sorting : UploadSort) (bucket : Bytes) : List MultipartUpload :=
  sorting.byKey (db.listMultipartUploads sorting bucket [] 1000)

theorem shownPerm (sorting : UploadSort) : (shown db sorting bucket).Perm ((inProgress db bucket).take 1000) := by
  refine (sorting.byKeyPerm _).trans ((sorting.newestPerm _).trans ?_)
  rw [loopTakes]
  rfl

theorem shownSorted (sorting : UploadSort) (indexed : Indexed db bucket) : (shown db sorting bucket).Pairwise (fun a b => place a < place b) := by
  have distinct : ((shown db sorting bucket).map uploadID).Nodup := by
    refine (((shownPerm sorting).map _).nodup_iff).mpr ?_
    rw [map_take]
    exact (identifiersDistinct indexed).sublist (take_sublist ..)
  refine ((sorting.ordered _).and (pairwise_map.mp distinct)).imp fun {a b} both => ?_
  obtain ⟨less | ⟨same,le⟩,differ⟩ := both
  · exact Prod.Lex.toLex_lt_toLex.mpr (.inl less)
  · exact Prod.Lex.toLex_lt_toLex.mpr (.inr ⟨same,lt_of_le_of_ne le differ⟩)

def Resumes (m : Bytes × Bytes) : Prop := m = ([], []) ∨ m.1 ≠ [] ∧ m.2 ≠ []

def left (db : Database) (sorting : UploadSort) (bucket : Bytes) (m : Bytes × Bytes) : List MultipartUpload :=
  (shown db sorting bucket).filter fun upload => !skippedUpload m.1 m.2 upload

theorem leftFirst (sorting : UploadSort) : left db sorting bucket ([], []) = shown db sorting bucket := by
  refine filter_eq_self.mpr fun upload _ => ?_
  simp [skippedUpload]

theorem leftAfter (sorting : UploadSort) {m} (key : m.1 ≠ []) (id : m.2 ≠ []) :
    left db sorting bucket m = after place (toLex m) (shown db sorting bucket) := by
  refine filter_congr fun upload _ => ?_
  have same : skippedUpload m.1 m.2 upload = decide (place upload ≤ toLex m) := by
    rw [place]
    simp [skippedUpload,key,id,Prod.Lex.toLex_le_toLex]
  rw [same]
  simp [← not_lt]

def pageOf (maxUploads : Option Int) : Nat :=
  match maxUploads with
  | some parsed => if 1000 < parsed then 1000 else parsed.toNat
  | none => 1000

theorem pagePositive (positive : ∀ n ∈ maxUploads, 1 ≤ n) : 0 < pageOf maxUploads := by
  unfold pageOf
  split
  case h_1 parsed =>
    have := positive parsed rfl
    split <;> omega
  case h_2 => omega

def readUploads (db : Database) (sorting : UploadSort) (bucket start delimiter : Bytes) (maxUploads : Option Int) (m : Bytes × Bytes) :
    List ListedUpload × Option (Bytes × Bytes) :=
  match listMultipartUploads db sorting bucket ⟨start, delimiter, m.1, m.2, maxUploads⟩ with
  | .ok result => (result.uploads, if result.isTruncated then some (result.nextKeyMarker, result.nextUploadIDMarker) else none)
  | .error _ => ([], none)

section
variable (sorting : UploadSort)
include sorting

section
variable (start delimiter : Bytes) (positive : ∀ n ∈ maxUploads, 1 ≤ n) (m : Bytes × Bytes)
include start delimiter positive m

theorem answered : listMultipartUploads db sorting bucket ⟨start,delimiter,m.1,m.2,maxUploads⟩ =
      .ok (paginateMultipartUploads sorting (db.listMultipartUploads sorting bucket [] 1000) m.1 m.2 (pageOf maxUploads)) := by
  have accepted : maxUploads.any (fun parsed => decide (parsed ≤ 0)) = false := by
    cases maxUploads with
    | none => rfl
    | some parsed =>
      have := positive parsed rfl
      simp
      omega
  simp only [listMultipartUploads,accepted]
  rfl

theorem readPage : readUploads db sorting bucket start delimiter maxUploads m =
    (((left db sorting bucket m).take (pageOf maxUploads)).map listedUpload,
      if pageOf maxUploads < (left db sorting bucket m).length then
        (left db sorting bucket m)[pageOf maxUploads - 1]?.map fun upload => (upload.key, upload.uploadID) else none) := by
  have some_ := pagePositive positive
  have loop := loopPages m.1 m.2 (pageOf maxUploads) (shown db sorting bucket) [] (Nat.zero_le _)
  simp only [length_nil,Nat.sub_zero,nil_append,Nat.zero_add] at loop
  have same : (shown db sorting bucket).filter (fun upload => !skippedUpload m.1 m.2 upload) = left db sorting bucket m := rfl
  rw [same] at loop
  rw [readUploads,answered sorting start delimiter positive m]
  unfold paginateMultipartUploads
  rw [shown] at loop
  simp only [loop,decide_eq_true_eq]
  by_cases more : pageOf maxUploads < (left db sorting bucket m).length
  · obtain ⟨x,found⟩ : ∃ x, (left db sorting bucket m)[pageOf maxUploads - 1]? = some x := ⟨_,getElem?_eq_getElem (by omega)⟩
    have last : ((left db sorting bucket m).take (pageOf maxUploads)).getLast? = some x := by
      rw [getLast?_eq_getElem?,length_take,min_eq_left more.le,getElem?_take_of_lt (by omega),found]
    simp only [more,if_true,getLast?_map,last,found,Option.map_some,Option.getD_some,listedUpload]
  · simp [more]

end

section
variable (indexed : Indexed db bucket)
include indexed

theorem leftDrop {n m x} (positive : 0 < n) (resumes : Resumes m) (found : (left db sorting bucket m)[n - 1]? = some x) :
    Resumes (x.key, x.uploadID) ∧ left db sorting bucket (x.key, x.uploadID) = (left db sorting bucket m).drop n := by
  have mem : x ∈ left db sorting bucket m := mem_of_getElem? found
  have progress : InProgress db bucket x := (memInProgress indexed).mp (mem_of_mem_take ((shownPerm sorting).mem_iff.mp (mem_of_mem_filter mem)))
  obtain ⟨key,id⟩ := indexed.named progress
  have sorted : (left db sorting bucket m).Pairwise (fun a b => place a < place b) := (shownSorted sorting indexed).filter _
  refine ⟨.inr ⟨key,id⟩,?_⟩
  rw [dropAfter sorted positive found,leftAfter sorting key id]
  obtain rfl | ⟨key',id'⟩ := resumes
  · rw [leftFirst]
    rfl
  · rw [leftAfter sorting key' id'] at mem ⊢
    exact (afterAfter (memAfter.mp mem).2.le).symm

theorem gathered (start delimiter : Bytes) (positive : ∀ n ∈ maxUploads, 1 ≤ n) {fuel} (enough : (shown db sorting bucket).length < fuel) :
    gather (readUploads db sorting bucket start delimiter maxUploads) fuel ([], []) = some ((shown db sorting bucket).map listedUpload) := by
  have size := pagePositive positive
  rw [← leftFirst]
  refine gatherAll (I := Resumes) (fun m => (left db sorting bucket m).map listedUpload) (fun m => (left db sorting bucket m).length)
    (fun m _ ends => ?_) (fun m next resumes goes => ?_) (.inl rfl) (by rwa [leftFirst])
  · rw [readPage sorting start delimiter positive] at ends ⊢
    have short : (left db sorting bucket m).length ≤ pageOf maxUploads := by
      by_contra more
      have fits : pageOf maxUploads - 1 < (left db sorting bucket m).length := by omega
      simp only [if_pos (Nat.lt_of_not_le more),getElem?_eq_getElem fits] at ends
      contradiction
    simp only [take_of_length_le short]
  · rw [readPage sorting start delimiter positive] at goes ⊢
    split at goes
    case isTrue more =>
      obtain ⟨_,found,rfl⟩ := Option.map_eq_some_iff.mp goes
      obtain ⟨resumes',rest⟩ := leftDrop sorting indexed size resumes found
      refine ⟨resumes',?_,?_⟩
      · rw [rest,length_drop]
        omega
      · rw [rest,← map_append,take_append_drop]
    case isFalse => contradiction

theorem listedOnce {upload} (progress : InProgress db bucket upload) :
    ((shown db sorting bucket).map listedUpload).count (listedUpload upload) = 1 ↔ upload ∈ (inProgress db bucket).take 1000 := by
  constructor
  · intro once
    obtain ⟨other,mem,same⟩ := mem_map.mp (count_pos_iff.mp (once ▸ Nat.one_pos))
    have mem' := (shownPerm sorting).mem_iff.mp mem
    have theirs := ((memInProgress indexed).mp (mem_of_mem_take mem')).1
    rw [show other.uploadID = upload.uploadID from congrArg ListedUpload.uploadID same,progress.1] at theirs
    exact Option.some.inj theirs ▸ mem'
  · intro mem
    have mem' := (shownPerm sorting).mem_iff.mpr mem
    have distinct : ((shown db sorting bucket).map listedUpload).Nodup :=
      pairwise_map.mpr ((shownSorted sorting indexed).imp fun {a b} less same => ?_)
    · exact count_eq_one_of_mem distinct (mem_map_of_mem mem')
    have keys : a.key = b.key := congrArg ListedUpload.key same
    have ids : a.uploadID = b.uploadID := congrArg ListedUpload.uploadID same
    rw [place,keys,ids] at less
    exact lt_irrefl _ less

end

end

end

inductive Reached : Database → Prop where
  | fresh : Reached emptyDatabase
  | created {db : Database} {upload : MultipartUpload} (before : Reached db) (unused : db.uploads.get (multipartUploadKey upload.uploadID) = none)
      (named : upload.key ≠ [] ∧ upload.uploadID ≠ []) (plain : ByteString.colon ∉ upload.bucket) : Reached (writeUpload upload db)
  | aborted {db db' : Database} {uploadID : Bytes} (before : Reached db) (done : db.abortMultipartUpload uploadID = .ok db') : Reached db'
  | other {db db' : Database} (before : Reached db) (uploads : db'.uploads = db.uploads) (index : db'.uploadIndex = db.uploadIndex) : Reached db'

section
variable {db db' : Database} {bucket : Bytes} {upload : MultipartUpload} {uploadID : Bytes}

theorem uploadKeyInj {a b} (same : multipartUploadKey a = multipartUploadKey b) : a = b := append_cancel_left same

theorem indexKeySplit {a b c d} (free : ByteString.colon ∉ a) (free' : ByteString.colon ∉ c)
    (same : multipartIndexKey a b = multipartIndexKey c d) : a = c ∧ b = d := by
  simp only [multipartIndexKey,append_assoc] at same
  exact TagIndex.separatorInj free free' (append_cancel_left same)

theorem createdProgress (unused : db.uploads.get (multipartUploadKey upload.uploadID) = none) {other} :
    InProgress (writeUpload upload db) bucket other ↔ other = upload ∧ upload.bucket = bucket ∨ InProgress db bucket other := by
  unfold InProgress writeUpload
  by_cases same : other.uploadID = upload.uploadID
  · rw [same,Store.getSetSame]
    grind
  · rw [Store.getSetOther _ _ fun keys => same (uploadKeyInj keys).symm]
    grind

theorem abortTables (done : db.abortMultipartUpload uploadID = .ok db') :
    ∃ upload, db.uploads.get (multipartUploadKey uploadID) = some upload ∧ db'.uploads = db.uploads.delete (multipartUploadKey uploadID) ∧
      db'.uploadIndex = db.uploadIndex.delete (multipartIndexKey upload.bucket uploadID) := by
  unfold Database.abortMultipartUpload Database.getMultipartUpload at done
  cases found : db.uploads.get (multipartUploadKey uploadID) with
  | none =>
    rw [found] at done
    cases done
  | some upload =>
    rw [found] at done
    cases done
    exact ⟨upload,rfl,rfl,rfl⟩

theorem abortedProgress (uploads : db'.uploads = db.uploads.delete (multipartUploadKey uploadID)) {other} :
    InProgress db' bucket other ↔ InProgress db bucket other ∧ other.uploadID ≠ uploadID := by
  unfold InProgress
  rw [uploads]
  by_cases same : other.uploadID = uploadID
  · rw [same]
    simp
  · rw [Store.getDeleteOther _ fun keys => same (uploadKeyInj keys).symm]
    simp [same]

theorem createdIndexed (indexed : Indexed db bucket) (unused : db.uploads.get (multipartUploadKey upload.uploadID) = none)
    (named : upload.key ≠ [] ∧ upload.uploadID ≠ []) (plain : ByteString.colon ∉ bucket) (plain' : ByteString.colon ∉ upload.bucket) :
    Indexed (writeUpload upload db) bucket where
  entry {k} present below := by
    by_cases new : multipartIndexKey upload.bucket upload.uploadID = k
    · have home : upload.bucket = bucket := TagIndex.spaceInj plain' plain (prefix_append _ _) (new ▸ below)
      exact ⟨upload,by rw [← home,new],(createdProgress unused).mpr (.inl ⟨rfl,home⟩)⟩
    rw [writeUpload,Store.getSetOther _ _ new] at present
    obtain ⟨other,key,progress⟩ := indexed.entry present below
    exact ⟨other,key,(createdProgress unused).mpr (.inr progress)⟩
  listed {other} progress := by
    rw [writeUpload,Store.getSet]
    split
    · rfl
    rename_i differs
    rcases (createdProgress unused).mp progress with ⟨rfl,home⟩ | old
    · exact absurd (by rw [home]) differs
    · exact indexed.listed old
  named {other} progress := by
    rcases (createdProgress unused).mp progress with ⟨rfl,-⟩ | old
    · exact named
    · exact indexed.named old

theorem abortedIndexed (indexed : Indexed db bucket) (plain : ByteString.colon ∉ bucket)
    (plain' : ∀ upload, db.uploads.get (multipartUploadKey uploadID) = some upload → ByteString.colon ∉ upload.bucket)
    (done : db.abortMultipartUpload uploadID = .ok db') : Indexed db' bucket := by
  obtain ⟨upload,found,uploads,index⟩ := abortTables done
  refine ⟨fun {k} present below => ?_,fun {other} progress => ?_,fun progress => indexed.named ((abortedProgress uploads).mp progress).1⟩
  · by_cases gone : multipartIndexKey upload.bucket uploadID = k
    · rw [index,gone,Store.getDeleteSame] at present
      cases present
    rw [index,Store.getDeleteOther _ gone] at present
    obtain ⟨other,rfl,progress⟩ := indexed.entry present below
    refine ⟨other,rfl,(abortedProgress uploads).mpr ⟨progress,fun same => gone ?_⟩⟩
    have both := progress.1
    rw [same,found] at both
    rw [Option.some.inj both,progress.2,same]
  · obtain ⟨old,differs⟩ := (abortedProgress uploads).mp progress
    rw [index,Store.getDeleteOther _ fun keys => differs (indexKeySplit (plain' upload found) plain keys).2.symm]
    exact indexed.listed old

theorem reachedPlain (reached : Reached db) : ∀ k upload, db.uploads.get k = some upload → ByteString.colon ∉ upload.bucket := by
  induction reached with
  | fresh => nofun
  | @created db upload _ _ _ plain ih =>
    intro k other found
    rw [writeUpload,Store.getSet] at found
    split at found
    · exact Option.some.inj found ▸ plain
    · exact ih k other found
  | aborted _ done ih =>
    intro k other found
    obtain ⟨_,-,uploads,-⟩ := abortTables done
    rw [uploads,Store.getDelete] at found
    split at found
    · cases found
    · exact ih k other found
  | other _ uploads _ ih => exact uploads ▸ ih

theorem reachedIndexed (plain : ByteString.colon ∉ bucket) (reached : Reached db) : Indexed db bucket := by
  induction reached with
  | fresh => exact ⟨nofun,nofun,nofun⟩
  | created _ unused named plain' ih => exact createdIndexed ih unused named plain plain'
  | aborted before done ih => exact abortedIndexed ih plain (reachedPlain before _) done
  | @other db db' _ uploads index ih =>
    have same {upload} : InProgress db' bucket upload ↔ InProgress db bucket upload := by rw [InProgress,InProgress,uploads]
    refine ⟨fun {k} present below => ?_,fun progress => index ▸ ih.listed (same.mp progress),fun progress => ih.named (same.mp progress)⟩
    obtain ⟨upload,key,progress⟩ := ih.entry (index ▸ present) below
    exact ⟨upload,key,same.mpr progress⟩

end

def numbered (i : Nat) : MultipartUpload := ⟨ByteString.formatNat i, ascii "b", ascii "k", 0, [], OrderedStore.empty⟩

def many : Nat → Database
  | 0 => emptyDatabase
  | n + 1 => writeUpload (numbered n) (many n)

theorem formatNatInj {i j} (same : ByteString.formatNat i = ByteString.formatNat j) : i = j := by
  have read n : ByteString.readDigits 0 (ByteString.formatNat n) = some n := ByteString.readDigitsDigits (Nat.lt_succ_self n)
  exact Option.some.inj ((read i).symm.trans (same ▸ read j))

theorem manyUploads (n i : Nat) : (many n).uploads.get (multipartUploadKey (numbered i).uploadID) = if i < n then some (numbered i) else none := by
  induction n with
  | zero => rfl
  | succ n ih =>
    rw [many,writeUpload,Store.getSet]
    by_cases here : n = i
    · rw [if_pos (by rw [here]),if_pos (by omega),here]
    rw [if_neg fun keys : multipartUploadKey (numbered n).uploadID = multipartUploadKey (numbered i).uploadID =>
      here (formatNatInj (uploadKeyInj keys)),ih]
    congr 1
    exact propext ⟨fun _ => by omega,fun _ => by omega⟩

theorem manyReached (n : Nat) : Reached (many n) := by
  induction n with
  | zero => exact .fresh
  | succ n ih =>
    have key : ascii "k" ≠ [] := by decide
    have plain : ByteString.colon ∉ ascii "b" := by decide
    exact .created ih ((manyUploads n n).trans (if_neg (Nat.lt_irrefl n))) ⟨key,ByteString.formatNatNonempty n⟩ plain

theorem manyProgress {n i} (below : i < n) : InProgress (many n) (ascii "b") (numbered i) := ⟨(manyUploads n i).trans (if_pos below),rfl⟩

def inOrder : UploadSort where
  newest := insertionSort (fun a b => b.initiated ≤ a.initiated)
  newestPerm := perm_insertionSort _
  newestFirst uploads := by
    have : Std.Total (fun a b : MultipartUpload => b.initiated ≤ a.initiated) := ⟨fun _ _ => Int.le_total _ _⟩
    have : IsTrans MultipartUpload (fun a b => b.initiated ≤ a.initiated) := ⟨fun _ _ _ ab bc => bc.trans ab⟩
    exact pairwise_insertionSort _ _
  byKey := insertionSort (fun a b => place a ≤ place b)
  byKeyPerm := perm_insertionSort _
  ordered uploads := by
    have : Std.Total (fun a b : MultipartUpload => place a ≤ place b) := ⟨fun _ _ => le_total _ _⟩
    have : IsTrans MultipartUpload (fun a b => place a ≤ place b) := ⟨fun _ _ _ ab bc => ab.trans bc⟩
    have sorted : (insertionSort (fun a b => place a ≤ place b) uploads).Pairwise (fun a b => place a ≤ place b) :=
      pairwise_insertionSort _ uploads
    exact sorted.imp fun le => Prod.Lex.toLex_le_toLex.mp le

end MaxIOFS.UploadPages
