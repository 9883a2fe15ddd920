import MaxIOFS.Accounts

/-! The calls that change what a bucket holds, as one relation: each books nothing, a write, a
removal, a delete marker or the deletion of a version. Over it, records that no such call makes,
and the bytes that are stored. -/
namespace MaxIOFS.Inventory
open ByteString (Bytes ascii)
open Totals (weightOf sumFilter totalNonneg totalScan weightLe)
open Completions Effects MetadataStore Records ObjectManager RecordChanges VersionHistory VersionMoves ManagerRuns Accounts Weighing ObjectMetadata

def Counted : Request → Prop
  | .put .. | .delete .. | .createUpload .. | .uploadPart .. | .complete .. => True
  | _ => False

def Origin (node : Node) (bucket : Bytes) (s : State) (e : Event) (obj : Object) : Prop :=
  match e.request with
  | .put key data headers => chooseVersion e.call (isBucketVersioningEnabled s bucket) = .ok obj.versionID ∧
      ∃ final retention, obj = newObject node e.call bucket key data headers obj.versionID final retention
  | .complete uploadID parts => ∃ upload etag modified, s.db.getMultipartUpload uploadID = .ok upload ∧ upload.bucket = bucket ∧ etag ≠ [] ∧
      obj = multipartObject upload (if isBucketVersioningEnabled s bucket then generateVersionID e.call else []) etag
        (recordedSize (PartFiles.partsBytes node.host s.files uploadID parts).length) modified
  | _ => False

inductive Booking (node : Node) (bucket : Bytes) (s : State) (e : Event) : State → Prop
  | idle {s'} (booked : Booked bucket (fun _ => 0) id id s s') : Booking node bucket s e s'
  | write {s' obj} (origin : Origin node bucket s e obj)
      (written : Written (isBucketVersioningEnabled s bucket) (toMetadataObject obj) s s') : Booking node bucket s e s'
  | erase {s' key bypass obj} (asked : e.request = .delete key bypass []) (off : isBucketVersioningEnabled s bucket = false)
      (found : stored s bucket (resolveFolderDeleteKey s bucket key) = some obj)
      (booked : Booked bucket (fun W => -W.current s.db bucket (resolveFolderDeleteKey s bucket key)) (charged bucket (-1) (-obj.size))
        (used bucket fun tenants id => decrementTenantStorage tenants id obj.size) s s') : Booking node bucket s e s'
  | marker {s' key bypass versionID} (asked : e.request = .delete key bypass []) (on : isBucketVersioningEnabled s bucket = true)
      (chosen : chooseVersion e.call true = .ok versionID)
      (booked : Booked bucket (fun W => W.gain true s.db (deleteMarkerObject e.call.now bucket (resolveFolderDeleteKey s bucket key) versionID))
        (fun buckets => if visible (stored s bucket (resolveFolderDeleteKey s bucket key)) then charged bucket (-1) 0 buckets else buckets)
        id s s') : Booking node bucket s e s'
  | drop {s' key bypass v mid target old} (asked : e.request = .delete key bypass v) (version : v ≠ [])
      (able : Droppable node.sorting bucket (resolveFolderDeleteKey s bucket key) v e.call.now bypass s.db mid target old)
      (booked : Booked bucket
        (fun W => W.total
          (if target.isLatest then promotion node.sorting bucket (resolveFolderDeleteKey s bucket key) v mid else mid) - W.total s.db)
        (fun buckets => if target.isLatest then
          versionCharge bucket old (freed bucket (resolveFolderDeleteKey s bucket key) v old s)
            (nextLatest v (s.db.getObjectVersions node.sorting bucket (resolveFolderDeleteKey s bucket key))) buckets else buckets)
        id s s') : Booking node bucket s e s'

section
variable {node : Node} {bucket : Bytes} {s : State} {e : Event}

theorem Booked.still {s'} (same : Untouched s s') : Booked bucket (fun _ => 0) id id s s' :=
  ⟨fun W _ => by rw [same.1,Int.add_zero],by rw [same.1]; rfl,same.2⟩

theorem idleUpload {call uploadID key headers} : Booked bucket (fun _ => 0) id id s
    (createMultipartUpload call uploadID bucket key headers s).2 := by
  refine wpState ?_
  rw [createMultipartUpload,wpBind,wpCheck]
  refine ⟨fun _ => ?_,fun _ => Booked.still ⟨rfl,rfl⟩⟩
  rw [wpBind,wpDatabase,Database.createMultipartUpload]
  by_cases unnamed : uploadID = []
  · rw [if_pos unnamed]
    exact Booked.still ⟨rfl,rfl⟩
  · rw [if_neg unnamed]
    exact ⟨fun W _ => (Int.add_zero _).symm,rfl,rfl⟩

theorem idlePart {call uploadID data partNumber} : Booked bucket (fun _ => 0) id id s (uploadPart node call uploadID partNumber data s).2 := by
  have files {t} {files} (booked : Booked bucket (fun _ => 0) id id s t) : Booked bucket (fun _ => 0) id id s { t with files := files } :=
    booked.files
  have record {part} : Keeps (Booked bucket (fun _ => 0) id id s) (database (fun db => db.putPart part)) := by
    intro t booked
    rw [wpDatabase]
    cases done : t.db.putPart part with
    | error e => exact booked
    | ok db =>
      obtain ⟨_,rfl⟩ := putPartWrites done
      exact ⟨booked.records,booked.buckets,booked.tenants⟩
  refine Keeps.after ?_ (Booked.still ⟨rfl,rfl⟩)
  refine .bind (.check _ _) fun _ => .bind (.observe _) fun _ => .bind (filesStorage files _) fun _ =>
    .bind (filesStorage files _) fun _ => .bind (.attempt record) fun result => ?_
  cases result with
  | ok _ => exact .pure _
  | error e => exact .bind (.ignore (filesStorage files _)) fun _ => .fail _

theorem deleteBooks {call key versionID bypass} (asked : e = ⟨call,.delete key bypass versionID⟩) :
    Booking node bucket s e (deleteObject node call bucket key bypass versionID s).2 := by
  subst asked
  have idle {s'} same : Booking node bucket s ⟨call,.delete key bypass versionID⟩ s' := .idle (Booked.still same)
  refine wpState ?_
  rw [deleteObject,wpBind,wpCheck]
  refine ⟨fun _ => ?_,fun _ => idle ⟨rfl,rfl⟩⟩
  rw [wpBind,wpGets,wpBind,wpGets,wpIte]
  refine ⟨fun version => ?_,fun current => ?_⟩
  · rw [wpBind]
    refine wpMono versionBooked (fun _ s' dropped => ?_) (fun _ _ same => idle same)
    obtain ⟨_,_,_,able,booked⟩ := dropped
    exact .drop rfl version able booked
  · cases of_not_not current
    rw [wpIte]
    refine ⟨fun on => ?_,fun off => ?_⟩
    · refine wpMono markerBooked (fun versionID s' marked => ?_) (fun _ _ same => idle same)
      exact .marker rfl on marked.1 marked.2
    rw [wpBind]
    refine wpMono permanentBooked (fun _ s' erased => ?_) (fun _ _ same => idle same)
    rcases erased with ⟨_,same⟩ | ⟨_,found,booked⟩
    · exact idle same
    · exact .erase rfl (by simpa using off) found booked

theorem performBooks (own : ownUpload bucket s e.request = true) (counted : Counted e.request) :
    Booking node bucket s e (perform node bucket s e) := by
  obtain ⟨call,request⟩ := e
  cases request with
  | put key data headers =>
    refine wpState ?_
    refine wpMono putBooked (fun obj s' put => ?_) (fun _ _ same => .idle (Booked.still same))
    obtain ⟨written,chosen,shape⟩ := put
    have origin : Origin node bucket s ⟨call,.put key data headers⟩ obj := ⟨chosen,shape⟩
    exact .write origin written
  | delete key bypass versionID => exact deleteBooks rfl
  | createUpload uploadID key headers => exact .idle idleUpload
  | uploadPart uploadID partNumber data => exact .idle idlePart
  | complete uploadID parts =>
    refine wpState ?_
    refine wpMono (completeBooked node call uploadID parts s) (fun obj s' completed => ?_) (fun _ _ same => .idle (Booked.still same))
    obtain ⟨upload,etag,modified,found,present,shape,written⟩ := completed
    have home : upload.bucket = bucket := by
      have valid : upload.bucket = bucket ∧ validateObjectName upload.key = true := by simpa [ownUpload,found] using own
      exact valid.1
    rw [home] at shape written
    have origin : Origin node bucket s ⟨call,.complete uploadID parts⟩ obj := ⟨upload,etag,modified,found,home,present,shape⟩
    exact .write origin written
  | setRetention | setLegalHold | setTagging | setACL | setRestore | updateMetadata => exact counted.elim

end

theorem versionMarked (W : Weighing) (obj : ObjectMetadata) : W.version (marked obj) = W.version obj := by
  rw [← W.demote (marked obj),← W.demote obj]
  rfl

section
variable {sorting : VersionSort} {bucket key v : Bytes} {now : Int} {bypass : Bool} {db mid : Database} {target : ObjectVersion}
  {old : ObjectMetadata}

structure Dropped (bucket key v : Bytes) (db mid : Database) (old : ObjectMetadata) : Prop where
  home : bucket ≠ []
  named : key ≠ []
  stored : (view bucket db key).versions v = some old
  found : db.versions.get (objectVersionKey bucket key v) = some old
  filed : Filed bucket mid
  removed : view bucket mid key = (view bucket db key).remove v
  objects : mid.objects = db.objects
  records : ∀ W : Weighing, W.Covers bucket → W.total mid = W.total db - W.version old

theorem droppedVersion (filed : Filed bucket db) (able : Droppable sorting bucket key v now bypass db mid target old) :
    target = versionOf old ∧ Dropped bucket key v db mid old := by
  obtain ⟨home,named,_⟩ := readRecord able.read
  obtain ⟨obj,stored,rfl⟩ := (memVersions filed).mp (List.mem_of_find?_eq_some able.listed)
  have id : (versionOf obj).versionID = v := by simpa using List.find?_some able.listed
  change obj.versionID = v at id
  rw [id] at stored
  cases ((readable filed home stored).symm.trans able.read)
  have found := (versionsInIff.mp stored).1
  refine ⟨rfl,home,named,stored,found,(deleteObjectVersionView filed stored able.done).1,removedView filed stored able.done,?_,?_⟩
  · have done := able.done
    unfold Database.deleteObjectVersion at done
    rw [found] at done
    cases done
    rfl
  · intro W covers
    rw [totalDrop covers able.done,standing,found]
    rfl

inductive Promoted (sorting : VersionSort) (bucket key v : Bytes) (db : Database) : Option ObjectMetadata → Prop
  | none (alone : db.getObjectVersions sorting bucket key = []) : Promoted sorting bucket key v db none
  | some {next} (stored : (view bucket db key).versions next.versionID = some next)
      (chosen : nextLatest v (db.getObjectVersions sorting bucket key) = some (versionOf next)) : Promoted sorting bucket key v db (some next)

theorem promotionTotal (sorting : VersionSort) (filed : Filed bucket db) (home : bucket ≠ []) (named : key ≠ [])
    (gone : (view bucket db key).versions v = none) : ∃ next, Promoted sorting bucket key v db next ∧
      ∀ W : Weighing, W.Covers bucket → W.total (promotion sorting bucket key v db) =
        W.total db - W.current db bucket key + (next.map fun obj => W.object (marked obj)).getD 0 := by
  unfold promotion
  by_cases empty : db.getObjectVersions sorting bucket key = []
  · rw [if_pos empty]
    refine ⟨none,.none empty,fun W covers => ?_⟩
    rw [Option.map_none,Option.getD_none,Int.add_zero]
    cases done : db.deleteObject bucket key with
    | ok db' => exact totalErase covers done
    | error e =>
      simp [current,deleteObjectAbsent home named done]
  · rw [if_neg empty]
    obtain ⟨obj,stored,chosen⟩ := nextLatestStored filed gone empty
    have read : db.getObject bucket key (versionOf obj).versionID = .ok obj := readable filed home stored
    obtain ⟨found,keyed⟩ := versionsInIff.mp stored
    obtain ⟨_,_,identified⟩ := filed.versions.at found keyed
    rw [chosen]
    dsimp only
    rw [read]
    dsimp only
    refine ⟨some obj,.some stored chosen,fun W covers => ?_⟩
    cases done : db.putObjectVersion obj { versionOf obj with isLatest := true } with
    | ok db' =>
      have own : W.Covers obj.bucket := identified.bucket ▸ covers
      have standing : W.standing db obj.bucket obj.key obj.versionID = W.version obj := by
        rw [standing,identified.bucket,keyed,found]
        rfl
      have record : versioned obj { versionOf obj with isLatest := true } = marked obj := rfl
      have after := totalPutVersion own rfl done
      rw [record,versionMarked] at after
      change W.total db' = _ - W.current db obj.bucket obj.key - W.standing db obj.bucket obj.key obj.versionID + _ + _ at after
      rw [standing,identified.bucket,keyed] at after
      change W.total db' = _ + W.object (marked obj)
      omega
    | error e =>
      unfold Database.putObjectVersion Database.rejectsWrite at done
      rw [identified.bucket,if_neg (by simpa using filed.open_)] at done
      contradiction

end

/-! Records that no call makes: a flaw weighs something, and what is written weighs nothing. -/

structure Flaw extends Weighing where
  objectHeavy : ∀ obj, 0 ≤ object obj
  versionHeavy : ∀ obj, 0 ≤ version obj
  carried : ∀ obj, version obj = 0 → object (marked obj) = 0

namespace Flaw

def Spares (F : Flaw) (enabled : Bool) (obj : ObjectMetadata) : Prop :=
  if enabled then F.object (marked obj) = 0 ∧ F.version obj = 0 else F.object obj = 0

section
variable (F : Flaw) (db : Database)

theorem objectsNonneg : ∀ q obj, db.objects.get q = some obj → 0 ≤ F.objectWeight q obj := by
  intro q obj _
  unfold objectWeight
  split
  · exact F.objectHeavy obj
  · exact Int.le_refl 0

theorem versionsNonneg : ∀ q obj, db.versions.get q = some obj → 0 ≤ F.versionWeight q obj := by
  intro q obj _
  unfold versionWeight
  split
  · exact F.versionHeavy obj
  · exact Int.le_refl 0

theorem nonneg : 0 ≤ F.total db := Int.add_nonneg (totalNonneg (F.objectsNonneg db)) (totalNonneg (F.versionsNonneg db))

theorem currentNonneg (bucket key : Bytes) : 0 ≤ F.current db bucket key := by
  unfold current
  cases db.objects.get (objectKey bucket key) with
  | none => exact Int.le_refl 0
  | some obj => exact F.objectHeavy obj

theorem standingNonneg (bucket key v : Bytes) : 0 ≤ F.standing db bucket key v := by
  unfold standing
  cases db.versions.get (objectVersionKey bucket key v) with
  | none => exact Int.le_refl 0
  | some obj => exact F.versionHeavy obj

end

section
variable {F : Flaw} {db : Database} {bucket key v : Bytes} {obj : ObjectMetadata}

section
variable (free : F.total db = 0)
include free

theorem objectFree {q} (found : db.objects.get q = some obj) (inside : ascii "obj:" ++ F.front <+: q) : F.object obj = 0 := by
  have here := weightLe (F.objectsNonneg db) q
  have rest := totalNonneg (F.versionsNonneg db)
  have heavy := F.objectHeavy obj
  have weight : F.objectWeight q obj = F.object obj := if_pos inside
  rw [found,weightOf,Option.map_some,Option.getD_some,weight] at here
  unfold total at free
  omega

theorem versionFree {q} (found : db.versions.get q = some obj) (inside : ascii "version:" ++ F.front <+: q) : F.version obj = 0 := by
  have here := weightLe (F.versionsNonneg db) q
  have rest := totalNonneg (F.objectsNonneg db)
  have heavy := F.versionHeavy obj
  have weight : F.versionWeight q obj = F.version obj := if_pos inside
  rw [found,weightOf,Option.map_some,Option.getD_some,weight] at here
  unfold total at free
  omega

theorem objectSpared (covers : F.Covers bucket) (found : db.objects.get (objectKey bucket key) = some obj) : F.object obj = 0 := by
  refine objectFree free found ?_
  obtain ⟨rest,shape⟩ := covers
  exact ⟨rest ++ key,by simp [objectKey,← shape]⟩

theorem versionSpared (covers : F.Covers bucket) (found : db.versions.get (objectVersionKey bucket key v) = some obj) : F.version obj = 0 := by
  refine versionFree free found ?_
  obtain ⟨rest,shape⟩ := covers
  exact ⟨rest ++ key ++ colon ++ v,by simp [objectVersionKey,versionPrefix,← shape]⟩

end

theorem gainSpared {enabled} (spares : F.Spares enabled obj) : F.gain enabled db obj ≤ 0 := by
  have current := F.currentNonneg db obj.bucket obj.key
  have standing := F.standingNonneg db obj.bucket obj.key obj.versionID
  unfold gain
  unfold Spares at spares
  split
  · rename_i on
    rw [if_pos on] at spares
    rw [versionMarked]
    omega
  · rename_i off
    rw [if_neg off] at spares
    omega

end

end Flaw

section
variable {node : Node} {bucket : Bytes} {s s' : State} {e : Event}

theorem originShape {obj} (origin : Origin node bucket s e obj) : obj.bucket = bucket ∧ 0 ≤ obj.size := by
  obtain ⟨_,request⟩ := e
  cases request with
  | put key data headers =>
    obtain ⟨_,_,_,shape⟩ := origin
    rw [shape]
    exact ⟨rfl,Int.natCast_nonneg data.length⟩
  | complete uploadID parts =>
    obtain ⟨_,_,_,_,home,_,shape⟩ := origin
    rw [shape]
    exact ⟨home,recordedNonneg _⟩
  | _ => exact origin.elim

theorem bookingFlawless {F : Flaw} (covers : F.Covers bucket) (filed : Filed bucket s.db) (free : F.total s.db = 0)
    (booking : Booking node bucket s e s')
    (writes : ∀ obj, Origin node bucket s e obj → F.Spares (isBucketVersioningEnabled s bucket) (toMetadataObject obj))
    (markers : ∀ key versionID, isBucketVersioningEnabled s bucket = true → chooseVersion e.call true = .ok versionID →
      F.Spares true (deleteMarkerObject e.call.now bucket key versionID)) : F.total s'.db = 0 := by
  have heavy := F.nonneg s'.db
  cases booking with
  | idle booked =>
    have after : F.total s'.db = F.total s.db + 0 := booked.records _ covers
    omega
  | @write obj origin written =>
    have home : F.Covers obj.bucket := (originShape origin).1.symm ▸ covers
    have after : F.total s'.db = F.total s.db + F.gain _ s.db (toMetadataObject obj) := written.records _ home
    have less : F.gain _ s.db _ ≤ 0 := F.gainSpared (writes obj origin)
    omega
  | @erase key bypass obj asked off found booked =>
    have after : F.total s'.db = F.total s.db + -F.current s.db bucket (resolveFolderDeleteKey s bucket key) := booked.records _ covers
    have less := F.currentNonneg s.db bucket (resolveFolderDeleteKey s bucket key)
    omega
  | @marker key bypass versionID asked on chosen booked =>
    have after : F.total s'.db = F.total s.db + F.gain true s.db _ := booked.records _ covers
    have less : F.gain _ s.db _ ≤ 0 := F.gainSpared (markers (resolveFolderDeleteKey s bucket key) versionID on chosen)
    omega
  | @drop key bypass v mid target old asked version able booked =>
    obtain ⟨_,dropped⟩ := droppedVersion filed able
    have after := booked.records _ covers
    have light : F.total mid = 0 := by
      have removed := dropped.records _ covers
      have weight := F.versionHeavy old
      have rest := F.nonneg mid
      omega
    have promoted : F.total (promotion node.sorting bucket (resolveFolderDeleteKey s bucket key) v mid) ≤ 0 := by
      obtain ⟨next,chosen,total⟩ := promotionTotal node.sorting dropped.filed dropped.home dropped.named
        (v := v) (by rw [dropped.removed]; simp [Ledger.History.remove])
      have current := F.currentNonneg mid bucket (resolveFolderDeleteKey s bucket key)
      rw [total _ covers]
      cases chosen with
      | none =>
        rw [Option.map_none,Option.getD_none]
        omega
      | @some next stored chosen =>
        have spared := F.carried next (F.versionSpared light covers (versionsInIff.mp stored).1)
        rw [Option.map_some,Option.getD_some]
        omega
    split at after <;> omega

end

/-! The bytes that are stored: those of every version, and of every record without one. -/

def bytes (front : Bytes) : Weighing where
  front := front
  object obj := if obj.versionID = [] then obj.size else 0
  version := size
  stamp _ _ := rfl
  demote _ := rfl
  folder _ _ _ := rfl

theorem indicatorNonneg (p : Prop) [Decidable p] : (0 : Int) ≤ if p then 1 else 0 := by
  split <;> decide

def irregular (front : Bytes) (enabled : Bytes → Bool) : Flaw where
  front := front
  object obj := if obj.size < 0 ∨ (if enabled obj.bucket then obj.versionID = [] ∧ obj.size ≠ 0 else obj.versionID ≠ []) then 1 else 0
  version obj := if obj.size < 0 ∨ obj.versionID = [] ∨ enabled obj.bucket = false then 1 else 0
  stamp _ _ := rfl
  demote _ := rfl
  folder now bucket key := by
    refine if_neg ?_
    change ¬ ((0 : Int) < 0 ∨ if enabled bucket then ([] : Bytes) = [] ∧ (0 : Int) ≠ 0 else ([] : Bytes) ≠ [])
    split <;> simp
  objectHeavy _ := indicatorNonneg _
  versionHeavy _ := indicatorNonneg _
  carried obj none_ := by
    have fine : ¬ (obj.size < 0 ∨ obj.versionID = [] ∨ enabled obj.bucket = false) := fun bad => by simp [bad] at none_
    refine if_neg ?_
    change ¬ (obj.size < 0 ∨ if enabled obj.bucket then obj.versionID = [] ∧ obj.size ≠ 0 else obj.versionID ≠ [])
    simp only [not_or] at fine
    simp [fine]

def Regular (front : Bytes) (enabled : Bytes → Bool) (db : Database) : Prop := (irregular front enabled).total db = 0

section
variable {node : Node} {front bucket key v : Bytes} {enabled : Bytes → Bool} {s s' : State} {e : Event} {obj : ObjectMetadata}

theorem bytesNonneg {db} (regular : Regular front enabled db) : 0 ≤ (bytes front).total db := by
  have sized (obj : ObjectMetadata) {p} [Decidable p] (spared : (if obj.size < 0 ∨ p then 1 else 0 : Int) = 0) : 0 ≤ obj.size := by
    omega
  refine Int.add_nonneg (totalNonneg fun q obj found => ?_) (totalNonneg fun q obj found => ?_)
  · unfold objectWeight
    split
    · rename_i inside
      have size := sized obj (Flaw.objectFree regular found inside)
      change 0 ≤ if obj.versionID = [] then obj.size else 0
      split <;> omega
    · exact Int.le_refl 0
  · unfold versionWeight
    split
    · rename_i inside
      exact sized obj (Flaw.versionFree regular found inside)
    · exact Int.le_refl 0

theorem storedCurrent (filed : Filed bucket s.db) (home : bucket ≠ []) (key : Bytes) :
    stored s bucket key = s.db.objects.get (objectKey bucket key) := by
  unfold stored
  cases read : s.db.getObject bucket key [] with
  | ok obj => exact (readCurrent filed read).symm
  | error e =>
    cases found : s.db.objects.get (objectKey bucket key) with
    | none => rfl
    | some obj =>
      have named : key ≠ [] := by
        obtain ⟨identified,address⟩ := filed.objects _ _ found (inObjectSpace ..)
        exact objectKeyInj address ▸ identified.key
      unfold Database.getObject Database.record at read
      rw [if_neg (by simp [home,named]),found] at read
      contradiction

theorem originVersion {object} (origin : Origin node bucket s e object) : isBucketVersioningEnabled s bucket = true ↔ object.versionID ≠ [] := by
  obtain ⟨call,request⟩ := e
  cases request with
  | put key data headers =>
    obtain ⟨chosen,_⟩ := origin
    cases mode : isBucketVersioningEnabled s bucket with
    | true =>
      rw [mode] at chosen
      exact iff_of_true rfl (chosenSegment chosen).2
    | false =>
      rw [mode] at chosen
      exact iff_of_false Bool.false_ne_true (not_not.mpr (Except.ok.inj chosen).symm)
  | complete uploadID parts =>
    obtain ⟨_,_,_,_,_,_,rfl⟩ := origin
    cases isBucketVersioningEnabled s bucket with
    | true => exact iff_of_true rfl (generatedPresent call)
    | false => exact iff_of_false Bool.false_ne_true (not_not.mpr rfl)
  | _ => exact origin.elim

section
variable (covers : front <+: bucket ++ colon)
include covers

theorem regularBooking (mode : enabled bucket = isBucketVersioningEnabled s bucket) (filed : Filed bucket s.db)
    (regular : Regular front enabled s.db) (booking : Booking node bucket s e s') : Regular front enabled s'.db := by
  refine bookingFlawless covers filed regular booking (fun object origin => ?_) (fun key versionID on chosen => ?_)
  · obtain ⟨home,size⟩ := originShape origin
    have version := originVersion origin
    unfold Flaw.Spares irregular
    dsimp only [marked,toMetadataObject]
    rw [home]
    cases on : isBucketVersioningEnabled s bucket with
    | true => simp_all
    | false => simp_all
  · have version := (chosenSegment chosen).2
    unfold Flaw.Spares irregular
    dsimp only [marked,deleteMarkerObject,folderObject]
    simp [mode,on,version]

section
variable (filed : Filed bucket s.db) (regular : Regular front enabled s.db)
include filed regular

theorem regularObject (found : s.db.objects.get (objectKey bucket key) = some obj) :
    0 ≤ obj.size ∧ if enabled bucket then obj.versionID = [] → obj.size = 0 else obj.versionID = [] := by
  have spared := Flaw.objectSpared regular covers found
  have home := (filed.objects _ _ found (inObjectSpace ..)).1.bucket
  have fine : ¬ (obj.size < 0 ∨ (if enabled obj.bucket then obj.versionID = [] ∧ obj.size ≠ 0 else obj.versionID ≠ [])) := fun bad => by
    simp only [irregular,if_pos bad] at spared
    omega
  rw [home] at fine
  generalize enabled bucket = on at fine ⊢
  cases on <;> simpa using fine

theorem regularVersion (found : s.db.versions.get (objectVersionKey bucket key v) = some obj) : 0 ≤ obj.size ∧ enabled bucket = true := by
  have spared := Flaw.versionSpared regular covers found
  have home := (filed.versions _ _ found (inVersionSpace ..)).1.bucket
  have fine : ¬ (obj.size < 0 ∨ obj.versionID = [] ∨ enabled obj.bucket = false) := fun bad => by
    simp only [irregular,if_pos bad] at spared
    omega
  rw [home] at fine
  simp_all

end

end

end

def storedBytes (db : Database) (front : Bytes) : Int :=
  ((db.versions.scan (ascii "version:" ++ front)).map (fun e => e.2.size)).sum +
    (((db.objects.scan (ascii "obj:" ++ front)).filter (fun e => decide (e.2.versionID = []))).map (fun e => e.2.size)).sum

theorem bytesTotal (front : Bytes) (db : Database) : (bytes front).total db = storedBytes db front := by
  have versions := totalScan (ascii "version:" ++ front) size db.versions
  have objects := totalScan (ascii "obj:" ++ front) (fun obj => if obj.versionID = [] then obj.size else 0) db.objects
  have plain := sumFilter (fun e : Bytes × ObjectMetadata => decide (e.2.versionID = [])) (fun e => e.2.size)
  simp only [decide_eq_true_eq] at plain
  unfold storedBytes
  rw [← versions,← plain,← objects,Int.add_comm]
  rfl

def replaced (s : State) (on : Bool) (obj : ObjectMetadata) : Int :=
  if on then ((s.db.versions.get (objectVersionKey obj.bucket obj.key obj.versionID)).map size).getD 0
  else ((stored s obj.bucket obj.key).map size).getD 0

section
variable {node : Node} {front bucket key v : Bytes} {enabled : Bytes → Bool} {s : State} {e : Event}

section
variable (covers : front <+: bucket ++ colon) (filed : Filed bucket s.db) (home : bucket ≠ []) (regular : Regular front enabled s.db)
include covers filed home regular

theorem currentBytes (key : Bytes) : (bytes front).current s.db bucket key =
    if enabled bucket then 0 else ((stored s bucket key).map size).getD 0 := by
  rw [storedCurrent filed home,current]
  cases found : s.db.objects.get (objectKey bucket key) with
  | none => simp
  | some obj =>
    have fine := (regularObject covers filed regular found).2
    rw [Option.map_some,Option.getD_some,Option.map_some,Option.getD_some]
    change (if obj.versionID = [] then obj.size else 0) = _
    cases on : enabled bucket with
    | true =>
      rw [on] at fine
      split
      · rename_i plain
        exact fine plain
      · rfl
    | false =>
      rw [on,if_neg Bool.false_ne_true] at fine
      rw [if_neg Bool.false_ne_true,if_pos fine]

theorem bytesGain {obj} (own : obj.bucket = bucket) (version : enabled bucket = true ↔ obj.versionID ≠ []) :
    (bytes front).gain (enabled bucket) s.db obj = obj.size - replaced s (enabled bucket) obj := by
  subst own
  have current := currentBytes covers filed home regular obj.key
  unfold gain replaced
  rw [current]
  cases on : enabled obj.bucket with
  | true =>
    have weightless : (bytes front).object (marked obj) = 0 := if_neg (version.mp on)
    rw [if_pos rfl,if_pos rfl,if_pos rfl,weightless]
    change 0 + obj.size - 0 - ((s.db.versions.get (objectVersionKey obj.bucket obj.key obj.versionID)).map size).getD 0 = _
    omega
  | false =>
    have plain : obj.versionID = [] := by
      by_contra named
      exact absurd (version.mpr named) (by simp [on])
    have whole : (bytes front).object obj = obj.size := if_pos plain
    rw [if_neg Bool.false_ne_true,if_neg Bool.false_ne_true,if_neg Bool.false_ne_true,whole]

end

theorem bytesPromotion {mid old} (sorting : VersionSort) (covers : front <+: bucket ++ colon)
    (filed : Filed bucket s.db) (regular : Regular front enabled s.db) (dropped : Dropped bucket key v s.db mid old) :
    (bytes front).total (promotion sorting bucket key v mid) = (bytes front).total s.db - old.size := by
  have on : enabled bucket = true := (regularVersion covers filed regular dropped.found).2
  have current : (bytes front).current mid bucket key = 0 := by
    unfold current
    rw [dropped.objects]
    cases found : s.db.objects.get (objectKey bucket key) with
    | none => rfl
    | some obj =>
      have fine := (regularObject covers filed regular found).2
      rw [on] at fine
      change (if obj.versionID = [] then obj.size else 0) = 0
      split
      · rename_i plain
        exact fine plain
      · rfl
  obtain ⟨next,chosen,total⟩ := promotionTotal sorting dropped.filed dropped.home dropped.named
    (v := v) (by rw [dropped.removed]; simp [Ledger.History.remove])
  have removed : (bytes front).total mid = (bytes front).total s.db - old.size := dropped.records (bytes front) covers
  rw [total (bytes front) covers,current,removed]
  cases chosen with
  | none => simp
  | @some next stored chosen =>
    obtain ⟨found,named⟩ := versionsInIff.mp stored
    have weightless : (bytes front).object (marked next) = 0 := if_neg (dropped.filed.versions.at found named).2.1
    rw [Option.map_some,Option.getD_some,weightless]
    omega

end

end MaxIOFS.Inventory
