import MaxIOFS.Ledger
import MaxIOFS.RecordChanges

/-! The records of one key of a bucket as a ledger, and the changes of the calls as the
ledger's operations. Records are filed under their own names; a version identifier has no
colon, so no two versions share a key of the store. -/
namespace MaxIOFS.VersionHistory
open ByteString (Bytes ascii)
open Ledger MetadataStore Records ObjectManager List OrderedStore Function Store
variable {deleted : Bytes} {versions : List ObjectVersion} {obj : ObjectMetadata}

def shape : Shape Bytes ObjectMetadata where
  id obj := if obj.versionID = [] then none else some obj.versionID
  latest := ObjectMetadata.isLatest
  unmark := demoted
  unmarkId _ := rfl
  unmarkLatest _ := rfl

@[simp] theorem demotedKey (obj : ObjectMetadata) : (demoted obj).key = obj.key := rfl

theorem shapeId (version : obj.versionID ≠ []) : shape.id obj = some obj.versionID := if_neg version

theorem shapeNone (plain : obj.versionID = []) : shape.id obj = none := if_pos plain

theorem shapeIdIff {v} : shape.id obj = some v ↔ obj.versionID ≠ [] ∧ obj.versionID = v := by
  unfold shape
  dsimp only
  split <;> simp_all

abbrev VersionStore := Store Bytes ObjectMetadata

def versionsIn (bucket : Bytes) (m : VersionStore) (key v : Bytes) : Option ObjectMetadata :=
  (m.get (objectVersionKey bucket key v)).filter (fun obj => decide (obj.key = key))

def view (bucket : Bytes) (db : Database) (key : Bytes) : History Bytes ObjectMetadata where
  current := db.objects.get (objectKey bucket key)
  versions := versionsIn bucket db.versions key

theorem versionsInIff {bucket key v m} : versionsIn bucket m key v = some obj ↔ m.get (objectVersionKey bucket key v) = some obj ∧
    obj.key = key := by
  simp [versionsIn]

def versionSpace (bucket : Bytes) : Bytes := ascii "version:" ++ bucket ++ colon
def objectSpace (bucket : Bytes) : Bytes := ascii "obj:" ++ bucket ++ colon

structure Identified (bucket : Bytes) (obj : ObjectMetadata) : Prop where
  bucket : obj.bucket = bucket
  key : obj.key ≠ []
  plain : (58 : UInt8) ∉ obj.versionID

def FiledVersions (bucket : Bytes) (m : VersionStore) : Prop :=
  ∀ q obj, m.get q = some obj → versionSpace bucket <+: q → Identified bucket obj ∧ obj.versionID ≠ [] ∧
    q = objectVersionKey bucket obj.key obj.versionID

structure Filed (bucket : Bytes) (db : Database) : Prop where
  versions : FiledVersions bucket db.versions
  objects : ∀ q obj, db.objects.get q = some obj → objectSpace bucket <+: q → Identified bucket obj ∧ q = objectKey bucket obj.key
  open_ : bucket ∉ db.deletedBuckets

section
variable {bucket key key' v v' : Bytes}

theorem inVersionSpace (bucket key v : Bytes) : versionSpace bucket <+: objectVersionKey bucket key v :=
  ⟨key ++ colon ++ v,by simp [versionSpace,objectVersionKey,versionPrefix]⟩

theorem inObjectSpace {bucket key} : objectSpace bucket <+: objectKey bucket key := ⟨key,by simp [objectSpace,objectKey]⟩

theorem objectKeyInj (same : objectKey bucket key = objectKey bucket key') : key = key' := by
  simpa [objectKey] using same

theorem objectVersionKeyInj (same : objectVersionKey bucket key v = objectVersionKey bucket key' v')
    (free : (58 : UInt8) ∉ v) (free' : (58 : UInt8) ∉ v') : key = key' ∧ v = v' := by
  have tails : key ++ 58 :: v = key' ++ 58 :: v' := by
    simpa [objectVersionKey,versionPrefix,colon,ascii] using same
  exact ByteString.lastSeparator tails free free'

theorem sameKeyInj (same : objectVersionKey bucket key v = objectVersionKey bucket key v') : v = v' := by
  simpa [objectVersionKey] using same

theorem prefixOfVersionKey (bucket key v : Bytes) : versionPrefix bucket key <+: objectVersionKey bucket key v := ⟨v,rfl⟩

theorem versionPrefixSpace (bucket key : Bytes) : versionSpace bucket <+: versionPrefix bucket key :=
  ⟨key ++ colon,by simp [versionSpace,versionPrefix]⟩

end

section
variable {bucket} {m}

section
variable (filed : FiledVersions bucket m)
include filed

theorem FiledVersions.at {key v obj} (found : m.get (objectVersionKey bucket key v) = some obj) (named : obj.key = key) :
    obj.versionID = v ∧ v ≠ [] ∧ Identified bucket obj := by
  obtain ⟨identified,version,address⟩ := filed _ _ found (inVersionSpace ..)
  subst named
  have same := sameKeyInj address
  exact ⟨same.symm,same ▸ version,identified⟩

theorem FiledVersions.apart {key v other w obj} (found : m.get (objectVersionKey bucket key v) = some obj) (free : (58 : UInt8) ∉ v)
    (address : objectVersionKey bucket other w = objectVersionKey bucket key v) (different : other ≠ key) :
    versionsIn bucket m other w = none := by
  unfold versionsIn
  rw [address,found,Option.filter_some,if_neg]
  intro named
  obtain ⟨identified,_,own⟩ := filed _ _ found (inVersionSpace ..)
  have back := (objectVersionKeyInj own free identified.plain).1
  exact different ((of_decide_eq_true named).symm.trans back.symm)

theorem filedSet {obj} (identified : Identified bucket obj)
    (version : obj.versionID ≠ []) : FiledVersions bucket (m.set (objectVersionKey bucket obj.key obj.versionID) obj) := by
  intro q e found inside
  rw [getSet] at found
  split at found
  · rename_i here
    cases found
    exact ⟨identified,version,here.symm⟩
  · exact filed q e found inside

theorem filedDelete (q : Bytes) : FiledVersions bucket (m.delete q) := by
  intro p e found inside
  rw [getDelete] at found
  split at found <;> try contradiction
  exact filed p e found inside

theorem versionsInSet {obj} (identified : Identified bucket obj) (key : Bytes) :
    versionsIn bucket (m.set (objectVersionKey bucket obj.key obj.versionID) obj) key =
      if key = obj.key then update (versionsIn bucket m key) obj.versionID (some obj) else versionsIn bucket m key := by
  funext v
  unfold versionsIn
  rw [getSet]
  by_cases mine : key = obj.key
  · subst mine
    rw [if_pos rfl]
    by_cases here : v = obj.versionID
    · subst here
      simp
    · have other : objectVersionKey bucket obj.key obj.versionID ≠ objectVersionKey bucket obj.key v := fun same => here (sameKeyInj same).symm
      rw [if_neg other,update_of_ne here]
  · rw [if_neg mine]
    split
    · rename_i address
      rw [Option.filter_some,if_neg (by simpa using Ne.symm mine)]
      cases found : m.get (objectVersionKey bucket key v) with
      | none => rfl
      | some e =>
        rw [← address] at found
        have gone := filed.apart found identified.plain address.symm mine
        unfold versionsIn at gone
        rw [← address,found] at gone
        exact gone.symm
    · rfl

theorem versionsInDelete {key v obj} (found : m.get (objectVersionKey bucket key v) = some obj) (free : (58 : UInt8) ∉ v) (other : Bytes) :
    versionsIn bucket (m.delete (objectVersionKey bucket key v)) other =
      if other = key then update (versionsIn bucket m other) v none else versionsIn bucket m other := by
  funext w
  by_cases mine : other = key
  · subst mine
    rw [if_pos rfl]
    unfold versionsIn
    rw [getDelete]
    by_cases here : w = v
    · subst here
      simp
    · have apart : objectVersionKey bucket other v ≠ objectVersionKey bucket other w := fun same => here (sameKeyInj same).symm
      rw [if_neg apart,update_of_ne here]
  · rw [if_neg mine]
    by_cases address : objectVersionKey bucket key v = objectVersionKey bucket other w
    · rw [filed.apart found free address.symm mine]
      unfold versionsIn
      rw [getDelete,if_pos address]
      rfl
    · unfold versionsIn
      rw [getDelete,if_neg address]

end

end

section
variable {bucket : Bytes} {db db' : Database}

theorem Filed.named (filed : Filed bucket db) (key : Bytes) : (view bucket db key).Named shape := by
  intro v obj found
  obtain ⟨stored,named⟩ := versionsInIff.mp found
  obtain ⟨same,version,_⟩ := filed.versions.at stored named
  exact shapeIdIff.mpr ⟨same ▸ version,same⟩

theorem Filed.current {key obj} (filed : Filed bucket db) (found : (view bucket db key).current = some obj) : obj.key = key ∧
    Identified bucket obj := by
  obtain ⟨identified,address⟩ := filed.objects _ _ found (inObjectSpace ..)
  exact ⟨(objectKeyInj address).symm,identified⟩

theorem scanned {key q obj} (filed : Filed bucket db) : ((q, obj) ∈ db.versions.scan (versionPrefix bucket key) ∧ obj.key = key) ↔
      ((view bucket db key).versions obj.versionID = some obj ∧ q = objectVersionKey bucket key obj.versionID) := by
  rw [memScan]
  change _ ↔ versionsIn bucket db.versions key obj.versionID = some obj ∧ _
  rw [versionsInIff]
  constructor
  · intro ⟨⟨stored,inside⟩,named⟩
    obtain ⟨_,_,address⟩ := filed.versions q obj stored ((versionPrefixSpace bucket key).trans inside)
    rw [named] at address
    exact ⟨⟨address ▸ stored,named⟩,address⟩
  · intro ⟨⟨stored,named⟩,address⟩
    subst address
    exact ⟨⟨stored,prefixOfVersionKey ..⟩,named⟩

theorem demotionKeys (db : Database) (bucket key : Bytes) : ((db.demotions bucket key).map Prod.fst).Nodup := by
  have keys := rangeKeysNodup db.versions (versionPrefix bucket key) (prefixEnd (versionPrefix bucket key))
  unfold Database.demotions
  rw [map_map]
  exact List.Nodup.sublist ((filter_sublist).map _) keys

theorem getDemoted (filed : Filed bucket db) (key q : Bytes) (inside : versionSpace bucket <+: q) :
    (db.versions.setAll (db.demotions bucket key)).get q =
      (db.versions.get q).map (fun obj => if obj.key = key then demoted obj else obj) := by
  by_cases hit : ∃ e ∈ db.demotions bucket key, e.1 = q
  · obtain ⟨e,mem,rfl⟩ := hit
    rw [getSetAll (demotionKeys db bucket key) mem]
    obtain ⟨f,picked,rfl⟩ := mem_map.mp mem
    obtain ⟨listed,marked⟩ := mem_filter.mp picked
    have stored := (memScan.mp listed).1
    have named : f.2.key = key := (of_decide_eq_true marked).1
    simp [stored,named]
  · have absent : ∀ e ∈ db.demotions bucket key, e.1 ≠ q := fun e mem same => hit ⟨e,mem,same⟩
    rw [getSetAllOther absent]
    cases stored : db.versions.get q with
    | none => rfl
    | some obj =>
      simp only [Option.map_some]
      split
      · rename_i named
        have older : obj.isLatest = false := by
          rw [← Bool.not_eq_true]
          intro latest
          obtain ⟨_,_,address⟩ := filed.versions q obj stored inside
          have listed : (q, obj) ∈ db.versions.scan (versionPrefix bucket key) :=
            memScan.mpr ⟨stored,by rw [address,named]; exact prefixOfVersionKey ..⟩
          refine hit ⟨(q, demoted obj),mem_map.mpr ⟨(q, obj),mem_filter.mpr ⟨listed,?_⟩,rfl⟩,rfl⟩
          simp [named,latest]
        cases obj
        simp_all [demoted]
      · rfl

theorem filedDemoted (filed : Filed bucket db) (key : Bytes) : FiledVersions bucket (db.versions.setAll (db.demotions bucket key)) := by
  intro q e found inside
  rw [getDemoted filed key q inside] at found
  obtain ⟨obj,stored,same⟩ := Option.map_eq_some_iff.mp found
  obtain ⟨identified,version,address⟩ := filed.versions q obj stored inside
  split at same <;> cases same
  · exact ⟨⟨identified.bucket,identified.key,identified.plain⟩,version,address⟩
  · exact ⟨identified,version,address⟩

theorem versionsInDemoted (filed : Filed bucket db) (key other : Bytes) : versionsIn bucket (db.versions.setAll (db.demotions bucket key)) other =
      if other = key then fun v => (versionsIn bucket db.versions other v).map demoted else versionsIn bucket db.versions other := by
  funext v
  unfold versionsIn
  rw [getDemoted filed key _ (inVersionSpace ..)]
  by_cases mine : other = key
  · subst mine
    rw [if_pos rfl]
    cases db.versions.get (objectVersionKey bucket other v) with
    | none => rfl
    | some obj => by_cases named : obj.key = other <;> simp [Option.filter_some,named]
  · rw [if_neg mine]
    cases db.versions.get (objectVersionKey bucket other v) with
    | none => rfl
    | some obj =>
      by_cases named : obj.key = key
      · simp [Option.filter_some,named,Ne.symm mine]
      · simp [named]

theorem currentSet (bucket : Bytes) (m : VersionStore) (obj : ObjectMetadata) (key : Bytes) :
    (m.set (objectKey bucket obj.key) obj).get (objectKey bucket key) = if key = obj.key then some obj else m.get (objectKey bucket key) := by
  rw [getSet]
  by_cases mine : key = obj.key
  · rw [if_pos mine,if_pos (by rw [mine])]
  · rw [if_neg mine,if_neg (fun same => mine (objectKeyInj same).symm)]

theorem objectsSet {m : VersionStore} {obj : ObjectMetadata} (identified : Identified bucket obj)
    (filed : ∀ q e, m.get q = some e → objectSpace bucket <+: q → Identified bucket e ∧ q = objectKey bucket e.key) :
    ∀ q e, (m.set (objectKey bucket obj.key) obj).get q = some e → objectSpace bucket <+: q → Identified bucket e ∧
    q = objectKey bucket e.key := by
  intro q e found inside
  rw [getSet] at found
  split at found
  · rename_i here
    cases found
    exact ⟨identified,here.symm⟩
  · exact filed q e found inside

section
variable (filed : Filed bucket db)
include filed

theorem putObjectView {now obj} (home : obj.bucket = bucket) (plain : (58 : UInt8) ∉ obj.versionID) (done : db.putObject now obj = .ok db') :
    Filed bucket db' ∧ ∀ key, view bucket db' key = if key = obj.key then (view bucket db key).put shape (stamped now obj)
    else view bucket db key := by
  obtain ⟨rfl,_,named,_⟩ := putObjectWrites done
  have identified : Identified bucket (stamped now obj) := ⟨home,named,plain⟩
  have address : ∀ v, objectVersionKey (stamped now obj).bucket (stamped now obj).key v =
      objectVersionKey bucket (stamped now obj).key v := fun v => by rw [identified.bucket]
  have place : objectKey (stamped now obj).bucket (stamped now obj).key = objectKey bucket (stamped now obj).key := by
    rw [identified.bucket]
  simp only [writeObject,address,place]
  refine ⟨⟨?_,?_,filed.open_⟩,fun key => ?_⟩
  · dsimp only [writeObject]
    split
    · exact filed.versions
    · rename_i version
      exact filedSet filed.versions identified version
  · split
    · exact objectsSet identified filed.objects
    · exact filed.objects
  change _ = if key = (stamped now obj).key then _ else _
  by_cases version : (stamped now obj).versionID = []
  · ext1
    · simp only [view,version,true_or,if_true,currentSet]
      split
      · rw [History.putPlain (shapeNone version)]
      · rfl
    · simp only [view,version,if_true]
      split
      · rw [History.putPlain (shapeNone version)]
      · rfl
  · have id := shapeId version
    ext1
    · simp only [view,version,false_or]
      by_cases mine : key = (stamped now obj).key
      · rw [History.putVersion id]
        split
        · rename_i latest
          rw [currentSet,if_pos mine]
          exact (if_pos latest).symm
        · rename_i older
          exact (if_neg older).symm
      · split
        · rw [currentSet,if_neg mine]
        · rfl
    · simp only [view,version,if_false,versionsInSet filed.versions identified]
      by_cases mine : key = (stamped now obj).key
      · rw [if_pos mine,if_pos mine,History.putVersion id]
      · rw [if_neg mine,if_neg mine]

theorem putObjectVersionView {obj} {version : ObjectVersion} (identified : Identified bucket (versioned obj version))
    (named : version.versionID ≠ []) (latest : version.isLatest = true) (done : db.putObjectVersion obj version = .ok db') :
    Filed bucket db' ∧ ∀ key, view bucket db' key =
      if key = obj.key then (view bucket db key).insert shape version.versionID (versioned obj version)
      else view bucket db key := by
  have home : obj.bucket = bucket := identified.bucket
  subst home
  simp only [Database.putObjectVersion,writeVersion,latest,if_true] at done
  split at done <;> try contradiction
  cases done
  have demotedFiled := filedDemoted filed obj.key
  have stored key : versionsIn obj.bucket ((db.versions.setAll (db.demotions obj.bucket obj.key)).set
      (objectVersionKey obj.bucket obj.key version.versionID) (versioned obj version)) key =
      if key = obj.key then update (versionsIn obj.bucket (db.versions.setAll (db.demotions obj.bucket obj.key)) key)
        version.versionID (some (versioned obj version))
      else versionsIn obj.bucket (db.versions.setAll (db.demotions obj.bucket obj.key)) key :=
    versionsInSet demotedFiled identified key
  have shown key : (db.objects.set (objectKey obj.bucket obj.key) (versioned obj version)).get (objectKey obj.bucket key) =
      if key = obj.key then some (versioned obj version) else db.objects.get (objectKey obj.bucket key) :=
    currentSet obj.bucket db.objects (versioned obj version) key
  refine ⟨⟨filedSet demotedFiled identified named,objectsSet identified filed.objects,filed.open_⟩,fun key => ?_⟩
  ext1
  · refine (shown key).trans ?_
    by_cases mine : key = obj.key
    · rw [if_pos mine,if_pos mine]
      rfl
    · rw [if_neg mine,if_neg mine]
      rfl
  · refine (stored key).trans ?_
    rw [versionsInDemoted filed]
    by_cases mine : key = obj.key
    · rw [if_pos mine,if_pos mine,if_pos mine]
      funext v
      by_cases here : v = version.versionID
      · subst here
        simp [History.insert]
      · simp [History.insert,here,view,shape]
    · rw [if_neg mine,if_neg mine,if_neg mine]
      rfl

theorem deleteObjectVersionView {key v obj} (found : (view bucket db key).versions v = some obj)
    (done : db.deleteObjectVersion bucket key v = .ok db') :
    Filed bucket db' ∧ ∀ other, view bucket db' other = if other = key then (view bucket db other).remove v else view bucket db other := by
  obtain ⟨_,_,rfl⟩ := deleteVersionErases done
  obtain ⟨stored,named⟩ := versionsInIff.mp found
  obtain ⟨same,_,identified⟩ := filed.versions.at stored named
  refine ⟨⟨filedDelete filed.versions _,filed.objects,filed.open_⟩,fun other => ?_⟩
  have free : (58 : UInt8) ∉ v := same ▸ identified.plain
  ext1
  · split <;> rfl
  · simp only [view,versionsInDelete filed.versions stored free]
    split <;> rfl

theorem deleteObjectView {key} (done : db.deleteObject bucket key = .ok db') : Filed bucket db' ∧ ∀ other, view bucket db' other =
      if other = key then (view bucket db other).clear else view bucket db other := by
  obtain ⟨_,_,rfl⟩ := deleteObjectErases done
  refine ⟨⟨filed.versions,?_,filed.open_⟩,fun other => ?_⟩
  · intro q e found inside
    rw [getDelete] at found
    split at found <;> try contradiction
    exact filed.objects q e found inside
  · ext1
    · simp only [view]
      rw [getDelete]
      by_cases mine : other = key
      · rw [if_pos mine,if_pos (by rw [mine])]
        rfl
      · rw [if_neg mine,if_neg (fun same => mine (objectKeyInj same).symm)]
    · split <;> rfl

end

theorem readRecord {key v obj} (read : db.getObject bucket key v = .ok obj) :
    bucket ≠ [] ∧ key ≠ [] ∧ ∃ raw, db.record bucket key v = some raw ∧ obj = filled bucket key raw := by
  unfold Database.getObject at read
  split at read <;> try contradiction
  rename_i present
  split at read <;> try contradiction
  rename_i raw stored
  rw [not_or] at present
  exact ⟨present.1,present.2,raw,stored,(Except.ok.inj read).symm⟩

section
variable (filed : Filed bucket db)
include filed

theorem readCurrent {key obj} (read : db.getObject bucket key [] = .ok obj) : (view bucket db key).current = some obj := by
  obtain ⟨home,_,raw,stored,rfl⟩ := readRecord read
  have shown : (view bucket db key).current = some raw := stored
  obtain ⟨_,identified⟩ := filed.current shown
  rw [filledSelf (identified.bucket ▸ home) identified.key]
  exact stored

theorem readVersion {key v obj} (version : v ≠ []) (read : db.getObject bucket key v = .ok obj) :
    db.versions.get (objectVersionKey bucket key v) = some obj ∧ (view bucket db obj.key).versions obj.versionID = some obj := by
  obtain ⟨home,_,_,stored,rfl⟩ := readRecord read
  rw [Database.record,if_neg version] at stored
  obtain ⟨identified,_,address⟩ := filed.versions _ _ stored (inVersionSpace ..)
  rw [filledSelf (identified.bucket ▸ home) identified.key]
  exact ⟨stored,versionsInIff.mpr ⟨address ▸ stored,rfl⟩⟩

theorem readable {key v obj} (home : bucket ≠ []) (stored : (view bucket db key).versions v = some obj) : db.getObject bucket key v = .ok obj := by
  obtain ⟨found,named⟩ := versionsInIff.mp stored
  obtain ⟨_,version,identified⟩ := filed.versions.at found named
  unfold Database.getObject Database.record
  rw [if_neg (by simp [home,named ▸ identified.key]),if_neg version,found]
  exact congrArg Except.ok (filledSelf (identified.bucket ▸ home) identified.key)

theorem memVersions {sorting key ver} : ver ∈ db.getObjectVersions sorting bucket key ↔
      ∃ obj, (view bucket db key).versions obj.versionID = some obj ∧ ver = versionOf obj := by
  unfold Database.getObjectVersions
  rw [(sorting.perm _).mem_iff,mem_map]
  constructor
  · intro ⟨e,picked,same⟩
    obtain ⟨listed,named⟩ := mem_filter.mp picked
    exact ⟨e.2,((scanned filed).mp ⟨listed,of_decide_eq_true named⟩).1,same.symm⟩
  intro ⟨obj,stored,same⟩
  obtain ⟨listed,named⟩ := (scanned filed).mpr ⟨stored,rfl⟩
  exact ⟨(_, obj),mem_filter.mpr ⟨listed,decide_eq_true named⟩,same.symm⟩

theorem noVersions {sorting key} (empty : db.getObjectVersions sorting bucket key = []) (v : Bytes) : (view bucket db key).versions v = none := by
  cases stored : (view bucket db key).versions v with
  | none => rfl
  | some obj =>
    obtain ⟨found,named⟩ := versionsInIff.mp stored
    obtain ⟨same,_⟩ := filed.versions.at found named
    have listed : versionOf obj ∈ db.getObjectVersions sorting bucket key := (memVersions filed).mpr ⟨obj,same ▸ stored,rfl⟩
    rw [empty] at listed
    contradiction

end

end

theorem newerFold {best} (good : ∀ b, best = some b → b.versionID ≠ deleted) {next} (found : versions.foldl (newer deleted) best = some next) :
    (next ∈ versions ∨ best = some next) ∧ next.versionID ≠ deleted := by
  induction versions generalizing best with
  | nil => exact ⟨.inr found,good next found⟩
  | cons ver rest ih =>
    rw [foldl_cons] at found
    have step : newer deleted best ver = best ∨ newer deleted best ver = some ver ∧ ver.versionID ≠ deleted := by
      unfold newer
      split
      · exact .inl rfl
      rename_i other
      split
      · exact .inr ⟨rfl,other⟩
      split
      · exact .inr ⟨rfl,other⟩
      · exact .inl rfl
    rcases step with same | ⟨taken,other⟩
    · rw [same] at found
      obtain ⟨source,ok⟩ := ih good found
      exact ⟨source.imp_left (mem_cons_of_mem _),ok⟩
    rw [taken] at found
    obtain ⟨source,ok⟩ := ih (fun b same => by cases same; exact other) found
    refine ⟨.inl ?_,ok⟩
    rcases source with later | here
    · exact mem_cons_of_mem _ later
    · cases here
      exact mem_cons_self ..

theorem newerFoldSome {best} (candidate : best ≠ none ∨ ∃ ver ∈ versions, ver.versionID ≠ deleted) :
    versions.foldl (newer deleted) best ≠ none := by
  induction versions generalizing best with
  | nil => simpa using candidate
  | cons ver rest ih =>
    refine ih ?_
    by_cases same : ver.versionID = deleted
    · have kept : newer deleted best ver = best := if_pos same
      rw [kept]
      refine candidate.imp_right ?_
      intro ⟨w,mem,other⟩
      rcases mem_cons.mp mem with here | later
      · exact absurd (here ▸ same) other
      · exact ⟨w,later,other⟩
    · unfold newer
      rw [if_neg same]
      split
      · simp
      · split <;> simp

theorem nextLatestMem {next} (found : nextLatest deleted versions = some next) : next ∈ versions ∧ next.versionID ≠ deleted := by
  obtain ⟨source,other⟩ := newerFold (fun b none_ => by simp at none_) found
  exact ⟨source.resolve_right (by simp),other⟩

/-- While another version is stored, one is chosen to be the latest. -/
theorem nextLatestStored {db bucket sorting key v} (filed : Filed bucket db) (gone : (view bucket db key).versions v = none)
    (left : db.getObjectVersions sorting bucket key ≠ []) : ∃ obj, (view bucket db key).versions obj.versionID = some obj ∧
      nextLatest v (db.getObjectVersions sorting bucket key) = some (versionOf obj) := by
  have some_ : nextLatest v (db.getObjectVersions sorting bucket key) ≠ none := by
    refine newerFoldSome (.inr ?_)
    obtain ⟨ver,listed⟩ := exists_mem_of_ne_nil _ left
    refine ⟨ver,listed,fun same => ?_⟩
    obtain ⟨obj,stored,rfl⟩ := (memVersions filed).mp listed
    rw [show obj.versionID = v from same,gone] at stored
    contradiction
  obtain ⟨_,chosen⟩ := Option.ne_none_iff_exists'.mp some_
  obtain ⟨obj,stored,rfl⟩ := (memVersions filed).mp (nextLatestMem chosen).1
  exact ⟨obj,stored,chosen⟩

end MaxIOFS.VersionHistory
