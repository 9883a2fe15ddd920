import MaxIOFS.ManagerRuns

/-! The tag index beside the object records, over runs on any number of buckets. Only a write of
the plain record rewrites the index with it; a version that becomes the current object does not. -/
namespace MaxIOFS.TagIndex
open ByteString (Bytes ascii splitFirst)
open OrderedStore MetadataStore Records ObjectManager RecordChanges VersionHistory VersionMoves ManagerRuns Runs ObjectMetadata List Ledger Store

def tagsAt (db : Database) (bucket key : Bytes) : Store Bytes Bytes := ((db.objects.get (objectKey bucket key)).map tags).getD empty

structure Plainly (bucket key name value : Bytes) : Prop where
  bucket : ByteString.colon ∉ bucket
  key : ByteString.colon ∉ key
  name : ByteString.colon ∉ name
  value : ByteString.colon ∉ value

def Exact (db : Database) : Prop := ∀ bucket key name value, Plainly bucket key name value →
  ((db.tagIndex.get (tagIndexKey bucket name value key)).isSome = true ↔ (tagsAt db bucket key).get name = some value)

section
variable {bucket key name value bucket' key' name' value' : Bytes}

theorem indexShape (bucket key name value : Bytes) : tagIndexKey bucket name value key =
    ascii "tag_idx" ++ ByteString.colon :: (bucket ++ ByteString.colon :: (name ++ ByteString.colon :: (value ++ ByteString.colon :: key))) := by
  simp [tagIndexKey,colon,ascii,ByteString.colon]

theorem separatorInj {a b c d} (free : ByteString.colon ∉ a) (free' : ByteString.colon ∉ c)
    (same : a ++ ByteString.colon :: b = c ++ ByteString.colon :: d) : a = c ∧ b = d := by
  induction a generalizing c with
  | nil =>
    cases c with
    | nil => exact ⟨rfl,(cons.inj same).2⟩
    | cons head rest => exact absurd (cons.inj same).1 (fun here => free' (here ▸ mem_cons_self ..))
  | cons first tail ih =>
    cases c with
    | nil => exact absurd (cons.inj same).1 (fun here => free (here ▸ mem_cons_self ..))
    | cons head rest =>
      obtain ⟨here,later⟩ := cons.inj same
      obtain ⟨front,back⟩ := ih (fun mem => free (mem_cons_of_mem _ mem)) (fun mem => free' (mem_cons_of_mem _ mem)) later
      exact ⟨by rw [here,front],back⟩

theorem indexInj (plain : Plainly bucket key name value) (same : tagIndexKey bucket name value key = tagIndexKey bucket' name' value' key') :
    bucket = bucket' ∧ name = name' ∧ value = value' ∧ key = key' := by
  rw [indexShape,indexShape] at same
  have rest := (cons.inj (append_cancel_left same)).2
  have colons := congrArg (count ByteString.colon) rest
  simp only [count_append,count_cons_self,count_eq_zero.mpr plain.bucket,count_eq_zero.mpr plain.key,
    count_eq_zero.mpr plain.name,count_eq_zero.mpr plain.value] at colons
  obtain ⟨home,names⟩ := separatorInj plain.bucket (count_eq_zero.mp (by omega)) rest
  obtain ⟨named,values⟩ := separatorInj plain.name (count_eq_zero.mp (by omega)) names
  obtain ⟨valued,keyed⟩ := separatorInj plain.value (count_eq_zero.mp (by omega)) values
  exact ⟨home,named,valued,keyed⟩

theorem memTagKeys {tags} (plain : Plainly bucket key name value) :
    tagIndexKey bucket name value key ∈ tagKeys bucket' key' tags ↔ bucket = bucket' ∧ key = key' ∧ tags.get name = some value := by
  unfold tagKeys
  rw [mem_map]
  constructor
  · rintro ⟨⟨_,_⟩,mem,same⟩
    obtain ⟨home,rfl,rfl,named⟩ := indexInj plain same.symm
    exact ⟨home,named,memEntries.mp mem⟩
  · rintro ⟨rfl,rfl,has⟩
    exact ⟨(name, value),memEntries.mpr has,rfl⟩

theorem objectKeyPair (free : ByteString.colon ∉ bucket) (free' : ByteString.colon ∉ bucket') :
    objectKey bucket key = objectKey bucket' key' ↔ bucket = bucket' ∧ key = key' := by
  have shape b k : objectKey b k = ascii "obj" ++ ByteString.colon :: (b ++ ByteString.colon :: k) := by
    simp [objectKey,colon,ascii,ByteString.colon]
  constructor
  · intro same
    rw [shape,shape] at same
    exact separatorInj free free' (cons.inj (append_cancel_left same)).2
  · rintro ⟨rfl,rfl⟩
    rfl

end

/-! Operations of the store. A bucket's name is valid when the store can keep it apart from others. -/

structure Valid (bucket : Bytes) : Prop where
  named : bucket ≠ []
  plain : ByteString.colon ∉ bucket

section
variable {db db' : Database} {now : Int}
variable {obj : ObjectMetadata}

theorem tagsAtSet {bucket key} (obj : ObjectMetadata) {m} (valid : Valid obj.bucket)
    (plain : ByteString.colon ∉ bucket) (written : db'.objects = m.set (objectKey obj.bucket obj.key) obj) (same : db.objects = m) :
    tagsAt db' bucket key = if bucket = obj.bucket ∧ key = obj.key then obj.tags else tagsAt db bucket key := by
  unfold tagsAt
  rw [written,getSet,same]
  by_cases here : bucket = obj.bucket ∧ key = obj.key
  · rw [if_pos here,if_pos (by rw [here.1,here.2])]
    rfl
  · rw [if_neg here,if_neg fun equal => here (((objectKeyPair valid.plain plain).mp equal).imp Eq.symm Eq.symm)]

theorem exactSame (exact_ : Exact db) (objects : db'.objects = db.objects) (index : db'.tagIndex = db.tagIndex) : Exact db' := by
  intro bucket key name value plain
  unfold tagsAt
  rw [objects,index]
  exact exact_ bucket key name value plain

def staleKeys (db : Database) (bucket key : Bytes) : List Bytes :=
  match db.objects.get (objectKey bucket key) with
  | some existing => tagKeys bucket key existing.tags
  | none => []

theorem memStale {bucket key name value home named} (plain : Plainly bucket key name value) :
    tagIndexKey bucket name value key ∈ staleKeys db home named ↔
      bucket = home ∧ key = named ∧ (tagsAt db home named).get name = some value := by
  unfold staleKeys tagsAt
  cases db.objects.get (objectKey home named) with
  | none => simp
  | some existing => exact memTagKeys plain

section
variable {bucket key name value} (exact_ : Exact db) (plain : Plainly bucket key name value) (home named : Bytes)
include exact_ plain home named

theorem cleared : ((db.tagIndex.deleteAll (staleKeys db home named)).get (tagIndexKey bucket name value key)).isSome = true ↔
      ¬ (bucket = home ∧ key = named) ∧ (tagsAt db bucket key).get name = some value := by
  rw [getDeleteAll]
  split
  · rename_i old
    obtain ⟨rfl,rfl,_⟩ := (memStale plain).mp old
    simp
  rename_i kept
  rw [exact_ _ _ _ _ plain]
  refine ⟨fun has => ⟨fun here => kept ((memStale plain).mpr ?_),has⟩,And.right⟩
  obtain ⟨rfl,rfl⟩ := here
  exact ⟨rfl,rfl,has⟩

theorem reindexed (tags : Store Bytes Bytes) :
    (((db.tagIndex.deleteAll (staleKeys db home named)).setAll
    ((tagKeys home named tags).map (·, ()))).get
      (tagIndexKey bucket name value key)).isSome = true ↔
      (if bucket = home ∧ key = named then tags else tagsAt db bucket key).get name = some value := by
  rw [isSomeSetAll,map_map,show Prod.fst ∘ (fun k => (k, ())) = id from rfl,map_id,memTagKeys plain,cleared exact_ plain]
  by_cases here : bucket = home ∧ key = named
  · simp [here]
  · rw [if_neg here]
    refine ⟨fun either => either.elim (fun both => absurd ⟨both.1,both.2.1⟩ here) And.right,fun has => .inr ⟨here,has⟩⟩

end

theorem putObjectResult (done : db.putObject now obj = .ok db') :
    db'.objects = (if obj.versionID = [] ∨ obj.isLatest = true then db.objects.set (objectKey obj.bucket obj.key) (stamped now obj)
      else db.objects) ∧
    db'.tagIndex = (db.tagIndex.deleteAll (staleKeys db obj.bucket obj.key)).setAll ((tagKeys obj.bucket obj.key obj.tags).map (·, ())) := by
  unfold Database.putObject at done
  split at done <;> try contradiction
  split at done <;> try contradiction
  rw [← Except.ok.inj done]
  exact ⟨rfl,rfl⟩

theorem exactPut (valid : Valid obj.bucket) (exact_ : Exact db) (done : db.putObject now obj = .ok db')
    (suits : (obj.versionID = [] ∨ obj.isLatest = true) ∨ SameTags obj.tags (tagsAt db obj.bucket obj.key)) : Exact db' := by
  obtain ⟨objects,index⟩ := putObjectResult done
  intro bucket key name value plain
  rw [index,reindexed exact_ plain]
  by_cases current : obj.versionID = [] ∨ obj.isLatest = true
  · rw [if_pos current] at objects
    rw [tagsAtSet (stamped now obj) valid plain.bucket objects rfl]
    rfl
  unfold tagsAt
  rw [objects]
  split
  · rename_i here
    obtain ⟨rfl,rfl⟩ := here
    rw [suits.resolve_left current name]
    rfl
  · rfl

theorem putVersionResult {version} (latest : version.isLatest = true) (done : db.putObjectVersion obj version = .ok db') :
    db'.objects = db.objects.set (objectKey obj.bucket obj.key) (versioned obj version) ∧ db'.tagIndex = db.tagIndex := by
  unfold Database.putObjectVersion at done
  split at done <;> try contradiction
  rw [← Except.ok.inj done]
  exact ⟨if_pos latest,rfl⟩

theorem exactPutVersion {version} (valid : Valid obj.bucket) (exact_ : Exact db)
    (latest : version.isLatest = true) (done : db.putObjectVersion obj version = .ok db')
    (suits : SameTags obj.tags (tagsAt db obj.bucket obj.key)) : Exact db' := by
  obtain ⟨objects,index⟩ := putVersionResult latest done
  intro bucket key name value plain
  rw [index,exact_ bucket key name value plain,tagsAtSet (versioned obj version) valid plain.bucket objects rfl]
  split
  · rename_i here
    obtain ⟨rfl,rfl⟩ := here
    exact Eq.congr_left (suits name).symm
  · rfl

theorem exactDelete {bucket key} (valid : Valid bucket) (exact_ : Exact db) (done : db.deleteObject bucket key = .ok db') : Exact db' := by
  unfold Database.deleteObject at done
  split at done <;> try contradiction
  split at done <;> try contradiction
  rename_i obj stored
  cases done
  intro home named name value plain
  have index := cleared exact_ plain bucket key
  unfold staleKeys at index
  rw [stored] at index
  refine index.trans ?_
  unfold tagsAt
  rw [getDelete]
  by_cases here : home = bucket ∧ named = key
  · simp [here]
  · rw [if_neg fun equal => here (((objectKeyPair valid.plain plain.bucket).mp equal).imp Eq.symm Eq.symm)]
    simp [here]

end

structure Aside (bucket : Bytes) (db db' : Database) : Prop where
  objects : ∀ q, objectSpace bucket <+: q → db'.objects.get q = db.objects.get q
  versions : ∀ q, versionSpace bucket <+: q → db'.versions.get q = db.versions.get q
  deleted : db'.deletedBuckets = db.deletedBuckets

section
variable {bucket home : Bytes} {db db' : Database} {now : Int}
variable {q : Bytes}

theorem filedAside (filed : Filed bucket db) (aside : Aside bucket db db') : Filed bucket db' := by
  refine ⟨fun q obj stored inside => ?_,fun q obj stored inside => ?_,aside.deleted ▸ filed.open_⟩
  · exact filed.versions q obj (aside.versions q inside ▸ stored) inside
  · exact filed.objects q obj (aside.objects q inside ▸ stored) inside

theorem Aside.trans {mid} (first : Aside bucket db mid) (second : Aside bucket mid db') : Aside bucket db db' :=
  ⟨fun q inside => (second.objects q inside).trans (first.objects q inside),
    fun q inside => (second.versions q inside).trans (first.versions q inside),second.deleted.trans first.deleted⟩

theorem spaceInj {front a b} (plain : ByteString.colon ∉ a) (plain' : ByteString.colon ∉ b)
    (inside : front ++ a ++ colon <+: q) (inside' : front ++ b ++ colon <+: q) : a = b := by
  obtain ⟨_,rfl⟩ := inside
  obtain ⟨_,same⟩ := inside'
  simp only [append_assoc] at same
  exact (separatorInj plain' plain (append_cancel_left same)).1.symm

variable (valid : Valid bucket) (own : Valid home) (other : bucket ≠ home)

include valid own other in
theorem asideObject (inside : objectSpace bucket <+: q) (key : Bytes) : objectKey home key ≠ q := by
  rintro rfl
  exact other (spaceInj valid.plain own.plain inside inObjectSpace)

include valid own other in
theorem asideVersion {p} (inside : versionSpace bucket <+: q) (mine : versionSpace home <+: p) : p ≠ q := by
  rintro rfl
  exact other (spaceInj valid.plain own.plain inside mine)

include valid own other in
theorem asidePut {obj} (at_ : obj.bucket = home) (done : db.putObject now obj = .ok db') : Aside bucket db db' := by
  subst at_
  obtain ⟨rfl,_⟩ := putObjectWrites done
  refine ⟨fun q inside => ?_,fun q inside => ?_,rfl⟩
  · dsimp only [writeObject]
    split
    · exact getSetOther _ _ (asideObject valid own other inside _)
    · rfl
  · dsimp only [writeObject]
    split
    · rfl
    · exact getSetOther _ _ (asideVersion valid own other inside (inVersionSpace ..))

include valid own other in
theorem asidePutVersion {obj version} (at_ : obj.bucket = home) (done : db.putObjectVersion obj version = .ok db') : Aside bucket db db' := by
  subst at_
  have demoted q (inside : versionSpace bucket <+: q) : (db.versions.setAll (db.demotions obj.bucket obj.key)).get q = db.versions.get q := by
    refine getSetAllOther fun e mem => asideVersion valid own other inside ?_
    obtain ⟨⟨_,_⟩,among,rfl⟩ := mem_map.mp mem
    exact (versionPrefixSpace ..).trans (memScan.mp (mem_of_mem_filter among)).2
  obtain ⟨rfl,_⟩ := putVersionWrites done
  refine ⟨fun q inside => ?_,fun q inside => ?_,rfl⟩
  · dsimp only [writeVersion]
    split
    · exact getSetOther _ _ (asideObject valid own other inside _)
    · rfl
  · refine (getSetOther _ _ (asideVersion valid own other inside (inVersionSpace ..))).trans ?_
    split
    · exact demoted q inside
    · rfl

include valid own other in
theorem asideDelete {key} (done : db.deleteObject home key = .ok db') : Aside bucket db db' := by
  obtain ⟨_,_,rfl⟩ := deleteObjectErases done
  exact ⟨fun q inside => getDeleteOther _ (asideObject valid own other inside _),fun _ _ => rfl,rfl⟩

include valid own other in
theorem asideDeleteVersion {key v} (done : db.deleteObjectVersion home key v = .ok db') : Aside bucket db db' := by
  obtain ⟨_,_,rfl⟩ := deleteVersionErases done
  exact ⟨fun _ _ => rfl,fun q inside => getDeleteOther _ (asideVersion valid own other inside (inVersionSpace ..)),rfl⟩

theorem Aside.refl (bucket : Bytes) (db : Database) : Aside bucket db db := ⟨fun _ _ => rfl,fun _ _ => rfl,rfl⟩

end

def promoted (sorting : VersionSort) (bucket key v : Bytes) (db : Database) : Option ObjectMetadata :=
  match (db.getObjectVersions sorting bucket key).find? (fun ver => decide (ver.versionID = v)) with
  | none => none
  | some target =>
    if target.isLatest then
      match db.deleteObjectVersion bucket key v with
      | .error _ => none
      | .ok db' => (nextLatest v (db'.getObjectVersions sorting bucket key)).bind
          (fun next => (db'.getObject bucket key next.versionID).toOption)
    else none

def Suits (sorting : VersionSort) (bucket : Bytes) (db : Database) : Change → Prop
  | .insert obj => SameTags obj.tags (tagsAt db bucket obj.key)
  | .edit _ v old new => v = [] ∨ old.isLatest = true ∨ SameTags new.tags (tagsAt db bucket old.key)
  | .drop key v _ => ∀ obj, promoted sorting bucket key v db = some obj → SameTags obj.tags (tagsAt db bucket key)
  | .plain _ | .adopt _ | .erase _ _ => True

def Headed (db : Database) : Prop := ∀ q obj, db.objects.get q = some obj → obj.versionID = [] ∨ obj.isLatest = true

structure Indexed (db : Database) : Prop where
  filed : ∀ bucket, Valid bucket → Filed bucket db
  headed : Headed db
  exact_ : Exact db

section
variable {sorting : VersionSort} {bucket : Bytes} {now : Int} {db db' : Database}
variable {v : Bytes} {obj : ObjectMetadata}

theorem headedSet {m : Store Bytes ObjectMetadata} {q : Bytes}
    (headed : ∀ q obj, m.get q = some obj → obj.versionID = [] ∨ obj.isLatest = true) (front : obj.versionID = [] ∨ obj.isLatest = true) :
    ∀ p e, (m.set q obj).get p = some e → e.versionID = [] ∨ e.isLatest = true := by
  intro p e found
  rw [getSet] at found
  split at found
  · cases found
    exact front
  · exact headed p e found

theorem headedPut (headed : Headed db) (done : db.putObject now obj = .ok db') : Headed db' := by
  obtain ⟨objects,_⟩ := putObjectResult done
  unfold Headed
  rw [objects]
  split
  · rename_i front
    exact headedSet headed front
  · exact headed

theorem headedPutVersion {version} (headed : Headed db) (latest : version.isLatest = true)
    (done : db.putObjectVersion obj version = .ok db') : Headed db' := by
  unfold Headed
  rw [(putVersionResult latest done).1]
  exact headedSet headed (.inr latest)

theorem headedDelete {key} (headed : Headed db) (done : db.deleteObject bucket key = .ok db') : Headed db' := by
  obtain ⟨_,_,rfl⟩ := deleteObjectErases done
  intro q obj found
  rw [getDelete] at found
  split at found <;> try contradiction
  exact headed q obj found

theorem deleteVersionResult {key} (done : db.deleteObjectVersion bucket key v = .ok db') : db'.objects = db.objects ∧
    db'.tagIndex = db.tagIndex := by
  obtain ⟨_,_,rfl⟩ := deleteVersionErases done
  exact ⟨rfl,rfl⟩

section
variable (valid : Valid bucket) (indexed : Indexed db)
include valid indexed

theorem indexedPut (filed : Filed bucket db') (home : obj.bucket = bucket) (done : db.putObject now obj = .ok db')
    (suits : (obj.versionID = [] ∨ obj.isLatest = true) ∨ SameTags obj.tags (tagsAt db obj.bucket obj.key)) : Indexed db' := by
  refine ⟨fun b ok => ?_,headedPut indexed.headed done,exactPut (home ▸ valid) indexed.exact_ done suits⟩
  by_cases same : b = bucket
  · exact same ▸ filed
  · exact filedAside (indexed.filed b ok) (asidePut ok valid same home done)

theorem indexedPutVersion {version} (filed : Filed bucket db') (home : obj.bucket = bucket) (latest : version.isLatest = true)
    (done : db.putObjectVersion obj version = .ok db') (suits : SameTags obj.tags (tagsAt db obj.bucket obj.key)) : Indexed db' := by
  refine ⟨fun b ok => ?_,headedPutVersion indexed.headed latest done,exactPutVersion (home ▸ valid) indexed.exact_ latest done suits⟩
  by_cases same : b = bucket
  · exact same ▸ filed
  · exact filedAside (indexed.filed b ok) (asidePutVersion ok valid same home done)

theorem indexedDelete {key} (filed : Filed bucket db') (done : db.deleteObject bucket key = .ok db') : Indexed db' := by
  refine ⟨fun b ok => ?_,headedDelete indexed.headed done,exactDelete valid indexed.exact_ done⟩
  by_cases same : b = bucket
  · exact same ▸ filed
  · exact filedAside (indexed.filed b ok) (asideDelete ok valid same done)

theorem indexedDeleteVersion {key}
    (stored : (view bucket db key).versions v = some obj) (done : db.deleteObjectVersion bucket key v = .ok db') : Indexed db' := by
  obtain ⟨objects,index⟩ := deleteVersionResult done
  refine ⟨fun b ok => ?_,fun q e found => indexed.headed q e (objects ▸ found),exactSame indexed.exact_ objects index⟩
  by_cases same : b = bucket
  · subst same
    exact (deleteObjectVersionView (indexed.filed b ok) stored done).1
  · exact filedAside (indexed.filed b ok) (asideDeleteVersion ok valid same done)

theorem indexedPromotion {key} (named : key ≠ []) (gone : (view bucket db key).versions v = none)
    (suits : ∀ next obj, nextLatest v (db.getObjectVersions sorting bucket key) = some next →
      db.getObject bucket key next.versionID = .ok obj → SameTags obj.tags (tagsAt db bucket key)) :
      Indexed (promotion sorting bucket key v db) := by
  have filed := (promotionView sorting (indexed.filed bucket valid) valid.named named gone).1
  unfold promotion at filed ⊢
  split at filed
  · rename_i empty
    rw [if_pos empty]
    cases done : db.deleteObject bucket key with
    | ok db' =>
      rw [done] at filed
      exact indexedDelete valid indexed filed done
    | error e => exact indexed
  · rename_i some_
    rw [if_neg some_]
    cases chosen : nextLatest v (db.getObjectVersions sorting bucket key) with
    | none => exact indexed
    | some next =>
      rw [chosen] at filed
      dsimp only at filed ⊢
      cases read : db.getObject bucket key next.versionID with
      | error e => exact indexed
      | ok obj =>
        rw [read] at filed
        dsimp only at filed ⊢
        obtain ⟨_,stored,rfl⟩ := (memVersions (indexed.filed bucket valid)).mp (nextLatestMem chosen).1
        cases ((readable (indexed.filed bucket valid) valid.named stored).symm.trans read)
        obtain ⟨found,keyed⟩ := versionsInIff.mp stored
        have home := ((indexed.filed bucket valid).versions.at found keyed).2.2.bucket
        cases done : db.putObjectVersion obj { versionOf obj with isLatest := true } with
        | error e => exact indexed
        | ok db' =>
          rw [done] at filed
          refine indexedPutVersion valid indexed filed home rfl done ?_
          rw [home,keyed]
          exact suits _ _ chosen read

end

theorem indexedEffect {change} (valid : Valid bucket) (tame : Tame bucket change) (indexed : Indexed db)
    (suits : Suits sorting bucket db change) (effect : Effect sorting bucket now db change db') : Indexed db' := by
  have filed := (effectMoves (indexed.filed bucket valid) valid.named tame effect).filed
  cases effect with
  | insert done =>
    refine indexedPutVersion valid indexed filed tame.1.bucket rfl done ?_
    rw [tame.1.bucket]
    exact suits
  | plain done => exact indexedPut valid indexed filed tame.1 done (.inl (.inl tame.2))
  | adopt free done => exact indexedPut valid indexed filed tame.1 done (.inl (.inl tame.2))
  | @edit key v old new _ read same done =>
    have found := indexed.filed bucket valid
    have home : old.bucket = bucket ∧ (v = [] → old.versionID = [] ∨ old.isLatest = true) := by
      by_cases version : v = []
      · subst version
        have current := readCurrent found read
        exact ⟨(found.current current).2.bucket,fun _ => indexed.headed _ _ current⟩
      · obtain ⟨stored,_⟩ := readVersion found version read
        exact ⟨(found.versions _ _ stored (inVersionSpace ..)).1.bucket,fun empty => absurd empty version⟩
    refine indexedPut valid indexed filed (same.bucket.trans home.1) done ?_
    rw [same.versionID,same.isLatest,same.bucket,same.key,home.1]
    rcases suits with current | latest | tags
    · exact .inl (home.2 current)
    · exact .inl (.inr latest)
    · exact .inr tags
  | @drop key v bypass target old mid listed read unlocked done =>
    obtain ⟨_,named,_⟩ := readRecord read
    obtain ⟨obj,stored,rfl⟩ := (memVersions (indexed.filed bucket valid)).mp (mem_of_find?_eq_some listed)
    have id : (versionOf obj).versionID = v := by simpa using find?_some listed
    change obj.versionID = v at id
    rw [id] at stored
    have after := indexedDeleteVersion valid indexed stored done
    split
    · rename_i latest
      have gone : (view bucket mid key).versions v = none := by
        rw [removedView (indexed.filed bucket valid) stored done]
        simp [History.remove]
      refine indexedPromotion valid after named gone fun next chosen found picked => ?_
      have same : tagsAt mid bucket key = tagsAt db bucket key := by rw [tagsAt,(deleteVersionResult done).1,tagsAt]
      rw [same]
      refine suits chosen ?_
      simp only [promoted,listed,latest,done,found,Option.bind_some,picked]
      rfl
    · exact after
  | erase read unlocked done => exact indexedDelete valid indexed filed done

theorem indexedQuiet (same : Quiet db db') (indexed : Indexed db) : Indexed db' :=
  ⟨fun b ok => filedSame (indexed.filed b ok) same.objects same.versions same.deleted,
    fun q obj found => indexed.headed q obj (same.objects ▸ found),exactSame indexed.exact_ same.objects same.tagIndex⟩

end

/-! Calls. The condition is about the state a call starts from; `link` is what a call keeps of it. -/

theorem followsIndexed {sorting bucket now allowed start db}
    (link : Database → Prop) (valid : Valid bucket) (follows : Follows sorting bucket now allowed start db)
    (indexed : Indexed start) (linked : link start) (quiet : ∀ {db db'}, Quiet db db' → link db → link db')
    (tame : ∀ {change}, allowed change → Tame bucket change)
    (suits : ∀ {db change}, allowed change → Indexed db → link db → Suits sorting bucket db change)
    (links : ∀ {db change db'}, allowed change → Effect sorting bucket now db change db' → Indexed db → link db → link db') : Indexed db := by
  refine (follows.keeps (P := fun db => Indexed db ∧ link db) (fun same holds => ⟨indexedQuiet same holds.1,quiet same holds.2⟩)
    (fun ok effect holds => ⟨?_,links ok effect holds.1 holds.2⟩) ⟨indexed,linked⟩).1
  exact indexedEffect valid (tame ok) holds.1 (suits ok holds.1 holds.2) effect

def Agrees (s : State) (bucket key v : Bytes) (tags : ObjectMetadata → Store Bytes Bytes) : Prop :=
  ∀ old, s.db.getObject bucket key v = .ok old → v = [] ∨ old.isLatest = true ∨ SameTags (tags old) (tagsAt s.db bucket old.key)

def Untagged (s : State) (bucket key : Bytes) : Prop := isBucketVersioningEnabled s bucket = true → SameTags empty (tagsAt s.db bucket key)

def Careful (node : Node) (bucket : Bytes) (s : State) (e : Event) : Prop :=
  match e.request with
  | .put key _ _ => Untagged s bucket key
  | .delete key _ versionID =>
    let target := resolveFolderDeleteKey s bucket key
    if versionID = [] then Untagged s bucket target
    else ∀ obj, promoted node.sorting bucket target versionID s.db = some obj → SameTags obj.tags (tagsAt s.db bucket target)
  | .createUpload .. => True
  | .uploadPart .. => True
  | .complete uploadID _ => ∀ upload, s.db.getMultipartUpload uploadID = .ok upload → Untagged s bucket upload.key
  | .setTagging key tags versionID => Agrees s bucket key versionID (fun _ => empty.setAll (tags.getD []))
  | .setRetention key _ versionID => Agrees s bucket key versionID tags
  | .setLegalHold key _ versionID => Agrees s bucket key versionID tags
  | .setACL key _ versionID => Agrees s bucket key versionID tags
  | .setRestore key _ _ versionID => Agrees s bucket key versionID tags
  | .updateMetadata .. => True

section
variable {node : Node} {sorting : VersionSort} {bucket key : Bytes} {now : Int} {s : State} {db db' : Database} {allowed : Change → Prop}
variable {v : Bytes}

theorem tagsQuiet (same : Quiet db db') (bucket key : Bytes) : tagsAt db' bucket key = tagsAt db bucket key := by
  rw [tagsAt,same.objects,tagsAt]

theorem tagsAfterPut {obj} (valid : Valid bucket) (home : obj.bucket = bucket) (plain : obj.versionID = [])
    (done : db.putObject now obj = .ok db') (key : Bytes) : tagsAt db' bucket key = if key = obj.key then obj.tags else tagsAt db bucket key := by
  have objects := (putObjectResult done).1
  rw [if_pos (.inl plain)] at objects
  rw [tagsAtSet (stamped now obj) (home ▸ valid) valid.plain objects rfl]
  simp only [show (stamped now obj).bucket = bucket from home,true_and]
  rfl

theorem tagsAfterInsert {obj version} (valid : Valid bucket) (home : obj.bucket = bucket)
    (latest : version.isLatest = true) (done : db.putObjectVersion obj version = .ok db') (key : Bytes) :
    tagsAt db' bucket key = if key = obj.key then obj.tags else tagsAt db bucket key := by
  rw [tagsAtSet (versioned obj version) (home ▸ valid) valid.plain (putVersionResult latest done).1 rfl]
  simp only [show (versioned obj version).bucket = bucket from home,true_and]
  rfl

theorem writesIndexed (key : Bytes) (valid : Valid bucket) (indexed : Indexed s.db) (untagged : Untagged s bucket key)
    (follows : Follows sorting bucket now allowed s.db db) (tame : ∀ {change}, allowed change → Tame bucket change)
    (kind : ∀ {change}, allowed change → match change with
      | .insert obj => isBucketVersioningEnabled s bucket = true ∧ obj.key = key ∧ obj.tags = empty
      | .plain _ => isBucketVersioningEnabled s bucket = false
      | .adopt obj => obj.key ≠ key
      | .erase .. => isBucketVersioningEnabled s bucket = false
      | .edit .. | .drop .. => False) : Indexed db := by
  refine followsIndexed (fun db => isBucketVersioningEnabled s bucket = true → SameTags empty (tagsAt db bucket key))
    valid follows indexed untagged (fun same linked on => by rw [tagsQuiet same]; exact linked on) tame ?_ ?_
  · intro db change ok _ linked
    have shape := kind ok
    cases change with
    | insert obj =>
      obtain ⟨on,rfl,empty⟩ := shape
      simp only [Suits,empty]
      exact linked on
    | plain | adopt | erase => trivial
    | edit | drop => exact shape.elim
  · intro db change db' ok effect _ linked on
    have shape := kind ok
    cases effect with
    | insert done =>
      obtain ⟨_,rfl,empty⟩ := shape
      rw [tagsAfterInsert valid (tame ok).1.bucket rfl done,if_pos rfl,empty]
      exact fun _ => rfl
    | plain done => exact absurd (on.symm.trans shape) (by simp)
    | adopt free done =>
      rw [tagsAfterPut valid (tame ok).1 (tame ok).2 done,if_neg (Ne.symm shape)]
      exact linked on
    | erase => exact absurd (on.symm.trans shape) (by simp)
    | edit | drop => exact shape.elim

theorem promotedSame (versions : db'.versions = db.versions) (objects : db'.objects = db.objects) (key v : Bytes) :
    promoted sorting bucket key v db' = promoted sorting bucket key v db := by
  simp only [promoted,Database.getObjectVersions,Database.deleteObjectVersion,versions]
  cases ((sorting.sort (((db.versions.scan (versionPrefix bucket key)).filter (fun e => e.2.key = key)).map
    (fun e => versionOf e.2))).find? (fun ver => decide (ver.versionID = v))) with
  | none => rfl
  | some target =>
    dsimp only
    split
    · cases db.versions.get (objectVersionKey bucket key v) with
      | none => rfl
      | some obj => simp only [Database.getObject,Database.record,objects]
    · rfl

theorem promotedGone (filed : Filed bucket db) (gone : (view bucket db key).versions v = none) : promoted sorting bucket key v db = none := by
  have absent : (db.getObjectVersions sorting bucket key).find? (fun ver => decide (ver.versionID = v)) = none := by
    refine find?_eq_none.mpr fun ver listed same => ?_
    obtain ⟨obj,stored,rfl⟩ := (memVersions filed).mp listed
    rw [show obj.versionID = v from of_decide_eq_true same,gone] at stored
    cases stored
  rw [promoted,absent]

theorem dropGone {bypass} (valid : Valid bucket) (filed : Filed bucket db)
    (effect : Effect sorting bucket now db (.drop key v bypass) db') : (view bucket db' key).versions v = none := by
  cases effect with
  | @drop _ _ _ target old mid listed read unlocked done =>
    obtain ⟨_,named,_⟩ := readRecord read
    obtain ⟨obj,stored,rfl⟩ := (memVersions filed).mp (mem_of_find?_eq_some listed)
    have id : (versionOf obj).versionID = v := by simpa using find?_some listed
    change obj.versionID = v at id
    rw [id] at stored
    have gone : (view bucket mid key).versions v = none := by
      rw [removedView filed stored done]
      simp [History.remove]
    split
    · obtain ⟨_,⟨_,cleared⟩ | ⟨w,_,other,inserted⟩⟩ := promotionView sorting (deleteObjectVersionView filed stored done).1 valid.named named gone
      · rw [cleared,if_pos rfl]
        exact gone
      rw [inserted]
      have apart : v ≠ w := fun same => by rw [← same,gone] at other; cases other
      simp [History.insert,apart,gone]
    · exact gone

theorem dropsIndexed (key v : Bytes) (bypass : Bool) (valid : Valid bucket) (indexed : Indexed s.db)
    (suits : ∀ obj, promoted sorting bucket key v s.db = some obj → SameTags obj.tags (tagsAt s.db bucket key))
    (follows : Follows sorting bucket now allowed s.db db) (kind : ∀ {change}, allowed change → change = .drop key v bypass) : Indexed db := by
  refine followsIndexed (fun db => Suits sorting bucket db (.drop key v bypass)) valid follows indexed suits ?_ ?_ ?_ ?_
  · intro db db' same linked obj found
    rw [tagsQuiet same]
    exact linked obj (promotedSame same.versions same.objects key v ▸ found)
  · intro change ok
    rw [kind ok]
    trivial
  · intro db change ok _ linked
    rw [kind ok]
    exact linked
  intro db change db' ok effect indexed _ obj found
  rw [kind ok] at effect
  have filed := (effectMoves (indexed.filed bucket valid) valid.named (show Tame bucket (.drop key v bypass) from trivial) effect).filed
  rw [promotedGone filed (dropGone valid (indexed.filed bucket valid) effect)] at found
  cases found

theorem editsIndexed {rel} {tags} (valid : Valid bucket) (indexed : Indexed s.db) (agrees : Agrees s bucket key v tags)
    (follows : Follows sorting bucket now (EditChange s bucket key v (Tagging rel tags)) s.db db) : Indexed db := by
  refine followsIndexed (fun db => ∀ old, s.db.getObject bucket key v = .ok old → v = [] ∨ old.isLatest = true ∨
    tagsAt db bucket old.key = tagsAt s.db bucket old.key) valid follows indexed (fun _ _ => .inr (.inr rfl)) ?_ ?_ ?_ ?_
  · intro db db' same linked old read
    rw [tagsQuiet same]
    exact linked old read
  · intro change ok
    cases change with
    | adopt obj => exact ⟨ok.2.2.1,ok.2.2.2.2⟩
    | edit => trivial
    | insert | plain | drop | erase => exact ok.elim
  · intro db change ok _ linked
    cases change with
    | edit target version old new =>
      obtain ⟨rfl,rfl,read,_,written⟩ := ok
      rcases linked old read with current | latest | here
      · exact .inl current
      · exact .inr (.inl latest)
      · refine (agrees old read).imp id (Or.imp id fun there name => ?_)
        rw [written name,there name,here]
    | adopt => trivial
    | insert | plain | drop | erase => exact ok.elim
  · intro db change db' ok effect indexed linked old read
    cases effect with
    | @edit target version old' new _ now_ same done =>
      obtain ⟨rfl,rfl,read',_⟩ := ok
      cases (read.symm.trans read')
      rcases linked old read with current | latest | here
      · exact .inl current
      · exact .inr (.inl latest)
      by_cases front : version = [] ∨ old.isLatest = true
      · exact front.imp id .inl
      have objects := (putObjectResult done).1
      have id : old.versionID ≠ [] := by
        obtain ⟨stored,_⟩ := readVersion (indexed.filed bucket valid) (not_or.mp front).1 now_
        exact ((indexed.filed bucket valid).versions _ _ stored (inVersionSpace ..)).2.1
      rw [same.versionID,same.isLatest,if_neg (not_or.mpr ⟨id,(not_or.mp front).2⟩)] at objects
      refine .inr (.inr ?_)
      rw [tagsAt,objects,← tagsAt,here]
    | adopt => exact .inl ok.1
    | insert | plain | drop | erase => exact ok.elim

end

structure Task where
  bucket : Bytes
  event : Event

def task (node : Node) (s : State) (t : Task) : Option State :=
  if t.bucket ≠ [] ∧ ByteString.colon ∉ t.bucket then step node t.bucket s t.event else none

structure EmptyStore (db : Database) : Prop where
  objects : db.objects = empty
  versions : db.versions = empty
  tagIndex : db.tagIndex = empty
  deleted : db.deletedBuckets = []

theorem indexedEmpty {db} (empty : EmptyStore db) : Indexed db := by
  refine ⟨fun bucket _ => ⟨fun q obj stored => ?_,fun q obj stored => ?_,?_⟩,fun q obj stored => ?_,fun bucket key name value _ => ?_⟩
  · rw [empty.versions] at stored
    cases stored
  · rw [empty.objects] at stored
    cases stored
  · rw [empty.deleted]
    exact not_mem_nil
  · rw [empty.objects] at stored
    cases stored
  · rw [tagsAt,empty.objects,empty.tagIndex]
    exact iff_of_false Bool.false_ne_true (by simp)

theorem stepIndexed {node bucket s next e} (valid : Valid bucket) (plain : Plain e)
    (careful : Careful node bucket s e) (stepped : step node bucket s e = some next) (indexed : Indexed s.db) : Indexed next.db := by
  obtain ⟨own,rfl⟩ := stepPerforms stepped
  have follows : Follows node.sorting _ _ _ _ (perform node _ _ _).db := performFollows own
  have tame {change} (permitted : Permitted s bucket e change) := permittedTame plain permitted
  obtain ⟨_,request⟩ := e
  cases request with
  | put key data headers =>
    refine writesIndexed _ valid indexed careful follows tame fun {change} permitted => ?_
    cases change with
    | insert obj => exact ⟨permitted.1,permitted.2.2.2.1,permitted.2.2.2.2.2⟩
    | plain obj => exact permitted.1
    | adopt obj => exact implicitFolderOther permitted.2.1
    | edit | drop | erase => exact permitted.elim
  | delete key bypass versionID =>
    by_cases current : versionID = []
    · refine writesIndexed (resolveFolderDeleteKey s bucket key) valid indexed ?_ follows tame fun {change} permitted => ?_
      · simpa only [Careful,if_pos current] using careful
      cases change with
      | insert obj =>
        refine ⟨permitted.1,?_,?_⟩ <;> rw [permitted.2.2.2.2] <;> rfl
      | erase => exact permitted.1
      | drop => exact absurd current permitted.1
      | plain | adopt | edit => exact permitted.elim
    · refine dropsIndexed (resolveFolderDeleteKey s bucket key) versionID bypass valid indexed ?_ follows fun {change} permitted => ?_
      · simpa only [Careful,if_neg current] using careful
      cases change with
      | drop target version flag =>
        obtain ⟨_,rfl,rfl,rfl⟩ := permitted
        rfl
      | insert => exact absurd permitted.2.1 current
      | erase => exact absurd permitted.2.1 current
      | plain | adopt | edit => exact permitted.elim
  | createUpload uploadID key headers =>
    exact followsIndexed (fun _ => True) valid follows indexed trivial (fun _ _ => trivial) tame (fun never => never.elim) (fun _ _ _ _ => trivial)
  | uploadPart uploadID partNumber data =>
    exact followsIndexed (fun _ => True) valid follows indexed trivial (fun _ _ => trivial) tame (fun never => never.elim) (fun _ _ _ _ => trivial)
  | complete uploadID parts =>
    cases found : s.db.getMultipartUpload uploadID with
    | error e =>
      refine followsIndexed (fun _ => True) valid follows indexed trivial (fun _ _ => trivial) tame
        (fun permitted _ _ => ?_) (fun _ _ _ _ => trivial)
      obtain ⟨upload,read,_⟩ := permitted
      rw [found] at read
      cases read
    | ok upload =>
      refine writesIndexed upload.key valid indexed (careful upload found) follows tame fun {change} permitted => ?_
      obtain ⟨_,read,_,kind⟩ := permitted
      cases (found.symm.trans read)
      cases change with
      | insert obj => exact ⟨kind.1,kind.2.2.1,kind.2.2.2.2⟩
      | plain obj => exact kind.1
      | adopt | edit | drop | erase => exact kind.elim
  | setRetention key config versionID => exact editsIndexed valid indexed careful follows
  | setLegalHold key config versionID => exact editsIndexed valid indexed careful follows
  | setTagging key tags versionID => exact editsIndexed valid indexed careful follows
  | setACL key acl versionID => exact editsIndexed valid indexed careful follows
  | setRestore key status expiresAt versionID => exact editsIndexed valid indexed careful follows
  | updateMetadata key updates => exact editsIndexed valid indexed (fun _ _ => .inl rfl) follows

/-- In every run of requests in UTF-8 whose calls leave the current object of a key with the tags they found or rewrite them on the current
record, the index holds exactly the tags of the current objects. -/
theorem tagIndexExact {node} {s final} {tasks} (empty : EmptyStore s.db)
    (along : Along (task node) (fun s t => Sent t.event ∧ Careful node t.bucket s t.event) s tasks)
    (done : run (task node) s tasks = some final) (bucket key name value : Bytes) (plain : Plainly bucket key name value) :
    (final.db.tagIndex.get (tagIndexKey bucket name value key)).isSome = true ↔
      ∃ obj, final.db.objects.get (objectKey bucket key) = some obj ∧ obj.tags.get name = some value := by
  have indexed : Indexed final.db := by
    refine runKeeps (I := fun s => Indexed s.db) (fun {s t next} holds ok stepped => ?_) (indexedEmpty empty) along done
    unfold task at stepped
    split at stepped <;> try contradiction
    rename_i valid
    exact stepIndexed ⟨valid.1,valid.2⟩ ok.1.plain ok.2 stepped holds
  rw [indexed.exact_ bucket key name value plain,tagsAt]
  cases final.db.objects.get (objectKey bucket key) with
  | none => simp
  | some obj => simp

def taggedOnce : List Task :=
  [⟨ascii "b", callAt 5, .put (ascii "k") [7] empty⟩, ⟨ascii "b", callAt 6, .setTagging (ascii "k") (some [(ascii "colour", ascii "blue")]) []⟩]

theorem taggedOnceIndexed : ∃ final, run (task smallNode) versionedBucket taggedOnce = some final ∧
    ((final.db.tagIndex.get (tagIndexKey (ascii "b") (ascii "colour") (ascii "blue") (ascii "k"))).isSome = true ↔
      ∃ obj, final.db.objects.get (objectKey (ascii "b") (ascii "k")) = some obj ∧ obj.tags.get (ascii "colour") = some (ascii "blue")) := by
  obtain ⟨final,ran⟩ : ∃ final, run (task smallNode) versionedBucket taggedOnce = some final := ⟨_,rfl⟩
  have along : Along (task smallNode) (fun s t => Sent t.event ∧ Careful smallNode t.bucket s t.event) versionedBucket taggedOnce :=
    ⟨⟨by decide,fun _ _ => rfl⟩,fun _ _ => ⟨⟨by decide,fun _ _ => .inl rfl⟩,fun _ _ => trivial⟩⟩
  exact ⟨final,ran,tagIndexExact ⟨rfl,rfl,rfl,rfl⟩ along ran _ _ _ _ ⟨by decide,by decide,by decide,by decide⟩⟩

-- A second version of a tagged object has no tags, and the index still names it.
theorem staleTagStays : ∃ final, run (task smallNode) versionedBucket (taggedOnce ++ [⟨ascii "b", callAt 7, .put (ascii "k") [8] empty⟩]) =
    some final ∧
    Plainly (ascii "b") (ascii "k") (ascii "colour") (ascii "blue") ∧
    ¬ ((final.db.tagIndex.get (tagIndexKey (ascii "b") (ascii "colour") (ascii "blue") (ascii "k"))).isSome = true ↔
      ∃ obj, final.db.objects.get (objectKey (ascii "b") (ascii "k")) = some obj ∧ obj.tags.get (ascii "colour") = some (ascii "blue")) := by
  refine runShows (fun final => (final.db.tagIndex.get (tagIndexKey (ascii "b") (ascii "colour") (ascii "blue") (ascii "k"))).isSome = true ∧
    (final.db.objects.get (objectKey (ascii "b") (ascii "k"))).map (fun obj => obj.tags.get (ascii "colour")) = some none) (by decide +kernel)
    fun final ran ⟨indexed,current⟩ => ⟨⟨by decide,by decide,by decide,by decide⟩,fun same => ?_⟩
  obtain ⟨_,stored,has⟩ := same.mp indexed
  rw [stored,Option.map_some,has] at current
  cases current

end MaxIOFS.TagIndex
