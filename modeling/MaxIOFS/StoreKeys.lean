import MaxIOFS.BucketManager
import MaxIOFS.JsonRecords
import MaxIOFS.PartRaces
import MaxIOFS.TagIndex
import MaxIOFS.TagSearch

/-! The keys under which the store files its records. Their fields are joined by colons and none
is escaped: which names stay apart depends on where they hold a colon themselves. A scan over versions
compares the key it looks for with the one in the record, as JSON gives it back. -/
namespace MaxIOFS.StoreKeys
open ByteString (Bytes ascii hasPrefix)
open Utf8 (Text coerced coercedText)
open OrderedStore MetadataStore Records ObjectManager BucketManager TagIndex TagSearch List PartFiles VersionHistory
variable {bucket key name : Bytes}

structure VersionName where
  (bucket key versionID : Bytes)
  deriving DecidableEq

structure TagEntry where
  (bucket name value key : Bytes)
  deriving DecidableEq

structure ACLName where
  (tenantID bucket key : Bytes)
  deriving DecidableEq

def VersionName.storeKey (r : VersionName) : Bytes := objectVersionKey r.bucket r.key r.versionID
def TagEntry.storeKey (e : TagEntry) : Bytes := tagIndexKey e.bucket e.name e.value e.key
def ACLName.storeKey (a : ACLName) : Bytes := objectACLKey a.tenantID a.bucket a.key

structure Names where
  versions : List VersionName
  tags : List TagEntry
  acls : List ACLName

def lowerHex (b : UInt8) : Bool := decide (48 ≤ b ∧ b ≤ 57 ∨ 97 ≤ b ∧ b ≤ 102)

def generatedTenantID (tenantID : Bytes) : Bool := hasPrefix (ascii "tenant-") tenantID && (tenantID.drop 7).all lowerHex

def acceptedTenant (tenantID : Bytes) : Bool := decide (tenantID = []) || generatedTenantID tenantID

def AcceptedBucket (path : Bytes) : Prop :=
  ∃ tenantID name, acceptedTenant tenantID = true ∧ validateBucketName name = true ∧ path = bucketPathForMutation tenantID name

structure Accepted (names : Names) : Prop where
  versions : ∀ r ∈ names.versions, AcceptedBucket r.bucket ∧ validateObjectName r.key = true ∧ validateReplicatedVersionID r.versionID = true
  tags : ∀ e ∈ names.tags, AcceptedBucket e.bucket ∧ e.name ≠ [] ∧ validateObjectName e.key = true
  acls : ∀ a ∈ names.acls, acceptedTenant a.tenantID = true ∧ validateBucketName a.bucket = true ∧ validateObjectName a.key = true

theorem tenantPlain {tenantID} (accepted : acceptedTenant tenantID = true) : ByteString.colon ∉ tenantID := by
  intro mem
  simp only [acceptedTenant,generatedTenantID,Bool.or_eq_true,Bool.and_eq_true,decide_eq_true_eq,ByteString.hasPrefixIff] at accepted
  rcases accepted with rfl | ⟨⟨rest,rfl⟩,hex⟩
  · cases mem
  rcases mem_append.mp mem with front | back
  · exact absurd front (by decide)
  · have digit := all_eq_true.mp hex ByteString.colon back
    exact absurd digit (by decide)

theorem namePlain (accepted : validateBucketName name = true) : ByteString.colon ∉ name := by
  intro mem
  simp only [validateBucketName,Bool.and_eq_true] at accepted
  have letter := all_eq_true.mp accepted.1.1.1.1.1.2 ByteString.colon mem
  exact absurd letter (by decide)

theorem bucketPlain {path} (accepted : AcceptedBucket path) : ByteString.colon ∉ path := by
  obtain ⟨_,_,tenant,valid,rfl⟩ := accepted
  unfold bucketPathForMutation
  split
  · exact namePlain valid
  intro mem
  rcases mem_append.mp mem with front | back
  · rcases mem_append.mp front with mem | mem
    · exact tenantPlain tenant mem
    · exact absurd mem (by decide)
  · exact namePlain valid back

structure Stores (db : Database) (versions : List VersionName) : Prop where
  own : ∀ {q obj}, db.versions.get q = some obj → ∃ r ∈ versions, q = r.storeKey ∧ obj.key = coerced r.key ∧ obj.versionID = coerced r.versionID
  held : ∀ r ∈ versions, (db.versions.get r.storeKey).isSome = true

def Indexes (db : Database) (tags : List TagEntry) : Prop := ∀ q, (db.tagIndex.get q).isSome = true ↔ q ∈ tags.map TagEntry.storeKey

structure Unambiguous (names : Names) : Prop where
  objects : ∀ {bucket key bucket' key'}, AcceptedBucket bucket → AcceptedBucket bucket' →
    objectKey bucket key = objectKey bucket' key' → bucket = bucket' ∧ key = key'
  uploads : ∀ {uploadID uploadID'}, multipartUploadKey uploadID = multipartUploadKey uploadID' → uploadID = uploadID'
  parts : ∀ {uploadID uploadID' n n'}, 0 < n → 0 < n' → partKey uploadID n = partKey uploadID' n' → uploadID = uploadID' ∧ n = n'
  versions : ∀ r ∈ names.versions, ∀ r' ∈ names.versions, r.storeKey = r'.storeKey → r = r'
  tags : ∀ e ∈ names.tags, ∀ e' ∈ names.tags, e.storeKey = e'.storeKey → e = e'
  acls : ∀ a ∈ names.acls, ∀ a' ∈ names.acls, a.storeKey = a'.storeKey → a = a'
  versionScan : ∀ db, Stores db names.versions → ∀ sorting {bucket key}, AcceptedBucket bucket →
    ∀ id, id ∈ (db.getObjectVersions sorting bucket key).map ObjectVersion.versionID ↔ ⟨bucket, key, id⟩ ∈ names.versions
  tagScan : ∀ db, Indexes db names.tags → ∀ {bucket name value}, AcceptedBucket bucket → name ≠ [] →
    ∀ key, key ∈ db.candidateKeys bucket [] [] (name, value) ↔ ⟨bucket, name, value, key⟩ ∈ names.tags

-- The colons that make a key ambiguous, and the texts that a scan does not find again. A tag's name is not empty, so
-- that a colon in its first place separates nothing.
structure Apart (names : Names) : Prop where
  versions : ∀ bucket key x v, ⟨bucket, key, x ++ colon ++ v⟩ ∈ names.versions → ⟨bucket, key ++ colon ++ x, v⟩ ∉ names.versions
  texts : ∀ r ∈ names.versions, Text r.key ∧ Text r.versionID
  tags : ∀ e ∈ names.tags, ByteString.colon ∉ e.name.tail ∧ ByteString.colon ∉ e.value ∧ ByteString.colon ∉ e.key
  acls : ∀ tenantID bucket key, tenantID ≠ [] → ⟨tenantID, bucket, key⟩ ∈ names.acls → ⟨[], tenantID, bucket ++ colon ++ key⟩ ∉ names.acls

theorem partsApart {uploadID uploadID' n n'} (positive : 0 < n) (positive' : 0 < n')
    (same : partKey uploadID n = partKey uploadID' n') : uploadID = uploadID' ∧ n = n' := by
  have tails : uploadID ++ 58 :: fiveDigits n = uploadID' ++ 58 :: fiveDigits n' := by
    simpa [partKey,partListPrefix,colon,ascii] using same
  obtain ⟨ids,numbers⟩ := ByteString.lastSeparator tails (fiveDigitsFree (by decide)) (fiveDigitsFree (by decide))
  exact ⟨ids,PartRaces.fiveDigitsInj positive positive' numbers⟩

theorem versionSplit {k v k' v'} (same : k ++ ByteString.colon :: v = k' ++ ByteString.colon :: v') :
    k = k' ∧ v = v' ∨ (∃ x, k' = k ++ colon ++ x ∧ v = x ++ colon ++ v') ∨ ∃ x, k = k' ++ colon ++ x ∧ v' = x ++ colon ++ v := by
  have step {k v k' v' a} (key : k' = k ++ a) (rest : ByteString.colon :: v = a ++ ByteString.colon :: v') :
      k = k' ∧ v = v' ∨ ∃ x, k' = k ++ colon ++ x ∧ v = x ++ colon ++ v' := by
    cases a with
    | nil => exact .inl ⟨by simpa using key.symm,(List.cons.inj rest).2⟩
    | cons c x =>
      obtain ⟨rfl,tail⟩ := List.cons.inj rest
      have value : v = x ++ colon ++ v' := by
        rw [append_assoc]
        exact tail
      exact .inr ⟨x,by rw [key,append_assoc]; rfl,value⟩
  rcases append_eq_append_iff.mp same with ⟨_,key,rest⟩ | ⟨_,key,rest⟩
  · exact (step key rest).imp_right .inl
  rcases step key rest with ⟨key,rest⟩ | split
  · exact .inl ⟨key.symm,rest.symm⟩
  · exact .inr (.inr split)

theorem versionKeyShape (bucket key v : Bytes) : objectVersionKey bucket key v =
    ascii "version:" ++ (bucket ++ ByteString.colon :: (key ++ ByteString.colon :: v)) := by
  simp [objectVersionKey,versionPrefix,colon,ascii,ByteString.colon]

variable {names : Names}

theorem versionsIff (accepted : Accepted names) : (∀ r ∈ names.versions, ∀ r' ∈ names.versions, r.storeKey = r'.storeKey → r = r') ↔
      ∀ bucket key x v, ⟨bucket,key,x ++ colon ++ v⟩ ∈ names.versions → ⟨bucket,key ++ colon ++ x,v⟩ ∉ names.versions := by
  constructor
  · intro apart bucket key x v long short
    have same := apart _ long _ short (by simp [VersionName.storeKey,objectVersionKey,versionPrefix])
    have length := congrArg (fun r => r.key.length) same
    simp [colon,ascii] at length
  · rintro apart ⟨b,k,v⟩ mem ⟨b',k',v'⟩ mem' same
    simp only [VersionName.storeKey,versionKeyShape] at same
    obtain ⟨rfl,texts⟩ := separatorInj (bucketPlain (accepted.versions _ mem).1) (bucketPlain (accepted.versions _ mem').1)
      (append_cancel_left same)
    rcases versionSplit texts with ⟨rfl,rfl⟩ | ⟨x,rfl,rfl⟩ | ⟨x,rfl,rfl⟩
    · rfl
    · exact absurd mem' (apart b k x v' mem)
    · exact absurd mem (apart b k' x v mem')

theorem memScanned {db : Database} {sorting : VersionSort} {id} : id ∈ (db.getObjectVersions sorting bucket key).map ObjectVersion.versionID ↔
    ∃ q obj, db.versions.get q = some obj ∧ versionPrefix bucket key <+: q ∧ obj.key = key ∧ obj.versionID = id := by
  rw [Database.getObjectVersions,((sorting.perm _).map _).mem_iff,map_map,mem_map]
  constructor
  · rintro ⟨⟨q,obj⟩,mem,rfl⟩
    obtain ⟨scanned,own⟩ := mem_filter.mp mem
    obtain ⟨stored,inside⟩ := Store.memScan.mp scanned
    exact ⟨q,obj,stored,inside,of_decide_eq_true own,rfl⟩
  · rintro ⟨q,obj,stored,inside,own,rfl⟩
    exact ⟨(q, obj),mem_filter.mpr ⟨Store.memScan.mpr ⟨stored,inside⟩,decide_eq_true own⟩,rfl⟩

theorem versionsScanned (accepted : Accepted names) (apart : Apart names) {db} (stores : Stores db names.versions) (sorting : VersionSort)
    (valid : AcceptedBucket bucket) (id : Bytes) :
    id ∈ (db.getObjectVersions sorting bucket key).map ObjectVersion.versionID ↔ ⟨bucket,key,id⟩ ∈ names.versions := by
  rw [memScanned]
  constructor
  · rintro ⟨_,obj,stored,inside,rfl,rfl⟩
    obtain ⟨⟨b,k,v⟩,mem,rfl,keyed,identified⟩ := stores.own stored
    obtain ⟨text,text'⟩ := apart.texts _ mem
    have home : b = bucket := spaceInj (bucketPlain (accepted.versions _ mem).1) (bucketPlain valid)
      (inVersionSpace b k v) ((versionPrefixSpace bucket obj.key).trans inside)
    rw [keyed,identified,show coerced k = k from text,show coerced v = v from text',← home]
    exact mem
  · intro mem
    obtain ⟨obj,stored⟩ := Option.isSome_iff_exists.mp (stores.held _ mem)
    obtain ⟨r,mem',same,keyed,identified⟩ := stores.own stored
    cases (versionsIff accepted).mpr apart.versions _ mem _ mem' same
    obtain ⟨text,text'⟩ := apart.texts _ mem
    exact ⟨_,obj,stored,prefixOfVersionKey ..,keyed.trans text,identified.trans text'⟩

def versionsOf (versions : List VersionName) : Database :=
  { emptyDatabase with
    versions := OrderedStore.empty.setAll (versions.map fun r =>
      (r.storeKey, JsonRecords.unmarshalled (deleteMarkerObject 0 r.bucket r.key r.versionID))) }

theorem versionsOfStores (versions : List VersionName) : Stores (versionsOf versions) versions where
  own := by
    intro q obj stored
    rcases Store.getSetAllFrom stored with mem | none_
    · obtain ⟨r,named,same⟩ := mem_map.mp mem
      cases same
      exact ⟨r,named,rfl,rfl,rfl⟩
    · contradiction
  held := by
    intro r mem
    refine Store.isSomeSetAll.mpr (.inl ?_)
    rw [map_map]
    exact mem_map.mpr ⟨r,mem,rfl⟩

-- A version is found under its own key only where the record holds that key.
theorem scannedTexts (accepted : Accepted names) (scan : ∀ db, Stores db names.versions → ∀ sorting {bucket key}, AcceptedBucket bucket →
      ∀ id, id ∈ (db.getObjectVersions sorting bucket key).map ObjectVersion.versionID ↔ ⟨bucket,key,id⟩ ∈ names.versions)
    (sorting : VersionSort) : ∀ r ∈ names.versions, Text r.key ∧ Text r.versionID := by
  rintro ⟨b,k,v⟩ mem
  have found := (scan _ (versionsOfStores names.versions) sorting (accepted.versions _ mem).1 v).mpr mem
  obtain ⟨q,obj,stored,-,rfl,rfl⟩ := memScanned.mp found
  obtain ⟨r,-,-,keyed,identified⟩ := (versionsOfStores names.versions).own stored
  rw [keyed,identified]
  exact ⟨coercedText _,coercedText _⟩

theorem tagKeyShape (bucket name value key : Bytes) : tagIndexKey bucket name value key =
    ascii "tag_idx:" ++ (bucket ++ ByteString.colon :: (name ++ ByteString.colon :: (value ++ ByteString.colon :: key))) := by
  simp [tagIndexKey,colon,ascii,ByteString.colon]

theorem tagReading {value e} (plain : ByteString.colon ∉ bucket) (plain' : ByteString.colon ∉ e.bucket) (named : name ≠ []) (named' : e.name ≠ [])
    (free : ByteString.colon ∉ e.name.tail ∧ ByteString.colon ∉ e.value ∧ ByteString.colon ∉ e.key)
    (same : tagIndexKey bucket name value key = e.storeKey) : (⟨bucket,name,value,key⟩ : TagEntry) = e := by
  obtain ⟨_,n,v,k⟩ := e
  obtain ⟨_,n,rfl⟩ := exists_cons_of_ne_nil named'
  obtain ⟨_,name,rfl⟩ := exists_cons_of_ne_nil named
  obtain ⟨freeName,freeValue,freeKey⟩ := free
  simp only [TagEntry.storeKey,tagKeyShape] at same
  obtain ⟨rfl,texts⟩ := separatorInj plain plain' (append_cancel_left same)
  obtain ⟨rfl,rest⟩ := List.cons.inj texts
  change name ++ ByteString.colon :: (value ++ ByteString.colon :: key) = n ++ ByteString.colon :: (v ++ ByteString.colon :: k) at rest
  have colons := congrArg (List.count ByteString.colon) rest
  simp only [count_append,count_cons_self,count_eq_zero.mpr freeKey,count_eq_zero.mpr freeValue,
    count_eq_zero.mpr (show ByteString.colon ∉ n from freeName)] at colons
  obtain ⟨rfl,values⟩ := separatorInj (count_eq_zero.mp (by omega)) freeName rest
  obtain ⟨rfl,rfl⟩ := separatorInj (count_eq_zero.mp (by omega)) freeValue values
  rfl

theorem memCandidate {db tags} (indexes : Indexes db tags) {value} :
    key ∈ db.candidateKeys bucket [] [] (name, value) ↔ ∃ e ∈ tags, tagIndexKey bucket name value key = e.storeKey := by
  rw [memCandidates,indexes,mem_map]
  constructor
  · rintro ⟨⟨e,mem,same⟩,-⟩
    exact ⟨e,mem,same.symm⟩
  · rintro ⟨e,mem,same⟩
    exact ⟨⟨e,mem,same.symm⟩, nil_prefix,.inl rfl⟩

def indexOf (tags : List TagEntry) : Database := { emptyDatabase with tagIndex := OrderedStore.empty.setAll (tags.map fun e => (e.storeKey, ())) }

theorem indexOfIndexes (tags : List TagEntry) : Indexes (indexOf tags) tags := by
  intro q
  rw [indexOf,Store.isSomeSetAll]
  simp

theorem tagsIff (accepted : Accepted names) : ((∀ e ∈ names.tags, ∀ e' ∈ names.tags, e.storeKey = e'.storeKey → e = e') ∧
      ∀ db, Indexes db names.tags → ∀ {bucket name value}, AcceptedBucket bucket → name ≠ [] →
        ∀ key, key ∈ db.candidateKeys bucket [] [] (name, value) ↔ ⟨bucket,name,value,key⟩ ∈ names.tags) ↔
      ∀ e ∈ names.tags, ByteString.colon ∉ e.name.tail ∧ ByteString.colon ∉ e.value ∧ ByteString.colon ∉ e.key := by
  constructor
  · rintro ⟨apart,scan⟩ e mem
    obtain ⟨valid,named,-⟩ := accepted.tags e mem
    -- Any other reading of the entry's text would be found by a search, and be an entry of its own.
    have only name value key (some_ : name ≠ []) (same : tagIndexKey e.bucket name value key = e.storeKey) :
        (⟨e.bucket,name,value,key⟩ : TagEntry) = e := by
      have found := (memCandidate (indexOfIndexes names.tags)).mpr ⟨e,mem,same⟩
      exact apart _ ((scan _ (indexOfIndexes names.tags) valid some_ key).mp found) e mem same
    obtain ⟨_,n,v,k⟩ := e
    refine ⟨fun colonIn => ?_,fun colonIn => ?_,fun colonIn => ?_⟩
    · obtain ⟨c,n,rfl⟩ := exists_cons_of_ne_nil named
      obtain ⟨x,y,rfl⟩ := append_of_mem (show ByteString.colon ∈ n from colonIn)
      have other := only (c :: x) (y ++ ByteString.colon :: v) k (by simp) (by simp [TagEntry.storeKey,tagKeyShape])
      have length := congrArg (fun e => e.name.length) other
      simp at length
    · obtain ⟨x,y,rfl⟩ := append_of_mem colonIn
      have other := only (n ++ ByteString.colon :: x) y k (by simp) (by simp [TagEntry.storeKey,tagKeyShape])
      have length := congrArg (fun e => e.name.length) other
      simp at length
    · obtain ⟨x,y,rfl⟩ := append_of_mem colonIn
      have other := only (n ++ ByteString.colon :: v) x y (by simp) (by simp [TagEntry.storeKey,tagKeyShape])
      have length := congrArg (fun e => e.name.length) other
      simp at length
  · intro free
    have reading {bucket name value key} valid named {e} mem
        (same : tagIndexKey bucket name value key = e.storeKey) : (⟨bucket,name,value,key⟩ : TagEntry) = e :=
      tagReading (bucketPlain valid) (bucketPlain (accepted.tags e mem).1) named (accepted.tags e mem).2.1 (free e mem) same
    refine ⟨fun e mem e' mem' same => reading (accepted.tags e mem).1 (accepted.tags e mem).2.1 mem' same,
      fun db indexes bucket name value valid named key => (memCandidate indexes).trans ⟨?_,fun mem => ⟨_,mem,rfl⟩⟩⟩
    rintro ⟨_,mem,same⟩
    exact reading valid named mem same ▸ mem

theorem aclsIff (accepted : Accepted names) : (∀ a ∈ names.acls, ∀ a' ∈ names.acls, a.storeKey = a'.storeKey → a = a') ↔
      ∀ tenantID bucket key, tenantID ≠ [] → ⟨tenantID,bucket,key⟩ ∈ names.acls → ⟨[],tenantID,bucket ++ colon ++ key⟩ ∉ names.acls := by
  have global b k : objectACLKey [] b k = ascii "acl:object:" ++ (b ++ ByteString.colon :: k) := by
    simp [objectACLKey,colon,ascii,ByteString.colon]
  have owned {t} (some_ : t ≠ []) b k : objectACLKey t b k = ascii "acl:object:" ++ (t ++ ByteString.colon :: (b ++ ByteString.colon :: k)) := by
    simp [objectACLKey,some_,colon,ascii,ByteString.colon]
  constructor
  · intro apart tenantID bucket key some_ long short
    have same := apart _ long _ short (by
      rw [ACLName.storeKey,ACLName.storeKey,owned some_,global,append_assoc]
      rfl)
    exact some_ (congrArg ACLName.tenantID same)
  · rintro apart ⟨t,b,k⟩ mem ⟨t',b',k'⟩ mem' same
    have plain := tenantPlain (accepted.acls _ mem).1
    have plain' := tenantPlain (accepted.acls _ mem').1
    have free := namePlain (accepted.acls _ mem).2.1
    have free' := namePlain (accepted.acls _ mem').2.1
    simp only [ACLName.storeKey] at same
    by_cases none_ : t = []
    · by_cases none' : t' = []
      · subst none_ none'
        rw [global,global] at same
        obtain ⟨rfl,rfl⟩ := separatorInj free free' (append_cancel_left same)
        rfl
      · subst none_
        rw [global,owned none'] at same
        obtain ⟨rfl,rfl⟩ := separatorInj free plain' (append_cancel_left same)
        refine absurd mem ?_
        have other := apart b b' k' none' mem'
        rwa [append_assoc] at other
    · by_cases none' : t' = []
      · subst none'
        rw [global,owned none_] at same
        obtain ⟨rfl,rfl⟩ := separatorInj plain free' (append_cancel_left same)
        refine absurd mem' ?_
        have other := apart t b k none_ mem
        rwa [append_assoc] at other
      · rw [owned none_,owned none'] at same
        obtain ⟨rfl,rest⟩ := separatorInj plain plain' (append_cancel_left same)
        obtain ⟨rfl,rfl⟩ := separatorInj free free' rest
        rfl

/-- The keys of accepted names are unambiguous exactly when no colon of theirs can be taken for a separator. -/
theorem keysUnambiguous {names} (accepted : Accepted names) : Unambiguous names ↔ Apart names := by
  constructor
  · intro unambiguous
    exact ⟨(versionsIff accepted).mp unambiguous.versions,scannedTexts accepted unambiguous.versionScan ManagerRuns.byTime,
      (tagsIff accepted).mp ⟨unambiguous.tags,unambiguous.tagScan⟩,
      (aclsIff accepted).mp unambiguous.acls⟩
  intro apart
  obtain ⟨tags,scan⟩ := (tagsIff accepted).mpr apart.tags
  exact {
    objects := fun valid valid' => (TagIndex.objectKeyPair (bucketPlain valid) (bucketPlain valid')).mp
    uploads := append_cancel_left
    parts := partsApart
    versions := (versionsIff accepted).mpr apart.versions
    tags := tags
    acls := (aclsIff accepted).mpr apart.acls
    versionScan := fun db stores sorting _ _ valid id => versionsScanned accepted apart stores sorting valid id
    tagScan := scan }

theorem bucketAccepted : AcceptedBucket (ascii "bkt") := ⟨[],ascii "bkt",by decide,by decide,rfl⟩

def twoTags : Names := ⟨[], [⟨ascii "bkt", ascii "a", ascii "b:c", ascii "k"⟩, ⟨ascii "bkt", ascii "a:b", ascii "c", ascii "k"⟩], []⟩

-- A colon in a tag's value and one in a tag's name: two tags, one key.
theorem tagsCollide : Accepted twoTags ∧ ¬ Unambiguous twoTags := by
  constructor
  · refine ⟨nofun,fun e mem => ?_,nofun⟩
    have valid : ∀ e ∈ twoTags.tags, e.bucket = ascii "bkt" ∧ e.name ≠ [] ∧ validateObjectName e.key = true := by decide
    obtain ⟨home,rest⟩ := valid e mem
    exact ⟨home ▸ bucketAccepted,rest⟩
  · intro unambiguous
    have same := unambiguous.tags _ mem_cons_self _ (mem_cons_of_mem _ (mem_singleton.mpr rfl)) (by decide)
    exact absurd same (by decide)

def plainNames : Names :=
  ⟨[⟨ascii "bkt", ascii "k:x", ascii "1"⟩, ⟨ascii "bkt", ascii "k", ascii "1"⟩], [⟨ascii "bkt", ascii "colour", ascii "blue", ascii "k"⟩],
    [⟨ascii "tenant-ab", ascii "bkt", ascii "k"⟩, ⟨[], ascii "bkt", ascii "k"⟩]⟩

theorem plainUnambiguous : Accepted plainNames ∧ Unambiguous plainNames := by
  have accepted : Accepted plainNames := by
    refine ⟨fun r mem => ?_,fun e mem => ?_,by decide⟩
    · have valid : ∀ r ∈ plainNames.versions, r.bucket = ascii "bkt" ∧ validateObjectName r.key = true ∧
          validateReplicatedVersionID r.versionID = true := by decide
      obtain ⟨home,rest⟩ := valid r mem
      exact ⟨home ▸ bucketAccepted,rest⟩
    · have valid : ∀ e ∈ plainNames.tags, e.bucket = ascii "bkt" ∧ e.name ≠ [] ∧ validateObjectName e.key = true := by decide
      obtain ⟨home,rest⟩ := valid e mem
      exact ⟨home ▸ bucketAccepted,rest⟩
  refine ⟨accepted,(keysUnambiguous accepted).mpr ⟨fun bucket key x v mem => ?_,by decide,by decide,fun tenantID bucket key some_ mem => ?_⟩⟩
  · have free : ∀ r ∈ plainNames.versions, ByteString.colon ∉ r.versionID := by decide
    exact absurd (by simp [colon,ascii,ByteString.colon]) (free _ mem)
  · have apart : ∀ a ∈ plainNames.acls, ∀ a' ∈ plainNames.acls, a.tenantID ≠ [] → a'.tenantID = [] → a'.bucket ≠ a.tenantID := by decide
    exact fun other => apart _ mem _ other some_ rfl rfl

end MaxIOFS.StoreKeys
