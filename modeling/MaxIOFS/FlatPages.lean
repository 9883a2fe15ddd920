import MaxIOFS.JsonRecords
import MaxIOFS.Listing
import MaxIOFS.Pagination
import MaxIOFS.ManagerRuns

/-! Flat listing, page after page. The records of a prefix come in the byte order of their
keys, a page is the front of those behind its marker, and its last key is the next marker. The
order is that of the keys the records are filed under, while a page shows the keys in them. -/
namespace MaxIOFS.FlatPages
open OrderedStore
open ByteString (Bytes ascii splitFirst)
open MetadataStore Records ObjectManager VersionHistory Pagination ManagerRuns
open Runs (run)
open Utf8 (Text coercedText)
open JsonRecords (Encoded)
open List hiding after
open List.Pairwise

def Kept (bucket : Bytes) (db : Database) : Prop :=
  ∀ q obj, db.objects.get q = some obj → objectSpace bucket <+: q → obj.key ≠ [] ∧ q = objectKey bucket obj.key

theorem keptFiled {bucket db} (filed : Filed bucket db) : Kept bucket db := by
  intro q obj stored inside
  obtain ⟨identified,own⟩ := filed.objects q obj stored inside
  exact ⟨identified.key,own⟩

/-- The key an entry is filed under; its record's own is what JSON has kept of it. -/
def keyOf (bucket : Bytes) (e : Entry) : Bytes := e.1.drop (objectSpace bucket).length

def Addressed (bucket : Bytes) (db : Database) : Prop := db.objects.get (objectKey bucket []) = none

theorem keptAddressed {bucket db} (kept : Kept bucket db) : Addressed bucket db := by
  refine Option.eq_none_iff_forall_ne_some.mpr fun obj stored => ?_
  obtain ⟨named,own⟩ := kept _ obj stored inObjectSpace
  exact named (append_cancel_left own).symm

theorem splitFirstAt {c a} (free : c ∉ a) (b : Bytes) : splitFirst c (a ++ c :: b) = (a, some b) := by
  induction a with
  | nil => simp [splitFirst]
  | cons head rest ih =>
    obtain ⟨other,free⟩ := not_or.mp (List.mem_cons.not.mp free)
    rw [cons_append,splitFirst,if_neg (Ne.symm other),ih free]

theorem extractKey {bucket} (plain : ByteString.colon ∉ bucket) (key : Bytes) : extractObjectKeyFromKey (objectKey bucket key) = key := by
  have shape : objectKey bucket key = ascii "obj" ++ ByteString.colon :: (bucket ++ ByteString.colon :: key) := by
    simp [objectKey,colon,ascii,ByteString.colon]
  rw [extractObjectKeyFromKey,shape,splitFirstAt (by decide)]
  simp only [splitFirstAt plain,Option.getD_some]

theorem appendLt (p a b : Bytes) : p ++ a < p ++ b ↔ a < b := by
  induction p with
  | nil => rfl
  | cons c rest ih => rw [cons_append,cons_append,consLt,ih]; simp

theorem objectKeyLt (bucket a b : Bytes) : objectKey bucket a < objectKey bucket b ↔ a < b := appendLt _ a b

section
variable {bucket start : Bytes} {db : Database}

theorem entryOwn (addressed : Addressed bucket db) {e} (mem : e ∈ db.objects.scan (objectKey bucket start)) :
    e.1 = objectKey bucket (keyOf bucket e) ∧ keyOf bucket e ≠ [] ∧ start <+: keyOf bucket e ∧ db.objects.get e.1 = some e.2 := by
  obtain ⟨stored,rest,inside⟩ := Store.memScan.mp mem
  have shape : e.1 = objectKey bucket (start ++ rest) := by rw [← inside,objectKey,objectKey,append_assoc]
  have own : keyOf bucket e = start ++ rest := by
    rw [keyOf,shape]
    exact drop_left
  refine ⟨own ▸ shape,fun none_ => ?_,own ▸ prefix_append ..,stored⟩
  rw [shape,← own,none_,addressed] at stored
  cases stored

theorem keptKey (kept : Kept bucket db) {e} (mem : e ∈ db.objects.scan (objectKey bucket start)) : keyOf bucket e = e.2.key := by
  obtain ⟨own,_,_,stored⟩ := entryOwn (keptAddressed kept) mem
  exact append_cancel_left (own.symm.trans (kept _ _ stored (own ▸ inObjectSpace)).2)

theorem entriesSorted (addressed : Addressed bucket db) :
    (db.objects.scan (objectKey bucket start)).Pairwise (fun a b => keyOf bucket a < keyOf bucket b) := by
  refine (filter _ db.objects.sorted).imp_of_mem fun {a b} memA memB less => ?_
  rw [(entryOwn addressed memA).1,(entryOwn addressed memB).1] at less
  exact (objectKeyLt ..).mp less

theorem keptSorted (kept : Kept bucket db) : (db.objects.scan (objectKey bucket start)).Pairwise (fun a b => a.2.key < b.2.key) :=
  (entriesSorted (keptAddressed kept)).imp_of_mem fun memA memB less => by rwa [keptKey kept memA,keptKey kept memB] at less

end

section
variable {bucket marker : Bytes} {maxKeys : Nat}

theorem loopAll {entries count} (lastKey : Bytes) (fits : entries.length + count ≤ maxKeys) :
    listLoop marker maxKeys true count lastKey entries = (entries.map Prod.snd, []) := by
  induction entries generalizing count lastKey with
  | nil => rfl
  | cons e rest ih =>
    simp only [length_cons] at fits
    rw [listLoop,if_neg (by simp),if_neg (by omega),ih _ (by omega)]
    rfl

theorem loopCut {front rest e count} (lastKey : Bytes) (own : ∀ a ∈ front, extractObjectKeyFromKey a.1 = keyOf bucket a)
    (full : front.length + count = maxKeys) :
    listLoop marker maxKeys true count lastKey (front ++ e :: rest) = (front.map Prod.snd, (front.getLast?.map (keyOf bucket)).getD lastKey) := by
  induction front generalizing count lastKey with
  | nil =>
    rw [nil_append,listLoop,if_neg (by simp),if_pos (by simpa using full.ge)]
    rfl
  | cons a front ih =>
    simp only [length_cons] at full
    rw [cons_append,listLoop,if_neg (by simp),if_neg (by omega),ih _ (fun b mem => own b (mem_cons_of_mem _ mem)) (by omega),own a mem_cons_self]
    cases front with
    | nil => rfl
    | cons b front => rw [List.getLast?_eq_some_getLast (cons_ne_nil b front)]; rfl

theorem loopStart {entries} (sorted : entries.Pairwise (fun a b => keyOf bucket a < keyOf bucket b))
    (own : ∀ a ∈ entries, extractObjectKeyFromKey a.1 = keyOf bucket a) (reached : ∀ a ∈ entries, marker ≤ keyOf bucket a) :
    listLoop marker maxKeys false 0 [] entries = listLoop marker maxKeys true 0 [] (after (keyOf bucket) marker entries) := by
  cases entries with
  | nil => rfl
  | cons e rest =>
    by_cases here : keyOf bucket e = marker
    · have behind := afterSplit (nil_append (e :: rest) ▸ sorted)
      rw [nil_append,here] at behind
      rw [behind,listLoop,if_pos ⟨rfl,(own e mem_cons_self).trans here⟩]
    have whole : after (keyOf bucket) marker (e :: rest) = e :: rest := by
      refine filter_eq_self.mpr fun a mem => ?_
      have above : marker < keyOf bucket e := lt_of_le_of_ne (reached e mem_cons_self) (Ne.symm here)
      rcases mem_cons.mp mem with rfl | inside
      · simpa using above
      · simpa using above.trans ((pairwise_cons.mp sorted).1 a inside)
    have started : extractObjectKeyFromKey e.1 ≠ marker := by rwa [own e mem_cons_self]
    rw [whole]
    simp only [listLoop,started,and_false]

end

section
variable {bucket start marker : Bytes} {db : Database} {maxKeys : Int}

def behind (db : Database) (bucket start marker : Bytes) : List Entry := after (keyOf bucket) marker (db.objects.scan (objectKey bucket start))

theorem pageSizePos (maxKeys : Int) : 0 < pageSize maxKeys := by
  unfold pageSize
  split <;> omega

theorem seekScan (addressed : Addressed bucket db) : seekGE (objectKey bucket marker) (db.objects.scan (objectKey bucket start)) =
    (db.objects.scan (objectKey bucket start)).filter (fun e => decide (marker ≤ keyOf bucket e)) := by
  have stored : (db.objects.scan (objectKey bucket start)).Pairwise (fun a b => a.1 < b.1) := filter _ db.objects.sorted
  have sought : seekGE (objectKey bucket marker) (db.objects.scan (objectKey bucket start)) =
      (db.objects.scan (objectKey bucket start)).filter (fun e => decide (objectKey bucket marker ≤ e.1)) := by
    unfold seekGE
    convert seekSorted stored (objectKey bucket marker)
  rw [sought]
  refine filter_congr fun e mem => ?_
  rw [(entryOwn addressed mem).1,decide_eq_decide,← not_lt,objectKeyLt,not_lt]

variable (bucket) in
theorem afterReached (entries : List Entry) : after (keyOf bucket) marker (entries.filter (fun e => decide (marker ≤ keyOf bucket e))) =
    after (keyOf bucket) marker entries := by
  unfold after
  rw [filter_filter]
  refine filter_congr fun e _ => ?_
  by_cases above : marker < keyOf bucket e
  · simp [above.le]
  · simp [above]

theorem afterNothing (addressed : Addressed bucket db) : after (keyOf bucket) [] (db.objects.scan (objectKey bucket start)) =
    db.objects.scan (objectKey bucket start) := by
  refine filter_eq_self.mpr fun a mem => ?_
  simpa using lt_of_le_of_ne (nilLe _) (Ne.symm (entryOwn addressed mem).2.1)

theorem pageLoop (plain : ByteString.colon ∉ bucket) (addressed : Addressed bucket db) (home : bucket ≠ []) :
    db.listObjects bucket start marker maxKeys =
      .ok (listLoop marker (pageSize maxKeys) true 0 [] (behind db bucket start marker)) := by
  have own : ∀ a ∈ db.objects.scan (objectKey bucket start), extractObjectKeyFromKey a.1 = keyOf bucket a := fun a mem => by
    rw [(entryOwn addressed mem).1,extractKey plain]
  unfold Database.listObjects behind
  rw [if_neg home]
  by_cases first : marker = []
  · rw [first,afterNothing addressed]
    simp
  have sorted : ((db.objects.scan (objectKey bucket start)).filter (fun e => decide (marker ≤ keyOf bucket e))).Pairwise
      (fun a b => keyOf bucket a < keyOf bucket b) := filter _ (entriesSorted addressed)
  simp only [first,if_false,decide_false]
  rw [seekScan addressed,loopStart sorted (fun a mem => own a (mem_of_mem_filter mem)) (fun a mem => by simpa using (mem_filter.mp mem).2),
    afterReached]

theorem pageCases (start marker : Bytes) (maxKeys : Int) (plain : ByteString.colon ∉ bucket) (addressed : Addressed bucket db)
    (home : bucket ≠ []) :
    db.listObjects bucket start marker maxKeys = .ok ((behind db bucket start marker).map Prod.snd, []) ∨
    ∃ front next, db.listObjects bucket start marker maxKeys = .ok (front.map Prod.snd, next) ∧ next ≠ [] ∧ front ≠ [] ∧
      front ++ behind db bucket start next = behind db bucket start marker := by
  rw [pageLoop plain addressed home]
  by_cases fits : (behind db bucket start marker).length ≤ pageSize maxKeys
  · exact .inl (congrArg Except.ok (loopAll [] (by simpa using fits)))
  refine .inr ?_
  have members : ∀ a ∈ behind db bucket start marker, a ∈ db.objects.scan (objectKey bucket start) ∧ marker < keyOf bucket a :=
    fun a mem => memAfter.mp mem
  have sorted : (behind db bucket start marker).Pairwise (fun a b => keyOf bucket a < keyOf bucket b) :=
    afterSorted (entriesSorted addressed) marker
  obtain ⟨n,size⟩ : ∃ n, pageSize maxKeys = n + 1 := ⟨pageSize maxKeys - 1,by have := pageSizePos maxKeys; omega⟩
  obtain ⟨front,last,next,rest,split,length⟩ : ∃ front last next rest,
      behind db bucket start marker = front ++ last :: next :: rest ∧ front.length = n := by
    refine ⟨(behind db bucket start marker).take n,(behind db bucket start marker)[n],
      (behind db bucket start marker)[n + 1],(behind db bucket start marker).drop (n + 2),?_,?_⟩
    · rw [← drop_eq_getElem_cons,← drop_eq_getElem_cons,take_append_drop]
    · rw [length_take]
      omega
  have lastMem := members last (split ▸ by simp)
  refine ⟨front ++ [last],keyOf bucket last,?_,(entryOwn addressed lastMem.1).2.1,by simp,?_⟩
  · have cut : listLoop marker (pageSize maxKeys) true 0 [] ((front ++ [last]) ++ next :: rest) = _ := loopCut [] (fun a mem => by
        have inside := members a (by rw [split]; simp only [mem_append,mem_cons] at mem ⊢; tauto)
        rw [(entryOwn addressed inside.1).1,extractKey plain]) (by simp [length,size])
    rw [split]
    simpa using congrArg (fun page => (.ok page : Except MetadataError _)) cut
  · rw [split] at sorted
    rw [behind,← afterAfter lastMem.2.le,← behind,split,afterSplit sorted,append_assoc,singleton_append]

end

def readPage (s : State) (bucket start : Bytes) (maxKeys : Int) (marker : Bytes) : List Object × Option Bytes :=
  match listObjects s bucket start [] marker maxKeys with
  | .error _ => ([], none)
  | .ok page => (page.objects, if page.nextMarker = [] then none else some page.nextMarker)

def shown (entries : List Entry) : List Object := ((entries.map Prod.snd).filter listable).map fromMetadataObject

theorem shownAppend (front back : List Entry) : shown (front ++ back) = shown front ++ shown back := by simp [shown]

theorem shownKeys (entries : List Entry) : (shown entries).map Object.key = (entries.filter (fun e => listable e.2)).map (fun e => e.2.key) := by
  unfold shown
  rw [filter_map,map_map,map_map]
  rfl

section
variable {s : State} {bucket start marker : Bytes} {maxKeys : Int} {found : BucketMetadata}

theorem readPageCases (home : bucketOf s bucket = some found) (named : bucket ≠ []) (plain : ByteString.colon ∉ bucket)
    (addressed : Addressed bucket s.db) : readPage s bucket start maxKeys marker = (shown (behind s.db bucket start marker), none) ∨
    ∃ front next, readPage s bucket start maxKeys marker = (shown front, some next) ∧ front ≠ [] ∧
      front ++ behind s.db bucket start next = behind s.db bucket start marker := by
  rcases pageCases start marker (if maxKeys ≤ 0 then 1000 else maxKeys) plain addressed named with
    whole | ⟨front,next,cut,more,some_,split⟩
  · left
    simp only [readPage,listObjects,home,listFlat,whole,if_true,shown]
  · refine .inr ⟨front,next,?_,some_,split⟩
    simp only [readPage,listObjects,home,listFlat,cut,if_true,if_neg more,shown]

theorem gatherShown (home : bucketOf s bucket = some found) (named : bucket ≠ []) (plain : ByteString.colon ∉ bucket)
    (addressed : Addressed bucket s.db) {fuel} (enough : (behind s.db bucket start marker).length < fuel) :
    gather (readPage s bucket start maxKeys) fuel marker = some (shown (behind s.db bucket start marker)) := by
  refine gatherAll (fun m => shown (behind s.db bucket start m)) (fun m => (behind s.db bucket start m).length)
    (I := fun _ => True) (fun m _ ends => ?_) (fun m next _ goes => ?_) trivial enough
  · rcases readPageCases home named plain addressed with whole | ⟨front,next,cut,_⟩
    · rw [whole]
    · rw [cut] at ends
      cases ends
  · rcases readPageCases home named plain addressed with whole | ⟨front,next',cut,some_,split⟩
    · rw [whole] at goes
      cases goes
    rw [cut] at goes ⊢
    cases goes
    have grown := length_pos_iff.mpr some_
    have length := congrArg List.length split
    rw [length_append] at length
    exact ⟨trivial,by omega,by rw [← split,shownAppend]⟩

def visible (s : State) (bucket key : Bytes) : Prop := ∃ obj, s.db.objects.get (objectKey bucket key) = some obj ∧ listable obj = true

theorem behindEntry {key obj} (stored : s.db.objects.get (objectKey bucket key) = some obj) (under : start <+: key) (above : marker < key) :
    (objectKey bucket key, obj) ∈ behind s.db bucket start marker ∧ keyOf bucket (objectKey bucket key, obj) = key := by
  have own : keyOf bucket (objectKey bucket key, obj) = key := drop_left
  exact ⟨memAfter.mpr ⟨Store.memScan.mpr ⟨stored,(prefix_append_right_inj _).mpr under⟩,own.symm ▸ above⟩,own⟩

theorem visibleBehind (kept : Kept bucket s.db) {key} (seen : visible s bucket key) (above : marker < key) :
    ∃ e ∈ behind s.db bucket [] marker, e.2.key = key ∧ listable e.2 = true := by
  obtain ⟨obj,stored,shown⟩ := seen
  obtain ⟨mem,own⟩ := behindEntry stored nil_prefix above
  exact ⟨_,mem,(keptKey kept (memAfter.mp mem).1).symm.trans own,shown⟩

theorem shownMem {entries e} (mem : e ∈ entries) (seen : listable e.2 = true) : e.2.key ∈ (shown entries).map Object.key := by
  rw [shownKeys]
  exact mem_map.mpr ⟨e,mem_filter.mpr ⟨mem,seen⟩,rfl⟩

theorem pageComplete (home : bucketOf s bucket = some found) (named : bucket ≠ []) (plain : ByteString.colon ∉ bucket)
    (kept : Kept bucket s.db) (marker : Bytes) (maxKeys : Int) : ∃ page, listObjects s bucket [] [] marker maxKeys = .ok page ∧
      page.isTruncated = decide (page.nextMarker ≠ []) ∧
      ∀ key, visible s bucket key → marker < key → key ∈ page.objects.map Object.key ∨ page.nextMarker ≠ [] ∧ page.nextMarker < key := by
  rcases pageCases [] marker (if maxKeys ≤ 0 then 1000 else maxKeys) plain (keptAddressed kept) named with
    whole | ⟨front,next,cut,more,_,split⟩
  · refine ⟨_,by simp only [listObjects,home,listFlat,whole]; rfl,rfl,fun key seen above => .inl ?_⟩
    obtain ⟨e,mem,rfl,listed⟩ := visibleBehind kept seen above
    exact shownMem mem listed
  refine ⟨_,by simp only [listObjects,home,listFlat,cut]; rfl,rfl,fun key seen above => ?_⟩
  obtain ⟨e,mem,rfl,listed⟩ := visibleBehind kept seen above
  have own := keptKey kept (memAfter.mp mem).1
  rw [← split] at mem
  rcases mem_append.mp mem with here | later
  · exact .inl (shownMem here listed)
  · exact .inr ⟨more,own ▸ (memAfter.mp later).2⟩

theorem encodedAddressed {db} (encoded : Encoded bucket db) : Addressed bucket db :=
  Option.eq_none_iff_forall_ne_some.mpr fun obj stored => (encoded [] obj stored).1 rfl

theorem encodedKey {db} (encoded : Encoded bucket db) {e} (mem : e ∈ db.objects.scan (objectKey bucket start)) :
    e.2.key = Utf8.coerced (keyOf bucket e) := by
  obtain ⟨own,-,-,stored⟩ := entryOwn (encodedAddressed encoded) mem
  exact (encoded _ _ (own ▸ stored)).2

/-- Reading on at each next marker ends, and yields the listable keys of the prefix behind the first marker in
increasing order, exactly if they are all UTF-8. -/
theorem flatListingLossless (home : bucketOf s bucket = some found) (named : bucket ≠ []) (plain : ByteString.colon ∉ bucket)
    (encoded : Encoded bucket s.db) (start marker : Bytes) (maxKeys : Int) : (∃ total bound,
      (∀ fuel, bound ≤ fuel → gather (readPage s bucket start maxKeys) fuel marker = some total) ∧ (total.map Object.key).Pairwise (· < ·) ∧
      ∀ key, key ∈ total.map Object.key ↔
        ∃ obj, s.db.objects.get (objectKey bucket key) = some obj ∧ start <+: key ∧ marker < key ∧ listable obj = true) ↔
    ∀ key obj, s.db.objects.get (objectKey bucket key) = some obj → start <+: key → marker < key → listable obj = true → Text key := by
  have addressed := encodedAddressed encoded
  have whole {fuel} : _ → gather (readPage s bucket start maxKeys) fuel marker = _ := gatherShown home named plain addressed
  have member {e} (mem : e ∈ behind s.db bucket start marker) := memAfter.mp mem
  constructor
  · rintro ⟨total,bound,gathered,-,all⟩ key obj stored under above seen
    have same := (gathered _ (Nat.le_add_left bound _)).symm.trans (whole (Nat.lt_add_right bound (Nat.lt_succ_self _)))
    have listed := (all key).mpr ⟨obj,stored,under,above,seen⟩
    rw [Option.some.inj same,shownKeys] at listed
    obtain ⟨e,mem,rfl⟩ := mem_map.mp listed
    rw [encodedKey encoded (member (mem_of_mem_filter mem)).1]
    exact coercedText _
  · intro texts
    have own {e} (mem : e ∈ (behind s.db bucket start marker).filter (fun e => listable e.2)) : e.2.key = keyOf bucket e := by
      obtain ⟨inside,seen⟩ := mem_filter.mp mem
      obtain ⟨scanned,above⟩ := member inside
      obtain ⟨address,-,under,stored⟩ := entryOwn addressed scanned
      rw [encodedKey encoded scanned]
      exact texts _ _ (address ▸ stored) under above seen
    refine ⟨_,_,fun fuel enough => whole enough,?_,fun key => ?_⟩
    · rw [shownKeys]
      refine pairwise_map.mpr ((filter _ (afterSorted (entriesSorted addressed) marker)).imp_of_mem fun memA memB less => ?_)
      rw [own memA,own memB]
      exact less
    rw [shownKeys,mem_map]
    constructor
    · rintro ⟨e,mem,rfl⟩
      obtain ⟨inside,seen⟩ := mem_filter.mp mem
      obtain ⟨scanned,above⟩ := member inside
      obtain ⟨address,-,under,stored⟩ := entryOwn addressed scanned
      rw [own mem]
      exact ⟨e.2,address ▸ stored,under,above,seen⟩
    · rintro ⟨obj,stored,under,above,seen⟩
      obtain ⟨mem,key_⟩ := behindEntry stored under above
      exact ⟨_,mem_filter.mpr ⟨mem,seen⟩,(own (mem_filter.mpr ⟨mem,seen⟩)).trans key_⟩

end

def twoPuts : List Event := [⟨callAt 0, .put (ascii "a") [1] empty⟩, ⟨callAt 1, .put (ascii "c") [2] empty⟩]

theorem encodedChecked {bucket db} (all : ∀ e ∈ db.objects.scan (objectKey bucket []), keyOf bucket e ≠ [] ∧
    e.2.key = Utf8.coerced (keyOf bucket e)) :
    Encoded bucket db := by
  intro key obj stored
  have own : keyOf bucket (objectKey bucket key, obj) = key := drop_left
  have here := all _ (Store.memScan.mpr ⟨stored,(prefix_append_right_inj _).mpr nil_prefix⟩)
  rwa [own] at here

theorem twoPutsListed : ∃ s total bound, run (step smallNode (ascii "b")) (newBucket none) twoPuts = some s ∧
    (∀ fuel, bound ≤ fuel → gather (readPage s (ascii "b") [] 1) fuel [] = some total) ∧ (total.map Object.key).Pairwise (· < ·) ∧
    ∀ key, key ∈ total.map Object.key ↔ ∃ obj, s.db.objects.get (objectKey (ascii "b") key) = some obj ∧
    [] <+: key ∧ [] < key ∧ listable obj = true := by
  obtain ⟨s,ran,there,all,texts⟩ : ∃ s, run (step smallNode (ascii "b")) (newBucket none) twoPuts = some s ∧
    (bucketOf s (ascii "b")).isSome = true ∧
      (∀ e ∈ s.db.objects.scan (objectKey (ascii "b") []), keyOf (ascii "b") e ≠ [] ∧ e.2.key = Utf8.coerced (keyOf (ascii "b") e)) ∧
      ∀ e ∈ s.db.objects.scan (objectKey (ascii "b") []), Text (keyOf (ascii "b") e) := by decide +kernel
  obtain ⟨_,home⟩ := Option.isSome_iff_exists.mp there
  obtain ⟨total,bound,answer⟩ := (flatListingLossless home (by decide) (by decide) (encodedChecked all) [] [] 1).mpr
    fun key obj stored under above _ => by
      obtain ⟨mem,own⟩ := behindEntry stored under above
      exact own ▸ texts _ (memAfter.mp mem).1
  exact ⟨s,total,bound,ran,answer⟩

def putRecord (seconds : Int) (key : Bytes) : ObjectMetadata :=
  toMetadataObject (newObject smallNode (callAt seconds) (ascii "b") key [1] empty [] empty none)

def bytesPut (keys : List Bytes) : Except MetadataError Database :=
  keys.foldlM (fun db key => JsonRecords.putMarshalled db 5 (putRecord 5 key)) (newBucket none).db

-- The keys `a%FE` and `a%FF` are both shown as `a` and U+FFFD.
theorem invalidKeysListedTwice : ∃ db, bytesPut [[97, 0xFE], [97, 0xFF]] = .ok db ∧ Encoded (ascii "b") db ∧
    ∀ total bound, (∀ fuel, bound ≤ fuel → gather (readPage { newBucket none with db } (ascii "b") [] 1) fuel [] = some total) →
      ¬ (total.map Object.key).Pairwise (· < ·) := by
  obtain ⟨db,put,all,read⟩ : ∃ db, (bytesPut [[97,0xFE],[97,0xFF]]).toOption = some db ∧
      (∀ e ∈ db.objects.scan (objectKey (ascii "b") []), keyOf (ascii "b") e ≠ [] ∧ e.2.key = Utf8.coerced (keyOf (ascii "b") e)) ∧
      (gather (readPage { newBucket none with db } (ascii "b") [] 1) 2 []).map (·.map Object.key) =
        some [97 :: Utf8.replacement,97 :: Utf8.replacement] := by decide +kernel
  refine ⟨db,Effects.toOptionIff.mp put,encodedChecked all,fun total bound gathered sorted => ?_⟩
  obtain ⟨_,done,keys⟩ := Option.map_eq_some_iff.mp read
  cases (gatherMore done bound).symm.trans (gathered (2 + bound) (Nat.le_add_left bound 2))
  rw [keys] at sorted
  exact lt_irrefl _ ((pairwise_cons.mp sorted).1 _ mem_cons_self)

end MaxIOFS.FlatPages
