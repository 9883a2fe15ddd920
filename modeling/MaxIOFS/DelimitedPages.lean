import MaxIOFS.FlatPages

/-! Listing by delimiter, page after page. A listed prefix is seen as a sequence of items, its
objects and its folders, each folder where its first key stands. -/
namespace MaxIOFS.DelimitedPages
open ByteString (Bytes ascii hasPrefix hasSuffix hasPrefixIff hasSuffixIff)
open MetadataStore Records VersionHistory Pagination ManagerRuns FlatPages OrderedStore Runs
open Utf8 (Text coercedText)
open JsonRecords (Encoded)
open List hiding after

section
variable {α β : Type} [DecidableEq β]

def distinct : List β → List β
  | [] => []
  | a :: rest => a :: (distinct rest).filter (fun b => decide (b ≠ a))

theorem memDistinct {l} {a : β} : a ∈ distinct l ↔ a ∈ l := by
  induction l with
  | nil => rfl
  | cons b rest ih =>
    simp only [distinct,mem_cons,mem_filter,decide_eq_true_eq]
    tauto

theorem distinctFilter (keep : β → Bool) (l : List β) : distinct (l.filter keep) = (distinct l).filter keep := by
  induction l with
  | nil => rfl
  | cons b rest ih =>
    by_cases kept : keep b = true
    · rw [filter_cons_of_pos kept,distinct,distinct,filter_cons_of_pos kept,ih,filter_comm]
    rw [filter_cons_of_neg kept,distinct,filter_cons_of_neg kept,ih,filter_filter]
    refine filter_congr fun c _ => ?_
    by_cases same : c = b
    · simp [same,kept]
    · simp [same]

theorem distinctMapFilter (f : α → β) (keep : α → Bool) (test : β → Bool) {l : List α} (agrees : ∀ a ∈ l, keep a = test (f a)) :
    distinct ((l.filter keep).map f) = (distinct (l.map f)).filter test := by
  rw [← distinctFilter,filter_map,filter_congr agrees]
  rfl

theorem distinctCons (f : α → β) (a : α) (l : List α) : distinct ((a :: l).map f) =
    f a :: distinct ((l.filter (fun b => decide (f b ≠ f a))).map f) := by
  rw [distinctMapFilter f _ (fun b => decide (b ≠ f a)) (fun _ _ => rfl),map_cons,distinct]

end

theorem prefixBetween {p x k : Bytes} (low : p ≤ x) (high : x ≤ k) (under : p <+: k) : p <+: x := by
  obtain ⟨_,below⟩ := (prefixRange p k).mpr under
  exact (prefixRange p x).mp ⟨low,fun u mem => high.trans_lt (below u mem)⟩

theorem prefixLe {p k : Bytes} (under : p <+: k) : p ≤ k := ((prefixRange p k).mpr under).1

section
variable {start delimiter : Bytes}

theorem indexOfAt {r i} (found : indexOf delimiter r = some i) : delimiter <+: r.drop i := by
  induction r generalizing i with
  | nil =>
    rw [indexOf] at found
    split at found <;> try contradiction
    rename_i none_
    rw [none_]
    exact nil_prefix
  | cons b bs ih =>
    rw [indexOf] at found
    split at found
    · rename_i here
      cases found
      exact hasPrefixIff.mp here
    · obtain ⟨_,later,rfl⟩ := Option.map_eq_some_iff.mp found
      exact ih later

theorem indexOfStable {r r' i} (present : delimiter ≠ []) (found : indexOf delimiter r = some i)
    (same : r.take (i + delimiter.length) <+: r') : indexOf delimiter r' = some i := by
  induction r generalizing i r' with
  | nil => simp [indexOf,present] at found
  | cons b bs ih =>
    rw [indexOf] at found
    split at found
    · rename_i here
      cases found
      obtain ⟨_,whole⟩ := hasPrefixIff.mp here
      rw [← whole,Nat.zero_add,take_left] at same
      cases r' with
      | nil => exact absurd (prefix_nil.mp same) present
      | cons c cs => rw [indexOf,if_pos (hasPrefixIff.mpr same)]
    · rename_i elsewhere
      obtain ⟨j,later,rfl⟩ := Option.map_eq_some_iff.mp found
      rw [show j + 1 + delimiter.length = (j + delimiter.length) + 1 by omega] at same
      obtain ⟨c,cs,rfl⟩ : ∃ c cs, r' = c :: cs := by
        cases r' with
        | nil => cases prefix_nil.mp same
        | cons c cs => exact ⟨c,cs,rfl⟩
      obtain ⟨rfl,rest⟩ := cons_prefix_cons.mp same
      have absent : ¬ hasPrefix delimiter (b :: cs) = true := fun here => by
        have short : delimiter.length ≤ (b :: bs.take (j + delimiter.length)).length := by
          have room := (indexOfAt later).length_le
          rw [length_drop] at room
          rw [length_cons,length_take]
          omega
        have inside := prefix_of_prefix_length_le (hasPrefixIff.mp here) same short
        exact elsewhere (hasPrefixIff.mpr (inside.trans (cons_prefix_cons.mpr ⟨rfl, take_prefix ..⟩)))
      rw [indexOf,if_neg absent,ih later rest,Option.map_some]

theorem groupAppend (present : delimiter ≠ []) (r : Bytes) :
    groupOf start delimiter (start ++ r) = (indexOf delimiter r).map (fun i => start ++ r.take (i + delimiter.length)) := by
  unfold groupOf
  rw [drop_left]
  cases r with
  | nil => simp [indexOf,present]
  | cons b bs => rw [if_pos ⟨present,by simp⟩]

section
variable {key key' group : Bytes}

section
variable (present : delimiter ≠ []) (under : start <+: key)
include present under

theorem groupShape (grouped : groupOf start delimiter key = some group) : group <+: key ∧ start <+: group ∧ delimiter <:+ group := by
  obtain ⟨r,rfl⟩ := under
  rw [groupAppend present] at grouped
  obtain ⟨i,found,rfl⟩ := Option.map_eq_some_iff.mp grouped
  refine ⟨(prefix_append_right_inj _).mpr ( take_prefix ..),prefix_append ..,?_⟩
  obtain ⟨_,whole⟩ := indexOfAt found
  have cut : r.take (i + delimiter.length) = r.take i ++ delimiter := by
    rw [take_add,← whole,take_left]
  rw [cut,← append_assoc]
  exact suffix_append ..

theorem groupIff (under' : start <+: key') (grouped : groupOf start delimiter key = some group) : groupOf start delimiter key' = some group ↔
    group <+: key' := by
  refine ⟨fun same => (groupShape present under' same).1,fun inside => ?_⟩
  obtain ⟨r,rfl⟩ := under
  obtain ⟨r',rfl⟩ := under'
  rw [groupAppend present] at grouped ⊢
  obtain ⟨i,found,rfl⟩ := Option.map_eq_some_iff.mp grouped
  have same : r.take (i + delimiter.length) <+: r' := (prefix_append_right_inj _).mp inside
  rw [indexOfStable present found same,Option.map_some]
  have room := (indexOfAt found).length_le
  rw [length_drop] at room
  have length : (r.take (i + delimiter.length)).length = i + delimiter.length := by
    have some_ := length_pos_iff.mpr present
    rw [length_take]
    omega
  have cut := prefix_iff_eq_take.mp same
  rw [length] at cut
  rw [← cut]

theorem groupSelf (grouped : groupOf start delimiter key = some group) : groupOf start delimiter group = some group :=
  (groupIff present under (groupShape present under grouped).2.1 grouped).mpr (prefix_refl _)

end

def nameOf (start delimiter key : Bytes) : Bytes := (groupOf start delimiter key).getD key

section
variable (present : delimiter ≠ []) (under : start <+: key)
include present under

theorem namePrefix : nameOf start delimiter key <+: key := by
  unfold nameOf
  cases grouped : groupOf start delimiter key with
  | none => exact prefix_refl _
  | some group => exact (groupShape present under grouped).1

theorem nameUnder : start <+: nameOf start delimiter key := by
  unfold nameOf
  cases grouped : groupOf start delimiter key with
  | none => exact under
  | some group => exact (groupShape present under grouped).2.1

theorem nameName : nameOf start delimiter (nameOf start delimiter key) = nameOf start delimiter key := by
  cases grouped : groupOf start delimiter key with
  | none => simp [nameOf,grouped]
  | some group => simp [nameOf,grouped,groupSelf present under grouped]

theorem nameMono (under' : start <+: key') (le : key ≤ key') : nameOf start delimiter key ≤ nameOf start delimiter key' := by
  have below := (prefixLe (namePrefix present under)).trans le
  cases grouped : groupOf start delimiter key' with
  | none => simpa [nameOf,grouped] using below
  | some group =>
    rw [show nameOf start delimiter key' = group by simp [nameOf,grouped]]
    by_contra above
    have high := (not_le.mp above).le.trans (prefixLe (namePrefix present under))
    have inside := prefixBetween high le (groupShape present under' grouped).1
    have same := (groupIff present under' under grouped).mpr inside
    simp [nameOf,same] at above

theorem nameLt (under' : start <+: key') (named : nameOf start delimiter key = key) :
    key < nameOf start delimiter key' ↔ key < key' ∧ nameOf start delimiter key' ≠ key := by
  constructor
  · intro less
    exact ⟨less.trans_le (prefixLe (namePrefix present under')),less.ne'⟩
  rintro ⟨less,different⟩
  have le := nameMono present under under' less.le
  rw [named] at le
  exact lt_of_le_of_ne le (Ne.symm different)

end

end

end

theorem pastEnd (bucket group : Bytes) : prefixEnd (objectKey bucket group) = some (past bucket group) := by
  obtain ⟨u,ends⟩ : ∃ u, prefixEnd (objectKey bucket group) = some u := by
    rw [show objectKey bucket group = 111 :: (ascii "bj:" ++ bucket ++ colon ++ group) from rfl,prefixEndCons]
    split
    · exact ⟨_,rfl⟩
    · exact ⟨_,if_neg (by decide)⟩
  rw [past,ends,Option.getD_some]

theorem pastLe (bucket group key : Bytes) : ¬ objectKey bucket key < past bucket group ↔ group < key ∧ ¬ group <+: key := by
  have range := prefixRange (objectKey bucket group) (objectKey bucket key)
  rw [pastEnd,show (objectKey bucket group <+: objectKey bucket key ↔ group <+: key) from prefix_append_right_inj _,
    ← not_lt,objectKeyLt,not_lt] at range
  simp only [Option.mem_some_iff,forall_eq'] at range
  constructor
  · intro beyond
    have low : group < key := by
      by_contra less
      have small : objectKey bucket key ≤ objectKey bucket group := not_lt.mp fun above => less ((objectKeyLt ..).mp above)
      have inside := (prefixRange (objectKey bucket group) (objectKey bucket group)).mpr (prefix_refl _)
      rw [pastEnd] at inside
      exact beyond (small.trans_lt (inside.2 _ rfl))
    exact ⟨low,fun under => beyond (range.mpr under).2⟩
  · rintro ⟨low,apart⟩ inside
    exact apart (range.mp ⟨low.le,inside⟩)

inductive Item where
  | object (key : Bytes) (obj : ObjectMetadata)
  | folder (name : Bytes)
  deriving DecidableEq

def Item.name : Item → Bytes
  | .object key _ => key
  | .folder name => name

def itemOf (bucket start delimiter : Bytes) (e : Entry) : Item :=
  match groupOf start delimiter (keyOf bucket e) with
  | some group => .folder group
  | none => .object (keyOf bucket e) e.2

def items (bucket start delimiter : Bytes) (entries : List Entry) : List Item := distinct (entries.map (itemOf bucket start delimiter))

theorem itemName (bucket start delimiter : Bytes) (e : Entry) : (itemOf bucket start delimiter e).name =
    nameOf start delimiter (keyOf bucket e) := by
  unfold itemOf nameOf
  cases groupOf start delimiter (keyOf bucket e) <;> rfl

def pageOf (maxKeys : Nat) : Nat → Bytes → List Item → DelimitedListResult
  | _, _, [] => ⟨[], [], [], false⟩
  | count, lastItem, item :: rest =>
    if maxKeys ≤ count then truncatedAt lastItem
    else
      let page := pageOf maxKeys (count + 1) item.name rest
      match item with
      | .object _ obj => { page with objects := obj :: page.objects }
      | .folder group => { page with commonPrefixes := group :: page.commonPrefixes }

section
variable {bucket start delimiter marker : Bytes} {maxKeys : Nat}
variable {db : Database} {e : Entry} {entries : List Entry}

structure Ordered (bucket start : Bytes) (entries : List Entry) : Prop where
  own : ∀ e ∈ entries, e.1 = objectKey bucket (keyOf bucket e) ∧ extractObjectKeyFromKey e.1 = keyOf bucket e
  under : ∀ e ∈ entries, start <+: keyOf bucket e
  sorted : entries.Pairwise (fun a b => keyOf bucket a < keyOf bucket b)

theorem Ordered.tail {rest} (ordered : Ordered bucket start (e :: rest)) : Ordered bucket start rest :=
  ⟨fun a mem => ordered.own a (mem_cons_of_mem _ mem),fun a mem => ordered.under a (mem_cons_of_mem _ mem),(pairwise_cons.mp ordered.sorted).2⟩

theorem itemFolder (present : delimiter ≠ []) {a group} (under : start <+: keyOf bucket e) (under' : start <+: keyOf bucket a)
    (grouped : groupOf start delimiter (keyOf bucket e) = some group) : itemOf bucket start delimiter a = .folder group ↔
    group <+: keyOf bucket a := by
  rw [← groupIff present under under' grouped]
  unfold itemOf
  cases groupOf start delimiter (keyOf bucket a) <;> simp

theorem loopPage (marker : Bytes) (present : delimiter ≠ []) (ordered : Ordered bucket start entries) (target : Bytes)
    (seen : List Bytes) (count : Nat) (lastItem : Bytes)
    (fresh : ∀ e ∈ entries, ¬ e.1 < target → ∀ group ∈ seen, groupOf start delimiter (keyOf bucket e) ≠ some group) :
    delimitedLoop bucket start delimiter marker maxKeys true target seen count lastItem entries =
      pageOf maxKeys count lastItem (items bucket start delimiter (entries.filter (fun e => decide (¬ e.1 < target)))) := by
  induction entries generalizing target seen count lastItem with
  | nil => rfl
  | cons e rest ih =>
    have here : e ∈ e :: rest := mem_cons_self ..
    have later := (pairwise_cons.mp ordered.sorted).1
    have tail := fun a (mem : a ∈ rest) => mem_cons_of_mem e mem
    rw [delimitedLoop]
    by_cases before : e.1 < target
    · rw [if_pos before,filter_cons_of_neg (by simpa using before)]
      exact ih ordered.tail target seen count lastItem fun a mem => fresh a (tail a mem)
    have reached : ∀ a ∈ rest, ¬ a.1 < target := fun a mem less => before (by
      rw [(ordered.own e here).1]
      rw [(ordered.own a (tail a mem)).1] at less
      exact ((objectKeyLt ..).mpr (later a mem)).trans less)
    have whole : rest.filter (fun e => decide (¬ e.1 < target)) = rest := filter_eq_self.mpr fun a mem => by simpa using reached a mem
    rw [if_neg before,if_neg (by simp),filter_cons_of_pos (by simpa using before),whole,items,distinctCons]
    simp only [(ordered.own e here).2]
    cases grouped : groupOf start delimiter (keyOf bucket e) with
    | some group =>
      have item : itemOf bucket start delimiter e = .folder group := by simp [itemOf,grouped]
      have unseen : group ∉ seen := fun listed => fresh e here before group listed grouped
      have kept : rest.filter (fun b => decide (itemOf bucket start delimiter b ≠ itemOf bucket start delimiter e)) =
          rest.filter (fun a => decide (¬ a.1 < past bucket group)) := by
        refine filter_congr fun a mem => ?_
        have above := (prefixLe (groupShape present (ordered.under e here) grouped).1).trans_lt (later a mem)
        rw [item,(ordered.own a (tail a mem)).1,decide_eq_decide,pastLe,and_iff_right above,
          ← itemFolder present (ordered.under e here) (ordered.under a (tail a mem)) grouped]
      rw [kept,item]
      simp only [if_neg unseen,pageOf]
      split
      · rfl
      rw [← items,Item.name,← ih ordered.tail (past bucket group) (group :: seen) (count + 1) group]
      intro a mem beyond other listed same
      rcases mem_cons.mp listed with rfl | old
      · rw [(ordered.own a (tail a mem)).1,pastLe] at beyond
        exact beyond.2 (groupShape present (ordered.under a (tail a mem)) same).1
      · exact fresh a (tail a mem) (reached a mem) other old same
    | none =>
      have item : itemOf bucket start delimiter e = .object (keyOf bucket e) e.2 := by simp [itemOf,grouped]
      have kept : rest.filter (fun b => decide (itemOf bucket start delimiter b ≠ itemOf bucket start delimiter e)) = rest := by
        refine filter_eq_self.mpr fun a mem => ?_
        rw [decide_eq_true_eq,item]
        intro same
        unfold itemOf at same
        cases other : groupOf start delimiter (keyOf bucket a) <;> simp [other] at same
        exact absurd same.1 (later a mem).ne'
      rw [kept,item]
      simp only [pageOf]
      split
      · rfl
      have step := ih ordered.tail target seen (count + 1) (keyOf bucket e) (fun a mem => fresh a (tail a mem))
      rw [whole] at step
      rw [step]
      rfl

theorem loopStart (ordered : Ordered bucket start entries) :
    delimitedLoop bucket start delimiter marker maxKeys false (objectKey bucket marker) [] 0 [] entries =
      delimitedLoop bucket start delimiter marker maxKeys true (objectKey bucket marker) [] 0 [] (after (keyOf bucket) marker entries) := by
  induction entries with
  | nil => rfl
  | cons e rest ih =>
    obtain ⟨own,extracted⟩ := ordered.own e mem_cons_self
    rcases lt_trichotomy (keyOf bucket e) marker with less | same | above
    · rw [after,filter_cons_of_neg (by simpa using less.le),delimitedLoop,if_pos (by rw [own]; exact (objectKeyLt ..).mpr less)]
      exact ih ordered.tail
    · have behind := afterSplit (nil_append (e :: rest) ▸ ordered.sorted)
      rw [nil_append,same] at behind
      rw [behind,delimitedLoop,if_neg (by rw [own,same]; exact lt_irrefl _),if_pos ⟨rfl,extracted.trans same⟩]
    have whole : after (keyOf bucket) marker (e :: rest) = e :: rest := by
      refine filter_eq_self.mpr fun a mem => ?_
      rcases mem_cons.mp mem with rfl | inside
      · simpa using above
      · simpa using above.trans ((pairwise_cons.mp ordered.sorted).1 a inside)
    have apart : extractObjectKeyFromKey e.1 ≠ marker := by rw [extracted]; exact above.ne'
    have reached : ¬ e.1 < objectKey bucket marker := by rw [own]; exact fun less => lt_asymm above ((objectKeyLt ..).mp less)
    rw [whole]
    simp only [delimitedLoop,reached,apart,and_false,if_false]

theorem orderedScan (plain : ByteString.colon ∉ bucket) (addressed : Addressed bucket db) :
    Ordered bucket start (db.objects.scan (objectKey bucket start)) :=
  ⟨fun e mem => ⟨(entryOwn addressed mem).1,by rw [(entryOwn addressed mem).1,extractKey plain]⟩,
    fun e mem => (entryOwn addressed mem).2.2.1,entriesSorted addressed⟩

def passed (delimiter marker key : Bytes) : Bool := hasSuffix delimiter marker && hasPrefix marker key

theorem passedIff {delimiter marker key} : passed delimiter marker key = true ↔ delimiter <:+ marker ∧ marker <+: key := by
  simp [passed]

def remaining (bucket delimiter marker : Bytes) (entries : List Entry) : List Entry :=
  entries.filter (fun e => decide (marker < keyOf bucket e) && !passed delimiter marker (keyOf bucket e))

theorem remainingIff {delimiter marker} : (decide (marker < keyOf bucket e) && !passed delimiter marker (keyOf bucket e)) = true ↔
    marker < keyOf bucket e ∧ ¬ (delimiter <:+ marker ∧ marker <+: keyOf bucket e) := by
  rw [← passedIff]
  simp

theorem pageRead {maxKeys} (plain : ByteString.colon ∉ bucket) (addressed : Addressed bucket db) (named : bucket ≠ [])
    (present : delimiter ≠ []) : db.listObjectsDelimited bucket start delimiter marker maxKeys = .ok (pageOf (pageSize maxKeys) 0 []
        (items bucket start delimiter (remaining bucket delimiter marker (db.objects.scan (objectKey bucket start))))) := by
  have ordered : Ordered bucket start _ := orderedScan plain addressed
  unfold Database.listObjectsDelimited
  rw [if_neg named]
  by_cases first : marker = []
  · subst first
    have all : remaining bucket delimiter [] (db.objects.scan (objectKey bucket start)) =
        (db.objects.scan (objectKey bucket start)).filter (fun e => decide (¬ e.1 < [])) := by
      refine filter_congr fun e mem => ?_
      have nonempty : [] < keyOf bucket e := lt_of_le_of_ne (nilLe _) (Ne.symm (entryOwn addressed mem).2.1)
      rw [Bool.eq_iff_iff,remainingIff]
      simp [nonempty,present]
    rw [all,← loopPage [] present ordered [] [] 0 [] (by simp)]
    simp
  · by_cases folder : hasSuffix delimiter marker = true
    · have beyond : remaining bucket delimiter marker (db.objects.scan (objectKey bucket start)) =
          (db.objects.scan (objectKey bucket start)).filter (fun e => decide (¬ e.1 < past bucket marker)) := by
        refine filter_congr fun e mem => ?_
        rw [Bool.eq_iff_iff,remainingIff,and_iff_right (hasSuffixIff.mp folder),(ordered.own e mem).1,decide_eq_true_eq,pastLe]
      rw [beyond,← loopPage marker present ordered (past bucket marker) [] 0 [] (by simp)]
      simp [first,present,folder]
    · have behind : remaining bucket delimiter marker (db.objects.scan (objectKey bucket start)) =
          (after (keyOf bucket) marker (db.objects.scan (objectKey bucket start))).filter (fun e => decide (¬ e.1 < objectKey bucket marker)) := by
        unfold after
        rw [filter_filter]
        refine filter_congr fun e mem => ?_
        by_cases above : marker < keyOf bucket e
        · have later : ¬ e.1 < objectKey bucket marker := by
            rw [(ordered.own e mem).1]
            exact fun less => lt_asymm above ((objectKeyLt ..).mp less)
          simp [later,passed,folder]
        · simp [above]
      have shorter : Ordered bucket start (after (keyOf bucket) marker (db.objects.scan (objectKey bucket start))) :=
        ⟨fun e mem => ordered.own e (mem_of_mem_filter mem),fun e mem => ordered.under e (mem_of_mem_filter mem),afterSorted ordered.sorted marker⟩
      rw [behind,← loopPage marker present shorter (objectKey bucket marker) [] 0 [] (by simp),← loopStart ordered]
      simp [first,folder]

def Item.listed : Item → Bytes ⊕ Bytes
  | .object _ obj => .inl obj.key
  | .folder name => .inr name

def Item.filed : Item → Bytes ⊕ Bytes
  | .object key _ => .inl key
  | .folder name => .inr name

def contents (page : DelimitedListResult) : List (Bytes ⊕ Bytes) := page.objects.map (fun obj => .inl obj.key) ++ page.commonPrefixes.map .inr

theorem pageAll {r count} (lastItem : Bytes) (fits : r.length + count ≤ maxKeys) :
    (pageOf maxKeys count lastItem r).isTruncated = false ∧ (contents (pageOf maxKeys count lastItem r)).Perm (r.map Item.listed) := by
  induction r generalizing count lastItem with
  | nil => exact ⟨rfl,.refl _⟩
  | cons item rest ih =>
    rw [length_cons] at fits
    obtain ⟨ends,whole⟩ := ih item.name (show rest.length + (count + 1) ≤ maxKeys by omega)
    rw [pageOf,if_neg (by omega)]
    cases item with
    | object key obj => exact ⟨ends,whole.cons _⟩
    | folder group => exact ⟨ends,perm_middle.trans (whole.cons _)⟩

theorem pageCut {r count left} (lastItem : Bytes) (full : left + count = maxKeys) (more : left < r.length) :
    (pageOf maxKeys count lastItem r).isTruncated = true ∧
    (pageOf maxKeys count lastItem r).nextMarker = ((r.take left).getLast?.map Item.name).getD lastItem ∧
    (contents (pageOf maxKeys count lastItem r)).Perm ((r.take left).map Item.listed) := by
  induction left generalizing r count lastItem with
  | zero =>
    obtain ⟨item,rest,rfl⟩ := exists_cons_of_length_pos more
    rw [pageOf,if_pos (by omega)]
    exact ⟨rfl,rfl,.refl _⟩
  | succ left ih =>
    obtain ⟨item,rest,rfl⟩ := exists_cons_of_length_pos (by omega : 0 < r.length)
    rw [length_cons] at more
    obtain ⟨goes,marked,whole⟩ := ih item.name (show left + (count + 1) = maxKeys by omega) (show left < rest.length by omega)
    have last : ((rest.take left).getLast?.map Item.name).getD item.name =
        (((item :: rest).take (left + 1)).getLast?.map Item.name).getD lastItem := by
      rw [take_succ_cons,List.getLast?_cons]
      cases (rest.take left).getLast? <;> rfl
    rw [pageOf,if_neg (by omega),← last,take_succ_cons]
    cases item with
    | object key obj => exact ⟨goes,marked,whole.cons _⟩
    | folder group => exact ⟨goes,marked,perm_middle.trans (whole.cons _)⟩

def readKeys (db : Database) (bucket start delimiter : Bytes) (maxKeys : Int) (marker : Bytes) : List (Bytes ⊕ Bytes) × Option Bytes :=
  match db.listObjectsDelimited bucket start delimiter marker maxKeys with
  | .error _ => ([], none)
  | .ok page => (contents page, if page.isTruncated then some page.nextMarker else none)

/-- The page at a marker as items, with the keys they are filed under. -/
def readItems (db : Database) (bucket start delimiter : Bytes) (maxKeys : Int) (marker : Bytes) : List Item × Option Bytes :=
  let r := items bucket start delimiter (remaining bucket delimiter marker (db.objects.scan (objectKey bucket start)))
  (r.take (pageSize maxKeys), if pageSize maxKeys < r.length then (r[pageSize maxKeys - 1]?).map Item.name else none)

theorem readCuts (db : Database) (bucket start delimiter marker : Bytes) (maxKeys : Int) : Cuts (pageSize maxKeys)
    (readItems db bucket start delimiter maxKeys) (fun x => some x.name) marker
      (items bucket start delimiter (remaining bucket delimiter marker (db.objects.scan (objectKey bucket start)))) := by
  have positive := pageSizePos maxKeys
  unfold Cuts readItems
  generalize items bucket start delimiter (remaining bucket delimiter marker (db.objects.scan (objectKey bucket start))) = r
  dsimp only
  rcases Nat.lt_or_ge (pageSize maxKeys) r.length with more | fits
  · have found : r[pageSize maxKeys - 1]? = some (r.get ⟨pageSize maxKeys - 1,by omega⟩) := List.getElem?_eq_getElem (by omega)
    exact .inr ⟨_,_,found,rfl,by rw [if_pos more,found,Option.map_some],.refl _⟩
  · exact .inl ⟨fits,if_neg (by omega),by rw [take_of_length_le fits]⟩

theorem readShown {maxKeys} (plain : ByteString.colon ∉ bucket) (addressed : Addressed bucket db) (named : bucket ≠ [])
    (present : delimiter ≠ []) (marker : Bytes) :
    (readKeys db bucket start delimiter maxKeys marker).2 = (readItems db bucket start delimiter maxKeys marker).2 ∧
      (readKeys db bucket start delimiter maxKeys marker).1.Perm ((readItems db bucket start delimiter maxKeys marker).1.map Item.listed) := by
  have positive := pageSizePos maxKeys
  unfold readKeys readItems
  rw [pageRead plain addressed named present]
  generalize items bucket start delimiter (remaining bucket delimiter marker (db.objects.scan (objectKey bucket start))) = r
  dsimp only
  rcases Nat.lt_or_ge (pageSize maxKeys) r.length with more | fits
  · obtain ⟨goes,marked,whole⟩ := pageCut [] (Nat.add_zero (pageSize maxKeys)) more
    rw [List.getLast?_eq_getElem?,length_take,min_eq_left more.le,List.getElem?_take_of_lt (by omega),
      List.getElem?_eq_getElem (by omega)] at marked
    refine ⟨?_,whole⟩
    simp only [goes,if_true,marked,Option.map_some,Option.getD_some,if_pos more,
      List.getElem?_eq_getElem (show pageSize maxKeys - 1 < r.length by omega)]
  · obtain ⟨ends,whole⟩ := pageAll [] (show r.length + 0 ≤ pageSize maxKeys from fits)
    rw [take_of_length_le fits]
    refine ⟨?_,whole⟩
    simp only [ends,Bool.false_eq_true,if_false,if_neg (show ¬ pageSize maxKeys < r.length by omega)]

theorem itemSame (present : delimiter ≠ []) {a} (under : start <+: keyOf bucket e) (under' : start <+: keyOf bucket a)
    (less : keyOf bucket e < keyOf bucket a) (same : nameOf start delimiter (keyOf bucket e) = nameOf start delimiter (keyOf bucket a)) :
    itemOf bucket start delimiter a = itemOf bucket start delimiter e := by
  cases grouped : groupOf start delimiter (keyOf bucket e) with
  | some group =>
    have inside : group <+: keyOf bucket a := by
      rw [show group = nameOf start delimiter (keyOf bucket e) by simp [nameOf,grouped],same]
      exact namePrefix present under'
    rw [(itemFolder present under under' grouped).mpr inside]
    simp [itemOf,grouped]
  | none =>
    have listed : nameOf start delimiter (keyOf bucket a) = keyOf bucket e := by rw [← same]; simp [nameOf,grouped]
    cases other : groupOf start delimiter (keyOf bucket a) with
    | none =>
      rw [nameOf,other] at listed
      exact absurd listed less.ne'
    | some group =>
      rw [nameOf,other,Option.getD_some] at listed
      rw [← listed,groupSelf present under' other] at grouped
      cases grouped

theorem itemsSorted (present : delimiter ≠ []) (ordered : Ordered bucket start entries) :
    (items bucket start delimiter entries).Pairwise (fun a b => a.name < b.name) := by
  induction entries with
  | nil => exact .nil
  | cons e rest ih =>
    refine pairwise_cons.mpr ⟨fun item mem => ?_,List.Pairwise.filter _ (ih ordered.tail)⟩
    obtain ⟨inside,different⟩ := mem_filter.mp mem
    obtain ⟨a,among,rfl⟩ := mem_map.mp (memDistinct.mp inside)
    have under := ordered.under e mem_cons_self
    have under' := ordered.under a (mem_cons_of_mem _ among)
    have less := (pairwise_cons.mp ordered.sorted).1 a among
    rw [itemName,itemName]
    refine lt_of_le_of_ne (nameMono present under under' less.le) fun same => ?_
    exact of_decide_eq_true different (itemSame present under under' less same)

def skips (delimiter : Bytes) (x y : Item) : Bool := passed delimiter x.name y.name

theorem memItems {x} : x ∈ items bucket start delimiter entries ↔ ∃ e ∈ entries, itemOf bucket start delimiter e = x := by
  rw [items,memDistinct,mem_map]

theorem itemsRemaining (present : delimiter ≠ []) (ordered : Ordered bucket start entries) {x}
    (mem : x ∈ items bucket start delimiter entries) : items bucket start delimiter (remaining bucket delimiter x.name entries) =
      resumed Item.name (skips delimiter) (items bucket start delimiter entries) x := by
  obtain ⟨e₀,among₀,rfl⟩ := memItems.mp mem
  have under₀ := ordered.under e₀ among₀
  refine distinctMapFilter _ _ _ fun e among => ?_
  have under := ordered.under e among
  have behind := nameLt present (nameUnder present under₀) under (nameName present under₀)
  rw [Bool.eq_iff_iff,skips,itemName,itemName]
  have shape : nameOf start delimiter (keyOf bucket e) <+: keyOf bucket e := namePrefix present under
  simp only [Bool.and_eq_true,decide_eq_true_eq,Bool.not_eq_true',← Bool.not_eq_true,passedIff]
  constructor
  · rintro ⟨less,apart⟩
    refine ⟨behind.mpr ⟨less,fun same => ?_⟩,fun inside => apart ⟨inside.1,inside.2.trans shape⟩⟩
    cases grouped : groupOf start delimiter (keyOf bucket e) with
    | none =>
      rw [nameOf,grouped] at same
      exact less.ne' same
    | some group =>
      obtain ⟨within,_,ends⟩ := groupShape present under grouped
      rw [nameOf,grouped] at same
      exact apart ⟨same ▸ ends,same ▸ within⟩
  · rintro ⟨less,apart⟩
    refine ⟨(behind.mp less).1,fun inside => apart ⟨inside.1,?_⟩⟩
    rcases prefix_or_prefix_of_prefix inside.2 shape with short | long
    · exact short
    · exact absurd (prefixLe long) (not_le.mpr less)

theorem skipsConvex (x y z : Item) (low : x.name < y.name) (high : y.name < z.name) (skipped : skips delimiter x z = true) :
    skips delimiter x y = true := by
  obtain ⟨ends,inside⟩ := passedIff.mp skipped
  exact passedIff.mpr ⟨ends,prefixBetween low.le high.le inside⟩

def FolderFree (bucket start delimiter : Bytes) (pageSize : Nat) (entries : List Entry) : Prop :=
  ∀ j key obj, (items bucket start delimiter entries)[(j + 1) * pageSize - 1]? = some (.object key obj) → delimiter <:+ key →
    ∀ e ∈ entries, key <+: keyOf bucket e → keyOf bucket e = key

theorem cleanIff (present : delimiter ≠ []) (ordered : Ordered bucket start entries) {size}
    (positive : 0 < size) : Clean size (fun _ => skips delimiter) 0 (items bucket start delimiter entries) ↔
    FolderFree bucket start delimiter size entries := by
  constructor
  · intro clean j key obj found ends e among inside
    by_contra different
    obtain ⟨e₀,among₀,item⟩ := memItems.mp (List.mem_of_getElem? found)
    have single : groupOf start delimiter (keyOf bucket e₀) = none ∧ keyOf bucket e₀ = key := by
      unfold itemOf at item
      cases grouped : groupOf start delimiter (keyOf bucket e₀) <;> simp [grouped] at item
      exact ⟨rfl,item.1⟩
    have under := ordered.under e among
    have under₀ := ordered.under e₀ among₀
    have above : keyOf bucket e₀ < keyOf bucket e := by
      rw [single.2]
      exact lt_of_le_of_ne (prefixLe inside) (Ne.symm different)
    have named : nameOf start delimiter (keyOf bucket e₀) = keyOf bucket e₀ := by simp [nameOf,single.1]
    have behind : keyOf bucket e₀ < nameOf start delimiter (keyOf bucket e) := by
      refine (nameLt present under₀ under named).mpr ⟨above,fun same => ?_⟩
      have equal := itemSame present under₀ under above (named.trans same.symm)
      rw [item] at equal
      unfold itemOf at equal
      cases grouped : groupOf start delimiter (keyOf bucket e) <;> simp [grouped] at equal
      exact different equal.1
    have later : itemOf bucket start delimiter e ∈ (items bucket start delimiter entries).drop ((j + 1) * size) := by
      rw [dropAfter (itemsSorted present ordered) (Nat.mul_pos (Nat.succ_pos j) positive) found]
      refine memAfter.mpr ⟨memItems.mpr ⟨e,among,rfl⟩,?_⟩
      rw [itemName,Item.name,← single.2]
      exact behind
    have skipped : skips delimiter (.object key obj) (itemOf bucket start delimiter e) = true := by
      rw [skips,itemName]
      refine passedIff.mpr ⟨ends,?_⟩
      rcases prefix_or_prefix_of_prefix inside (namePrefix present under) with short | long
      · exact short
      · exact absurd (prefixLe long) (not_le.mpr (single.2 ▸ behind))
    exact Bool.false_ne_true ((clean j _ found _ later).symm.trans skipped)
  · intro free j x found y later
    rw [dropAfter (itemsSorted present ordered) (Nat.mul_pos (Nat.succ_pos j) positive) found] at later
    obtain ⟨among,above⟩ := memAfter.mp later
    obtain ⟨e,listed,rfl⟩ := memItems.mp among
    have under := ordered.under e listed
    rw [itemName] at above
    refine Bool.eq_false_iff.mpr fun skipped => ?_
    obtain ⟨ends,inside⟩ := passedIff.mp skipped
    rw [itemName] at inside
    have within := inside.trans (namePrefix present under)
    cases x with
    | object key obj =>
      have same := free j key obj found ends e listed within
      exact absurd (prefixLe (namePrefix present under)) (not_le.mpr (same ▸ above))
    | folder group =>
      obtain ⟨e₀,among₀,item⟩ := memItems.mp (List.mem_of_getElem? found)
      have grouped : groupOf start delimiter (keyOf bucket e₀) = some group := by
        unfold itemOf at item
        cases grouped : groupOf start delimiter (keyOf bucket e₀) <;> simp [grouped] at item
        rw [item]
      have name := congrArg Item.name ((itemFolder present (ordered.under e₀ among₀) under grouped).mpr within)
      rw [itemName] at name
      exact lt_irrefl _ (name ▸ above)

theorem itemsComplete {db} (plain : ByteString.colon ∉ bucket) (addressed : Addressed bucket db) (present : delimiter ≠ []) (maxKeys : Int) :
    Complete (readItems db bucket start delimiter maxKeys) [] (items bucket start delimiter (db.objects.scan (objectKey bucket start))) ↔
      FolderFree bucket start delimiter (pageSize maxKeys) (db.objects.scan (objectKey bucket start)) := by
  have ordered : Ordered bucket start _ := orderedScan plain addressed
  have whole : remaining bucket delimiter [] (db.objects.scan (objectKey bucket start)) = db.objects.scan (objectKey bucket start) := by
    refine filter_eq_self.mpr fun e mem => remainingIff.mpr ⟨?_,fun inside => present (suffix_nil.mp inside.1)⟩
    exact lt_of_le_of_ne (nilLe _) (Ne.symm (entryOwn addressed mem).2.1)
  have first := readCuts db bucket start delimiter [] maxKeys
  rw [whole] at first
  refine Iff.trans (completeIff (fun _ x => some x.name) (fun _ => skips delimiter) (itemsSorted present ordered) first
    (fun _ x mem m marked => ?_) (fun _ x y z _ _ _ => skipsConvex x y z) (pageSizePos maxKeys)) (cleanIff present ordered (pageSizePos maxKeys))
  cases marked
  rw [← itemsRemaining present ordered mem]
  exact readCuts ..

theorem itemsRead (db : Database) (bucket start delimiter : Bytes) (maxKeys : Int) (m : Bytes) :
    (readItems db bucket start delimiter maxKeys m).1 ⊆ items bucket start delimiter (db.objects.scan (objectKey bucket start)) := by
  intro x mem
  obtain ⟨e,among,rfl⟩ := memItems.mp (mem_of_mem_take mem)
  exact memItems.mpr ⟨e,mem_of_mem_filter among,rfl⟩

theorem listedFiled {db} (encoded : Encoded bucket db) {x} (mem : x ∈ items bucket start delimiter (db.objects.scan (objectKey bucket start))) :
    (∃ key obj, x = .object key obj ∧ obj.key = Utf8.coerced key ∧
      ∃ e ∈ db.objects.scan (objectKey bucket start), keyOf bucket e = key ∧ groupOf start delimiter key = none) ∨ ∃ group, x = .folder group := by
  obtain ⟨e,among,rfl⟩ := memItems.mp mem
  unfold itemOf
  cases grouped : groupOf start delimiter (keyOf bucket e) with
  | some group => exact .inr ⟨group,rfl⟩
  | none => exact .inl ⟨_,_,rfl,encodedKey encoded among,e,among,rfl,grouped⟩

/-- Reading on at each next marker yields every key and every folder once, exactly when every key listed by itself
is UTF-8 and no page ends in an object that is taken for a folder. -/
theorem delimitedListingLossless {db} (plain : ByteString.colon ∉ bucket) (encoded : Encoded bucket db) (named : bucket ≠ [])
    (present : delimiter ≠ []) (maxKeys : Int) : Complete (readKeys db bucket start delimiter maxKeys) []
        ((items bucket start delimiter (db.objects.scan (objectKey bucket start))).map Item.filed) ↔
      (∀ e ∈ db.objects.scan (objectKey bucket start), groupOf start delimiter (keyOf bucket e) = none → Text (keyOf bucket e)) ∧
        FolderFree bucket start delimiter (pageSize maxKeys) (db.objects.scan (objectKey bucket start)) := by
  have addressed := encodedAddressed encoded
  have shown m : (readKeys db bucket start delimiter maxKeys m).2 = (readItems db bucket start delimiter maxKeys m).2 ∧ _ :=
    readShown plain addressed named present m
  have distinct_ : ((items bucket start delimiter (db.objects.scan (objectKey bucket start))).map Item.filed).Nodup := by
    refine pairwise_map.mpr ((itemsSorted present (orderedScan plain addressed)).imp fun {a b} less same => less.ne ?_)
    cases a <;> cases b <;> simp_all [Item.filed,Item.name]
  have alike (texts : ∀ e ∈ db.objects.scan (objectKey bucket start), groupOf start delimiter (keyOf bucket e) = none → Text (keyOf bucket e)) :
      (items bucket start delimiter (db.objects.scan (objectKey bucket start))).map Item.filed =
        (items bucket start delimiter (db.objects.scan (objectKey bucket start))).map Item.listed := by
    refine map_congr_left fun x mem => ?_
    rcases listedFiled encoded mem with ⟨key,obj,rfl,kept,e,among,rfl,grouped⟩ | ⟨group,rfl⟩
    · exact congrArg Sum.inl ((texts e among grouped).symm.trans kept.symm)
    · rfl
  have whole (texts) := completeShown (fun m => (shown m).1) (fun m => (shown m).2) (itemsRead db bucket start delimiter maxKeys)
    (alike texts ▸ distinct_) []
  constructor
  · intro complete
    have texts : ∀ e ∈ db.objects.scan (objectKey bucket start), groupOf start delimiter (keyOf bucket e) = none → Text (keyOf bucket e) := by
      obtain ⟨total,bound,gathered,perm⟩ := complete
      intro e among grouped
      have relate := gatherShown (fun m => (shown m).1) (fun m => (shown m).2) bound []
      rw [gathered bound le_rfl] at relate
      rcases found : gather (readItems db bucket start delimiter maxKeys) bound [] with _ | t
      · rw [found] at relate
        cases relate
      rw [found] at relate
      cases relate with | some same =>
      have mine : Sum.inl (keyOf bucket e) ∈ total := perm.symm.subset (mem_map.mpr ⟨itemOf bucket start delimiter e,memItems.mpr ⟨e,among,rfl⟩,by
        simp [itemOf,grouped,Item.filed]⟩)
      obtain ⟨x,mem,key⟩ := mem_map.mp (same.subset mine)
      rcases listedFiled encoded (gatherSubset (itemsRead db bucket start delimiter maxKeys) found mem) with ⟨_,_,rfl,kept,-⟩ | ⟨group,rfl⟩
      · rw [← Sum.inl.inj key,kept]
        exact coercedText _
      · cases key
    exact ⟨texts,(itemsComplete plain addressed present maxKeys).mp ((whole texts).mp (alike texts ▸ complete))⟩
  · rintro ⟨texts,free⟩
    rw [alike texts]
    exact (whole texts).mpr ((itemsComplete plain addressed present maxKeys).mpr free)

end

def nestedPuts : List Event := [⟨callAt 0, .put (ascii "a/b") [1] empty⟩, ⟨callAt 1, .put (ascii "c") [2] empty⟩]

-- A put of `a/b` writes the folder `a/` too: listed from the bucket's root, the folder and `c` come on two pages.
theorem rootListingComplete : ∃ s, run (step smallNode (ascii "b")) (newBucket none) nestedPuts = some s ∧
    (readKeys s.db (ascii "b") [] (ascii "/") 1 []).2 = some (ascii "a/") ∧ Complete (readKeys s.db (ascii "b") [] (ascii "/") 1) []
      ((items (ascii "b") [] (ascii "/") (s.db.objects.scan (objectKey (ascii "b") []))).map Item.filed) := by
  refine runShows (fun s => (readKeys s.db (ascii "b") [] (ascii "/") 1 []).2 = some (ascii "a/") ∧
    (items (ascii "b") [] (ascii "/") (s.db.objects.scan (objectKey (ascii "b") []))).map Item.filed = [.inr (ascii "a/"), .inl (ascii "c")] ∧
    (∀ e ∈ s.db.objects.scan (objectKey (ascii "b") []), keyOf (ascii "b") e ≠ [] ∧ e.2.key = Utf8.coerced (keyOf (ascii "b") e)) ∧
    ∀ e ∈ s.db.objects.scan (objectKey (ascii "b") []), Text (keyOf (ascii "b") e)) (by decide +kernel) fun s ran shown => ?_
  obtain ⟨next,listed,all,texts⟩ := shown
  refine ⟨next,(delimitedListingLossless (by decide) (encodedChecked all) (by decide) (by decide) 1).mpr ⟨fun e among _ => texts e among,?_⟩⟩
  intro j key obj found ends
  have own : Sum.inl key ∈ (items (ascii "b") [] (ascii "/") (s.db.objects.scan (objectKey (ascii "b") []))).map Item.filed :=
    mem_map.mpr ⟨_,List.mem_of_getElem? found,rfl⟩
  rw [listed] at own
  have single : key = ascii "c" := by simpa using own
  exact absurd (single ▸ ends) (by decide)

-- Listed in the folder, its own record ends the first page, and the object in it is never shown.
theorem folderListingLoses : ∃ s, run (step smallNode (ascii "b")) (newBucket none) nestedPuts = some s ∧
    ¬ Complete (readKeys s.db (ascii "b") (ascii "a/") (ascii "/") 1) []
      ((items (ascii "b") (ascii "a/") (ascii "/") (s.db.objects.scan (objectKey (ascii "b") (ascii "a/")))).map Item.filed) := by
  refine runShows (fun s => (gather (readKeys s.db (ascii "b") (ascii "a/") (ascii "/") 1) 2 []).map List.length = some 1 ∧
    ((items (ascii "b") (ascii "a/") (ascii "/") (s.db.objects.scan (objectKey (ascii "b") (ascii "a/")))).map Item.filed).length = 2)
    (by decide +kernel)
    fun s ran short complete => ?_
  obtain ⟨read,length⟩ := short
  obtain ⟨total,bound,gathered,perm⟩ := complete
  obtain ⟨_,done,_⟩ := Option.map_eq_some_iff.mp read
  cases (gatherMore done bound).symm.trans (gathered (2 + bound) (by omega))
  have equal := perm.length_eq
  omega

end MaxIOFS.DelimitedPages
