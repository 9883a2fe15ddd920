import MaxIOFS.FlatPages

/-! Search by tags, page after page, over an exact index. A page ends when it is full, and the
candidate it stops at becomes the marker, which the next page passes over. -/
namespace MaxIOFS.TagSearch
open ByteString (Bytes ascii hasPrefix hasPrefixIff)
open OrderedStore MetadataStore Records ObjectManager VersionHistory Pagination ManagerRuns FlatPages Runs List

def ExactIndex (bucket : Bytes) (db : Database) : Prop :=
  ∀ q, ascii "tag_idx:" ++ bucket ++ colon <+: q → ((db.tagIndex.get q).isSome = true ↔
    ∃ e ∈ db.objects.scan (objectKey bucket []), q ∈ tagKeys bucket e.2.key e.2.tags)

def Homed (bucket : Bytes) (db : Database) : Prop := ∀ q obj, db.objects.get q = some obj → objectSpace bucket <+: q → obj.bucket = bucket

def matching (db : Database) (bucket start : Bytes) (filter : ObjectFilter) : List ObjectMetadata :=
  ((db.objects.scan (objectKey bucket start)).map Prod.snd).filter (fun obj => matchesFilter obj (some filter))

def nextCandidate (db : Database) (bucket start : Bytes) (tag : Bytes × Bytes) (key : Bytes) : Option Bytes :=
  (after id key (db.candidateKeys bucket start [] tag)).head?

section
variable {bucket start marker : Bytes} {db : Database} {filter : ObjectFilter} {tag : Bytes × Bytes}
variable {key : Bytes} {obj : ObjectMetadata}

theorem matchingSorted (kept : Kept bucket db) : (matching db bucket start filter).Pairwise (fun a b => a.key < b.key) :=
  List.Pairwise.filter _ (pairwise_map.mpr (keptSorted kept))

theorem memMatching (kept : Kept bucket db) : obj ∈ matching db bucket start filter ↔
    db.objects.get (objectKey bucket obj.key) = some obj ∧ start <+: obj.key ∧ matchesFilter obj (some filter) = true := by
  rw [matching,mem_filter,mem_map]
  constructor
  · rintro ⟨⟨_,scanned,rfl⟩,found⟩
    obtain ⟨own,_,under,stored⟩ := entryOwn (keptAddressed kept) scanned
    rw [keptKey kept scanned] at own under
    exact ⟨own ▸ stored,under,found⟩
  · rintro ⟨stored,under,found⟩
    exact ⟨⟨(objectKey bucket obj.key, obj),Store.memScan.mpr ⟨stored,(prefix_append_right_inj _).mpr under⟩,rfl⟩,found⟩

theorem indexPrefix (bucket tagKey tagValue key : Bytes) : tagIndexKey bucket tagKey tagValue key =
    tagIndexKey bucket tagKey tagValue [] ++ key := by
  simp [tagIndexKey]

theorem memCandidates : key ∈ db.candidateKeys bucket start marker tag ↔
    (db.tagIndex.get (tagIndexKey bucket tag.1 tag.2 key)).isSome = true ∧ start <+: key ∧ (marker = [] ∨ marker < key) := by
  unfold Database.candidateKeys
  rw [mem_insertionSort,mem_filter,mem_map]
  have filtered : (hasPrefix start key && !decide (marker ≠ [] ∧ key ≤ marker)) = true ↔ start <+: key ∧ (marker = [] ∨ marker < key) := by
    rw [Bool.and_eq_true,hasPrefixIff,Bool.not_eq_true',decide_eq_false_iff_not,not_and_or,not_not,not_le]
  rw [filtered]
  refine and_congr_left fun _ => ⟨?_,fun stored => ?_⟩
  · rintro ⟨⟨_,u⟩,mem,rfl⟩
    obtain ⟨stored,_,rfl⟩ := Store.memScan.mp mem
    rw [drop_left,indexPrefix,stored]
    rfl
  · obtain ⟨u,stored⟩ := Option.isSome_iff_exists.mp stored
    have whole := indexPrefix bucket tag.1 tag.2 key
    refine ⟨(tagIndexKey bucket tag.1 tag.2 key, u),Store.memScan.mpr ⟨stored,?_⟩,?_⟩
    · exact whole ▸ prefix_append ..
    · simp only [whole,drop_left]

variable (bucket start marker db tag) in
theorem candidatesSorted : (db.candidateKeys bucket start marker tag).Pairwise (· < ·) := by
  have raw : ((db.tagIndex.scan (tagIndexKey bucket tag.1 tag.2 [])).map
      (fun e => e.1.drop (tagIndexKey bucket tag.1 tag.2 []).length)).Pairwise (· < ·) := by
    refine pairwise_map.mpr ((List.Pairwise.filter _ db.tagIndex.sorted).imp_of_mem fun {a b} memA memB less => ?_)
    obtain ⟨_,_,sameA⟩ := Store.memScan.mp memA
    obtain ⟨_,_,sameB⟩ := Store.memScan.mp memB
    rw [← sameA,← sameB] at less ⊢
    rw [drop_left,drop_left]
    exact (appendLt ..).mp less
  unfold Database.candidateKeys
  have filtered := List.Pairwise.filter (fun key => hasPrefix start key && !decide (marker ≠ [] ∧ key ≤ marker)) raw
  rw [List.Pairwise.insertionSort_eq (filtered.imp fun less => less.le)]
  exact filtered

theorem candidatesAfter (here : marker ≠ []) : db.candidateKeys bucket start marker tag =
    after id marker (db.candidateKeys bucket start [] tag) := by
  refine sortedUnique (candidatesSorted ..) (afterSorted (candidatesSorted ..) marker) fun key => ?_
  rw [memAfter,memCandidates,memCandidates]
  simp only [here,false_or,true_or,and_true,id_eq,and_assoc]

theorem matchingCandidate (kept : Kept bucket db) (exact_ : ExactIndex bucket db) (listed : tag ∈ filter.tags.entries)
    (mem : obj ∈ matching db bucket start filter) (above : marker = [] ∨ marker < obj.key) :
    obj.key ∈ db.candidateKeys bucket start marker tag := by
  obtain ⟨stored,under,found⟩ := (memMatching kept).mp mem
  have has : obj.tags.get tag.1 = some tag.2 := by
    simp only [matchesFilter,Bool.and_eq_true] at found
    exact of_decide_eq_true (all_eq_true.mp found.2 tag listed)
  refine memCandidates.mpr ⟨(exact_ _ ?_).mpr ⟨(objectKey bucket obj.key, obj),?_,?_⟩,under,above⟩
  · exact ⟨tag.1 ++ colon ++ tag.2 ++ colon ++ obj.key,by simp [tagIndexKey]⟩
  · exact Store.memScan.mpr ⟨stored,(prefix_append_right_inj _).mpr nil_prefix⟩
  · exact mem_map.mpr ⟨tag,Store.memEntries.mpr has,rfl⟩

def hit (db : Database) (bucket : Bytes) (filter : ObjectFilter) (key : Bytes) : Option ObjectMetadata :=
  (db.getObject bucket key []).toOption.filter (fun obj => matchesFilter obj (some filter))

def hits (db : Database) (bucket : Bytes) (filter : ObjectFilter) (keys : List Bytes) : List ObjectMetadata :=
  keys.filterMap (hit db bucket filter)

theorem hitsAppend (front back : List Bytes) : hits db bucket filter (front ++ back) =
    hits db bucket filter front ++ hits db bucket filter back := filterMap_append

theorem tagLoopCons {maxKeys count rest} (room : ¬ maxKeys ≤ count) :
    db.tagLoop bucket maxKeys filter count (key :: rest) = match hit db bucket filter key with
      | none => db.tagLoop bucket maxKeys filter count rest
      | some obj => (obj :: (db.tagLoop bucket maxKeys filter (count + 1) rest).1, (db.tagLoop bucket maxKeys filter (count + 1) rest).2) := by
  rw [Database.tagLoop,if_neg room,hit]
  cases db.getObject bucket key [] with
  | error e => rfl
  | ok obj =>
    by_cases matched : matchesFilter obj (some filter) = true
    · simp [matched,Except.toOption,Option.filter]
    · simp [matched,Except.toOption,Option.filter]

variable (bucket db filter) in
theorem tagLoopCases {maxKeys count} (keys : List Bytes) (room : count ≤ maxKeys) :
    (db.tagLoop bucket maxKeys filter count keys = (hits db bucket filter keys, []) ∧ (hits db bucket filter keys).length + count ≤ maxKeys) ∨
    ∃ front stop back, keys = front ++ stop :: back ∧ db.tagLoop bucket maxKeys filter count keys = (hits db bucket filter front, stop) ∧
      (hits db bucket filter front).length + count = maxKeys ∧
      (front = [] ∨ ∃ init y, front = init ++ [y] ∧ (hit db bucket filter y).isSome = true) := by
  induction keys generalizing count with
  | nil => exact .inl ⟨rfl,by simpa [hits] using room⟩
  | cons key rest ih =>
    by_cases full : maxKeys ≤ count
    · rw [Database.tagLoop,if_pos full]
      exact .inr ⟨[],key,rest,rfl,rfl,by simp only [hits,filterMap_nil,length_nil]; omega,.inl rfl⟩
    rw [tagLoopCons full]
    have grow l := filterMap_cons (f := hit db bucket filter) (a := key) (l := l)
    cases here : hit db bucket filter key with
    | none =>
      simp only [here] at grow
      rcases ih room with ⟨done,fits⟩ | ⟨front,stop,back,split,done,fits,last⟩
      · exact .inl ⟨done.trans (by rw [hits,hits,grow]),by rw [hits,grow]; exact fits⟩
      refine .inr ⟨key :: front,stop,back,congrArg (key :: ·) split,done.trans (by rw [hits,hits,grow]),by rw [hits,grow]; exact fits,.inr ?_⟩
      rcases last with rfl | ⟨init,y,rfl,found⟩
      · simp only [hits,filterMap_nil,length_nil] at fits
        omega
      · exact ⟨key :: init,y,rfl,found⟩
    | some obj =>
      simp only [here] at grow
      rcases ih (show count + 1 ≤ maxKeys by omega) with ⟨done,_⟩ | ⟨front,stop,back,split,done,_,last⟩
      · exact .inl ⟨by simp only [done,hits,grow],by rw [hits,grow,length_cons,← hits]; omega⟩
      refine .inr ⟨key :: front,stop,back,congrArg (key :: ·) split,by simp only [done,hits,grow],
        by rw [hits,grow,length_cons,← hits]; omega,.inr ?_⟩
      rcases last with rfl | ⟨init,y,rfl,found⟩
      · exact ⟨[],key,rfl,by rw [here]; rfl⟩
      · exact ⟨key :: init,y,rfl,found⟩

section
variable (kept : Kept bucket db) (home : Homed bucket db)
include kept home

theorem hitIff (named : bucket ≠ []) : hit db bucket filter key = some obj ↔
      obj.key = key ∧ db.objects.get (objectKey bucket key) = some obj ∧ matchesFilter obj (some filter) = true := by
  have stored raw (there : db.objects.get (objectKey bucket key) = some raw) : raw.key = key ∧ key ≠ [] ∧
      db.getObject bucket key [] = .ok raw := by
    obtain ⟨present,own⟩ := kept _ raw there inObjectSpace
    have same : raw.key = key := (append_cancel_left own).symm
    have homed := home _ raw there inObjectSpace
    refine ⟨same,same ▸ present,?_⟩
    unfold Database.getObject Database.record
    rw [if_neg (not_or.mpr ⟨named,same ▸ present⟩),there]
    exact congrArg Except.ok (filledSelf (homed.symm ▸ named) present)
  constructor
  · intro found
    obtain ⟨read,matched⟩ := Option.filter_eq_some_iff.mp found
    cases answer : db.getObject bucket key [] with
    | error e => rw [answer] at read; cases read
    | ok obj' =>
      rw [answer] at read
      cases read
      obtain ⟨_,_,raw,there,_⟩ := readRecord answer
      obtain ⟨same,_,again⟩ := stored raw there
      cases (answer.symm.trans again)
      exact ⟨same,there,matched⟩
  · rintro ⟨_,there,matched⟩
    rw [hit,(stored obj there).2.2]
    exact Option.filter_eq_some_iff.mpr ⟨rfl,matched⟩

theorem hitsSorted (named : bucket ≠ []) {keys} (sorted : keys.Pairwise (· < ·)) :
    (hits db bucket filter keys).Pairwise (fun a b => a.key < b.key) := by
  refine List.Pairwise.filterMap _ (fun a b less x first y second => ?_) sorted
  rw [((hitIff kept home named).mp first).1,((hitIff kept home named).mp second).1]
  exact less

theorem hitsMatching (exact_ : ExactIndex bucket db) (named : bucket ≠ []) (listed : tag ∈ filter.tags.entries) (marker : Bytes) :
    hits db bucket filter (db.candidateKeys bucket start marker tag) = after ObjectMetadata.key marker (matching db bucket start filter) := by
  refine sortedUnique (hitsSorted kept home named (candidatesSorted ..)) (afterSorted (matchingSorted kept) marker) fun obj => ?_
  rw [hits,mem_filterMap,memAfter]
  constructor
  · rintro ⟨_,among,found⟩
    obtain ⟨rfl,stored,matched⟩ := (hitIff kept home named).mp found
    obtain ⟨_,under,above⟩ := memCandidates.mp among
    have present := (kept _ obj stored inObjectSpace).1
    refine ⟨(memMatching kept).mpr ⟨stored,under,matched⟩,above.elim (fun first => ?_) id⟩
    exact first ▸ lt_of_le_of_ne (nilLe _) (Ne.symm present)
  · rintro ⟨mem,above⟩
    obtain ⟨stored,_,matched⟩ := (memMatching kept).mp mem
    exact ⟨obj.key,matchingCandidate kept exact_ listed mem (.inr above),(hitIff kept home named).mpr ⟨rfl,stored,matched⟩⟩

end

def readMatches (db : Database) (bucket start : Bytes) (maxKeys : Int) (filter : ObjectFilter) (pick : Nat → Bytes × Bytes)
    (at_ : Nat × Bytes) : List ObjectMetadata × Option (Nat × Bytes) :=
  match db.searchObjects (pick at_.1) bucket start at_.2 maxKeys (some filter) with
  | .error _ => ([], none)
  | .ok page => (page.1, if page.2 = [] then none else some (at_.1 + 1, page.2))

def follows (db : Database) (bucket start : Bytes) (pick : Nat → Bytes × Bytes) (i : Nat) (x : ObjectMetadata) : Option (Nat × Bytes) :=
  (nextCandidate db bucket start (pick i) x.key).map (i + 1, ·)

def stopsAt (db : Database) (bucket start : Bytes) (pick : Nat → Bytes × Bytes) (i : Nat) (x y : ObjectMetadata) : Bool :=
  decide (nextCandidate db bucket start (pick i) x.key = some y.key)

variable {maxKeys : Int} {pick : Nat → Bytes × Bytes}

theorem readLoop (named : bucket ≠ []) (picked : ∀ i, pick i ∈ filter.tags.entries) (i : Nat) (marker : Bytes) :
    readMatches db bucket start maxKeys filter pick (i, marker) =
      ((db.tagLoop bucket (pageSize maxKeys) filter 0 (db.candidateKeys bucket start marker (pick i))).1,
        if (db.tagLoop bucket (pageSize maxKeys) filter 0 (db.candidateKeys bucket start marker (pick i))).2 = [] then none
        else some (i + 1, (db.tagLoop bucket (pageSize maxKeys) filter 0 (db.candidateKeys bucket start marker (pick i))).2)) := by
  have tags : filter.tags.entries ≠ [] := ne_nil_of_mem (picked 0)
  simp only [readMatches,Database.searchObjects,if_neg named,if_neg tags,Database.searchObjectsWithTags]

theorem searchCuts (kept : Kept bucket db) (home : Homed bucket db) (exact_ : ExactIndex bucket db) (named : bucket ≠ [])
    (picked : ∀ i, pick i ∈ filter.tags.entries) (i : Nat) (marker : Bytes) :
    Cuts (pageSize maxKeys) (readMatches db bucket start maxKeys filter pick) (follows db bucket start pick i) (i, marker)
      (after ObjectMetadata.key marker (matching db bucket start filter)) := by
  have positive := pageSizePos maxKeys
  have sorted := candidatesSorted bucket start marker db (pick i)
  rw [← hitsMatching kept home exact_ named (picked i)]
  unfold Cuts
  rw [readLoop named picked]
  rcases tagLoopCases bucket db filter (db.candidateKeys bucket start marker (pick i))
      (Nat.zero_le (pageSize maxKeys)) with ⟨done,fits⟩ | ⟨_,stop,back,split,done,fits,last⟩
  · left
    simp only [done,if_true]
    exact ⟨by simpa using fits,trivial,.refl _⟩
  right
  rcases last with rfl | ⟨init,y,rfl,present⟩
  · simp only [hits,filterMap_nil,length_nil] at fits
    omega
  obtain ⟨obj,found⟩ := Option.isSome_iff_exists.mp present
  obtain ⟨rfl,_⟩ := (hitIff kept home named).mp found
  have one : hits db bucket filter [obj.key] = [obj] := by simp [hits,found]
  have place : (hits db bucket filter init).length = pageSize maxKeys - 1 := by
    rw [hitsAppend,one,length_append,length_singleton] at fits
    omega
  have tail : after id obj.key (db.candidateKeys bucket start marker (pick i)) = stop :: back := by
    rw [split,append_assoc] at sorted ⊢
    exact afterSplit sorted
  have next : nextCandidate db bucket start (pick i) obj.key = some stop := by
    have among : obj.key ∈ db.candidateKeys bucket start marker (pick i) := split ▸ by simp
    rw [nextCandidate]
    by_cases first : marker = []
    · rw [← first,tail]
      rfl
    have above : marker < obj.key := (memCandidates.mp among).2.2.resolve_left first
    rw [candidatesAfter first,afterAfter above.le] at tail
    rw [tail]
    rfl
  have present : stop ≠ [] := by
    have above : obj.key < stop := (memAfter.mp (tail ▸ mem_cons_self .. : stop ∈ after id obj.key _)).2
    exact ((nilLe obj.key).trans_lt above).ne'
  refine ⟨obj,(i + 1, stop),?_,by rw [follows,next]; rfl,?_,?_⟩
  · rw [split,append_assoc,hitsAppend,← place,List.getElem?_append_right le_rfl,Nat.sub_self,hitsAppend,one]
    rfl
  · simp only [done,if_neg present]
  · simp only [done]
    rw [split,hitsAppend _ (stop :: back),take_left' (by omega)]

theorem nextLeast {c} (next : nextCandidate db bucket start tag key = some c) : key < c ∧ ∀ k ∈ db.candidateKeys bucket start [] tag, key < k →
    c ≤ k := by
  have sorted : (after id key (db.candidateKeys bucket start [] tag)).Pairwise (fun a b => id a < id b) :=
    afterSorted (candidatesSorted bucket start [] db tag) key
  have members k : k ∈ after id key (db.candidateKeys bucket start [] tag) ↔ _ ∧ key < id k := memAfter
  unfold nextCandidate at next
  cases shape : after id key (db.candidateKeys bucket start [] tag) with
  | nil => rw [shape] at next; cases next
  | cons head rest =>
    rw [shape] at next sorted members
    cases next
    refine ⟨((members c).mp mem_cons_self).2,fun k among above => ?_⟩
    rcases mem_cons.mp ((members k).mpr ⟨among,above⟩) with rfl | later
    · exact le_rfl
    · exact le_of_lt ((pairwise_cons.mp sorted).1 k later)

theorem resumedMatching (kept : Kept bucket db) (exact_ : ExactIndex bucket db) {i} (listed : pick i ∈ filter.tags.entries)
    {x c} (next : nextCandidate db bucket start (pick i) x.key = some c) :
    resumed ObjectMetadata.key (stopsAt db bucket start pick i) (matching db bucket start filter) x =
      after ObjectMetadata.key c (matching db bucket start filter) := by
  obtain ⟨above,least⟩ := nextLeast next
  refine filter_congr fun y mem => Bool.eq_iff_iff.mpr ?_
  simp only [stopsAt,next,Option.some.injEq,Bool.and_eq_true,decide_eq_true_eq,Bool.not_eq_true',decide_eq_false_iff_not]
  constructor
  · rintro ⟨behind,different⟩
    exact lt_of_le_of_ne (least _ (matchingCandidate kept exact_ listed mem (.inl rfl)) behind) different
  · intro behind
    exact ⟨above.trans behind,behind.ne⟩

theorem readSorted (kept : Kept bucket db) (home : Homed bucket db) (named : bucket ≠ []) (picked : ∀ i, pick i ∈ filter.tags.entries)
    (m : Nat × Bytes) : (readMatches db bucket start maxKeys filter pick m).1.Pairwise (fun a b => a.key < b.key) := by
  obtain ⟨i,marker⟩ := m
  have sorted := candidatesSorted bucket start marker db (pick i)
  rw [readLoop named picked]
  rcases tagLoopCases bucket db filter (db.candidateKeys bucket start marker (pick i))
      (Nat.zero_le (pageSize maxKeys)) with ⟨done,_⟩ | ⟨_,_,_,split,done,_⟩
  · rw [done]
    exact hitsSorted kept home named sorted
  rw [done]
  rw [split] at sorted
  exact hitsSorted kept home named (pairwise_append.mp sorted).1

def StopsAside (db : Database) (bucket start : Bytes) (filter : ObjectFilter) (pick : Nat → Bytes × Bytes) (size : Nat) : Prop :=
  ∀ j x, (matching db bucket start filter)[(j + 1) * size - 1]? = some x →
    ∀ y ∈ matching db bucket start filter, nextCandidate db bucket start (pick j) x.key ≠ some y.key

/-- Whatever tags the pages start with, reading on at each next marker yields the matching objects in the order of
their keys exactly when no page stops at one. -/
theorem tagSearchLossless (kept : Kept bucket db) (home : Homed bucket db) (exact_ : ExactIndex bucket db) (named : bucket ≠ [])
    (picked : ∀ i, pick i ∈ filter.tags.entries) (start : Bytes) (maxKeys : Int) : (∃ bound, ∀ fuel, bound ≤ fuel →
      gather (readMatches db bucket start maxKeys filter pick) fuel (0, []) = some (matching db bucket start filter)) ↔
      StopsAside db bucket start filter pick (pageSize maxKeys) := by
  have sorted : (matching db bucket start filter).Pairwise (fun a b => a.key < b.key) := matchingSorted kept
  have first : Cuts (pageSize maxKeys) (readMatches db bucket start maxKeys filter pick) _ (0, []) _ :=
    searchCuts kept home exact_ named picked 0 []
  have whole : after ObjectMetadata.key [] (matching db bucket start filter) = matching db bucket start filter := by
    refine sortedUnique (afterSorted sorted []) sorted fun obj => memAfter.trans (and_iff_left_of_imp fun mem => ?_)
    have present := (kept _ obj ((memMatching kept).mp mem).1 inObjectSpace).1
    exact lt_of_le_of_ne (nilLe _) (Ne.symm present)
  rw [whole] at first
  rw [exactIff (follows db bucket start pick) (stopsAt db bucket start pick) sorted first (fun i x _ m marked => ?_)
    (fun i x y z _ mem _ low high stopped => ?_)
    (pageSizePos maxKeys) (readSorted kept home named picked)]
  · constructor
    · intro clean j x found y mem stop
      have behind := dropAfter sorted (Nat.mul_pos (Nat.succ_pos j) (pageSizePos maxKeys)) found
      have passed := clean j x found y (behind ▸ memAfter.mpr ⟨mem,(nextLeast stop).1⟩)
      rw [Nat.zero_add,stopsAt,decide_eq_false_iff_not] at passed
      exact passed stop
    · intro aside j x found y mem
      rw [Nat.zero_add]
      exact decide_eq_false (aside j x found y (mem_of_mem_drop mem))
  · obtain ⟨c,next,rfl⟩ := Option.map_eq_some_iff.mp marked
    rw [resumedMatching kept exact_ (picked i) next]
    exact searchCuts kept home exact_ named picked (i + 1) c
  · have least := (nextLeast (of_decide_eq_true stopped)).2 y.key (matchingCandidate kept exact_ (picked i) mem (.inl rfl)) low
    exact absurd least (not_le.mpr high)

end

def blue : Bytes × Bytes := (ascii "colour", ascii "blue")

def blueFilter : ObjectFilter := ⟨[], none, none, none, none, empty.set blue.1 blue.2⟩

def largeFilter : ObjectFilter := { blueFilter with minSize := some 2 }

def blueRun : List Event :=
  [⟨callAt 0, .put (ascii "a") [1, 1] empty⟩, ⟨callAt 1, .put (ascii "b") [2] empty⟩, ⟨callAt 2, .put (ascii "c") [3, 3] empty⟩,
    ⟨callAt 3, .setTagging (ascii "a") (some [blue]) []⟩, ⟨callAt 4, .setTagging (ascii "b") (some [blue]) []⟩,
    ⟨callAt 5, .setTagging (ascii "c") (some [blue]) []⟩]

theorem exactKeys {bucket db} (same : db.tagIndex.entries.map Prod.fst =
    (db.objects.scan (objectKey bucket [])).flatMap (fun e => tagKeys bucket e.2.key e.2.tags)) : ExactIndex bucket db := by
  intro q _
  have listed : (db.tagIndex.get q).isSome = true ↔ q ∈ db.tagIndex.entries.map Prod.fst := by
    rw [Option.isSome_iff_exists,mem_map]
    constructor
    · rintro ⟨u,stored⟩
      exact ⟨(q, u),Store.memEntries.mpr stored,rfl⟩
    · rintro ⟨⟨_,u⟩,mem,rfl⟩
      exact ⟨u,Store.memEntries.mp mem⟩
  rw [listed,same,mem_flatMap]

theorem homedFiled {bucket db} (filed : Filed bucket db) : Homed bucket db :=
  fun q obj stored inside => (filed.objects q obj stored inside).1.bucket

def nextBlue (db : Database) (key : Bytes) : Option Bytes := nextCandidate db (ascii "b") [] blue key

theorem blueReached : ∃ s, run (step smallNode (ascii "b")) (newBucket none) blueRun = some s ∧ Filed (ascii "b") s.db ∧
    ExactIndex (ascii "b") s.db ∧ ((matching s.db (ascii "b") [] blueFilter).length = 3 ∧
    (gather (readMatches s.db (ascii "b") [] 1 blueFilter (fun _ => blue)) 2 (0, [])).map List.length = some 2) ∧
    (matching s.db (ascii "b") [] largeFilter).map ObjectMetadata.key = [ascii "a", ascii "c"] ∧
    nextBlue s.db (ascii "a") = some (ascii "b") ∧ nextBlue s.db (ascii "c") = none := by
  refine runShows (fun s => s.db.tagIndex.entries.map Prod.fst =
      (s.db.objects.scan (objectKey (ascii "b") [])).flatMap (fun e => tagKeys (ascii "b") e.2.key e.2.tags) ∧
    ((matching s.db (ascii "b") [] blueFilter).length = 3 ∧
    (gather (readMatches s.db (ascii "b") [] 1 blueFilter (fun _ => blue)) 2 (0, [])).map List.length = some 2) ∧
    (matching s.db (ascii "b") [] largeFilter).map ObjectMetadata.key = [ascii "a", ascii "c"] ∧
    nextBlue s.db (ascii "a") = some (ascii "b") ∧ nextBlue s.db (ascii "c") = none) (by decide +kernel)
    fun s ran facts => ⟨runFiled (newBucketEmpty none) (by decide) ran,exactKeys facts.1,facts.2⟩

-- With one object a page, the first page stops at an object that is too small.
theorem spacedPagesComplete : ∃ s, run (step smallNode (ascii "b")) (newBucket none) blueRun = some s ∧ ∃ bound, ∀ fuel, bound ≤ fuel →
    gather (readMatches s.db (ascii "b") [] 1 largeFilter (fun _ => blue)) fuel (0, []) = some (matching s.db (ascii "b") [] largeFilter) := by
  obtain ⟨s,ran,filed,exact_,_,keys,first,second⟩ := blueReached
  have listed : blue ∈ largeFilter.tags.entries := by decide
  refine ⟨s,ran,(tagSearchLossless (keptFiled filed) (homedFiled filed) exact_ (by decide) (fun _ => listed) [] 1).mpr
    fun j x found y mem stop => ?_⟩
  have here : ((matching s.db (ascii "b") [] largeFilter).map ObjectMetadata.key)[(j + 1) * pageSize 1 - 1]? = some x.key := by
    rw [getElem?_map,found]
    rfl
  have there : y.key ∈ (matching s.db (ascii "b") [] largeFilter).map ObjectMetadata.key := mem_map_of_mem mem
  rw [keys] at here there
  rw [show (j + 1) * pageSize 1 - 1 = j by rw [show pageSize 1 = 1 from rfl]; omega] at here
  change nextBlue s.db x.key = some y.key at stop
  match j with
  | 0 =>
    rw [← Option.some.inj here,first] at stop
    rw [← Option.some.inj stop] at there
    exact absurd there (by decide)
  | 1 =>
    rw [← Option.some.inj here,second] at stop
    cases stop
  | j + 2 => cases here

-- With one object a page, the second object is the candidate the first page stops at.
theorem secondMatchLost : ∃ s, run (step smallNode (ascii "b")) (newBucket none) blueRun = some s ∧ ExactIndex (ascii "b") s.db ∧
    ¬ ∃ bound, ∀ fuel, bound ≤ fuel →
      gather (readMatches s.db (ascii "b") [] 1 blueFilter (fun _ => blue)) fuel (0, []) = some (matching s.db (ascii "b") [] blueFilter) := by
  obtain ⟨s,ran,_,exact_,⟨three,read⟩,_⟩ := blueReached
  refine ⟨s,ran,exact_,fun ⟨bound,gathered⟩ => ?_⟩
  obtain ⟨_,done,one⟩ := Option.map_eq_some_iff.mp read
  have same := (gatherMore done bound).symm.trans (gathered (2 + bound) (by omega))
  rw [Option.some.inj same,three] at one
  cases one

end MaxIOFS.TagSearch
