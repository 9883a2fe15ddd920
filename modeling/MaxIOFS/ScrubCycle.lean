import MaxIOFS.FlatPages

/-! One cycle of the anti-entropy scrubber: bucket after bucket, page after page, every object
of a page is compared with every peer. The position is saved after each page and each
bucket; a cycle that was stopped is taken up again at the saved position. -/
namespace MaxIOFS.ScrubCycle
open ByteString MetadataStore Records ObjectManager FlatPages Runs List OrderedStore

structure ScrubCheckpoint where
  bucketOrder : List Bytes
  currentBucketIdx : Nat
  lastKey : Bytes
  deriving DecidableEq

def ScrubCheckpoint.bucket (cp : ScrubCheckpoint) : Option Bytes := cp.bucketOrder[cp.currentBucketIdx]?

inductive Point (ν : Type) where
  | bucket
  | listing (marker : Bytes)
  | peers (page : ListObjectsResult)
  | batch (page : ListObjectsResult) (todo : List (ν × Bytes))
  | batchDone (page : ListObjectsResult)
  | bucketDone
  | returned
  | stopped
  | done

structure World (ν : Type) where
  saved : Option ScrubCheckpoint
  cp : ScrubCheckpoint
  point : Point ν
  cancelled : Bool
  compared : List (Bytes × Bytes × ν)

inductive Event where
  | turn
  | cancel
  | crash
  | resume
  deriving DecidableEq

section
variable {ν : Type} (s : State) (batchSize : Int) (peers : List ν)

def keysOf (page : ListObjectsResult) : List Bytes := page.objects.map Object.key

def work (page : ListObjectsResult) : List (ν × Bytes) := peers.flatMap (fun peer => (keysOf page).map (peer, ·))

def World.goTo (w : World ν) (point : Point ν) : World ν := { w with point := point }

def World.saveCheckpoint (w : World ν) (cp : ScrubCheckpoint) : World ν := { w with cp := cp, saved := some cp }

def turn (w : World ν) : Option (World ν) :=
  match w.point with
  | .bucket => match w.cp.bucket with
    | none => some (w.goTo .returned)
    | some _ => some (w.goTo (if w.cancelled then .stopped else .listing w.cp.lastKey))
  | .listing marker =>
    if w.cancelled then some (w.goTo .stopped)
    else match w.cp.bucket with
      | none => none
      | some bucket => match listObjects s bucket [] [] marker batchSize with
        | .error _ => some (w.goTo .bucketDone)
        | .ok page => some (w.goTo (if page.objects = [] then .bucketDone else .peers page))
  | .peers page => some (w.goTo (if w.cancelled then .stopped else .batch page (work peers page)))
  | .batch page [] => some (w.goTo (.batchDone page))
  | .batch page ((peer, key) :: todo) => match w.cp.bucket with
    | none => none
    | some bucket =>
      if w.cancelled then some (w.goTo (.batchDone page))
      else some { w with point := .batch page todo, compared := (bucket, key, peer) :: w.compared }
  | .batchDone page =>
    let next := w.saveCheckpoint { w.cp with lastKey := page.nextMarker }
    some (next.goTo (if page.isTruncated then .listing page.nextMarker else .bucketDone))
  | .bucketDone =>
    let finished : ScrubCheckpoint := { w.cp with lastKey := [] }
    some { w.saveCheckpoint finished with point := .bucket, cp := { finished with currentBucketIdx := finished.currentBucketIdx + 1 } }
  | .returned => some (if w.cancelled then w.goTo .stopped else { w with point := .done, saved := none })
  | .stopped | .done => none

def running : Point ν → Bool
  | .stopped | .done => false
  | _ => true

def step (w : World ν) : Event → Option (World ν)
  | .turn => turn s batchSize peers w
  | .cancel => some { w with cancelled := true }
  | .crash => if running w.point then some (w.goTo .stopped) else none
  | .resume => match w.point, w.saved with
    | .stopped, some cp => some { w with cp := cp, point := .bucket, cancelled := false }
    | _, _ => none

def beginCycle (order : List Bytes) : World ν :=
  let cp : ScrubCheckpoint := ⟨order, 0, []⟩
  ⟨some cp, cp, .bucket, false, []⟩

def Steady (w : World ν) : Event → Prop
  | .turn => match w.point with
    | .batch page (_ :: _) => w.cancelled = true → page.isTruncated = false
    | .listing marker => ∀ bucket page, w.cp.bucket = some bucket → listObjects s bucket [] [] marker batchSize = .ok page →
        page.isTruncated = true → page.objects ≠ []
    | _ => True
  | _ => True

end

structure Listed (s : State) (bucket : Bytes) : Prop where
  home : ∃ found, bucketOf s bucket = some found
  named : bucket ≠ []
  plain : ByteString.colon ∉ bucket
  kept : Kept bucket s.db

-- The listing names what JSON has kept of a key, and the peers are asked for that name.
structure Legible (s : State) (bucket : Bytes) : Prop where
  home : ∃ found, bucketOf s bucket = some found
  named : bucket ≠ []
  plain : ByteString.colon ∉ bucket
  encoded : JsonRecords.Encoded bucket s.db
  texts : ∀ key obj, s.db.objects.get (objectKey bucket key) = some obj → Utf8.Text key

theorem Legible.listed {s bucket} (legible : Legible s bucket) : Listed s bucket := by
  refine ⟨legible.home,legible.named,legible.plain,fun q obj stored inside => ?_⟩
  obtain ⟨key,rfl⟩ := inside
  obtain ⟨present,kept⟩ := legible.encoded key obj stored
  have own : obj.key = key := kept.trans (legible.texts key obj stored)
  exact ⟨own ▸ present,own ▸ rfl⟩

theorem Listed.legible {s bucket} (listed : Listed s bucket) (texts : ∀ e ∈ s.db.objects.scan (objectKey bucket []), Utf8.Text e.2.key) :
    Legible s bucket := by
  have text key obj (stored : s.db.objects.get (objectKey bucket key) = some obj) : obj.key ≠ [] ∧ obj.key = key ∧ Utf8.Text key := by
    obtain ⟨present,own⟩ := listed.kept _ obj stored VersionHistory.inObjectSpace
    have same : key = obj.key := append_cancel_left own
    exact ⟨present,same.symm,same ▸ texts _ (Store.memScan.mpr ⟨stored,(prefix_append_right_inj _).mpr nil_prefix⟩)⟩
  refine ⟨listed.home,listed.named,listed.plain,fun key obj stored => ?_,fun key obj stored => (text key obj stored).2.2⟩
  obtain ⟨present,own,kept⟩ := text key obj stored
  exact ⟨own ▸ present,own.trans kept.symm⟩

section
variable {ν : Type} (s : State) (peers : List ν) (compared : List (Bytes × Bytes × ν))

def Covered (bucket key : Bytes) : Prop := ∀ peer ∈ peers, (bucket, key, peer) ∈ compared

def BucketCovered (bucket : Bytes) : Prop := ∀ key, visible s bucket key → Covered peers compared bucket key

structure UpTo (cp : ScrubCheckpoint) : Prop where
  before : ∀ j bucket, j < cp.currentBucketIdx → cp.bucketOrder[j]? = some bucket → BucketCovered s peers compared bucket
  within : ∀ bucket, cp.bucket = some bucket → ∀ key, visible s bucket key → key ≤ cp.lastKey → Covered peers compared bucket key

def Finished (cp : ScrubCheckpoint) : Prop := ∀ bucket, cp.bucket = some bucket → BucketCovered s peers compared bucket

structure Page (cp : ScrubCheckpoint) (marker : Bytes) (page : ListObjectsResult) : Prop where
  truncated : page.isTruncated = decide (page.nextMarker ≠ [])
  complete : ∀ bucket, cp.bucket = some bucket → ∀ key, visible s bucket key → marker < key →
    key ∈ keysOf page ∨ page.nextMarker ≠ [] ∧ page.nextMarker < key

end

section
variable {ν : Type} {s : State} {peers : List ν} {compared compared' : List (Bytes × Bytes × ν)} {cp : ScrubCheckpoint} {order : List Bytes}

theorem BucketCovered.more {bucket} (covered : BucketCovered s peers compared bucket) (more : compared ⊆ compared') :
    BucketCovered s peers compared' bucket := fun key seen peer mem => more (covered key seen peer mem)

theorem UpTo.more (upTo : UpTo s peers compared cp) (more : compared ⊆ compared') : UpTo s peers compared' cp :=
  ⟨fun j bucket earlier there => (upTo.before j bucket earlier there).more more,
    fun bucket there key seen small peer mem => more (upTo.within bucket there key seen small peer mem)⟩

theorem bucketMem {bucket} (there : cp.bucket = some bucket) : bucket ∈ cp.bucketOrder := List.mem_of_getElem? there

theorem visibleNamed {bucket key} (listed : Listed s bucket) (seen : visible s bucket key) : key ≠ [] := by
  obtain ⟨obj,stored,_⟩ := seen
  obtain ⟨_,own⟩ := listed.kept _ obj stored (VersionHistory.inObjectSpace)
  rwa [append_cancel_left own]

theorem UpTo.start (listed : ∀ bucket ∈ cp.bucketOrder, Listed s bucket) (upTo : UpTo s peers compared cp) :
    UpTo s peers compared { cp with lastKey := [] } := by
  refine ⟨upTo.before,fun bucket there key seen small => absurd ?_ (visibleNamed (listed bucket (bucketMem there)) seen)⟩
  exact le_antisymm small (nilLe key)

theorem UpTo.nextBucket (upTo : UpTo s peers compared cp) (finished : Finished s peers compared cp)
    (listed : ∀ bucket ∈ cp.bucketOrder, Listed s bucket) :
    UpTo s peers compared { cp with lastKey := [], currentBucketIdx := cp.currentBucketIdx + 1 } := by
  refine ⟨fun j bucket earlier there => ?_,fun bucket there key seen small => ?_⟩
  · rcases Nat.lt_or_eq_of_le (Nat.le_of_lt_succ earlier) with less | rfl
    · exact upTo.before j bucket less there
    · exact finished bucket there
  · have inside : bucket ∈ cp.bucketOrder := List.mem_of_getElem? there
    exact absurd (le_antisymm small (nilLe key)) (visibleNamed (listed bucket inside) seen)

theorem pageBehind {marker page} (upTo : UpTo s peers compared { cp with lastKey := marker })
    (paged : Page s cp marker page) (all : ∀ bucket, cp.bucket = some bucket → ∀ key ∈ keysOf page, Covered peers compared bucket key) :
    (page.nextMarker = [] → Finished s peers compared cp) ∧ UpTo s peers compared { cp with lastKey := page.nextMarker } := by
  have reached bucket (there : cp.bucket = some bucket) key (seen : visible s bucket key)
      (short : ¬ (page.nextMarker ≠ [] ∧ page.nextMarker < key)) : Covered peers compared bucket key := by
    rcases lt_or_ge marker key with above | below
    · rcases paged.complete bucket there key seen above with here | later
      · exact all bucket there key here
      · exact absurd later short
    · exact upTo.within bucket there key seen below
  refine ⟨fun last bucket there key seen => reached bucket there key seen fun more => more.1 last,upTo.before,?_⟩
  exact fun bucket there key seen small => reached bucket there key seen fun more => absurd small (not_le.mpr more.2)

end

section
variable {ν : Type} (s : State) (peers : List ν) (order : List Bytes)

def Here (w : World ν) : Prop := match w.point with
  | .bucket => w.cancelled = true ∨ UpTo s peers w.compared w.cp
  | .listing marker => UpTo s peers w.compared { w.cp with lastKey := marker }
  | .peers page => ∃ marker, UpTo s peers w.compared { w.cp with lastKey := marker } ∧ Page s w.cp marker page
  | .batch page todo => ∃ marker, UpTo s peers w.compared { w.cp with lastKey := marker } ∧ Page s w.cp marker page ∧
      ∀ bucket, w.cp.bucket = some bucket → ∀ key ∈ keysOf page, ∀ peer ∈ peers, (peer, key) ∈ todo ∨ (bucket, key, peer) ∈ w.compared
  | .batchDone page => UpTo s peers w.compared { w.cp with lastKey := page.nextMarker } ∧
      (page.isTruncated = true ∨ page.nextMarker = [] ∧ (w.cancelled = true ∨ Finished s peers w.compared w.cp))
  | .bucketDone => UpTo s peers w.compared { w.cp with lastKey := [] } ∧ (w.cancelled = true ∨ Finished s peers w.compared w.cp)
  | .returned => w.cancelled = true ∨ ∀ bucket ∈ order, BucketCovered s peers w.compared bucket
  | .stopped => True
  | .done => ∀ bucket ∈ order, BucketCovered s peers w.compared bucket

structure Sound (w : World ν) : Prop where
  ordered : w.cp.bucketOrder = order
  saved : ∀ cp, w.saved = some cp → cp.bucketOrder = order ∧ UpTo s peers w.compared cp
  here : Here s peers order w

end

section
variable {ν : Type} {s : State} {batchSize : Int} {peers : List ν} {order : List Bytes} {w w' : World ν}

theorem Sound.goTo (sound : Sound s peers order w) {point} (here : Here s peers order (w.goTo point)) : Sound s peers order (w.goTo point) :=
  ⟨sound.ordered,sound.saved,here⟩

theorem bucketTurn (sound : Sound s peers order w) (at_ : w.point = .bucket) (turned : turn s batchSize peers w = some w') :
    Sound s peers order w' := by
  have here := sound.here
  rw [Here,at_] at here
  simp only [turn,at_] at turned
  split at turned
  · rename_i past
    cases turned
    refine sound.goTo (here.imp_right fun upTo bucket mem => ?_)
    obtain ⟨j,inside,there⟩ := getElem_of_mem (sound.ordered ▸ mem)
    have outside : w.cp.bucketOrder.length ≤ w.cp.currentBucketIdx := List.getElem?_eq_none_iff.mp past
    exact upTo.before j bucket (by omega) (List.getElem?_eq_some_iff.mpr ⟨inside,there⟩)
  · cases turned
    cases stop : w.cancelled with
    | true => exact sound.goTo trivial
    | false =>
      rw [stop] at here
      exact sound.goTo (here.resolve_left Bool.false_ne_true)

theorem listingTurn (listed : ∀ bucket ∈ order, Listed s bucket) (sound : Sound s peers order w) {marker} (at_ : w.point = .listing marker)
    (steady : Steady s batchSize w .turn) (turned : turn s batchSize peers w = some w') : Sound s peers order w' := by
  have here : UpTo s peers w.compared { w.cp with lastKey := marker } := by
    have known := sound.here
    rwa [Here,at_] at known
  simp only [Steady,at_] at steady
  simp only [turn,at_] at turned
  split at turned
  · cases turned
    exact sound.goTo trivial
  split at turned
  · contradiction
  rename_i bucket there
  have inside := listed bucket (sound.ordered ▸ bucketMem there)
  obtain ⟨_,home⟩ := inside.home
  obtain ⟨page,listed_,truncated,complete⟩ := pageComplete home inside.named inside.plain inside.kept marker batchSize
  have paged : Page s w.cp marker page := by
    refine ⟨truncated,fun bucket' there' => ?_⟩
    cases (there.symm.trans there')
    exact complete
  rw [listed_] at turned
  cases turned
  by_cases empty : page.objects = []
  · rw [if_pos empty]
    have last : page.nextMarker = [] := by
      by_contra more
      exact steady bucket page there listed_ (by rw [truncated]; simpa using more) empty
    have nothing : keysOf page = [] := by rw [keysOf,empty]; rfl
    have finished := (pageBehind here paged fun _ _ key mem => by rw [nothing] at mem; contradiction).1 last
    have start := here.start (sound.ordered ▸ listed)
    exact sound.goTo ⟨start,.inr finished⟩
  · rw [if_neg empty]
    exact sound.goTo ⟨marker,here,paged⟩

theorem peersTurn (sound : Sound s peers order w) {page} (at_ : w.point = .peers page)
    (turned : turn s batchSize peers w = some w') : Sound s peers order w' := by
  have here := sound.here
  rw [Here,at_] at here
  obtain ⟨marker,upTo,paged⟩ := here
  simp only [turn,at_] at turned
  cases turned
  split
  · exact sound.goTo trivial
  · refine sound.goTo ⟨marker,upTo,paged,fun bucket _ key mem peer known => .inl ?_⟩
    exact mem_flatMap.mpr ⟨peer,known,mem_map.mpr ⟨key,mem,rfl⟩⟩

theorem batchTurn (listed : ∀ bucket ∈ order, Listed s bucket) (sound : Sound s peers order w) {page todo}
    (at_ : w.point = .batch page todo) (steady : Steady s batchSize w .turn) (turned : turn s batchSize peers w = some w') :
    Sound s peers order w' := by
  have here := sound.here
  rw [Here,at_] at here
  obtain ⟨marker,upTo,paged,left⟩ := here
  cases todo with
  | nil =>
    simp only [turn,at_] at turned
    cases turned
    have all : ∀ bucket, w.cp.bucket = some bucket → ∀ key ∈ keysOf page, Covered peers w.compared bucket key :=
      fun bucket there key mem peer known => (left bucket there key mem peer known).resolve_left not_mem_nil
    obtain ⟨finished,behind⟩ := pageBehind upTo paged all
    refine sound.goTo ⟨behind,?_⟩
    by_cases last : page.nextMarker = []
    · exact .inr ⟨last,.inr (finished last)⟩
    · exact .inl (paged.truncated.trans (decide_eq_true last))
  | cons item todo =>
    obtain ⟨peer,key⟩ := item
    simp only [Steady,at_] at steady
    simp only [turn,at_] at turned
    split at turned
    · contradiction
    rename_i bucket there
    split at turned
    · rename_i stop
      cases turned
      have last : page.nextMarker = [] := by simpa [paged.truncated] using steady stop
      have start := upTo.start (sound.ordered ▸ listed)
      refine sound.goTo ⟨?_,.inr ⟨last,.inl stop⟩⟩
      rw [last]
      exact start
    · cases turned
      have more : w.compared ⊆ (bucket, key, peer) :: w.compared := subset_cons_self _ _
      refine ⟨sound.ordered,fun cp saved => ⟨(sound.saved cp saved).1,(sound.saved cp saved).2.more more⟩,marker,upTo.more more,paged,?_⟩
      intro bucket' there' key' mem peer' known
      cases (there.symm.trans there')
      rcases left bucket there key' mem peer' known with waiting | made
      · rcases mem_cons.mp waiting with same | later
        · cases same
          exact .inr mem_cons_self
        · exact .inl later
      · exact .inr (mem_cons_of_mem _ made)

theorem batchDoneTurn (sound : Sound s peers order w) {page} (at_ : w.point = .batchDone page)
    (turned : turn s batchSize peers w = some w') : Sound s peers order w' := by
  have here := sound.here
  rw [Here,at_] at here
  obtain ⟨upTo,rest⟩ := here
  simp only [turn,at_] at turned
  cases turned
  refine ⟨sound.ordered,fun cp saved => ?_,?_⟩
  · cases saved
    exact ⟨sound.ordered,upTo⟩
  split
  · exact upTo
  rename_i whole
  obtain ⟨last,finished⟩ := rest.resolve_left whole
  rw [last] at upTo
  exact ⟨upTo,finished⟩

section
variable (listed : ∀ bucket ∈ order, Listed s bucket) (sound : Sound s peers order w)
include listed sound

theorem bucketDoneTurn (at_ : w.point = .bucketDone) (turned : turn s batchSize peers w = some w') : Sound s peers order w' := by
  have here := sound.here
  rw [Here,at_] at here
  simp only [turn,at_] at turned
  cases turned
  refine ⟨sound.ordered,fun cp saved => ?_,here.2.imp_right fun finished => ?_⟩
  · cases saved
    exact ⟨sound.ordered,here.1⟩
  · exact here.1.nextBucket finished (sound.ordered ▸ listed)

theorem turnSound (steady : Steady s batchSize w .turn) (turned : turn s batchSize peers w = some w') : Sound s peers order w' := by
  cases at_ : w.point with
  | bucket => exact bucketTurn sound at_ turned
  | listing marker => exact listingTurn listed sound at_ steady turned
  | peers page => exact peersTurn sound at_ turned
  | batch page todo => exact batchTurn listed sound at_ steady turned
  | batchDone page => exact batchDoneTurn sound at_ turned
  | bucketDone => exact bucketDoneTurn listed sound at_ turned
  | returned =>
    have here := sound.here
    rw [Here,at_] at here
    simp only [turn,at_] at turned
    cases turned
    split
    · exact sound.goTo trivial
    · rename_i live
      exact ⟨sound.ordered,nofun,here.resolve_left live⟩
  | stopped | done => simp [turn,at_] at turned

end

theorem cancelSound (sound : Sound s peers order w) : Sound s peers order { w with cancelled := true } := by
  refine ⟨sound.ordered,sound.saved,?_⟩
  have here := sound.here
  unfold Here at here ⊢
  cases at_ : w.point <;> simp only [at_] at here ⊢
  case bucket | returned => exact .inl trivial
  case batchDone => exact ⟨here.1,here.2.imp_right fun rest => ⟨rest.1,.inl trivial⟩⟩
  case bucketDone => exact ⟨here.1,.inl trivial⟩
  all_goals exact here

theorem stepSound {event} (listed : ∀ bucket ∈ order, Listed s bucket) (sound : Sound s peers order w) (steady : Steady s batchSize w event)
    (stepped : step s batchSize peers w event = some w') : Sound s peers order w' := by
  cases event with
  | turn => exact turnSound listed sound steady stepped
  | cancel => cases stepped; exact cancelSound sound
  | crash =>
    simp only [step] at stepped
    split at stepped <;> try contradiction
    cases stepped
    exact sound.goTo trivial
  | resume =>
    simp only [step] at stepped
    split at stepped <;> try contradiction
    rename_i cp _ there
    cases stepped
    obtain ⟨ordered,upTo⟩ := sound.saved cp there
    exact ⟨ordered,sound.saved,.inr upTo⟩

theorem beginSound (listed : ∀ bucket ∈ order, Listed s bucket) : Sound s peers order (beginCycle order : World ν) := by
  have nothing : UpTo s peers [] ⟨order,0,[]⟩ := by
    refine ⟨fun j _ earlier => absurd earlier (Nat.not_lt_zero j),fun bucket there key seen small => ?_⟩
    exact absurd (le_antisymm small (nilLe key)) (visibleNamed (listed bucket (bucketMem there)) seen)
  refine ⟨rfl,fun cp saved => ?_,.inr nothing⟩
  cases saved
  exact ⟨rfl,nothing⟩

/-- A cycle that is done has compared every object with every peer, however often it was stopped and taken up again, if no batch was
given up before its bucket's last page and no page before the last came back empty. -/
theorem cycleCovers (legible : ∀ bucket ∈ order, Legible s bucket) {events}
    (steady : Along (step s batchSize peers) (Steady s batchSize) (beginCycle order) events)
    (ran : run (step s batchSize peers) (beginCycle order) events = some w) (done : w.point = .done) :
    ∀ bucket ∈ order, ∀ key, visible s bucket key → ∀ peer ∈ peers, (bucket, key, peer) ∈ w.compared := by
  have listed bucket (mem : bucket ∈ order) := (legible bucket mem).listed
  have sound : Sound s peers order w := runKeeps (stepSound listed) (beginSound listed) steady ran
  have here := sound.here
  rw [Here,done] at here
  exact here

end

open ManagerRuns

def folderPut : List ManagerRuns.Event := [⟨callAt 0, .put (ascii "d/x") [1] empty⟩]

def isDone : Point Nat → Bool
  | .done => true
  | _ => false

def steadily (s : State) (w : World Nat) : Event → Bool
  | .turn => match w.point with
    | .batch page (_ :: _) => !w.cancelled || !page.isTruncated
    | .listing marker => match w.cp.bucket.map (listObjects s · [] [] marker 1) with
      | some (.ok page) => !page.isTruncated || decide (page.objects ≠ [])
      | _ => true
    | _ => true
  | _ => true

theorem doneOf {point} (done : isDone point = true) : point = .done := by
  cases point <;> first | rfl | contradiction

theorem visibleOf {s bucket key} (shown : (s.db.objects.get (objectKey bucket key)).map listable = some true) : visible s bucket key :=
  Option.map_eq_some_iff.mp shown

theorem listedAfter {puts s} (plain : ∀ e ∈ puts, Plain e) (ran : run (ManagerRuns.step smallNode (ascii "b")) (newBucket none) puts = some s)
    (there : (bucketOf s (ascii "b")).isSome = true) : ∀ bucket ∈ [ascii "b"], Listed s bucket := by
  intro bucket mem
  cases mem_singleton.mp mem
  exact ⟨Option.isSome_iff_exists.mp there,by decide,by decide,keptFiled (runFiled (newBucketEmpty none) plain ran)⟩

theorem steadySound {s w event} (ok : steadily s w event = true) : Steady s 1 w event := by
  cases event with
  | cancel | crash | resume => trivial
  | turn =>
    unfold steadily at ok
    unfold Steady
    cases at_ : w.point with
    | listing marker =>
      intro bucket page there listed truncated
      simp only [at_,there,listed,Option.map_some,truncated] at ok
      simpa using ok
    | batch page todo =>
      cases todo with
      | nil => trivial
      | cons item todo =>
        intro stop
        simpa [at_,stop] using ok
    | _ => trivial

theorem steadyAlong {s events} (passed : checked (step s 1 [0]) (steadily s) (beginCycle [ascii "b"]) events = true) :
    Along (step s 1 [0]) (Steady s 1) (beginCycle [ascii "b"] : World Nat) events :=
  alongChecked (fun _ _ => steadySound) (fun _ _ _ => trivial) (fun _ _ => trivial) trivial passed

-- The process dies after the first page and the cycle is taken up again.
def takenUp : List Event := List.replicate 7 .turn ++ [.crash, .resume] ++ List.replicate 9 .turn

theorem takenUpCovers : ∃ s w, run (ManagerRuns.step smallNode (ascii "b")) (newBucket none) twoPuts = some s ∧
    run (step s 1 [0]) (beginCycle [ascii "b"]) takenUp = some w ∧ w.point = .done ∧
    ∀ bucket ∈ [ascii "b"], ∀ key, visible s bucket key → ∀ peer ∈ [0], (bucket, key, peer) ∈ w.compared := by
  obtain ⟨s,ran,there,texts,w,scrubbed,done,passed⟩ : ∃ s,
      run (ManagerRuns.step smallNode (ascii "b")) (newBucket none) twoPuts = some s ∧ (bucketOf s (ascii "b")).isSome = true ∧
      (∀ e ∈ s.db.objects.scan (objectKey (ascii "b") []), Utf8.Text e.2.key) ∧
      ∃ w, run (step s 1 [0]) (beginCycle [ascii "b"]) takenUp = some w ∧ isDone w.point = true ∧
        Runs.checked (step s 1 [0]) (steadily s) (beginCycle [ascii "b"]) takenUp = true := by decide +kernel
  have legible : ∀ bucket ∈ [ascii "b"], Legible s bucket := by
    intro bucket mem
    cases mem_singleton.mp mem
    exact (listedAfter (by decide) ran there _ mem).legible texts
  exact ⟨s,w,ran,scrubbed,doneOf done,cycleCovers legible (steadyAlong passed) scrubbed (doneOf done)⟩

-- The context is cancelled inside the first batch; or the first page holds nothing but the folder's own record.
def gaveUp : List Event := [.turn, .turn, .turn, .cancel, .turn, .turn, .turn, .resume] ++ List.replicate 9 .turn
def brokenOff : List Event := List.replicate 5 .turn

theorem objectsPassedBy :
    (∃ s w, run (ManagerRuns.step smallNode (ascii "b")) (newBucket none) twoPuts = some s ∧ (∀ bucket ∈ [ascii "b"], Listed s bucket) ∧
      run (step s 1 [0]) (beginCycle [ascii "b"]) gaveUp = some w ∧ w.point = .done ∧
      visible s (ascii "b") (ascii "a") ∧ (ascii "b", ascii "a", 0) ∉ w.compared) ∧
    ∃ s w, run (ManagerRuns.step smallNode (ascii "b")) (newBucket none) folderPut = some s ∧ (∀ bucket ∈ [ascii "b"], Listed s bucket) ∧
      run (step s 1 [0]) (beginCycle [ascii "b"]) brokenOff = some w ∧ w.point = .done ∧
      visible s (ascii "b") (ascii "d/x") ∧ (ascii "b", ascii "d/x", 0) ∉ w.compared := by
  constructor
  · obtain ⟨s,ran,there,shown,w,scrubbed,done,missed⟩ : ∃ s,
        run (ManagerRuns.step smallNode (ascii "b")) (newBucket none) twoPuts = some s ∧ (bucketOf s (ascii "b")).isSome = true ∧
        (s.db.objects.get (objectKey (ascii "b") (ascii "a"))).map listable = some true ∧
        ∃ w, run (step s 1 [0]) (beginCycle [ascii "b"]) gaveUp = some w ∧ isDone w.point = true ∧ (ascii "b", ascii "a", 0) ∉ w.compared := by
      decide +kernel
    exact ⟨s,w,ran,listedAfter (by decide) ran there,scrubbed,doneOf done,visibleOf shown,missed⟩
  · obtain ⟨s,ran,there,shown,w,scrubbed,done,missed⟩ : ∃ s,
        run (ManagerRuns.step smallNode (ascii "b")) (newBucket none) folderPut = some s ∧ (bucketOf s (ascii "b")).isSome = true ∧
        (s.db.objects.get (objectKey (ascii "b") (ascii "d/x"))).map listable = some true ∧
        ∃ w, run (step s 1 [0]) (beginCycle [ascii "b"]) brokenOff = some w ∧ isDone w.point = true ∧
        (ascii "b", ascii "d/x", 0) ∉ w.compared := by
      decide +kernel
    exact ⟨s,w,ran,listedAfter (by decide) ran there,scrubbed,doneOf done,visibleOf shown,missed⟩

end MaxIOFS.ScrubCycle
