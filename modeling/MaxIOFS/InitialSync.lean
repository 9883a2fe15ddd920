import MaxIOFS.ScrubCycle

/-! The initial sync of a replica: bucket after bucket, page after page, every listed object is sent
to the target. What fails is passed over. The position is saved after every hundredth object sent and
looked up in a new list of buckets when the job is taken up again. -/
namespace MaxIOFS.InitialSync
open ByteString MetadataStore ObjectManager FlatPages ScrubCycle Runs List Records Pagination

def rank (bucket : Bytes) : Bytes := bucketKey (parseBucketPath bucket).1 (parseBucketPath bucket).2

structure Source where
  state : State
  buckets : List Bytes
  sorted : buckets.Pairwise fun a b => rank a < rank b

def served (node : Node) (s : State) (bucket key : Bytes) : Option (Bytes × Bytes) :=
  match (getObject node bucket key [] s).1 with
  | .ok (obj, some data) => some (data, obj.versionID)
  | _ => none

structure Cursor where
  buckets : List Bytes
  marker : Bytes
  page : Option (List Bytes × Option Bytes)
  synced : Nat

structure World where
  source : Source
  target : Bytes × Bytes → Option (Bytes × Bytes)
  versioned : Bytes → Bool
  checkpoint : Bytes × Bytes
  cursor : Option Cursor
  done : Bool

inductive Event where
  | change (source : Source)
  | configure (versioned : Bytes → Bool)
  | start
  | stop
  | list
  | send (reply : Option Call)
  | turnPage
  | finish

def startIdx (buckets : List Bytes) (bucket : Bytes) : Nat := if bucket ≠ [] ∧ bucket ∈ buckets then buckets.idxOf bucket else 0

def startAt (source : Source) (checkpoint : Bytes × Bytes) : Cursor :=
  ⟨source.buckets.drop (startIdx source.buckets checkpoint.1), checkpoint.2, none, 0⟩

def syncPageSize : Int := 500
def syncCheckpointEvery : Nat := 100

-- The request carries no version ID: in a bucket that keeps versions the target draws one.
def storedVersion (w : World) (bucket : Bytes) (call : Call) : Bytes := if w.versioned bucket then generateVersionID call else []

def send (node : Node) (w : World) (bucket key : Bytes) (c : Cursor) : Option Call → World
  | none => { w with cursor := some c }
  | some call => match served node w.source.state bucket key with
    | none => { w with cursor := some c }
    | some (data, _) => { w with
        target := fun at_ => if at_ = (bucket, key) then some (data, storedVersion w bucket call) else w.target at_
        checkpoint := if (c.synced + 1) % syncCheckpointEvery = 0 then (bucket, key) else w.checkpoint
        cursor := some { c with synced := c.synced + 1 } }

def step (node : Node) (w : World) : Event → Option World
  | .change source => some { w with source := source }
  | .configure versioned => some { w with versioned := versioned }
  | .start => if w.done = false ∧ w.cursor.isNone then some { w with cursor := some (startAt w.source w.checkpoint) } else none
  | .stop => some { w with cursor := none }
  | .list => match w.cursor with
    | some ⟨bucket :: rest, marker, none, synced⟩ =>
      let page := readPage w.source.state bucket [] syncPageSize marker
      some { w with cursor := some ⟨bucket :: rest, marker, some (page.1.map Object.key, page.2), synced⟩ }
    | _ => none
  | .send reply => match w.cursor with
    | some ⟨bucket :: rest, marker, some (key :: keys, next), synced⟩ =>
      some (send node w bucket key ⟨bucket :: rest, marker, some (keys, next), synced⟩ reply)
    | _ => none
  | .turnPage => match w.cursor with
    | some ⟨bucket :: rest, _, some ([], some next), synced⟩ => some { w with cursor := some ⟨bucket :: rest, next, none, synced⟩ }
    | some ⟨_ :: rest, _, some ([], none), synced⟩ => some { w with cursor := some ⟨rest, [], none, synced⟩ }
    | _ => none
  | .finish => match w.cursor with
    | some ⟨[], _, none, _⟩ => some { w with cursor := none, checkpoint := ([], []), done := true }
    | _ => none

def begin_ (source : Source) (versioned : Bytes → Bool) : World := ⟨source, fun _ => none, versioned, ([], []), none, false⟩

section
variable (node : Node) (bucket key : Bytes) (content : Bytes × Bytes)

structure Stands (s : Source) : Prop where
  listed : bucket ∈ s.buckets
  open_ : Listed s.state bucket
  seen : visible s.state bucket key
  content : served node s.state bucket key = some content

def Steady (w : World) : Event → Prop
  | .start => w.checkpoint = ([], []) ∨ w.checkpoint.1 ≠ [] ∧ w.checkpoint.1 ∈ w.source.buckets
  | .send reply => ∀ c keys next, w.cursor = some c → c.buckets.head? = some bucket → c.page = some (key :: keys, next) →
      ∃ call, reply = some call ∧ if w.versioned bucket then generateVersionID call = content.2 else content.2 = []
  | _ => True

def Held (w : World) : Prop := w.target (bucket, key) = some content

def Reach (keys : List Bytes) (next : Option Bytes) : Prop := keys.Pairwise (· < ·) ∧ key ∈ keys ∨ ∃ m, next = some m ∧
    m < key ∧ ∀ k ∈ keys, k < key

def Ahead (c : Cursor) : Prop := match c.buckets with
  | [] => False
  | b :: rest => bucket ∈ rest ∨ b = bucket ∧ match c.page with
    | none => c.marker < key
    | some (keys, next) => Reach key keys next

structure Inv (w : World) : Prop where
  stands : Stands node bucket key content w.source
  saved : w.checkpoint = ([], []) ∨ Held bucket key content w ∨ ¬ (rank bucket < rank w.checkpoint.1) ∧
    (bucket = w.checkpoint.1 → w.checkpoint.2 < key)
  cursor : ∀ c, w.cursor = some c → c.buckets.Pairwise (fun a b => rank a < rank b) ∧ (Held bucket key content w ∨ Ahead bucket key c)
  done : w.done = true → Held bucket key content w

end

section
variable {node : Node} {bucket key : Bytes} {content : Bytes × Bytes} {w w' : World}

theorem standsNamed {s} (stands : Stands node bucket key content s) : [] < key := by
  have named := ScrubCycle.visibleNamed stands.open_ stands.seen
  exact lt_of_le_of_ne (OrderedStore.nilLe key) (Ne.symm named)

theorem pageReach {s} (stands : Stands node bucket key content s) {marker} (above : marker < key) (maxKeys : Int) :
    Reach key ((readPage s.state bucket [] maxKeys marker).1.map Object.key) (readPage s.state bucket [] maxKeys marker).2 := by
  obtain ⟨⟨_,home⟩,named,plain,kept⟩ := stands.open_
  have ordered : (behind s.state.db bucket [] marker).Pairwise fun a b => a.2.key < b.2.key := (FlatPages.keptSorted kept).filter _
  obtain ⟨e,mem,rfl,listable⟩ := visibleBehind kept stands.seen above
  have sorted {entries : List Entry} (part : entries.Pairwise fun a b => a.2.key < b.2.key) :
      ((FlatPages.shown entries).map Object.key).Pairwise (· < ·) := by
    rw [shownKeys]
    exact pairwise_map.mpr (part.filter _)
  have read : readPage s.state bucket [] maxKeys marker = _ ∨ _ := readPageCases home named plain (keptAddressed kept)
  rcases read with whole | ⟨front,next,cut,_,split⟩
  · rw [whole]
    exact .inl ⟨sorted ordered,shownMem mem listable⟩
  rw [cut]
  have own := keptKey kept (memAfter.mp mem).1
  rw [← split] at mem ordered
  obtain ⟨first,_,apart⟩ := pairwise_append.mp ordered
  rcases mem_append.mp mem with here | later
  · exact .inl ⟨sorted first,shownMem here listable⟩
  refine .inr ⟨next,rfl,own ▸ (memAfter.mp later).2,fun k inside => ?_⟩
  rw [shownKeys] at inside
  obtain ⟨a,inFront,rfl⟩ := mem_map.mp inside
  exact apart a (mem_filter.mp inFront).1 e later

theorem aheadStart {buckets} (mem : bucket ∈ buckets) (named : [] < key) (synced : Nat) : Ahead bucket key ⟨buckets,[],none,synced⟩ := by
  cases buckets with
  | nil => contradiction
  | cons b rest =>
    rcases mem_cons.mp mem with same | later
    · exact .inr ⟨same.symm,named⟩
    · exact .inl later

theorem startAhead (inv : Inv node bucket key content w) (steady : Steady bucket key content w .start) :
    Held bucket key content w ∨ Ahead bucket key (startAt w.source w.checkpoint) := by
  have listed := inv.stands.listed
  unfold startAt startIdx
  rcases steady with fresh | found
  · rw [fresh]
    exact .inr (aheadStart listed (standsNamed inv.stands) 0)
  rcases inv.saved with fresh | held | ⟨notBefore,within⟩
  · exact absurd (congrArg Prod.fst fresh) found.1
  · exact .inl held
  right
  have inside := idxOf_lt_length_iff.mpr found.2
  have parts := take_append_drop (w.source.buckets.idxOf w.checkpoint.1) w.source.buckets
  have ordered := w.source.sorted
  rw [drop_eq_getElem_cons inside,getElem_idxOf] at parts
  rw [if_pos found,drop_eq_getElem_cons inside,getElem_idxOf]
  rw [← parts] at listed ordered
  rcases mem_append.mp listed with before | after
  · exact absurd ((pairwise_append.mp ordered).2.2 bucket before _ mem_cons_self) notBefore
  rcases mem_cons.mp after with same | later
  · exact .inr ⟨same.symm,within same⟩
  · exact .inl later

structure Sent (w w' : World) (b k : Bytes) (c : Cursor) : Prop where
  source : w'.source = w.source
  done : w'.done = w.done
  cursor : ∃ n, w'.cursor = some { c with synced := n }
  checkpoint : w'.checkpoint = w.checkpoint ∨ w'.checkpoint = (b, k)
  target : ∀ at_, at_ ≠ (b, k) → w'.target at_ = w.target at_

theorem sendSent (b k : Bytes) (c : Cursor) (reply : Option Call) : Sent w (send node w b k c reply) b k c := by
  unfold send
  split
  · exact ⟨rfl,rfl,⟨_,rfl⟩,.inl rfl,fun _ _ => rfl⟩
  split
  · exact ⟨rfl,rfl,⟨_,rfl⟩,.inl rfl,fun _ _ => rfl⟩
  refine ⟨rfl,rfl,⟨_,rfl⟩,?_,fun _ other => if_neg other⟩
  split
  · exact .inr rfl
  · exact .inl rfl

theorem reachTail {k keys next} (reach : Reach key (k :: keys) next) (other : key ≠ k) : Reach key keys next ∧ k < key := by
  rcases reach with ⟨sorted,mem⟩ | ⟨m,cut,past,all⟩
  · have later := (mem_cons.mp mem).resolve_left other
    exact ⟨.inl ⟨sorted.tail,later⟩,rel_of_pairwise_cons sorted later⟩
  · exact ⟨.inr ⟨m,cut,past,fun k mem => all k (mem_cons_of_mem _ mem)⟩,all k mem_cons_self⟩

theorem sendInv (inv : Inv node bucket key content w) {b k marker rest keys next synced}
    (here : w.cursor = some ⟨b :: rest,marker,some (k :: keys, next),synced⟩) {reply} (steady : Steady bucket key content w (.send reply)) :
    Inv node bucket key content (send node w b k ⟨b :: rest,marker,some (keys, next),synced⟩ reply) := by
  obtain ⟨ordered,ahead⟩ := inv.cursor _ here
  have sent : Sent w (send node w b k _ reply) b k _ := sendSent b k ⟨b :: rest,marker,some (keys, next),synced⟩ reply
  obtain ⟨n,moved⟩ := sent.cursor
  have stands := sent.source ▸ inv.stands
  by_cases own : (bucket, key) = (b, k)
  · cases own
    have held : Held bucket key content (send node w bucket key ⟨bucket :: rest,marker,some (keys, next),synced⟩ reply) := by
      obtain ⟨call,accepted,version⟩ := steady _ keys next here rfl rfl
      have same : storedVersion w bucket call = content.2 := by
        unfold storedVersion
        split at version
        · rwa [if_pos ‹_›]
        · rw [if_neg ‹_›,version]
      rw [accepted,send,inv.stands.content,Held]
      exact (if_pos rfl).trans (by rw [same])
    refine ⟨stands,.inr (.inl held),fun c there => ⟨?_,.inl held⟩,fun _ => held⟩
    cases moved.symm.trans there
    exact ordered
  · have kept held : Held bucket key content (send node w b k ⟨b :: rest,marker,some (keys, next),synced⟩ reply) := (sent.target _ own).trans held
    have left : Held bucket key content w ∨ Ahead bucket key ⟨b :: rest,marker,some (keys, next),n⟩ ∧
        ¬ rank bucket < rank b ∧ (bucket = b → k < key) := by
      rcases ahead with held | later | ⟨rfl,reach⟩
      · exact .inl held
      · have above := rel_of_pairwise_cons ordered later
        exact .inr ⟨.inl later,lt_asymm above,fun same => absurd (same ▸ above) (lt_irrefl _)⟩
      · obtain ⟨reach,less⟩ := reachTail reach fun same => own (by rw [same])
        exact .inr ⟨.inr ⟨rfl,reach⟩,lt_irrefl _,fun _ => less⟩
    refine ⟨stands,?_,fun c there => ?_,fun done => kept (inv.done (sent.done ▸ done))⟩
    · rcases sent.checkpoint with same | new
      · rw [same]
        exact inv.saved.imp_right (Or.imp_left kept)
      · rw [new]
        exact .inr (left.imp kept And.right)
    · cases moved.symm.trans there
      exact ⟨ordered,left.imp kept And.left⟩

theorem stepInv {e} (inv : Inv node bucket key content w) (steady : Steady bucket key content w e)
    (stands : ∀ source, e = .change source → Stands node bucket key content source) (stepped : step node w e = some w') :
    Inv node bucket key content w' := by
  cases e with
  | change source =>
    cases stepped
    exact ⟨stands source rfl,inv.saved,inv.cursor,inv.done⟩
  | configure versioned =>
    cases stepped
    exact ⟨inv.stands,inv.saved,inv.cursor,inv.done⟩
  | stop =>
    cases stepped
    exact ⟨inv.stands,inv.saved,nofun,inv.done⟩
  | start =>
    simp only [step] at stepped
    split at stepped <;> try contradiction
    cases stepped
    have ahead := startAhead inv steady
    refine ⟨inv.stands,inv.saved,fun c there => ?_,inv.done⟩
    cases there
    exact ⟨w.source.sorted.drop,ahead⟩
  | list =>
    simp only [step] at stepped
    split at stepped <;> try contradiction
    rename_i b rest marker synced here
    cases stepped
    refine ⟨inv.stands,inv.saved,fun c there => ?_,inv.done⟩
    cases there
    obtain ⟨ordered,ahead⟩ := inv.cursor _ here
    refine ⟨ordered,ahead.imp_right (Or.imp_right ?_)⟩
    rintro ⟨rfl,above⟩
    exact ⟨rfl,pageReach inv.stands above _⟩
  | send reply =>
    simp only [step] at stepped
    split at stepped <;> try contradiction
    rename_i here
    cases stepped
    exact sendInv inv here steady
  | turnPage =>
    simp only [step] at stepped
    split at stepped <;> try contradiction
    all_goals
      rename_i here
      cases stepped
      refine ⟨inv.stands,inv.saved,fun c there => ?_,inv.done⟩
      cases there
      obtain ⟨ordered,ahead⟩ := inv.cursor _ here
    · refine ⟨ordered,ahead.imp_right (Or.imp_right ?_)⟩
      rintro ⟨rfl,⟨_,mem⟩ | ⟨m,cut,past,_⟩⟩
      · contradiction
      · cases cut
        exact ⟨rfl,past⟩
    · refine ⟨ordered.tail,ahead.imp_right ?_⟩
      rintro (later | ⟨rfl,⟨_,mem⟩ | ⟨m,cut,_⟩⟩)
      · exact aheadStart later (standsNamed inv.stands) _
      · contradiction
      · contradiction
  | finish =>
    simp only [step] at stepped
    split at stepped <;> try contradiction
    rename_i here
    cases stepped
    have held := (inv.cursor _ here).2.resolve_right id
    exact ⟨inv.stands,.inl rfl,nofun,fun _ => held⟩

theorem beginInv {source versioned} (stands : Stands node bucket key content source) : Inv node bucket key content (begin_ source versioned) :=
  ⟨stands,.inl rfl,nofun,nofun⟩

end

open ManagerRuns

def fresh (s : State) : World := begin_ ⟨s, [ascii "b"], pairwise_singleton ..⟩ fun _ => false

def accepted : Event := .send (some (callAt 5))

def resumed : List Event := [.start, .list, accepted, .stop, .start, .list, accepted, accepted, .turnPage, .finish]
def sentOne : List Event := [.start, .list, .send none, accepted, .turnPage, .finish]

theorem standsAfter {s key data} (ran : run (ManagerRuns.step smallNode (ascii "b")) (newBucket none) FlatPages.twoPuts = some s)
    (there : (bucketOf s (ascii "b")).isSome = true) (seen : (s.db.objects.get (objectKey (ascii "b") key)).map listable = some true)
    (content : served smallNode s (ascii "b") key = some (data, [])) : Stands smallNode (ascii "b") key (data, []) (fresh s).source :=
  ⟨mem_singleton_self _,ScrubCycle.listedAfter (by decide) ran there _ (mem_singleton_self _),ScrubCycle.visibleOf seen,content⟩

def steadily (w : World) : Event → Bool
  | .start => decide (w.checkpoint = ([], []))
  | .send reply => reply.isSome && !w.versioned (ascii "b")
  | _ => true

theorem steadilySteady {w e key data} (passed : steadily w e = true) : Steady (ascii "b") key (data, []) w e := by
  cases e with
  | start => exact .inl (of_decide_eq_true passed)
  | send reply =>
    intro _ _ _ _ _ _
    obtain ⟨stored,plain⟩ := (Bool.and_eq_true _ _).mp passed
    obtain ⟨call,answered⟩ := Option.isSome_iff_exists.mp stored
    exact ⟨call,answered,by simp [Bool.not_eq_true' _ ▸ plain]⟩
  | _ => trivial

end MaxIOFS.InitialSync
