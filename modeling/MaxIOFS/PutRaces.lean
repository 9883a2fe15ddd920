import MaxIOFS.StoredObjects

/-! Concurrent PutObject calls on one key of a bucket without versioning. A call stores data
and sidecar in one step and records the object in another, under the key's lock; calls of
any number interleave between the two. The storer and the recorder are the calls whose
step came last. -/
namespace MaxIOFS.PutRaces
open Function ByteString FileTree Effects Runs ObjectManager RecordChanges Records MetadataStore StoredFiles StoredObjects ManagerRuns Filesystem

structure Request where
  call : Call
  data : Bytes
  headers : Headers

inductive Phase where
  | waiting
  | stored (pending : Pending)
  | returned (answer : Except Error Object)

structure World where
  state : State
  phase : Nat → Phase
  (storer recorder : Option Nat)

inductive Event where
  | store (i : Nat)
  | record (i : Nat)

def Event.caller : Event → Nat
  | .store i => i
  | .record i => i

def Phase.holding : Phase → Bool
  | .stored _ => true
  | _ => false

def begin_ (s : State) : World := ⟨s, fun _ => .waiting, none, none⟩

def storeStep (node : Node) (bucket key : Bytes) (r : Request) (w : World) (i : Nat) : World :=
  match storeObject node r.call bucket key r.data r.headers w.state with
  | (.ok pending, s) => { w with state := s, phase := update w.phase i (.stored pending), storer := some i }
  | (.error e, s) => { w with state := s, phase := update w.phase i (.returned (.error e)) }

def recordStep (r : Request) (w : World) (i : Nat) (pending : Pending) : World :=
  { w with
    state := (recordObject r.call pending w.state).2
    phase := update w.phase i (.returned (recordObject r.call pending w.state).1)
    recorder := some i }

def step (node : Node) (bucket key : Bytes) (requests : Nat → Request) (w : World) : Event → Option World
  | .store i => match w.phase i with
    | .waiting => some (storeStep node bucket key (requests i) w i)
    | _ => none
  | .record i => match w.phase i with
    | .stored pending => some (recordStep (requests i) w i pending)
    | _ => none

def Settled (w : World) : Prop := ∀ i pending, w.phase i ≠ .stored pending

def Agree (node : Node) (bucket key : Bytes) (s : State) : Prop :=
  ∀ obj data, (getObject node bucket key [] s).1 = .ok (obj, some data) →
    ∃ record, stored s bucket key = some record ∧ record.size = data.length ∧ record.etag = node.host.md5 data

def objectPath (bucket key : Bytes) : Path := getFullPath (getObjectPath bucket key)

def Ready (bucket key : Bytes) (files : Files) : Prop := isFolderMarker key = false → Unblocked files (objectPath bucket key)

def Kept (node : Node) (bucket key data : Bytes) (files : Files) : Prop :=
  if isFolderMarker key then files.get (objectPath bucket key) = some .dir
  else validateObjectName key = true ∧ validatePath (getObjectPath bucket key) = true ∧
    ∃ enc m, Holds files (objectPath bucket key) enc m ∧ Sealed node m enc data

section
variable {node : Node} {bucket key data : Bytes} {requests : Nat → Request} {s start : State} {w next : World} {event : Event}
variable {i j : Nat}

theorem storeSpec {call headers} (cipher : Cipher node) (opens : ∀ envelope, call.envelope = some envelope → Opens node envelope)
    (off : isBucketVersioningEnabled s bucket = false) (ready : Ready bucket key s.files) : wp (storeObject node call bucket key data headers)
      (fun pending s' => s'.db = s.db ∧ key ≠ [] ∧ Fresh node false bucket key [] data pending ∧ Ready bucket key s'.files ∧
        Kept node bucket key data s'.files) (fun _ s' => s'.db = s.db ∧ Ready bucket key s'.files ∧ (isFolderMarker key = false → s' = s) ∧
        ∀ d, Kept node bucket key d s.files → Kept node bucket key d s'.files) s := by
  cases folder : isFolderMarker key with
  | false =>
    refine wpMono (storeObjectPlain off folder cipher opens) (fun pending s' done => ?_) (fun _ s' failed => ?_)
    · obtain ⟨db,admitted,fresh,_,_,enc,m,holds,held⟩ := done
      refine ⟨db,validName admitted.name,fresh,fun _ => holds.unblocked,?_⟩
      rw [Kept,folder]
      exact ⟨admitted.name,admitted.path,enc,m,holds,held⟩
    · cases failed.2 (ready folder)
      exact ⟨rfl,ready,fun _ => rfl,fun _ kept => kept⟩
  | true =>
    have never files : Ready bucket key files := by
      intro plain
      rw [folder] at plain
      contradiction
    have same : wp (storeObject node call bucket key data headers) (fun _ s' => s'.db = s.db) (fun _ s' => s'.db = s.db) s :=
      wpMono storeObjectSpec (fun _ _ done => done.1) (fun _ _ db => db)
    have still : wp (storeObject node call bucket key data headers) (fun _ _ => True)
        (fun _ s' => s.files.get (objectPath bucket key) = some .dir → s'.files.get (objectPath bucket key) = some .dir) s := by
      by_cases isdir : s.files.get (objectPath bucket key) = some .dir
      · exact wpMono (storeFolderKeeps off folder isdir) (fun _ _ _ => trivial) (fun _ _ kept _ => kept)
      · exact wpMono (wpOfState (P := fun _ => True) trivial) (fun _ _ _ => trivial) (fun _ _ _ before => absurd before isdir)
    refine wpMono (wpAnd same (wpAnd (storeObjectFolder off folder) still)) (fun pending s' done => ?_) (fun _ s' failed => ?_)
    · obtain ⟨db,⟨named,fresh,_,_,isdir⟩,_⟩ := done
      refine ⟨db,named,fresh,never _,?_⟩
      rw [Kept,folder]
      exact isdir
    · obtain ⟨db,_,kept⟩ := failed
      refine ⟨db,never _,fun plain => by contradiction,fun d before => ?_⟩
      rw [Kept,folder] at before ⊢
      exact kept before

structure Inv (node : Node) (bucket key : Bytes) (requests : Nat → Request) (start : State) (w : World) : Prop where
  off : isBucketVersioningEnabled w.state bucket = false
  open_ : bucket ∉ w.state.db.deletedBuckets
  ready : Ready bucket key w.state.files
  pending : ∀ i pending, w.phase i = .stored pending → Fresh node false bucket key [] (requests i).data pending ∧ key ≠ [] ∧ w.storer ≠ none
  file : ∀ i, w.storer = some i → Kept node bucket key (requests i).data w.state.files
  record : ∀ j, w.recorder = some j → ∃ record, stored w.state bucket key = some record ∧ record.versionID = [] ∧
    record.size = (requests j).data.length ∧ record.etag = node.host.md5 (requests j).data
  recorded : ∀ i, w.storer = some i → w.recorder = none → ∃ pending, w.phase i = .stored pending
  untouched : isFolderMarker key = false → w.storer = none → w.state = start

theorem updatedPhase {f : Nat → Phase} {phase pending} (settled : ∀ p, phase ≠ .stored p)
    (found : update f i phase j = .stored pending) : f j = .stored pending := by
  by_cases here : j = i
  · subst here
    rw [update_self] at found
    exact absurd found (settled pending)
  · rwa [update_of_ne here] at found

theorem storeInv (cipher : Cipher node) (opens : ∀ envelope, (requests i).call.envelope = some envelope → Opens node envelope)
    (inv : Inv node bucket key requests start w) (waiting : w.phase i = .waiting) :
    Inv node bucket key requests start (storeStep node bucket key (requests i) w i) := by
  have spec : wp (storeObject node (requests i).call bucket key (requests i).data (requests i).headers) _ _ w.state :=
    storeSpec cipher opens inv.off inv.ready
  unfold storeStep
  unfold wp at spec
  split at spec
  · rename_i pending s result
    rw [result]
    obtain ⟨db,named,fresh,ready,kept⟩ := spec
    refine ⟨?_,?_,ready,?_,?_,?_,?_,fun _ none_ => by contradiction⟩
    · rw [← inv.off]
      exact versioningSame bucket (fun q => by rw [db])
    · rw [db]
      exact inv.open_
    · intro j other found
      dsimp only at found
      by_cases here : j = i
      · subst here
        rw [update_self] at found
        cases found
        exact ⟨fresh,named,by simp⟩
      · rw [update_of_ne here] at found
        obtain ⟨fresh,named,_⟩ := inv.pending j other found
        exact ⟨fresh,named,by simp⟩
    · intro j storer
      cases storer
      exact kept
    · intro j recorder
      obtain ⟨record,found,rest⟩ := inv.record j recorder
      refine ⟨record,?_,rest⟩
      unfold stored at found ⊢
      rw [db]
      exact found
    · intro j storer _
      cases storer
      exact ⟨pending,update_self ..⟩
  · rename_i e s result
    rw [result]
    obtain ⟨db,ready,same,kept⟩ := spec
    refine ⟨?_,?_,ready,?_,fun j storer => kept _ (inv.file j storer),?_,?_,?_⟩
    · rw [← inv.off]
      exact versioningSame bucket (fun q => by rw [db])
    · rw [db]
      exact inv.open_
    · exact fun j other found => inv.pending j other (updatedPhase (by simp) found)
    · intro j recorder
      obtain ⟨record,found,rest⟩ := inv.record j recorder
      refine ⟨record,?_,rest⟩
      unfold stored at found ⊢
      rw [db]
      exact found
    · intro j storer none_
      obtain ⟨pending,found⟩ := inv.recorded j storer none_
      have other : j ≠ i := by
        rintro rfl
        rw [waiting] at found
        contradiction
      exact ⟨pending,(update_of_ne other _ _).trans found⟩
    · exact fun plain none_ => (same plain).trans (inv.untouched plain none_)

theorem recordInv {pending} (home : bucket ≠ []) (inv : Inv node bucket key requests start w) (found : w.phase i = .stored pending) :
    Inv node bucket key requests start (recordStep (requests i) w i pending) := by
  obtain ⟨fresh,named,storer⟩ := inv.pending i pending found
  have recorded : Recorded bucket key (stamped (requests i).call.now (toMetadataObject pending.object)) w.state
      (recordObject (requests i).call pending w.state).2 :=
    wpState (wpSure (recordObjectPlain home named inv.open_ fresh) (fun _ _ done => done))
  refine ⟨?_,?_,?_,?_,?_,?_,?_,fun _ none_ => absurd none_ storer⟩
  · rw [← inv.off]
    exact versioningSame bucket recorded.status
  · exact recorded.deleted ▸ inv.open_
  · exact recorded.files ▸ inv.ready
  · exact fun j other kept => inv.pending j other (updatedPhase (by simp) kept)
  · exact fun j storer => recorded.files ▸ inv.file j storer
  · intro j recorder
    cases recorder
    exact ⟨_,storedAt home named recorded.record fresh.bucket fresh.key,fresh.versionID,fresh.size,fresh.etag⟩
  · intro j _ none_
    contradiction

theorem stepInv (cipher : Cipher node) (opens : ∀ i envelope, (requests i).call.envelope = some envelope → Opens node envelope)
    (home : bucket ≠ []) (inv : Inv node bucket key requests start w)
    (stepped : step node bucket key requests w event = some next) : Inv node bucket key requests start next := by
  cases event with
  | store i =>
    simp only [step] at stepped
    split at stepped <;> try contradiction
    rename_i waiting
    cases stepped
    exact storeInv cipher (opens i) inv waiting
  | record i =>
    simp only [step] at stepped
    split at stepped <;> try contradiction
    rename_i pending found
    cases stepped
    exact recordInv home inv found

theorem beginInv (off : isBucketVersioningEnabled s bucket = false) (open_ : bucket ∉ s.db.deletedBuckets)
    (ready : Ready bucket key s.files) : Inv node bucket key requests s (begin_ s) where
  off := off
  open_ := open_
  ready := ready
  pending := fun _ _ found => by contradiction
  file := fun _ storer => by contradiction
  record := fun _ recorder => by contradiction
  recorded := fun _ storer => by contradiction
  untouched := fun _ _ => rfl

theorem settledRecorder (inv : Inv node bucket key requests start w) (settled : Settled w) (storer : w.storer = some i) :
    ∃ j, w.recorder = some j := by
  cases recorder : w.recorder with
  | some j => exact ⟨j,rfl⟩
  | none =>
    obtain ⟨pending,found⟩ := inv.recorded i storer recorder
    exact absurd found (settled i pending)

section
variable (cipher : Cipher node) (file : isFolderMarker key = false) (inv : Inv node bucket key requests start w) (storer : w.storer = some i)
    (recorder : w.recorder = some j)
include cipher file inv storer recorder

theorem readStorer : ∃ obj, (getObject node bucket key [] w.state).1 = .ok (obj, some (requests i).data) := by
  have kept := inv.file i storer
  rw [Kept,file] at kept
  obtain ⟨name,path,_,_,holds,held⟩ := kept
  obtain ⟨_,found,plain,_,etag⟩ := inv.record j recorder
  have current : currentVersion w.state bucket key = [] := by
    rw [currentVersion,found]
    exact plain
  have spec := getObjectHeld (v := []) name path holds held current (fun obj same => by
    rw [found] at same
    cases same
    simp [isMetadataDeleteMarker,etag,cipher.digest])
  unfold wp at spec
  split at spec
  · rename_i r s result
    exact ⟨r.1,by rw [result]; exact congrArg Except.ok (Prod.ext rfl spec.1)⟩
  · exact spec.elim

theorem agreeIff : Agree node bucket key w.state ↔
      (requests j).data.length = (requests i).data.length ∧ node.host.md5 (requests j).data = node.host.md5 (requests i).data := by
  obtain ⟨obj,read⟩ := readStorer cipher file inv storer recorder
  obtain ⟨record,found,_,_,etag⟩ := inv.record j recorder
  constructor
  · intro agree
    obtain ⟨_,same,_,etag'⟩ := agree obj _ read
    cases (found.symm.trans same)
    exact ⟨by omega,etag.symm.trans etag'⟩
  · intro ⟨length,digest⟩ obj' data read'
    rw [read] at read'
    cases read'
    exact ⟨record,found,by omega,etag.trans digest⟩

end

theorem agreeFolder (folder : isFolderMarker key = true) (inv : Inv node bucket key requests start w)
    (storer : w.storer = some i) (recorder : w.recorder = some j) : Agree node bucket key w.state := by
  have kept := inv.file i storer
  rw [Kept,folder] at kept
  obtain ⟨_,found,plain,_⟩ := inv.record j recorder
  have spec : wp (getObject node bucket key []) (fun r _ => r.2 = none) (fun _ _ => True) w.state := getObjectDirectory kept (fun obj same => by
      rw [found] at same
      cases same
      exact plain)
  intro obj data read
  unfold wp at spec
  split at spec <;> rename_i result
  · rw [result] at read
    cases read
    contradiction
  · rw [result] at read
    contradiction

/-- Once every call has returned, the record describes the bytes read if and only if the call
that recorded last stored the size and digest of the call that stored last. -/
theorem putsAgree (cipher : Cipher node) (opens : ∀ i envelope, (requests i).call.envelope = some envelope → Opens node envelope)
    (home : bucket ≠ []) (off : isBucketVersioningEnabled s bucket = false) (open_ : bucket ∉ s.db.deletedBuckets)
    (ready : Ready bucket key s.files) {events} (ran : run (step node bucket key requests) (begin_ s) events = some w) (settled : Settled w) :
    (w.storer = none → isFolderMarker key = false → w.state = s) ∧ ∀ i, w.storer = some i → ∃ j, w.recorder = some j ∧
    (Agree node bucket key w.state ↔
      isFolderMarker key = true ∨
      (requests j).data.length = (requests i).data.length ∧ node.host.md5 (requests j).data = node.host.md5 (requests i).data) := by
  have inv : Inv node bucket key requests s w := runKeeps (fun inv _ stepped => stepInv cipher opens home inv stepped) (beginInv off open_ ready)
      (alongOf (fun _ _ => trivial) _ : Along _ (fun _ _ => True) _ events) ran
  refine ⟨fun none_ file => inv.untouched file none_,fun i storer => ?_⟩
  obtain ⟨j,recorder⟩ := settledRecorder inv settled storer
  refine ⟨j,recorder,?_⟩
  cases folder : isFolderMarker key with
  | true => exact ⟨fun _ => .inl rfl,fun _ => agreeFolder folder inv storer recorder⟩
  | false =>
    rw [agreeIff cipher folder inv storer recorder]
    simp

theorem otherPhase (other : event.caller ≠ i) (stepped : step node bucket key requests w event = some next) : next.phase i = w.phase i := by
  cases event with
  | store j =>
    simp only [step] at stepped
    split at stepped <;> try contradiction
    cases stepped
    unfold storeStep
    split <;> exact update_of_ne (Ne.symm other) _ _
  | record j =>
    simp only [step] at stepped
    split at stepped <;> try contradiction
    cases stepped
    exact update_of_ne (Ne.symm other) _ _

theorem otherPhases {events} (others : ∀ event ∈ events, event.caller ≠ i)
    (ran : run (step node bucket key requests) w events = some next) : next.phase i = w.phase i :=
  runKeeps (fun same other stepped => (otherPhase other stepped).trans same) rfl (alongOf others w) ran

end

def twoPuts (i : Nat) : Request := ⟨callAt i, if i = 0 then ascii "old" else ascii "new one", OrderedStore.empty⟩

theorem sampleOpens (i : Nat) (envelope : Envelope) (given : (twoPuts i).call.envelope = some envelope) : Opens smallNode envelope := by
  cases given
  exact ⟨by decide,by decide,[],rfl,rfl⟩

theorem sampleSettled {w events} (two : ∀ event ∈ events, event.caller < 2)
    (ran : run (step smallNode (ascii "b") (ascii "k") twoPuts) (begin_ (newBucket none)) events = some w)
    (first : (w.phase 0).holding = false) (second : (w.phase 1).holding = false) : Settled w := by
  intro i pending found
  match i with
  | 0 => rw [found] at first; contradiction
  | 1 => rw [found] at second; contradiction
  | i + 2 =>
    have others : ∀ event ∈ events, event.caller ≠ i + 2 := fun event mem => by
      have := two event mem
      omega
    have same := otherPhases others ran
    rw [found] at same
    contradiction

theorem sampleReady : Ready (ascii "b") (ascii "k") (newBucket none).files := fun _ => ⟨fun _ _ => rfl,by decide,by decide,by decide⟩

theorem putsInTurnAgree : ∃ w, run (step smallNode (ascii "b") (ascii "k") twoPuts) (begin_ (newBucket none))
    [.store 0, .record 0, .store 1, .record 1] = some w ∧ w.storer = some 1 ∧ Agree smallNode (ascii "b") (ascii "k") w.state := by
  refine runShows (fun w => (w.phase 0).holding = false ∧ (w.phase 1).holding = false ∧ w.storer = some 1 ∧ w.recorder = some 1)
    (by decide +kernel) fun w ran ⟨first,second,storer,recorder⟩ => ⟨storer,?_⟩
  have settled := sampleSettled (by decide) ran first second
  obtain ⟨_,recorder',agree⟩ := (putsAgree sampleCipher sampleOpens (by decide) (by decide) List.not_mem_nil sampleReady ran settled).2 1 storer
  cases (recorder.symm.trans recorder')
  exact agree.mpr (.inr ⟨rfl,rfl⟩)

theorem crossedPutsDisagree : ∃ w, run (step smallNode (ascii "b") (ascii "k") twoPuts) (begin_ (newBucket none))
    [.store 0, .store 1, .record 1, .record 0] = some w ∧ Settled w ∧ ¬ Agree smallNode (ascii "b") (ascii "k") w.state := by
  refine runShows (fun w => (w.phase 0).holding = false ∧ (w.phase 1).holding = false ∧
    (stored w.state (ascii "b") (ascii "k")).map ObjectMetadata.size = some 3 ∧
    ∃ r, (getObject smallNode (ascii "b") (ascii "k") [] w.state).1.toOption = some r ∧ r.2 = some (ascii "new one")) (by decide +kernel)
    fun w ran ⟨first,second,size,r,answered,data⟩ => ⟨sampleSettled (by decide) ran first second,fun agree => ?_⟩
  obtain ⟨record,found,same,_⟩ := agree r.1 (ascii "new one") ((toOptionIff.mp answered).trans (congrArg Except.ok (Prod.ext rfl data)))
  rw [found] at size
  have three : record.size = 3 := Option.some.inj size
  rw [three] at same
  exact absurd same (by decide)

end MaxIOFS.PutRaces
