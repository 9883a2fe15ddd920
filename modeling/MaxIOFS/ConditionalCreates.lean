import MaxIOFS.HandlerSteps
import MaxIOFS.PutRaces

/-! Conditional creation: PutObject requests with If-None-Match on one key. The check and the
record are separate steps; the invariant is that at most one request is between them, until
one of them has created the object every later check finds. -/
namespace MaxIOFS.ConditionalCreates
open Function (update update_of_ne update_self)
open ByteString Effects Runs ObjectManager RecordChanges Records MetadataStore StoredObjects SetterFrames HandlerSteps S3Handler Filesystem
open ManagerRuns (smallNode callAt newBucket)

def inFlight : Phase → Bool
  | .checked _ => true
  | .stored _ _ => true
  | _ => false

def past : Phase → Bool
  | .recorded .. => true
  | .answered _ => true
  | _ => false

def untried : Phase → Bool
  | .waiting => true
  | _ => false

def Alone (w : World) (e : Event) : Prop := untried (w.phase e.caller) = true → ∀ j, inFlight (w.phase j) = false

def Left (node : Node) (on : Bool) (bucket key data : Bytes) (files : Files) (pending : Pending) : Prop :=
  validateObjectName key = true ∧ ∃ id, (on = true ↔ id ≠ []) ∧ Fresh node on bucket key id data pending ∧ Placed node bucket key id data files

section
variable {lib : Library} {node : Node} {bucket key id data : Bytes} {r : Request} {now : Int} {s : State}
variable {tags : Option (List (Bytes × Bytes))}

theorem acceptRefused (home : bucket ≠ []) (conditional : ifNoneMatch r = true) (standing : Standing node bucket key id data s) :
    wp (accept lib node bucket key r) (fun phase s' => s' = s ∧ idle phase = true) (fun _ _ => True) s := by
  obtain ⟨_,_,read⟩ := standingFound home standing
  rw [accept,wpBind,wpGets,wpIte]
  refine ⟨fun _ => ⟨rfl,rfl⟩,fun _ => ?_⟩
  rw [wpBind,precondition,if_pos conditional,wpBind,wpAttempt]
  refine wpIs read ?_
  rw [wpPure,wpIte]
  exact ⟨fun free => by contradiction,fun _ => ⟨rfl,rfl⟩⟩

theorem storeSpec (cipher : Cipher node) (opens : ∀ envelope, r.call.envelope = some envelope → Opens node envelope) :
    wp (store node bucket key r now tags) (fun phase s' => s'.db = s.db ∧ (idle phase = true ∨ ∃ pending, phase = .stored tags pending ∧
      Left node (isBucketVersioningEnabled s bucket) bucket key r.data s'.files pending)) (fun _ _ => True) s := by
  have same : wp (storeObject node (r.at now) bucket key r.data r.headers) (fun _ s' => s'.db = s.db) (fun _ s' => s'.db = s.db) s :=
    wpMono storeObjectSpec (fun _ _ done => done.1) (fun _ _ db => db)
  rw [store,wpBind,wpAttempt]
  refine wpMono (wpAnd same (storePlaced cipher opens)) (fun pending s' done => ?_) (fun e s' failed => ⟨failed.1,.inl rfl⟩)
  obtain ⟨db,valid,id,chosen,fresh,placed⟩ := done
  exact ⟨db,.inr ⟨pending,rfl,valid,id,chosenMode chosen,fresh,placed⟩⟩

theorem recordSpec {pending on} (home : bucket ≠ []) (open_ : bucket ∉ s.db.deletedBuckets)
    (left : Left node on bucket key r.data s.files pending) :
    wp (record r now tags pending) (fun phase s' => past phase = true ∧ ∃ id, (on = true ↔ id ≠ []) ∧
      Standing node bucket key id r.data s') (fun _ _ => True) s := by
  obtain ⟨valid,id,mode,fresh,placed⟩ := left
  have plain : on = false → id = [] := fun off => not_ne_iff.mp fun present => Bool.false_ne_true (off.symm.trans (mode.mpr present))
  rw [record,wpBind,wpAttempt]
  refine wpSure (recordStanding home valid open_ plain fresh placed) fun object s' standing => ?_
  exact ⟨rfl,id,mode,standing⟩

theorem finishSpec {object stage} (home : bucket ≠ []) (standing : Standing node bucket key id data s) :
    wp (finish lib node bucket key r now tags object stage)
      (fun phase s' => past phase = true ∧ Standing node bucket key id data s') (fun _ _ => True) s := by
  have kept (setter : Setter) given : wp (setter.perform node (r.at now) bucket key [])
      (fun _ => Standing node bucket key id data) (fun _ => Standing node bucket key id data) s := standingSetter setter given home s standing
  cases stage with
  | retention =>
    rw [finish,wpBind,applyObjectLockFromHeaders.eq_def]
    cases lockHeaders lib r with
    | none => exact ⟨rfl,standing⟩
    | some retention =>
      rw [wpBind,wpAttempt]
      exact wpMono (kept (.retention (some retention)) (by simp)) (fun _ _ still => ⟨rfl,still⟩) (fun _ _ still => ⟨rfl,still⟩)
  | defaultRetention =>
    rw [finish,wpBind,applyDefaultBucketRetention,wpBind,wpGets]
    cases bucketDefault now s bucket with
    | none => exact ⟨rfl,standing⟩
    | some retention =>
      rw [wpIgnore]
      exact wpMono (kept (.retention (some retention)) (by simp)) (fun _ _ still => ⟨rfl,still⟩) (fun _ _ still => ⟨rfl,still⟩)
  | legalHold =>
    rw [finish,wpBind,applyLegalHold,wpIte]
    refine ⟨fun _ => ?_,fun _ => ⟨rfl,standing⟩⟩
    rw [wpIgnore]
    exact wpMono (kept (.legalHold (some legalHoldOn)) (by simp)) (fun _ _ still => ⟨rfl,still⟩) (fun _ _ still => ⟨rfl,still⟩)
  | acl =>
    rw [finish,wpBind,applyObjectCannedACLHeader.eq_def]
    cases cannedACL r with
    | none => exact ⟨rfl,standing⟩
    | some acl =>
      rw [wpIgnore]
      exact wpMono (kept (.acl (some acl)) (by simp)) (fun _ _ still => ⟨rfl,still⟩) (fun _ _ still => ⟨rfl,still⟩)
  | tagging =>
    rw [finish,tag.eq_def]
    cases tags with
    | none => exact ⟨rfl,standing⟩
    | some tags =>
      rw [wpBind,wpAttempt]
      exact wpMono (kept (.tagging (some tags)) (by simp)) (fun _ _ still => ⟨rfl,still⟩) (fun _ _ still => ⟨rfl,still⟩)

end

section
variable {lib : Library} {node : Node} {bucket key : Bytes} {requests : Nat → Request} {start : State} {w next : World} {e : Event}

inductive Inv (node : Node) (bucket key : Bytes) (requests : Nat → Request) (start : State) (w : World) : Prop
  | race (db : w.state.db = start.db) (phases : ∀ i, idle (w.phase i) = true ∨ inFlight (w.phase i) = true)
      (one : ∀ i j, inFlight (w.phase i) = true → inFlight (w.phase j) = true → i = j)
      (left : ∀ i tags pending, w.phase i = .stored tags pending →
        Left node (isBucketVersioningEnabled start bucket) bucket key (requests i).data w.state.files pending)
  | won (i : Nat) (id : Bytes) (version : isBucketVersioningEnabled start bucket = true ↔ id ≠ [])
      (created : past (w.phase i) = true) (others : ∀ j, j ≠ i → idle (w.phase j) = true)
      (standing : Standing node bucket key id (requests i).data w.state)

theorem raceStep {phase} (step : next.phase = update w.phase e.caller phase) (db : next.state.db = start.db)
    (phases : ∀ i, idle (w.phase i) = true ∨ inFlight (w.phase i) = true) (own : idle phase = true ∨ inFlight phase = true)
    (others : ∀ j, j ≠ e.caller → inFlight (w.phase j) = false) (left : ∀ tags pending, phase = .stored tags pending →
      Left node (isBucketVersioningEnabled start bucket) bucket key (requests e.caller).data next.state.files pending) :
    Inv node bucket key requests start next := by
  have grounded j (flying : inFlight (next.phase j) = true) : j = e.caller := by
    by_contra other
    rw [step,update_of_ne other,others j other] at flying
    contradiction
  refine .race db (fun j => ?_) (fun i j first second => (grounded i first).trans (grounded j second).symm) (fun j tags pending here => ?_)
  · rw [step]
    by_cases mine : j = e.caller
    · subst mine
      rw [update_self]
      exact own
    · rw [update_of_ne mine]
      exact phases j
  · have mine := grounded j (by rw [here]; rfl)
    subst mine
    rw [step,update_self] at here
    exact left tags pending here

theorem raceInv (cipher : Cipher node) (opens : ∀ i envelope, (requests i).call.envelope = some envelope → Opens node envelope)
    (home : bucket ≠ []) (open_ : bucket ∉ start.db.deletedBuckets) (alone : Alone w e)
    (stepped : step lib node bucket key requests w e = some next) (db : w.state.db = start.db)
    (phases : ∀ i, idle (w.phase i) = true ∨ inFlight (w.phase i) = true) (one : ∀ i j, inFlight (w.phase i) = true →
      inFlight (w.phase j) = true → i = j)
    (left : ∀ i tags pending, w.phase i = .stored tags pending →
      Left node (isBucketVersioningEnabled start bucket) bucket key (requests i).data w.state.files pending) :
      Inv node bucket key requests start next := by
  obtain ⟨running,_,advanced,updated⟩ := stepAdvances stepped
  have mode : isBucketVersioningEnabled w.state bucket = isBucketVersioningEnabled start bucket := versioningSame bucket fun q => by rw [db]
  have lone (flying : inFlight (w.phase e.caller) = true) j (other : j ≠ e.caller) : inFlight (w.phase j) = false := by
    rw [← Bool.not_eq_true]
    exact fun also => other (one j e.caller also flying)
  cases here : w.phase e.caller with
  | waiting =>
    rw [here] at advanced
    obtain ⟨same,own⟩ := wpOk acceptSpec advanced
    have nobody := alone (by rw [here]; rfl)
    refine raceStep updated (same.trans db) phases ?_ (fun j _ => nobody j) (fun tags pending stored => ?_)
    · rcases own with ⟨code,rfl⟩ | ⟨tags,rfl⟩
      · exact .inl rfl
      · exact .inr rfl
    rcases own with ⟨_,rfl⟩ | ⟨_,rfl⟩
    · contradiction
    · contradiction
  | checked tags =>
    rw [here] at advanced
    obtain ⟨same,own⟩ := wpOk (storeSpec cipher (opens e.caller)) advanced
    refine raceStep updated (same.trans db) phases ?_ (lone (by rw [here]; rfl)) (fun tags' pending stored => ?_)
    · rcases own with outside | ⟨pending,rfl,_⟩
      · exact .inl outside
      · exact .inr rfl
    rcases own with outside | ⟨pending',shape,left⟩
    · rw [stored] at outside
      contradiction
    rw [stored] at shape
    cases shape
    exact mode ▸ left
  | stored tags pending =>
    rw [here] at advanced
    obtain ⟨created,id,version,standing⟩ := wpOk (recordSpec home (db ▸ open_) (left _ _ _ here)) advanced
    refine .won e.caller id version ?_ (fun j other => ?_) standing
    · rw [updated,update_self]
      exact created
    rw [updated,update_of_ne other]
    refine (phases j).resolve_right fun flying => ?_
    rw [lone (by rw [here]; rfl) j other] at flying
    contradiction
  | recorded tags object stage =>
    rcases phases e.caller with outside | flying
    · rw [here] at outside
      contradiction
    · rw [here] at flying
      contradiction
  | answered answer =>
    rw [here] at running
    contradiction

theorem wonInv {i id} (home : bucket ≠ []) (conditional : ∀ i, ifNoneMatch (requests i) = true)
    (stepped : step lib node bucket key requests w e = some next)
    (version : isBucketVersioningEnabled start bucket = true ↔ id ≠ []) (created : past (w.phase i) = true)
    (others : ∀ j, j ≠ i → idle (w.phase j) = true) (standing : Standing node bucket key id (requests i).data w.state) :
    Inv node bucket key requests start next := by
  obtain ⟨running,_,advanced,updated⟩ := stepAdvances stepped
  by_cases mine : e.caller = i
  · subst mine
    have rest j (other : j ≠ e.caller) : idle (next.phase j) = true := by
      rw [updated,update_of_ne other]
      exact others j other
    cases here : w.phase e.caller with
    | recorded tags object stage =>
      rw [here] at advanced
      obtain ⟨still,stands⟩ := wpOk (finishSpec home standing) advanced
      exact .won e.caller id version (by rw [updated,update_self]; exact still) rest stands
    | answered answer =>
      rw [here] at running
      contradiction
    | waiting | checked _ | stored _ _ =>
      rw [here] at created
      contradiction
  · have outside := others e.caller mine
    cases here : w.phase e.caller with
    | waiting =>
      rw [here] at advanced
      obtain ⟨same,refused⟩ := wpOk (acceptRefused home (conditional e.caller) standing) advanced
      refine .won i id version ?_ (fun j other => ?_) (same ▸ standing)
      · rw [updated,update_of_ne (Ne.symm mine)]
        exact created
      rw [updated]
      by_cases caller : j = e.caller
      · subst caller
        rw [update_self]
        exact refused
      · rw [update_of_ne caller]
        exact others j other
    | answered answer =>
      rw [here] at running
      contradiction
    | checked _ | stored _ _ | recorded _ _ _ =>
      rw [here] at outside
      contradiction

theorem stepInv (cipher : Cipher node) (opens : ∀ i envelope, (requests i).call.envelope = some envelope → Opens node envelope)
    (home : bucket ≠ []) (open_ : bucket ∉ start.db.deletedBuckets) (conditional : ∀ i, ifNoneMatch (requests i) = true)
    (inv : Inv node bucket key requests start w) (alone : Alone w e) (stepped : step lib node bucket key requests w e = some next) :
    Inv node bucket key requests start next := by
  cases inv with
  | race db phases one left => exact raceInv cipher opens home open_ alone stepped db phases one left
  | won i id version created others standing => exact wonInv home conditional stepped version created others standing

theorem beginInv : Inv node bucket key requests start (begin_ start) :=
  .race rfl (fun _ => .inl rfl) (fun _ _ flying => by contradiction) (fun _ _ _ here => by contradiction)

def Succeeded (w : World) (i : Nat) : Prop := ∃ object, w.phase i = .answered (.ok object)

theorem succeededWon {i} (inv : Inv node bucket key requests start w) (done : Succeeded w i) :
    (∀ j, j ≠ i → idle (w.phase j) = true) ∧ ∃ id, (isBucketVersioningEnabled start bucket = true ↔ id ≠ []) ∧
      Standing node bucket key id (requests i).data w.state := by
  obtain ⟨_,here⟩ := done
  cases inv with
  | race db phases one left =>
    rcases phases i with outside | flying
    · rw [here] at outside
      contradiction
    · rw [here] at flying
      contradiction
  | won k id version created others standing =>
    have mine : i = k := by
      by_contra other
      have outside := others i other
      rw [here] at outside
      contradiction
    subst mine
    exact ⟨others,id,version,standing⟩

/-- Of conditional requests that check one at a time at most one succeeds, and its object is the
one read afterwards. -/
theorem oneConditionalWinner (cipher : Cipher node)
    (opens : ∀ i envelope, (requests i).call.envelope = some envelope → Opens node envelope) (home : bucket ≠ [])
    (open_ : bucket ∉ start.db.deletedBuckets) (conditional : ∀ i, ifNoneMatch (requests i) = true)
    (fits : isFolderMarker key = true → isBucketVersioningEnabled start bucket = true) {events}
    (alone : Along (step lib node bucket key requests) Alone (begin_ start) events)
    (ran : run (step lib node bucket key requests) (begin_ start) events = some w) : (∀ i j, Succeeded w i → Succeeded w j → i = j) ∧
    ∀ i, Succeeded w i → ∃ obj, getObject node bucket key [] w.state = (.ok (obj, some (requests i).data), w.state) ∧
      obj.size = (requests i).data.length ∧ obj.etag = node.host.md5 (requests i).data := by
  have inv : Inv node bucket key requests start w := runKeeps (stepInv cipher opens home open_ conditional) beginInv alone ran
  constructor
  · intro i j first second
    by_contra other
    obtain ⟨_,here⟩ := second
    have outside := (succeededWon inv first).1 j (Ne.symm other)
    rw [here] at outside
    contradiction
  · intro i done
    obtain ⟨_,_,version,standing⟩ := succeededWon inv done
    obtain ⟨obj,read,_,size,etag⟩ := standingRead home cipher (fun folder => version.mp (fits folder)) standing
    exact ⟨obj,read,size,etag⟩

end

def aloneCheck (n : Nat) (w : World) (e : Event) : Bool := !untried (w.phase e.caller) || (List.range n).all fun j => !inFlight (w.phase j)

theorem aloneChecked {w e n} (few : Few n w) (ok : aloneCheck n w e = true) : Alone w e := by
  intro first j
  rw [aloneCheck,first] at ok
  exact (Bool.not_eq_true' _).mp (fewAll few (fun phase => !inFlight phase) rfl ok j)

def plainLibrary : Library := ⟨fun _ => none, fun _ => none⟩

def creates (i : Nat) : Request where
  call := callAt i
  user := none
  data := if i = 0 then ascii "one" else ascii "other"
  headers := OrderedStore.empty.set (ascii "if-none-match") (ascii "*")

def turn (i : Nat) : Event := ⟨i, fromSeconds 7⟩

def succeeded : Phase → Bool
  | .answered (.ok _) => true
  | _ => false

theorem succeededOf {w i} (shown : succeeded (w.phase i) = true) : Succeeded w i := by
  unfold succeeded at shown
  split at shown <;> try contradiction
  rename_i object here
  exact ⟨object,here⟩

def refused : Phase → Option Bytes
  | .answered (.error code) => some code
  | _ => none

theorem refusedOf {phase code} (shown : refused phase = some code) : phase = .answered (.error code) := by
  unfold refused at shown
  split at shown <;> try contradiction
  cases shown
  rfl

-- The second create comes after the first and is refused.
theorem createsInTurn : ∃ w, run (step plainLibrary smallNode (ascii "b") (ascii "k") creates) (begin_ (newBucket none))
      (List.replicate 8 (turn 0) ++ [turn 1]) = some w ∧ Succeeded w 0 ∧ w.phase 1 = .answered (.error preconditionFailed) ∧
    ∃ obj, getObject smallNode (ascii "b") (ascii "k") [] w.state = (.ok (obj, some (ascii "one")), w.state) := by
  refine runShows (fun w => succeeded (w.phase 0) = true ∧ refused (w.phase 1) = some preconditionFailed) (by decide +kernel) fun w ran done => ?_
  have opens : ∀ i envelope, (creates i).call.envelope = some envelope → Opens smallNode envelope := by
    intro i envelope given
    cases given
    exact ⟨by decide,by decide,[],rfl,rfl⟩
  have alone : Along (step plainLibrary smallNode (ascii "b") (ascii "k") creates) Alone (begin_ (newBucket none))
      (List.replicate 8 (turn 0) ++ [turn 1]) :=
    alongChecked (I := Few 2) (fun few _ ok => aloneChecked few ok) fewStep (by decide) (fun _ _ => rfl) (by decide +kernel)
  obtain ⟨_,read⟩ := oneConditionalWinner sampleCipher opens (by decide) List.not_mem_nil (fun _ => rfl) (by decide) alone ran
  obtain ⟨obj,got,_⟩ := read 0 (succeededOf done.1)
  exact ⟨succeededOf done.1,refusedOf done.2,obj,got⟩

theorem twoWinners : ∃ w, getObjectMetadata smallNode (ascii "b") (ascii "k") (newBucket none) = (.error .objectNotFound, newBucket none) ∧
    run (step plainLibrary smallNode (ascii "b") (ascii "k") creates) (begin_ (newBucket none))
      ([turn 0, turn 1] ++ List.replicate 7 (turn 0) ++ List.replicate 7 (turn 1)) = some w ∧ Succeeded w 0 ∧ Succeeded w 1 := by
  obtain ⟨w,ran,first,second⟩ : ∃ w, run (step plainLibrary smallNode (ascii "b") (ascii "k") creates) (begin_ (newBucket none))
      ([turn 0,turn 1] ++ List.replicate 7 (turn 0) ++ List.replicate 7 (turn 1)) = some w ∧
      succeeded (w.phase 0) = true ∧ succeeded (w.phase 1) = true := by decide +kernel
  exact ⟨w,rfl,ran,succeededOf first,succeededOf second⟩

end MaxIOFS.ConditionalCreates
