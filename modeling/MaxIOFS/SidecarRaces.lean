import MaxIOFS.PutRaces

/-! PutObject beside UpdateObjectMetadata calls on one key. An update reads the sidecar of the
object's path, merges and writes it back, then rewrites the record; a put stores data and
sidecar in one step and records the object in another. -/
namespace MaxIOFS.SidecarRaces
open Function OrderedStore ByteString FileTree Effects Runs ObjectManager RecordChanges Records MetadataStore StoredFiles StoredObjects ManagerRuns
open StagedCommit (Metadata)
open Filesystem (Files getFullPath validatePath metadataOf stagingOf getMetadata setMetadata Host)


def locate (bucket key : Bytes) : Action State Error Bytes := do
  check (validateObjectName key) .invalidObjectName
  let version ← gets (fun s => currentVersion s bucket key)
  let found ← exists_ (pathOf bucket key version)
  check found .objectNotFound
  pure (pathOf bucket key version)

def readSidecar (node : Node) (path : Bytes) : Action State Error Metadata := storage (getMetadata node.host path)

def writeSidecar (node : Node) (call : Call) (path : Bytes) (updates existing : Metadata) : Action State Error Unit :=
  storage (setMetadata node.host call.seconds path (existing.setAll (mergeable updates.entries)))

structure Update where
  call : Call
  updates : Metadata

structure Setting where
  node : Node
  (bucket key : Bytes)
  put : PutRaces.Request
  updates : Nat → Update

inductive Stage where
  | waiting
  | stored (pending : Pending)
  | recorded
  | refused

inductive Progress where
  | waiting
  | located (path : Bytes)
  | read (path : Bytes) (existing : Metadata)
  | written
  | fetched (obj : Object)
  | returned

structure World where
  state : State
  put : Stage
  update : Nat → Progress

inductive Event where
  | store
  | record
  | locate (j : Nat)
  | read (j : Nat)
  | write (j : Nat)
  | fetch (j : Nat)
  | save (j : Nat)

def begin_ (s : State) : World := ⟨s, .waiting, fun _ => .waiting⟩

def advance {α : Type} (w : World) (j : Nat) (m : Action State Error α) (next : α → Progress) : World :=
  match m w.state with
  | (.ok a, s) => { w with state := s, update := update w.update j (next a) }
  | (.error _, s) => { w with state := s, update := update w.update j .returned }

def storeStep (c : Setting) (w : World) : World :=
  match storeObject c.node c.put.call c.bucket c.key c.put.data c.put.headers w.state with
  | (.ok pending, s) => { w with state := s, put := .stored pending }
  | (.error _, s) => { w with state := s, put := .refused }

def step (c : Setting) (w : World) : Event → Option World
  | .store => match w.put with
    | .waiting => some (storeStep c w)
    | _ => none
  | .record => match w.put with
    | .stored pending => some { w with state := (recordObject c.put.call pending w.state).2, put := .recorded }
    | _ => none
  | .locate j => match w.update j with
    | .waiting => some (advance w j (locate c.bucket c.key) .located)
    | _ => none
  | .read j => match w.update j with
    | .located path => some (advance w j (readSidecar c.node path) (.read path))
    | _ => none
  | .write j => match w.update j with
    | .read path existing =>
      some (advance w j (writeSidecar c.node (c.updates j).call path (c.updates j).updates existing) fun _ => .written)
    | _ => none
  | .fetch j => match w.update j with
    | .written => some (advance w j (getObjectMetadata c.node c.bucket c.key) .fetched)
    | _ => none
  | .save j => match w.update j with
    | .fetched obj =>
      some (advance w j (save (c.updates j).call (toMetadataObject (updated (c.updates j).updates obj))) fun _ => .returned)
    | _ => none

def Setting.identifier (c : Setting) (s : State) : Bytes :=
  match chooseVersion c.put.call (isBucketVersioningEnabled s c.bucket) with
  | .ok id => id
  | .error _ => []

def Setting.target (c : Setting) (s : State) : Path := getFullPath (pathOf c.bucket c.key (c.identifier s))
def Setting.origin (c : Setting) (s : State) : Path := getFullPath (pathOf c.bucket c.key (currentVersion s c.bucket c.key))

def Allowed (c : Setting) (s : State) (w : World) : Event → Prop
  | .store => (c.origin s ≠ c.target s → Unblocked w.state.files (c.target s)) ∧
      ∀ j path existing, w.update j = .read path existing → getFullPath path ≠ c.target s
  | .record => ∀ j obj, w.update j = .fetched obj → obj.versionID = c.identifier s
  | _ => True

def Stage.put : Stage → Bool
  | .stored _ | .recorded => true
  | _ => false

def Stage.done : Stage → Bool
  | .recorded => true
  | _ => false

def Settled (w : World) : Prop := ∀ pending, w.put ≠ .stored pending

def lastBytes (c : Setting) (old : Bytes) (w : World) : Bytes := if w.put.put then c.put.data else old
def lastVersion (c : Setting) (s : State) (w : World) : Bytes :=
  if w.put.put then c.identifier s else currentVersion s c.bucket c.key
def spot (c : Setting) (s : State) (w : World) : Path := getFullPath (pathOf c.bucket c.key (lastVersion c s w))
def recordVersion (c : Setting) (s : State) (w : World) : Bytes :=
  if w.put.done then c.identifier s else currentVersion s c.bucket c.key

structure Live (bucket key version : Bytes) (r : ObjectMetadata) : Prop where
  bucket : r.bucket = bucket
  key : r.key = key
  versionID : r.versionID = version
  marker : isMetadataDeleteMarker r = false

structure Inv (c : Setting) (s : State) (old : Bytes) (w : World) : Prop where
  open_ : c.bucket ∉ w.state.db.deletedBuckets
  mode : isBucketVersioningEnabled w.state c.bucket = isBucketVersioningEnabled s c.bucket
  record : ∃ r, stored w.state c.bucket c.key = some r ∧ Live c.bucket c.key (recordVersion c s w) r
  pending : ∀ p, w.put = .stored p → Fresh c.node (isBucketVersioningEnabled s c.bucket) c.bucket c.key (c.identifier s) c.put.data p
  path : validatePath (pathOf c.bucket c.key (lastVersion c s w)) = true
  held : ∃ enc m, Holds w.state.files (spot c s w) enc m ∧ Sealed c.node m enc (lastBytes c old w) ∧
    ∀ j path existing, w.update j = .read path existing → getFullPath path = spot c s w → Sealed c.node existing enc (lastBytes c old w)
  located : ∀ j path, w.update j = .located path ∨ (∃ existing, w.update j = .read path existing) →
    path = pathOf c.bucket c.key (currentVersion s c.bucket c.key) ∨ w.put.done = true ∧ path = pathOf c.bucket c.key (c.identifier s)
  fetched : ∀ j obj, w.update j = .fetched obj → Live c.bucket c.key (recordVersion c s w) (toMetadataObject obj)

section
variable {c : Setting} {s : State} {old : Bytes} {w next : World}
variable {bucket key path version : Bytes} {call : Call} {j : Nat} {r : ObjectMetadata} {t : State}

theorem progressOf {f : Nat → Progress} {k phase x} (found : update f j phase k = x) : phase = x ∨ f k = x := by
  by_cases here : k = j
  · subst here
    rw [update_self] at found
    exact .inl found
  · rw [update_of_ne here] at found
    exact .inr found

theorem advanceInv {α : Type} {m} {phase : α → Progress}
    (spec : wp m (fun a s' => Inv c s old { w with state := s', update := update w.update j (phase a) })
      (fun _ s' => Inv c s old { w with state := s', update := update w.update j .returned }) w.state) :
    Inv c s old (advance w j m phase) := by
  unfold advance
  unfold wp at spec
  split at spec <;> rename_i result <;> rw [result] <;> exact spec

theorem returnedInv (inv : Inv c s old w) : Inv c s old { w with update := update w.update j .returned } := by
  obtain ⟨enc,m,holds,sealed_,reads⟩ := inv.held
  refine ⟨inv.open_,inv.mode,inv.record,inv.pending,inv.path,⟨enc,m,holds,sealed_,?_⟩,?_,?_⟩
  · intro k path existing found
    rcases progressOf found with never | before
    · contradiction
    · exact reads k path existing before
  · intro k path found
    refine inv.located k path (found.imp (fun found => ?_) (fun ⟨existing,found⟩ => ⟨existing,?_⟩))
    · exact (progressOf found).resolve_left (by simp)
    · exact (progressOf found).resolve_left (by simp)
  · intro k obj found
    exact inv.fetched k obj ((progressOf found).resolve_left (by simp))

theorem recordCurrent (inv : Inv c s old w) : currentVersion w.state c.bucket c.key = recordVersion c s w := by
  obtain ⟨_,found,live⟩ := inv.record
  rw [currentVersion,found]
  exact live.versionID

theorem locateSpec (bucket key : Bytes) (s : State) : wp (locate bucket key)
    (fun path s' => s' = s ∧ path = pathOf bucket key (currentVersion s bucket key)) (fun _ s' => s' = s) s := by
  rw [locate,wpBind,wpCheck]
  refine ⟨fun _ => ?_,fun _ => rfl⟩
  rw [wpBind,wpGets,wpBind,exists_,wpObserve]
  split
  · rw [wpBind,wpCheck]
    exact ⟨fun _ => ⟨rfl,rfl⟩,fun _ => rfl⟩
  · rfl

theorem locateInv (inv : Inv c s old w) : Inv c s old (advance w j (locate c.bucket c.key) .located) := by
  refine advanceInv (wpMono (locateSpec c.bucket c.key w.state) (fun path s' done => ?_) (fun _ s' same => ?_))
  · obtain ⟨rfl,here⟩ := done
    obtain ⟨enc,m,holds,sealed_,reads⟩ := inv.held
    refine ⟨inv.open_,inv.mode,inv.record,inv.pending,inv.path,⟨enc,m,holds,sealed_,?_⟩,?_,?_⟩
    · intro k other existing found
      exact reads k other existing ((progressOf found).resolve_left (by simp))
    · intro k other found
      rcases found with found | ⟨existing,found⟩
      · rcases progressOf found with this | before
        · cases this
          rw [here,recordCurrent inv,recordVersion]
          split
          · exact .inr ⟨by assumption,rfl⟩
          · exact .inl rfl
        · exact inv.located k other (.inl before)
      · exact inv.located k other (.inr ⟨existing,(progressOf found).resolve_left (by simp)⟩)
    · intro k obj found
      exact inv.fetched k obj ((progressOf found).resolve_left (by simp))
  · subst same
    exact returnedInv inv

theorem readHeld {host t data m} (holds : Holds t (getFullPath path) data m) : wp (getMetadata host path)
      (fun m' t' => m' = m ∧ t' = t) (fun _ t' => t' = t) t := by
  cases valid : validatePath path with
  | true => exact wpSure (wpEq.mpr (getMetadataHeld valid holds)) fun _ _ same => same
  | false =>
    rw [getMetadata,wpBind,wpCheck]
    exact ⟨fun true_ => by rw [valid] at true_; contradiction,fun _ => rfl⟩

theorem locatedApart (apart : c.origin s ≠ c.target s → Apart (c.origin s) (c.target s))
    (inv : Inv c s old w) (found : w.update j = .located path ∨ ∃ existing, w.update j = .read path existing)
    (elsewhere : getFullPath path ≠ spot c s w) : getFullPath path = c.origin s ∧ Apart (getFullPath path) (spot c s w) := by
  rcases inv.located j path found with rfl | ⟨done,rfl⟩
  · refine ⟨rfl,?_⟩
    unfold spot lastVersion at elsewhere ⊢
    split at elsewhere
    · rename_i put
      rw [if_pos put]
      exact apart elsewhere
    · exact absurd rfl elsewhere
  · have put : w.put.put = true := by
      revert done
      cases w.put <;> simp [Stage.done,Stage.put]
    refine absurd ?_ elsewhere
    rw [spot,lastVersion,if_pos put]

section
variable (present : c.origin s ≠ []) (apart : c.origin s ≠ c.target s → Apart (c.origin s) (c.target s)) (inv : Inv c s old w)
include present apart inv

theorem readInv (found : w.update j = .located path) : Inv c s old (advance w j (readSidecar c.node path) (.read path)) := by
  obtain ⟨enc,m,holds,sealed_,reads⟩ := inv.held
  have build files existing (kept : Holds files (spot c s w) enc m)
      (opened : getFullPath path = spot c s w → Sealed c.node existing enc (lastBytes c old w)) :
      Inv c s old { w with state := { w.state with files := files }, update := update w.update j (.read path existing) } := by
    refine ⟨inv.open_,inv.mode,inv.record,inv.pending,inv.path,⟨enc,m,kept,sealed_,?_⟩,?_,?_⟩
    · intro k other existing' here same
      rcases progressOf here with this | before
      · cases this
        exact opened same
      · exact reads k other existing' before same
    · intro k other here
      rcases here with here | ⟨existing',here⟩
      · exact inv.located k other (.inl ((progressOf here).resolve_left (by simp)))
      rcases progressOf here with this | before
      · cases this
        exact inv.located j path (.inl found)
      · exact inv.located k other (.inr ⟨existing',before⟩)
    · intro k obj here
      exact inv.fetched k obj ((progressOf here).resolve_left (by simp))
  have failed files kept : Inv c s old { w with state := { w.state with files := files }, update := update w.update j .returned } :=
    returnedInv (w := { w with state := { w.state with files := files } })
      ⟨inv.open_,inv.mode,inv.record,inv.pending,inv.path,⟨enc,m,kept,sealed_,reads⟩,inv.located,inv.fetched⟩
  refine advanceInv ?_
  rw [readSidecar,wpStorage]
  by_cases here : getFullPath path = spot c s w
  · refine wpMono (readHeld (here.symm ▸ holds)) (fun existing files same => ?_) (fun _ files same => ?_)
    · obtain ⟨rfl,rfl⟩ := same
      exact build _ _ holds fun _ => sealed_
    · subst same
      exact failed _ holds
  · obtain ⟨origin,beside⟩ := locatedApart apart inv (.inl found) here
    have kept : Holds (getMetadata c.node.host path w.state.files).2 (spot c s w) enc m := getMetadataApart beside (origin ▸ present) holds
    unfold wp
    split <;> rename_i result <;> rw [result] at kept
    · exact build _ _ kept fun same => absurd same here
    · exact failed _ kept

theorem writeInv {existing updates} (found : w.update j = .read path existing) :
    Inv c s old (advance w j (writeSidecar c.node call path updates existing) fun _ => .written) := by
  obtain ⟨enc,m,holds,sealed_,reads⟩ := inv.held
  have build files m' (kept : Holds files (spot c s w) enc m')
      (sealed' : Sealed c.node m' enc (lastBytes c old w)) (phase : Progress) (finished : phase = .written ∨ phase = .returned) :
      Inv c s old { w with state := { w.state with files := files }, update := update w.update j phase } := by
    have before {k} {x} (other : x ≠ .written ∧ x ≠ .returned) (here : update w.update j phase k = x) : w.update k = x := by
      refine (progressOf here).resolve_left fun same => ?_
      rcases finished with rfl | rfl
      · exact other.1 same.symm
      · exact other.2 same.symm
    refine ⟨inv.open_,inv.mode,inv.record,inv.pending,inv.path,⟨enc,m',kept,sealed',?_⟩,?_,?_⟩
    · exact fun k other existing' here => reads k other existing' (before (by simp) here)
    · exact fun k other here => inv.located k other (here.imp (before (by simp)) (fun ⟨existing',here⟩ => ⟨existing',before (by simp) here⟩))
    · exact fun k obj here => inv.fetched k obj (before (by simp) here)
  refine advanceInv ?_
  rw [writeSidecar,wpStorage]
  by_cases here : getFullPath path = spot c s w
  · refine wpMono (setMetadataHeld (here.symm ▸ holds)) (fun _ files kept => ?_) (fun _ files kept => ?_)
    · exact build files _ (here ▸ kept) (sealedSame (mergedSeal _) (reads j path existing found here)) _ (.inl rfl)
    · exact build files m (here ▸ kept) sealed_ _ (.inr rfl)
  obtain ⟨origin,beside⟩ := locatedApart apart inv (.inr ⟨existing,found⟩) here
  have kept : Holds (setMetadata c.node.host call.seconds path (existing.setAll (mergeable updates.entries))
      w.state.files).2 (spot c s w) enc m := setMetadataApart beside (origin ▸ present) holds
  unfold wp
  split <;> rename_i result <;> rw [result] at kept
  · exact build _ m kept sealed_ _ (.inl rfl)
  · exact build _ m kept sealed_ _ (.inr rfl)

end

theorem getObjectMetadataSpec {node s} (found : stored s bucket key = some r) : wp (getObjectMetadata node bucket key)
      (fun obj s' => s' = s ∧ obj = fromMetadataObject r) (fun _ s' => s' = s) s := by
  rw [getObjectMetadata,wpBind,wpCheck]
  refine ⟨fun _ => ?_,fun _ => rfl⟩
  rw [wpBind,wpGets,found]
  rw [wpBind,exists_,wpObserve]
  split
  · rw [wpBind,wpCheck]
    exact ⟨fun _ => ⟨rfl,rfl⟩,fun _ => rfl⟩
  · rfl

theorem liveSame {r'} (live : Live bucket key version r) (home : r'.bucket = r.bucket)
    (named : r'.key = r.key) (versionID : r'.versionID = r.versionID) (size : r'.size = r.size) (etag : r'.etag = r.etag) :
    Live bucket key version r' := by
  refine ⟨home.trans live.bucket,named.trans live.key,versionID.trans live.versionID,?_⟩
  have marker := live.marker
  unfold isMetadataDeleteMarker at marker ⊢
  rw [size,etag]
  exact marker

theorem fetchInv (inv : Inv c s old w) : Inv c s old (advance w j (getObjectMetadata c.node c.bucket c.key) .fetched) := by
  obtain ⟨_,found,live⟩ := inv.record
  refine advanceInv (wpMono (getObjectMetadataSpec found) (fun obj s' done => ?_) (fun _ s' same => ?_))
  · obtain ⟨rfl,rfl⟩ := done
    obtain ⟨enc,m,holds,sealed_,reads⟩ := inv.held
    refine ⟨inv.open_,inv.mode,inv.record,inv.pending,inv.path,⟨enc,m,holds,sealed_,?_⟩,?_,?_⟩
    · exact fun k other existing here => reads k other existing ((progressOf here).resolve_left (by simp))
    · exact fun k other here => inv.located k other (here.imp (fun here => (progressOf here).resolve_left (by simp))
        (fun ⟨existing,here⟩ => ⟨existing,(progressOf here).resolve_left (by simp)⟩))
    intro k obj here
    rcases progressOf here with this | before
    · cases this
      exact liveSame live rfl rfl rfl rfl rfl
    · exact inv.fetched k obj before
  · subst same
    exact returnedInv inv

theorem savedLive {now obj db} (home : bucket ≠ [])
    (named : key ≠ []) (before : stored t bucket key = some r) (old : Live bucket key version r) (live : Live bucket key version obj)
    (done : t.db.putObject now obj = .ok db) : ∃ r', stored { t with db} bucket key = some r' ∧ Live bucket key version r' := by
  obtain ⟨rfl,-⟩ := putObjectWrites done
  have here : objectKey (stamped now obj).bucket (stamped now obj).key = objectKey bucket key := by
    rw [← live.bucket,← live.key]
    rfl
  by_cases current : (stamped now obj).versionID = [] ∨ (stamped now obj).isLatest = true
  · have stamped_ : Live bucket key version (stamped now obj) := liveSame live rfl rfl rfl rfl rfl
    refine ⟨_,storedAt home named ?_ stamped_.bucket stamped_.key,stamped_⟩
    dsimp only [writeObject]
    rw [if_pos current,here]
    exact Store.getSetSame _ _ _
  · refine ⟨r,?_,old⟩
    dsimp only [writeObject]
    rw [if_neg current]
    exact before

theorem saveInv {obj updates} (home : c.bucket ≠ []) (named : c.key ≠ []) (inv : Inv c s old w) (found : w.update j = .fetched obj) :
    Inv c s old (advance w j (save call (toMetadataObject (updated updates obj))) fun _ => .returned) := by
  obtain ⟨_,before,old_⟩ := inv.record
  refine advanceInv ?_
  rw [save,wpDatabase]
  split
  · rename_i db done
    have live : Live c.bucket c.key (recordVersion c s w) (toMetadataObject (updated updates obj)) :=
      liveSame (inv.fetched j obj found) rfl rfl rfl rfl rfl
    have buckets := putObjectBuckets done
    have deleted : db.deletedBuckets = w.state.db.deletedBuckets := (putObjectWrites done).1 ▸ rfl
    have mode : isBucketVersioningEnabled { w.state with db := db } c.bucket = isBucketVersioningEnabled w.state c.bucket :=
      versioningSame c.bucket (fun q => by rw [buckets])
    exact returnedInv (w := { w with state := { w.state with db := db } })
      ⟨deleted ▸ inv.open_,mode.trans inv.mode,savedLive home named before old_ live done,inv.pending,inv.path,inv.held,inv.located,inv.fetched⟩
  · exact returnedInv inv

theorem storeObjectUnchosen {node data headers e} (refused : chooseVersion call (isBucketVersioningEnabled t bucket) = .error e) :
    wp (storeObject node call bucket key data headers) (fun _ _ => False) (fun _ t' => t' = t) t :=
  storeObjectBy (fun _ _ => rfl) fun id _ chosen => by cases refused.symm.trans chosen

theorem refusedInv (inv : Inv c s old w) (waiting : w.put = .waiting) : Inv c s old { w with put := .refused } := by
  obtain ⟨_,_⟩ := w
  subst waiting
  exact ⟨inv.open_,inv.mode,inv.record,fun p found => by contradiction,inv.path,inv.held,inv.located,inv.fetched⟩

theorem storeInv (cipher : Cipher c.node) (opens : ∀ envelope, c.put.call.envelope = some envelope → Opens c.node envelope)
    (file : isFolderMarker c.key = false) (inv : Inv c s old w) (waiting : w.put = .waiting) (allowed : Allowed c s w .store) :
    Inv c s old (storeStep c w) := by
  unfold storeStep
  cases chosen : chooseVersion c.put.call (isBucketVersioningEnabled s c.bucket) with
  | error e =>
    have spec : wp (storeObject c.node c.put.call c.bucket c.key c.put.data c.put.headers) _ _ w.state := storeObjectUnchosen (inv.mode ▸ chosen)
    unfold wp at spec
    split at spec
    · exact spec.elim
    rename_i result
    rw [result]
    cases spec
    exact refusedInv inv waiting
  | ok id =>
    have named : c.identifier s = id := by
      unfold Setting.identifier
      rw [chosen]
    have path := chosenPath c.bucket c.key chosen
    have spec : wp (storeObject c.node c.put.call c.bucket c.key c.put.data c.put.headers) _ _ w.state :=
      storeObjectFile inv.mode chosen file cipher opens
    rw [path] at spec
    have target : getFullPath (pathOf c.bucket c.key id) = c.target s := by
      rw [Setting.target,named]
    rw [target] at spec
    unfold wp at spec
    split at spec <;> rename_i result <;> rw [result]
    · obtain ⟨db,admitted,fresh,_,_,enc,m,holds,sealed_⟩ := spec
      have before : recordVersion c s w = currentVersion s c.bucket c.key := by
        rw [recordVersion,waiting]
        rfl
      refine ⟨?_,?_,?_,?_,?_,⟨enc,m,holds,sealed_,?_⟩,?_,?_⟩
      · rw [db]
        exact inv.open_
      · rw [← inv.mode]
        exact versioningSame c.bucket (fun q => by rw [db])
      · obtain ⟨r,found,live⟩ := inv.record
        rw [before] at live
        refine ⟨r,?_,live⟩
        unfold stored at found ⊢
        rw [db]
        exact found
      · intro p same
        cases same
        exact named.symm ▸ fresh
      · exact (named.symm ▸ path) ▸ named.symm ▸ admitted.path
      · intro j other existing found same
        exact absurd same (allowed.2 j other existing found)
      · intro j other found
        rcases inv.located j other found with origin | ⟨done,_⟩
        · exact .inl origin
        · rw [waiting] at done
          contradiction
      · intro j obj found
        have live := inv.fetched j obj found
        rw [before] at live
        exact live
    · have free : Unblocked w.state.files (c.target s) := by
        by_cases same : c.origin s = c.target s
        · obtain ⟨_,_,holds,_⟩ := inv.held
          rw [← same]
          have here : spot c s w = c.origin s := by
            rw [spot,lastVersion,waiting]
            rfl
          exact here ▸ holds.unblocked
        · exact allowed.1 same
      cases spec.2 free
      exact refusedInv inv waiting

theorem recordInv {pending} (cipher : Cipher c.node) (home : c.bucket ≠ []) (named : c.key ≠ []) (inv : Inv c s old w)
    (found : w.put = .stored pending) (allowed : Allowed c s w .record) :
    Inv c s old { w with state := (recordObject c.put.call pending w.state).2, put := .recorded } := by
  have fresh := inv.pending pending found
  have plain : isBucketVersioningEnabled s c.bucket = false → c.identifier s = [] := by
    intro off
    rw [Setting.identifier,off]
    rfl
  obtain ⟨record,recorded,bucket,key,version,size,etag⟩ : ∃ record, Recorded c.bucket c.key record w.state
      (recordObject c.put.call pending w.state).2 ∧ record.bucket = c.bucket ∧ record.key = c.key ∧
      record.versionID = c.identifier s ∧ record.size = c.put.data.length ∧ record.etag = c.node.host.md5 c.put.data :=
    wpState (wpSure (recordObjectWritten home named inv.open_ plain fresh) (fun _ _ done => done))
  have before : spot c s w = c.target s := by
    rw [spot,lastVersion,found]
    rfl
  refine ⟨?_,?_,?_,fun p same => by contradiction,?_,?_,?_,?_⟩
  · exact recorded.deleted ▸ inv.open_
  · rw [← inv.mode]
    exact versioningSame c.bucket recorded.status
  · refine ⟨record,storedAt home named recorded.record bucket key,bucket,key,version,?_⟩
    simp [isMetadataDeleteMarker,etag,cipher.digest]
  · have path := inv.path
    rw [lastVersion,found] at path
    exact path
  · obtain ⟨enc,m,holds,sealed_,reads⟩ := inv.held
    rw [lastBytes,found] at sealed_
    rw [before] at holds
    refine ⟨enc,m,recorded.files ▸ holds,sealed_,fun j path existing here same => ?_⟩
    have opened := reads j path existing here (before ▸ same)
    rw [lastBytes,found] at opened
    exact opened
  · intro j path here
    rcases inv.located j path here with origin | ⟨_,same⟩
    · exact .inl origin
    · exact .inr ⟨rfl,same⟩
  · intro j obj here
    have live := inv.fetched j obj here
    exact ⟨live.bucket,live.key,allowed j obj here,live.marker⟩

theorem stepInv {event} (cipher : Cipher c.node) (opens : ∀ envelope, c.put.call.envelope = some envelope → Opens c.node envelope)
    (home : c.bucket ≠ []) (named : c.key ≠ []) (file : isFolderMarker c.key = false) (present : c.origin s ≠ [])
    (apart : c.origin s ≠ c.target s → Apart (c.origin s) (c.target s)) (inv : Inv c s old w) (allowed : Allowed c s w event)
    (stepped : step c w event = some next) : Inv c s old next := by
  cases event <;> simp only [step] at stepped <;> split at stepped <;> try contradiction
  all_goals
    rename_i found
    cases stepped
  · exact storeInv cipher opens file inv found allowed
  · exact recordInv cipher home named inv found allowed
  · exact locateInv inv
  · exact readInv present apart inv found
  · exact writeInv present apart inv found
  · exact fetchInv inv
  · exact saveInv home named inv found

theorem beginInv {enc m} (open_ : c.bucket ∉ s.db.deletedBuckets) (found : stored s c.bucket c.key = some r)
    (live : Live c.bucket c.key r.versionID r)
    (path : validatePath (pathOf c.bucket c.key r.versionID) = true)
    (holds : Holds s.files (getFullPath (pathOf c.bucket c.key r.versionID)) enc m) (sealed_ : Sealed c.node m enc old) :
    Inv c s old (begin_ s) := by
  have current : currentVersion s c.bucket c.key = r.versionID := by
    rw [currentVersion,found]
    rfl
  refine ⟨open_,rfl,⟨r,found,?_⟩,fun p same => by contradiction,?_,⟨enc,m,?_,sealed_,fun j path existing here => by contradiction⟩,
    fun j path here => ?_,fun j obj here => by contradiction⟩
  · rw [← current] at live
    exact live
  · rw [← current] at path
    exact path
  · rw [← current] at holds
    exact holds
  · rcases here with here | ⟨_,here⟩ <;> contradiction

/-- Where no put comes between the halves of an update, the object decrypts to the bytes stored last. -/
theorem lastBytesReadable {enc} {m} {r} {events} (cipher : Cipher c.node)
    (opens : ∀ envelope, c.put.call.envelope = some envelope → Opens c.node envelope) (home : c.bucket ≠ [])
    (valid : validateObjectName c.key = true) (file : isFolderMarker c.key = false) (open_ : c.bucket ∉ s.db.deletedBuckets)
    (found : stored s c.bucket c.key = some r) (live : Live c.bucket c.key r.versionID r)
    (path : validatePath (pathOf c.bucket c.key r.versionID) = true)
    (holds : Holds s.files (getFullPath (pathOf c.bucket c.key r.versionID)) enc m) (sealed_ : Sealed c.node m enc old)
    (apart : c.origin s ≠ c.target s → Apart (c.origin s) (c.target s))
    (along : Along (step c) (Allowed c s) (begin_ s) events) (ran : run (step c) (begin_ s) events = some w)
    (settled : Settled w) : ∃ obj, (getObject c.node c.bucket c.key [] w.state).1 = .ok (obj, some (lastBytes c old w)) := by
  have start : Inv c s old (begin_ s) := beginInv open_ found live path holds sealed_
  have present : c.origin s ≠ [] := by
    rw [Setting.origin,currentVersion,found]
    exact holds.present
  have inv : Inv c s old w := runKeeps
    (stepInv cipher opens home (validName valid) file present apart) start along ran
  have versions : recordVersion c s w = lastVersion c s w := by
    unfold recordVersion lastVersion
    cases put : w.put with
    | stored pending => exact absurd put (settled pending)
    | _ => rfl
  obtain ⟨_,_,holds',sealed',_⟩ := inv.held
  have current : currentVersion w.state c.bucket c.key = lastVersion c s w := (recordCurrent inv).trans versions
  have spec := getObjectHeld valid inv.path holds' sealed' current (fun obj same => by
    obtain ⟨_,found',live'⟩ := inv.record
    rw [found'] at same
    cases same
    exact live'.marker)
  unfold wp at spec
  split at spec
  · rename_i answer t result
    exact ⟨answer.1,by rw [result]; exact congrArg Except.ok (Prod.ext rfl spec.1)⟩
  · exact spec.elim

end

def paint : Setting where
  node := smallNode
  bucket := ascii "b"
  key := ascii "k"
  put := ⟨{ callAt 1 with envelope := some ⟨[2], [2], [2], 1⟩ }, ascii "new", empty⟩
  updates := fun _ => ⟨callAt 2, empty.set (ascii "color") (ascii "red")⟩

def oneObject : State := (putObject smallNode (callAt 0) (ascii "b") (ascii "k") (ascii "old") empty (newBucket none)).2

def Progress.finished : Progress → Bool
  | .returned => true
  | _ => false

theorem paintOpens (envelope : Envelope) (given : paint.put.call.envelope = some envelope) : Opens paint.node envelope := by
  cases given
  exact ⟨by decide,by decide,[],rfl,rfl⟩

theorem oneObjectStored : (∃ r, stored oneObject (ascii "b") (ascii "k") = some r ∧
      Written smallNode (newBucket none) (ascii "b") (ascii "k") (ascii "old") r) ∧ ascii "b" ∉ oneObject.db.deletedBuckets ∧
    ∃ enc m, Holds oneObject.files (getFullPath (pathOf (ascii "b") (ascii "k") [])) enc m ∧ Sealed smallNode m enc (ascii "old") := by
  have home : ascii "b" ≠ [] := by decide
  have off : isBucketVersioningEnabled (newBucket none) (ascii "b") = false := by decide
  have open_ : ascii "b" ∉ (newBucket none).db.deletedBuckets := List.not_mem_nil
  have file : isFolderMarker (ascii "k") = false := by decide
  have opens envelope (given : (callAt 0).envelope = some envelope) : Opens smallNode envelope := by
    cases given
    exact ⟨by decide,by decide,[],rfl,rfl⟩
  have spec := @putObjectPlainSpec (callAt 0) (ascii "b") (ascii "k") (newBucket none) smallNode
    (ascii "old") empty home off open_ file sampleCipher opens
  have succeeded : (putObject smallNode (callAt 0) (ascii "b") (ascii "k") (ascii "old") empty (newBucket none)).1.isOk = true := by decide +kernel
  obtain ⟨_,_,deleted,record,enc,m,holds,sealed_⟩ := wpValue spec succeeded
  have none_ : (newBucket none).db.deletedBuckets = [] := rfl
  unfold oneObject
  refine ⟨record,?_,enc,m,holds,sealed_⟩
  rw [deleted,none_]
  exact List.not_mem_nil

theorem paintOrigin : paint.origin oneObject = paint.target oneObject := by
  obtain ⟨⟨_,found,written⟩,_⟩ := oneObjectStored
  have current : currentVersion oneObject paint.bucket paint.key = [] := by
    change ((stored oneObject (ascii "b") (ascii "k")).map ObjectMetadata.versionID).getD [] = []
    rw [found]
    exact written.versionID
  have off : isBucketVersioningEnabled oneObject paint.bucket = false := by decide +kernel
  rw [Setting.origin,Setting.target,current,Setting.identifier,off]
  rfl

theorem advanceOther {α w j k m} {phase : α → Progress} (other : k ≠ j) : (advance w j m phase).update k = w.update k := by
  unfold advance
  split <;> exact update_of_ne other _ _

theorem advanceSelf {α w j m} {phase : α → Progress} {P : Progress → Prop}
    (next : ∀ a, P (phase a)) (failed : P .returned) : P ((advance w j m phase).update j) := by
  unfold advance
  split
  · dsimp only
    rw [update_self]
    exact next _
  dsimp only
  rw [update_self]
  exact failed

-- Between its read and its write, or between its look-up of the record and its save.
def Progress.midway : Progress → Bool
  | .read _ _ | .fetched _ => true
  | _ => false

theorem paintAllowed : Along (step paint) (Allowed paint oneObject) (begin_ oneObject) [.locate 0,.read 0,.write 0,.store,.record] := by
  refine ⟨trivial,fun w₁ first => ⟨trivial,fun w₂ second => ⟨trivial,fun w₃ third => ?_⟩⟩⟩
  have idle j : (w₃.update j).midway = false := by
    simp only [step] at first second third
    cases first
    split at second <;> try contradiction
    cases second
    split at third <;> try contradiction
    cases third
    by_cases here : j = 0
    · subst here
      exact advanceSelf (P := fun phase => phase.midway = false) (fun _ => rfl) rfl
    · rw [advanceOther here,advanceOther here,advanceOther here]
      rfl
  refine ⟨⟨absurd paintOrigin,fun j path existing found => ?_⟩,fun w₄ fourth => ⟨fun j obj found => ?_,fun _ _ => trivial⟩⟩
  · have midway := idle j
    rw [found] at midway
    contradiction
  have same : w₄.update = w₃.update := by
    simp only [step] at fourth
    split at fourth <;> try contradiction
    cases fourth
    unfold storeStep
    split <;> rfl
  have midway := idle j
  rw [← same,found] at midway
  contradiction

theorem updateThenPutReadable : ∃ w, run (step paint) (begin_ oneObject) [.locate 0, .read 0, .write 0, .store, .record] = some w ∧
    ∃ obj, (getObject paint.node paint.bucket paint.key [] w.state).1 = .ok (obj, some (ascii "new")) := by
  refine runShows (fun w => w.put.done = true) (by decide +kernel) fun w ran done => ?_
  obtain ⟨⟨r,found,written⟩,open_,enc,m,holds,sealed_⟩ := oneObjectStored
  have settled : Settled w := by
    intro pending stored
    simp [stored,Stage.done] at done
  have live : Live paint.bucket paint.key r.versionID r := by
    refine ⟨written.home,written.named,rfl,?_⟩
    simp [isMetadataDeleteMarker,written.size,ascii]
  have path : validatePath (pathOf paint.bucket paint.key r.versionID) = true := by
    rw [written.versionID]
    decide
  have valid : validateObjectName paint.key = true := by decide
  have holds' : Holds oneObject.files (getFullPath (pathOf paint.bucket paint.key r.versionID)) enc m := by
    rw [written.versionID]
    exact holds
  obtain ⟨obj,read⟩ := @lastBytesReadable paint oneObject (ascii "old") w enc m r _ sampleCipher paintOpens (by decide) valid
    (by decide) open_ found live path holds' sealed_ (absurd paintOrigin) paintAllowed ran settled
  refine ⟨obj,?_⟩
  have put : w.put.put = true := by
    revert done
    cases w.put <;> simp [Stage.done,Stage.put]
  rw [lastBytes,if_pos put] at read
  exact read

theorem envelopeRestored : ∃ w, run (step paint) (begin_ oneObject)
    [.locate 0, .read 0, .store, .write 0, .record, .fetch 0, .save 0] = some w ∧ Settled w ∧ w.update 0 = .returned ∧
      lastBytes paint (ascii "old") w = ascii "new" ∧ ∃ obj, (getObject paint.node paint.bucket paint.key [] w.state).1 = .ok (obj, none) := by
  refine runShows (fun w => w.put.done = true ∧ (w.update 0).finished = true ∧
    ∃ r, (getObject paint.node paint.bucket paint.key [] w.state).1.toOption = some r ∧ r.2 = none) (by decide +kernel)
    fun w ran ⟨done,finished,⟨obj,data⟩,answered,none_⟩ => ⟨?_,?_,?_,?_⟩
  · intro pending stored
    simp [stored,Stage.done] at done
  · revert finished
    cases w.update 0 <;> simp [Progress.finished]
  · have put : w.put.put = true := by
      revert done
      cases w.put <;> simp [Stage.done,Stage.put]
    rw [lastBytes,if_pos put]
    rfl
  · cases none_
    exact ⟨obj,toOptionIff.mp answered⟩

end MaxIOFS.SidecarRaces
