import MaxIOFS.Envelopes
import MaxIOFS.S3Handler
import MaxIOFS.SetterFrames

/-! What the handler's steps leave behind: an object that stands under its key, with the record
of its write and its bytes where the record leads, through every later call on the key. -/
namespace MaxIOFS.HandlerSteps
open ByteString Effects ObjectManager RecordChanges Records MetadataStore StoredFiles StoredObjects SetterFrames S3Handler FileTree Envelopes
open ManagerRuns (chosenSegment versionedPlain)
open Filesystem (Files getFullPath validatePath)

-- A folder marker without versioning is a directory: it is there, but has no bytes.
structure Placed (node : Node) (bucket key id data : Bytes) (files : Files) : Prop where
  present : Filesystem.exists_ files (pathOf bucket key id) = .ok true
  reads : (isFolderMarker key = true → id ≠ []) → validatePath (pathOf bucket key id) = true ∧
    ∃ enc m, Holds files (getFullPath (pathOf bucket key id)) enc m ∧ Sealed node m enc data

structure Standing (node : Node) (bucket key id data : Bytes) (s : State) : Prop where
  valid : validateObjectName key = true
  record : ∃ r, s.db.objects.get (objectKey bucket key) = some r ∧ r.bucket = bucket ∧ r.key = key ∧ r.versionID = id ∧
    r.size = data.length ∧ r.etag = node.host.md5 data
  placed : Placed node bucket key id data s.files

section
variable {node : Node} {call : Call} {bucket key id data : Bytes} {headers : Headers} {s : State}
variable {path : Bytes} {m : StagedCommit.Metadata}

theorem existsHeld {t enc} (valid : validatePath path = true) (holds : Holds t (getFullPath path) enc m) :
    Filesystem.exists_ t path = .ok true := by
  obtain ⟨_,found⟩ := holds.data
  unfold Filesystem.exists_
  rw [if_pos valid,Tree.statFile.mpr found]

theorem placedHeld {enc files} (valid : validatePath (pathOf bucket key id) = true)
    (holds : Holds files (getFullPath (pathOf bucket key id)) enc m) (opens : Sealed node m enc data) : Placed node bucket key id data files :=
    ⟨existsHeld valid holds,fun _ => ⟨valid,enc,m,holds,opens⟩⟩

theorem storeDataValid : wp (storeData node call key path data headers) (fun _ _ => validatePath path = true) (fun _ _ => True) s := by
  rw [storeData,wpIte]
  refine ⟨fun _ => ?_,fun _ => ?_⟩
  · rw [storeUnencryptedObject,wpStorage]
    exact wpLax putValid fun _ _ valid => valid
  unfold storeEncryptedObject
  cases call.envelope with
  | none => trivial
  | some envelope =>
    rw [wpStorage]
    exact wpLax putValid fun _ _ valid => valid

theorem storeObjectSource : wp (storeObject node call bucket key data headers)
    (fun pending _ => validateObjectName key = true ∧ ∃ id, chooseVersion call (isBucketVersioningEnabled s bucket) = .ok id ∧
      validatePath (objectPathOf (isBucketVersioningEnabled s bucket) bucket key id) = true ∧
      Fresh node (isBucketVersioningEnabled s bucket) bucket key id data pending ∧
      pending.object.retention = defaultRetention s bucket ∧ pending.object.legalHold = none) (fun _ _ => True) s := by
  refine storeObjectBy (fun _ _ => trivial) ?_
  intro id name chosen _ _ path
  refine wpLax (wpAnd (filesStoreData (I := (·.db = s.db)) (fun same => same) node call _ _ _ headers s rfl) storeDataValid) fun _ s₁ stored => ?_
  refine wpLax (keepsStorage (P := (· = s.db)) _ s₁ stored.1) fun final s₂ same => ?_
  refine ⟨name,id,chosen,stored.2,⟨rfl,rfl,rfl,rfl,rfl,rfl⟩,?_,rfl⟩
  change defaultRetention s₂ bucket = _
  unfold defaultRetention bucketOf
  rw [same]

theorem storePresent : wp (storeObject node call bucket key data headers)
    (fun pending s' => Filesystem.exists_ s'.files (pathOf bucket key pending.object.versionID) = .ok true) (fun _ _ => True) s := by
  cases chosen : chooseVersion call (isBucketVersioningEnabled s bucket) with
  | error e =>
    refine wpLax storeObjectSource fun pending s' done => ?_
    obtain ⟨_,id,same,_⟩ := done
    rw [chosen] at same
    contradiction
  | ok id =>
    have path := chosenPath bucket key chosen
    cases folder : isFolderMarker key with
    | false =>
      refine wpLax (storeObjectHeld rfl chosen folder) fun pending s' done => ?_
      obtain ⟨_,admitted,fresh,_,_,_,_,holds⟩ := done
      rw [fresh.versionID,← path]
      exact existsHeld admitted.path holds
    | true =>
      cases mode : isBucketVersioningEnabled s bucket with
      | true =>
        rw [mode] at chosen path
        refine wpLax (storeObjectClear mode chosen folder) fun pending s' done => ?_
        obtain ⟨_,_,fresh,valid,_,holds,_⟩ := done
        rw [fresh.versionID,← path]
        exact existsHeld valid holds
      | false =>
        refine wpLax (wpAnd storeObjectSource (storeObjectFolder mode folder)) fun pending s' done => ?_
        obtain ⟨⟨_,_,same,valid,_⟩,_,fresh,_,_,isdir⟩ := done
        rw [mode] at same valid
        have here : pathOf bucket key [] = getObjectPath bucket key := if_pos rfl
        unfold Filesystem.exists_
        have usable : validatePath (getObjectPath bucket key) = true := valid
        rw [fresh.versionID,here,if_pos usable,Tree.statDir.mpr (isDirIff.mpr (.inr isdir))]

theorem storePlaced (cipher : Cipher node) (opens : ∀ envelope, call.envelope = some envelope → Opens node envelope) :
    wp (storeObject node call bucket key data headers)
      (fun pending s' => validateObjectName key = true ∧ ∃ id, chooseVersion call (isBucketVersioningEnabled s bucket) = .ok id ∧
        Fresh node (isBucketVersioningEnabled s bucket) bucket key id data pending ∧ Placed node bucket key id data s'.files)
        (fun _ _ => True) s := by
  cases chosen : chooseVersion call (isBucketVersioningEnabled s bucket) with
  | error e =>
    refine wpLax storeObjectSource fun pending s' done => ?_
    obtain ⟨_,id,same,_⟩ := done
    rw [chosen] at same
    contradiction
  | ok id =>
    have path := chosenPath bucket key chosen
    cases folder : isFolderMarker key with
    | false =>
      refine wpLax (storeObjectFile rfl chosen folder cipher opens) fun pending s' done => ?_
      obtain ⟨_,admitted,fresh,_,_,_,m,holds,held⟩ := done
      exact ⟨admitted.name,id,rfl,fresh,placedHeld (path ▸ admitted.path) (path ▸ holds) held⟩
    | true =>
      cases mode : isBucketVersioningEnabled s bucket with
      | true =>
        rw [mode] at chosen path
        refine wpLax (storeObjectClear mode chosen folder) fun pending s' done => ?_
        obtain ⟨_,name,fresh,valid,_,holds,clear⟩ := done
        exact ⟨name,id,rfl,fresh,placedHeld (path ▸ valid) (path ▸ holds) (clearSealed clear data)⟩
      | false =>
        refine wpLax (wpAnd storeObjectSource storePresent) fun pending s' done => ?_
        obtain ⟨⟨name,_,same,_,fresh,_⟩,present⟩ := done
        cases same.symm.trans chosen
        rw [mode] at chosen fresh
        have plain : id = [] := (Except.ok.inj ((chooseVersionDisabled call).symm.trans chosen)).symm
        exact ⟨name,id,rfl,fresh,fresh.versionID ▸ present,fun fits => absurd plain (fits folder)⟩

section
variable (home : bucket ≠ [])
include home

theorem Standing.stored (standing : Standing node bucket key id data s) :
    ∃ r, stored s bucket key = some r ∧ r.bucket = bucket ∧ r.key = key ∧ r.versionID = id ∧ r.size = data.length ∧
    r.etag = node.host.md5 data := by
  obtain ⟨r,found,here,keyed,rest⟩ := standing.record
  exact ⟨r,storedAt home (validName standing.valid) found here keyed,here,keyed,rest⟩

theorem standingFound (standing : Standing node bucket key id data s) :
    ∃ r, stored s bucket key = some r ∧ getObjectMetadata node bucket key s = (.ok (fromMetadataObject r), s) := by
  obtain ⟨r,found,_,_,version,_⟩ := standing.stored home
  refine ⟨r,found,wpEq.mp ?_⟩
  rw [getObjectMetadata,wpBind,wpCheck]
  refine ⟨fun _ => ?_,fun invalid => by rw [standing.valid] at invalid; contradiction⟩
  have present := standing.placed.present
  rw [wpBind,wpGets,found]
  rw [wpBind,exists_,wpObserve]
  have path : (if r.versionID = [] then getObjectPath bucket key else getVersionedObjectPath bucket key r.versionID) = pathOf bucket key id := by
    rw [version]
    rfl
  rw [path,present]
  exact ⟨rfl,rfl⟩

theorem standingRead (cipher : Cipher node) (fits : isFolderMarker key = true → id ≠ []) (standing : Standing node bucket key id data s) :
    ∃ obj, getObject node bucket key [] s = (.ok (obj, some data), s) ∧ obj.versionID = id ∧ obj.size = data.length ∧
    obj.etag = node.host.md5 data := by
  obtain ⟨r,found,_,_,version,size,etag⟩ := standing.stored home
  obtain ⟨path,_,_,holds,held⟩ := standing.placed.reads fits
  have current : currentVersion s bucket key = id := by
    rw [currentVersion,found]
    exact version
  have live : ∀ obj, stored s bucket key = some obj → isMetadataDeleteMarker obj = false := by
    intro obj same
    cases (found.symm.trans same)
    exact decide_eq_false fun marker => cipher.digest data (etag.symm.trans marker.2)
  have spec := getObjectHeld standing.valid path holds held current live
  unfold wp at spec
  split at spec
  · rename_i result
    obtain ⟨bytes,same,shown⟩ := spec
    rename_i answer s'
    subst same
    have object := shown r found
    refine ⟨answer.1,by rw [result,← bytes],?_⟩
    rw [object]
    unfold withAlgorithm
    split <;> exact ⟨version,size,etag⟩
  · exact spec.elim

theorem recordStanding {pending enabled} (valid : validateObjectName key = true) (open_ : bucket ∉ s.db.deletedBuckets)
    (plain : enabled = false → id = []) (fresh : Fresh node enabled bucket key id data pending) (placed : Placed node bucket key id data s.files) :
    wp (recordObject call pending) (fun _ s' => Standing node bucket key id data s') (fun _ _ => False) s := by
  refine wpMono (recordObjectWritten home (validName valid) open_ plain fresh) (fun _ s' done => ?_) (fun _ _ never => never)
  obtain ⟨r,recorded,here,keyed,version,size,etag⟩ := done
  exact ⟨valid,⟨r,recorded.record,here,keyed,version,size,etag⟩,recorded.files ▸ placed⟩

end

structure SameWrite (old new : ObjectMetadata) : Prop extends SameIdentity old new where
  size : new.size = old.size
  etag : new.etag = old.etag

theorem savedCurrent {db db' : Database} {now new} (done : db.putObject now new = .ok db') (here : new.bucket = bucket) (keyed : new.key = key) :
    db'.objects.get (objectKey bucket key) = some (stamped now new) ∨ db'.objects = db.objects := by
  subst here keyed
  obtain ⟨rfl,_⟩ := putObjectWrites done
  dsimp only [writeObject]
  split
  · exact .inl (OrderedStore.Store.getSetSame _ _ _)
  · exact .inr rfl

theorem writtenSame (setter : Setter) (r : ObjectMetadata) : SameWrite r (setter.written r) := by
  cases setter <;> exact ⟨⟨rfl,rfl,rfl,rfl⟩,rfl,rfl⟩

def accepts (now : Int) (r : ObjectMetadata) : Setter → Prop
  | .tagging tags => (tags.getD []).length ≤ 10
  | .retention config => shortens now config (fromMetadataObject r) = none
  | _ => True

structure Settable (setter : Setter) (call : Call) (bucket key : Bytes) (r : ObjectMetadata) (s : State) : Prop where
  valid : validateObjectName key = true
  present : Filesystem.exists_ s.files (pathOf bucket key r.versionID) = .ok true
  accepted : accepts call.now r setter
  written : ∃ db, s.db.putObject call.now (setter.written r) = .ok db

def Saved (call : Call) (new : ObjectMetadata) (s s' : State) : Prop :=
  ∃ db acls, s.db.putObject call.now new = .ok db ∧ s' = { s with db := { db with objectACLs := acls } }

theorem readCurrent {r} (found : stored s bucket key = some r) :
    wp (getObjectMetadataForVersion node bucket key []) (fun obj s' => obj = fromMetadataObject r ∧ s' = s)
      (fun _ s' => s' = s ∧ ¬ (validateObjectName key = true ∧ Filesystem.exists_ s.files (pathOf bucket key r.versionID) = .ok true)) s := by
  have path : (if r.versionID = [] then getObjectPath bucket key else getVersionedObjectPath bucket key r.versionID) =
    pathOf bucket key r.versionID := rfl
  rw [getObjectMetadataForVersion,if_pos rfl,getObjectMetadata,wpBind,wpCheck]
  refine ⟨fun _ => ?_,fun invalid => ⟨rfl,fun both => by rw [both.1] at invalid; contradiction⟩⟩
  rw [wpBind,wpGets,found]
  rw [wpBind,exists_,wpObserve,path]
  cases Filesystem.exists_ s.files (pathOf bucket key r.versionID) with
  | error e => exact ⟨rfl,fun both => by cases both.2⟩
  | ok present =>
    dsimp only
    rw [wpBind,wpCheck]
    exact ⟨fun _ => ⟨rfl,rfl⟩,fun absent => ⟨rfl,fun both => by cases both.2; contradiction⟩⟩

theorem setterSaves (setter : Setter) {r} (given : setter ≠ .acl none) (found : stored s bucket key = some r) :
    wp (setter.perform node call bucket key []) (fun _ s' => Saved call (setter.written r) s s')
      (fun _ s' => s' = s ∧ ¬ Settable setter call bucket key r s) s := by
  have reads {edit : Object → Action State Error Unit} (edits : wp (edit (fromMetadataObject r)) (fun _ s' => Saved call (setter.written r) s s')
        (fun _ s' => s' = s ∧ ¬ Settable setter call bucket key r s) s) :
      wp (do let obj ← getObjectMetadataForVersion node bucket key []; edit obj) (fun _ s' => Saved call (setter.written r) s s')
        (fun _ s' => s' = s ∧ ¬ Settable setter call bucket key r s) s := by
    rw [wpBind]
    refine wpMono (readCurrent found) (fun obj s' same => ?_) (fun _ s' failed => ⟨failed.1,fun settable => ?_⟩)
    · obtain ⟨rfl,rfl⟩ := same
      exact edits
    · exact failed.2 ⟨settable.valid,settable.present⟩
  have saves : wp (save call (setter.written r)) (fun _ s' => Saved call (setter.written r) s s')
      (fun _ s' => s' = s ∧ ¬ Settable setter call bucket key r s) s := by
    rw [save,wpDatabase]
    cases done : s.db.putObject call.now (setter.written r) with
    | ok db => exact ⟨db,db.objectACLs,done,rfl⟩
    | error e =>
      refine ⟨rfl,fun settable => ?_⟩
      obtain ⟨db,written⟩ := settable.written
      rw [done] at written
      contradiction
  cases setter with
  | tagging tags =>
    refine reads ?_
    rw [wpBind,wpCheck]
    exact ⟨fun _ => saves,fun many => ⟨rfl,fun settable => of_decide_eq_false many settable.accepted⟩⟩
  | clearTagging =>
    exact reads saves
  | acl acl =>
    refine reads ?_
    rw [wpBind]
    refine wpMono saves (fun _ s₁ saved => ?_) (fun _ _ failed => failed)
    rw [wpIte]
    refine ⟨fun _ => saved,fun _ => ?_⟩
    cases acl with
    | none => exact absurd rfl given
    | some acl =>
      obtain ⟨db,_,done,rfl⟩ := saved
      exact ⟨db,_,done,rfl⟩
  | retention config =>
    refine reads ?_
    cases short : shortens call.now config (fromMetadataObject r) with
    | some e =>
      refine ⟨rfl,fun settable => ?_⟩
      have accepted : shortens call.now config (fromMetadataObject r) = none := settable.accepted
      rw [short] at accepted
      contradiction
    | none => exact saves
  | legalHold config =>
    exact reads saves
  | restore status expiresAt =>
    exact reads saves

theorem standingSaved {r new s'} (home : bucket ≠ []) (standing : Standing node bucket key id data s)
    (found : stored s bucket key = some r) (same : SameWrite r new) (saved : Saved call new s s') : Standing node bucket key id data s' := by
  obtain ⟨_,found',here,keyed,version,size,etag⟩ := standing.stored home
  cases (found.symm.trans found')
  obtain ⟨_,_,done,rfl⟩ := saved
  rcases savedCurrent done (same.bucket.trans here) (same.key.trans keyed) with written | kept
  · exact ⟨standing.valid,⟨_,written,same.bucket.trans here,same.key.trans keyed,same.versionID.trans version,
      same.size.trans size,same.etag.trans etag⟩,standing.placed⟩
  refine ⟨standing.valid,?_,standing.placed⟩
  rw [kept]
  exact standing.record

theorem standingSetter (setter : Setter) (given : setter ≠ .acl none) (home : bucket ≠ []) :
    Keeps (Standing node bucket key id data) (setter.perform node call bucket key []) := by
  intro s standing
  obtain ⟨r,found,_⟩ := standing.stored home
  refine wpMono (setterSaves setter given found) (fun _ s' saved => ?_) (fun _ s' failed => ?_)
  · exact standingSaved home standing found (writtenSame setter r) saved
  · exact failed.1 ▸ standing

end

def idle : Phase → Bool
  | .waiting => true
  | .answered (.error _) => true
  | _ => false

section
variable {lib : Library} {node : Node} {bucket key : Bytes} {r : Request} {now : Int} {s s' : State} {phase : Phase}

theorem acceptSpec : wp (accept lib node bucket key r) (fun phase s' => s'.db = s.db ∧
    ((∃ code, phase = .answered (.error code)) ∨ ∃ tags, phase = .checked tags)) (fun _ _ => True) s := by
  have checks : wp (precondition node bucket key r) (fun _ s' => s'.db = s.db) (fun _ _ => True) s := by
    rw [precondition,wpIte]
    refine ⟨fun _ => ?_,fun _ => rfl⟩
    rw [wpBind,wpAttempt]
    exact wpMono (getObjectMetadataSpec node bucket key s) (fun _ _ found => found.1) (fun _ _ same => same)
  rw [accept,wpBind,wpGets,wpIte]
  refine ⟨fun _ => ⟨rfl,.inl ⟨_,rfl⟩⟩,fun _ => ?_⟩
  rw [wpBind]
  refine wpLax checks fun free s' same => ?_
  rw [wpIte]
  refine ⟨fun _ => ?_,fun _ => ⟨same,.inl ⟨_,rfl⟩⟩⟩
  cases parseS3TaggingHeader lib (header r.headers (ascii "x-amz-tagging")) with
  | ok tags => exact ⟨same,.inr ⟨tags,rfl⟩⟩
  | error e => exact ⟨same,.inl ⟨_,rfl⟩⟩

theorem storeCases {tags} (stored : store node bucket key r now tags s = (.ok phase, s')) :
    (∃ pending, storeObject node (r.at now) bucket key r.data r.headers s = (.ok pending, s') ∧ phase = .stored tags pending) ∨
    ∃ e, storeObject node (r.at now) bucket key r.data r.headers s = (.error e, s') ∧ phase = .answered (.error (putErrorCode e)) := by
  rw [store,attemptThen] at stored
  rcases done : storeObject node (r.at now) bucket key r.data r.headers s with ⟨e | pending,_⟩ <;> rw [done] at stored <;> cases stored
  · exact .inr ⟨e,rfl,rfl⟩
  · exact .inl ⟨pending,rfl,rfl⟩

theorem recordCases {tags pending} (recorded : record r now tags pending s = (.ok phase, s')) :
    (∃ object, recordObject (r.at now) pending s = (.ok object, s') ∧ phase = .recorded tags object .retention) ∨
    ∃ e, recordObject (r.at now) pending s = (.error e, s') ∧ phase = .answered (.error (putErrorCode e)) := by
  rw [record,attemptThen] at recorded
  rcases done : recordObject (r.at now) pending s with ⟨e | object,_⟩ <;> rw [done] at recorded <;> cases recorded
  · exact .inr ⟨e,rfl,rfl⟩
  · exact .inl ⟨object,rfl,rfl⟩

end

end MaxIOFS.HandlerSteps
