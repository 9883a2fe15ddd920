import MaxIOFS.ManagerRuns

/-! A bucket whose versioning is on from its creation: every key has at most one latest
version, and it is the current record. -/
namespace MaxIOFS.LatestVersion
open ByteString Effects Runs Ledger MetadataStore Records ObjectManager RecordChanges VersionHistory VersionMoves ManagerRuns History

def entries (db : Database) (bucket key : Bytes) : List (Bytes × ObjectMetadata) :=
  (db.versions.scan (versionPrefix bucket key)).filter (fun e => e.2.key = key)

structure Latest (db : Database) (bucket key : Bytes) : Prop where
  gone : entries db bucket key = [] → db.objects.get (objectKey bucket key) = none
  one : entries db bucket key ≠ [] → ∃ e ∈ entries db bucket key, e.2.isLatest = true ∧
    db.objects.get (objectKey bucket key) = some e.2 ∧ ∀ f ∈ entries db bucket key, f.2.isLatest = true → f = e

structure Fresh (bucket : Bytes) (s : State) : Prop extends NewBucket bucket s where
  enabled : isBucketVersioningEnabled s bucket = true

def Tracked (h : KeyHistory) : Prop := ∀ obj, h.current = some obj → obj.versionID ≠ []

section
variable {now : Int} {bucket key : Bytes} {change : Change} {h h' : KeyHistory}

def Versioned : Change → Prop
  | .plain _ => False
  | .erase .. => False
  | _ => True

theorem consistentMove (consistent : h.Consistent shape) (tame : Tame bucket change) (versioned : Versioned change)
    (move : Move now change key h h') : h'.Consistent shape := by
  cases move with
  | @insert obj _ =>
    have id : shape.id (marked obj) = some obj.versionID := shapeId tame.2
    exact consistentInsert consistent.named id rfl
  | plain => exact versioned.elim
  | adopt free =>
    exact consistentPlain consistent (shapeNone tame.2) (fun c current => by rw [free] at current; contradiction)
  | @edit _ _ old new _ present same _ =>
    have id : (stamped now new).versionID = old.versionID := same.versionID
    have latest : shape.latest (stamped now new) = shape.latest old := same.isLatest
    by_cases plain : old.versionID = []
    · have current : h.current = some old := present.resolve_right (fun version => version.1 plain)
      refine consistentPlain consistent (shapeNone (id.trans plain)) (fun c shown => ?_)
      rw [current] at shown
      cases shown
      exact shapeNone plain
    · refine consistentEdit consistent (presentStored consistent.pointed plain present) ?_ latest
      rw [shapeId (id ▸ plain),id]
  | dropOlder found _ older => exact consistentRemove consistent found older
  | dropLast _ _ _ alone => exact consistentClear (namedRemove consistent.named) alone
  | dropLatest _ _ _ promoted =>
    have named := namedRemove consistent.named _ _ promoted
    exact consistentInsert (namedRemove consistent.named) named rfl
  | erase => exact versioned.elim

theorem adoptKey {obj} (move : Move now (.adopt obj) key h h') : obj.key = key := by
  cases move
  rfl

theorem insertKey {obj} (move : Move now (.insert obj) key h h') : key = obj.key := by
  cases move
  rfl

theorem insertCurrent {obj} (move : Move now (.insert obj) key h h') : h'.current = some (marked obj) := by
  cases move
  rfl

theorem trackedMove (named : h.Named shape) (tracked : Tracked h) (tame : Tame bucket change) (versioned : Versioned change)
    (known : ∀ obj, change = .adopt obj → h.current ≠ none) (move : Move now change key h h') : Tracked h' := by
  cases move with
  | insert =>
    intro c current
    cases current
    exact tame.2
  | plain => exact versioned.elim
  | adopt free => exact absurd free (known _ rfl)
  | @edit _ _ old new _ present same _ =>
    have id : (stamped now new).versionID = old.versionID := same.versionID
    have version : old.versionID ≠ [] := by
      rcases present with current | version
      · exact tracked old current
      · exact version.1
    rw [putVersion (shapeId (id ▸ version))]
    intro c current
    dsimp only at current
    split at current
    · cases current
      exact id ▸ version
    · exact tracked c current
  | dropOlder => exact tracked
  | dropLast =>
    intro c current
    simp [clear] at current
  | dropLatest _ _ _ promoted =>
    intro c current
    cases current
    exact (shapeIdIff.mp (namedRemove named _ _ promoted)).1
  | erase => exact versioned.elim

theorem currentMove (shown : h.current ≠ none) (kept : ∀ target v bypass, change ≠ .drop target v bypass)
    (versioned : Versioned change) (move : Move now change key h h') : h'.current ≠ none := by
  have put (obj : ObjectMetadata) : (h.put shape obj).current ≠ none := by
    unfold put
    split
    · simp
    dsimp only
    split
    · simp
    · exact shown
  cases move with
  | insert => simp [History.insert]
  | plain => exact versioned.elim
  | adopt => exact put _
  | edit => exact put _
  | dropOlder => exact absurd rfl (kept _ _ _)
  | dropLast => exact absurd rfl (kept _ _ _)
  | dropLatest => exact absurd rfl (kept _ _ _)
  | erase => exact versioned.elim

end

structure Sound (bucket : Bytes) (db : Database) : Prop where
  filed : Filed bucket db
  on : On bucket db
  consistent : ∀ key, (view bucket db key).Consistent shape

structure Watched (bucket key : Bytes) (guard : Prop) (db : Database) : Prop extends Sound bucket db where
  tracked : Tracked (view bucket db key)
  shown : guard → (view bucket db key).current ≠ none

theorem permittedVersioned {s bucket e change}
    (on : isBucketVersioningEnabled s bucket = true) (permitted : Permitted s bucket e change) : Versioned change := by
  obtain ⟨_,request⟩ := e
  cases change <;> try trivial
  all_goals cases request <;> simp_all [Permitted,PutChange,DeleteChange,CompleteChange,EditChange]

section
variable {sorting : VersionSort} {bucket key : Bytes} {now : Int} {change : Change} {db db' : Database} {guard : Prop}

theorem soundQuiet (same : Quiet db db') (sound : Sound bucket db) : Sound bucket db' := by
  refine ⟨filedSame sound.filed same.objects same.versions same.deleted,(same.status _).trans sound.on,fun key => ?_⟩
  rw [viewQuiet same]
  exact sound.consistent key

theorem watchedQuiet (same : Quiet db db') (watched : Watched bucket key guard db) : Watched bucket key guard db' :=
  ⟨soundQuiet same watched.toSound,by rw [viewQuiet same]; exact watched.tracked, by rw [viewQuiet same]; exact watched.shown⟩

section
variable (named : bucket ≠ []) (tame : Tame bucket change) (versioned : Versioned change)
include named tame versioned

theorem soundEffect (effect : Effect sorting bucket now db change db') (sound : Sound bucket db) : Sound bucket db' := by
  obtain ⟨filed,target,move,others⟩ := effectMoves sound.filed named tame effect
  refine ⟨filed,?_,fun key => ?_⟩
  · unfold On
    rw [effectBuckets effect]
    exact sound.on
  by_cases here : key = target
  · subst here
    exact consistentMove (sound.consistent key) tame versioned move
  · rw [others key here]
    exact sound.consistent key

theorem watchedEffect (adopts : ∀ obj, change = .adopt obj → obj.key = key → guard)
    (drops : ∀ target v bypass, change = .drop target v bypass → ¬ guard) (effect : Effect sorting bucket now db change db')
    (watched : Watched bucket key guard db) : Watched bucket key guard db' := by
  have sound := soundEffect named tame versioned effect watched.toSound
  obtain ⟨_,target,move,others⟩ := effectMoves watched.filed named tame effect
  by_cases here : key = target
  · subst here
    refine ⟨sound,trackedMove (watched.filed.named key) watched.tracked tame versioned ?_ move,fun may => ?_⟩
    · intro obj same
      subst same
      exact watched.shown (adopts obj rfl (adoptKey move))
    · exact currentMove (watched.shown may) (fun _ _ _ same => drops _ _ _ same may) versioned move
  · exact ⟨sound,by rw [others key here]; exact watched.tracked,by rw [others key here]; exact watched.shown⟩

end

end

def FileWithoutVersion (s : State) (bucket key v : Bytes) : Prop := v = [] ∧ Filesystem.exists_ s.files (getObjectPath bucket key) = .ok true

def Adoptable (s : State) (bucket key : Bytes) (e : Event) : Prop :=
  match e.request with
  | .put target _ _ => key ∈ implicitFolders target
  | .setRetention target _ v => target = key ∧ FileWithoutVersion s bucket key v
  | .setLegalHold target _ v => target = key ∧ FileWithoutVersion s bucket key v
  | .setTagging target _ v => target = key ∧ FileWithoutVersion s bucket key v
  | .setACL target _ v => target = key ∧ FileWithoutVersion s bucket key v
  | .setRestore target _ _ v => target = key ∧ FileWithoutVersion s bucket key v
  | .updateMetadata target _ => target = key ∧ FileWithoutVersion s bucket key []
  | _ => False

def Apart (bucket key : Bytes) (s : State) (e : Event) : Prop :=
  Sent e ∧ (Adoptable s bucket key e → s.db.objects.get (objectKey bucket key) ≠ none)

def Wrote (node : Node) (bucket key : Bytes) (s : State) (e : Event) : Prop :=
  match e.request with
  | .put target data headers => target = key ∧ ∃ obj, (putObject node e.call bucket target data headers s).1 = .ok obj
  | .complete uploadID parts => ∃ upload obj, s.db.getMultipartUpload uploadID = .ok upload ∧ upload.key = key ∧
      (doCompleteMultipartUpload node e.call uploadID parts s).1 = .ok obj
  | _ => False

theorem permittedAdopt {s bucket e obj} (permitted : Permitted s bucket e (.adopt obj)) : Adoptable s bucket obj.key e := by
  obtain ⟨_,request⟩ := e
  cases request with
  | put key data headers => exact permitted.2.1
  | delete key bypass versionID => exact permitted.elim
  | createUpload uploadID key headers => exact permitted.elim
  | uploadPart uploadID partNumber data => exact permitted.elim
  | complete uploadID parts =>
    obtain ⟨_,_,_,never⟩ := permitted
    exact never.elim
  | setRetention key config v | setLegalHold key config v | setTagging key tags v | setACL key acl v
  | setRestore key status expires v | updateMetadata key updates =>
    obtain ⟨current,present,_,named,_⟩ := permitted
    exact ⟨named.symm,current,named ▸ present⟩

theorem permittedDrop {s bucket target v bypass e} (key : Bytes) (permitted : Permitted s bucket e (.drop target v bypass)) :
    ¬ Adoptable s bucket key e := by
  obtain ⟨_,request⟩ := e
  cases request <;> simp_all [Permitted,Adoptable,PutChange,DeleteChange,CompleteChange,EditChange]

section
variable {node : Node} {bucket key : Bytes} {s next : State} {e : Event}

theorem soundStep (named : bucket ≠ []) (sound : Sound bucket s.db) (plain : Plain e)
    (stepped : step node bucket s e = some next) : Sound bucket next.db := by
  obtain ⟨own,rfl⟩ := stepPerforms stepped
  have on := onIff.mpr sound.on
  refine (performFollows own).keeps soundQuiet (fun permitted effect holds => ?_) sound
  exact soundEffect named (permittedTame plain permitted) (permittedVersioned on permitted) effect holds

theorem watchedStep (named : bucket ≠ []) (watched : Watched bucket key False s.db) (apart : Apart bucket key s e)
    (stepped : step node bucket s e = some next) : Watched bucket key False next.db := by
  obtain ⟨own,rfl⟩ := stepPerforms stepped
  have on := onIff.mpr watched.on
  have start : Watched bucket key (Adoptable s bucket key e) s.db := ⟨watched.toSound,watched.tracked,apart.2⟩
  have kept : Watched bucket key (Adoptable s bucket key e) (perform node bucket s e).db := by
    refine (performFollows own).keeps watchedQuiet (fun permitted effect holds => ?_) start
    refine watchedEffect named (permittedTame apart.1.plain permitted) (permittedVersioned on permitted) ?_ ?_ effect holds
    · intro obj same here
      subst same
      exact here ▸ permittedAdopt permitted
    intro target v bypass same
    subst same
    exact permittedDrop key permitted
  exact ⟨kept.toSound,kept.tracked,False.elim⟩

theorem watchedInsert {db db' sorting now obj} (named : bucket ≠ [])
    (sound : Sound bucket db) (identified : Identified bucket obj) (version : obj.versionID ≠ [])
    (effect : Effect sorting bucket now db (.insert obj) db') : Watched bucket obj.key True db' := by
  have tame : Tame bucket (.insert obj) := ⟨identified,version⟩
  have sound' := soundEffect named tame trivial effect sound
  obtain ⟨_,target,move,_⟩ := effectMoves sound.filed named tame effect
  have here : target = obj.key := by
    cases effect with
    | insert done => exact insertKey move
  subst here
  have shown : (view bucket db' obj.key).current = some (marked obj) := insertCurrent move
  refine ⟨sound',fun c current => ?_,fun _ => by rw [shown]; simp⟩
  rw [shown] at current
  cases current
  exact version

theorem saveTracked (sorting : VersionSort) {call object} (named : bucket ≠ []) (sound : Sound bucket s.db)
    (identified : Identified bucket (toMetadataObject object)) (version : object.versionID ≠ []) :
    wp (saveRecord call true object) (fun _ s' => Watched bucket object.key True s'.db) (fun _ _ => True) s := by
  refine saveRecordBy (fun _ db saved => ?_) nofun fun _ => trivial
  have effect : Effect sorting bucket call.now s.db (.insert (toMetadataObject object)) db := .insert saved
  exact watchedInsert named sound identified version effect

def AdoptsFolder (bucket : Bytes) (change : Change) : Prop := ∃ obj, change = .adopt obj ∧ obj.bucket = bucket ∧ obj.versionID = []

section
variable (named : bucket ≠ [])
include named

theorem watchedFollows {now db db'} (watched : Watched bucket key True db)
    (follows : Follows node.sorting bucket now (AdoptsFolder bucket) db db') :
    Watched bucket key True db' := by
  refine follows.keeps watchedQuiet (fun allowed effect holds => ?_) watched
  obtain ⟨obj,rfl,home,plain⟩ := allowed
  have tame : Tame bucket (.adopt obj) := ⟨home,plain⟩
  exact watchedEffect named tame trivial (fun _ _ _ => trivial) (fun _ _ _ drop => by cases drop) effect holds

theorem putTracked {call data headers} (sound : Sound bucket s.db) (plain : ByteString.colon ∉ call.replicatedVersionID) :
    wp (putObject node call bucket key data headers) (fun _ s' => Watched bucket key True s'.db) (fun _ _ => True) s := by
  have on := onIff.mpr sound.on
  rw [putObject,wpBind]
  refine wpLax storeObjectSpec ?_
  intro pending s₁ done
  obtain ⟨same,present,mode,home,keyed,_,chosen⟩ := done
  rw [on] at mode chosen
  obtain ⟨colonFree,version⟩ := chosenPlain plain chosen
  have identified : Identified bucket (toMetadataObject pending.object) := ⟨home,fun empty => present (keyed ▸ empty),colonFree⟩
  rw [recordObject,wpBind,wpGets,wpBind,mode]
  refine wpLax (saveTracked node.sorting named (same ▸ sound) identified version) fun _ s₂ watched => ?_
  rw [keyed] at watched
  rw [wpBind]
  have finish : Keeps (fun s' => Follows node.sorting bucket call.now (AdoptsFolder bucket) s₂.db s'.db)
      (finishPut call pending (stored s₁ pending.object.bucket pending.object.key)) :=
    followsFinish home (fun folder _ => ⟨_,rfl,rfl,rfl⟩)
  exact wpLax (finish s₂ (.refl _)) fun _ s₃ follows => watchedFollows named watched follows

theorem completeTracked {call uploadID parts upload} (sound : Sound bucket s.db) (found : s.db.getMultipartUpload uploadID = .ok upload)
    (home : upload.bucket = bucket) (keyed : upload.key ≠ []) :
    wp (doCompleteMultipartUpload node call uploadID parts) (fun _ s' => Watched bucket upload.key True s'.db) (fun _ _ => True) s := by
  have on := onIff.mpr sound.on
  subst home
  have present := generatedPresent call
  have colonFree : ByteString.colon ∉ generateVersionID call := fun mem => generatedPlain mem (.inl rfl)
  refine completeBy trivial (fun _ => trivial) ?_
  intro upload' total etag found' _ enabled existing _ version path _ _ _
  cases found.symm.trans found'
  refine wpLax (filesCombine (I := (Sound upload.bucket ·.db)) (fun sound => sound) _ _ _ s sound) fun _ s₁ sound₁ => ?_
  refine wpLax (filesEncryptCombined (I := (Sound upload.bucket ·.db)) (fun sound => sound) _ _ s₁ sound₁) fun sizes s₂ sound₂ => ?_
  have chosen : version = generateVersionID call := if_pos on
  rw [show enabled = true from on]
  refine wpLax (saveTracked node.sorting named sound₂ ⟨rfl,keyed,chosen.symm ▸ colonFree⟩ (chosen.symm ▸ present)) fun _ s₃ watched => ?_
  have rest : Keeps (fun s' => Follows node.sorting upload.bucket call.now (AdoptsFolder upload.bucket) s₃.db s'.db)
      (updateMetricsAndCleanupMultipart upload.bucket uploadID sizes.1 existing parts true) := followsCleanup _ _ _ _ _ _
  exact wpLax (rest s₃ (.refl _)) fun _ s₄ follows => watchedFollows named watched follows

theorem wroteTracked (sound : Sound bucket s.db) (plain : Plain e) (wrote : Wrote node bucket key s e)
    (stepped : step node bucket s e = some next) :
    Watched bucket key False next.db := by
  obtain ⟨own,rfl⟩ := stepPerforms stepped
  obtain ⟨_,request⟩ := e
  cases request with
  | put target data headers =>
    obtain ⟨rfl,obj,answered⟩ := wrote
    have watched := wpOk (putTracked named sound plain) (Prod.ext answered rfl)
    exact ⟨watched.toSound,watched.tracked,False.elim⟩
  | complete uploadID parts =>
    obtain ⟨upload,_,found,rfl,answered⟩ := wrote
    have valid : upload.bucket = bucket ∧ validateObjectName upload.key = true := by
      simpa [ownUpload,found] using own
    have watched := wpOk (completeTracked named sound found valid.1 (validName valid.2)) (Prod.ext answered rfl)
    exact ⟨watched.toSound,watched.tracked,False.elim⟩
  | _ => exact wrote.elim

end

theorem soundFresh (fresh : Fresh bucket s) : Sound bucket s.db := by
  refine ⟨fresh.filed,onIff.mp fresh.enabled,fun key => ?_⟩
  rw [fresh.view]
  exact consistentVacant

end

theorem memEntries {bucket key db e} (filed : Filed bucket db) : e ∈ entries db bucket key ↔
    (view bucket db key).versions e.2.versionID = some e.2 ∧
      e.1 = objectVersionKey bucket key e.2.versionID := by
  rw [← scanned filed,entries,List.mem_filter]
  simp

theorem latestOfWatched {bucket key db} (watched : Watched bucket key False db) : Latest db bucket key := by
  have consistent := watched.consistent key
  refine ⟨fun empty => ?_,fun some_ => ?_⟩
  · cases current : db.objects.get (objectKey bucket key) with
    | none => rfl
    | some obj =>
      have version := watched.tracked obj current
      have listed := (consistent.pointed obj _ current (shapeId version)).1
      have mem := (memEntries (e := (objectVersionKey bucket key obj.versionID, obj)) watched.filed).mpr ⟨listed,rfl⟩
      rw [empty] at mem
      contradiction
  · obtain ⟨_,mem⟩ := List.exists_mem_of_ne_nil _ some_
    obtain ⟨c,current,_⟩ := consistent.covered _ _ ((memEntries watched.filed).mp mem).1
    have version := watched.tracked c current
    obtain ⟨listed,latest⟩ := consistent.pointed c _ current (shapeId version)
    refine ⟨(objectVersionKey bucket key c.versionID, c),(memEntries watched.filed).mpr ⟨listed,rfl⟩,latest,current,?_⟩
    intro g among marked
    obtain ⟨found,address⟩ := (memEntries watched.filed).mp among
    have same : c = g.2 := Option.some.inj (current.symm.trans (consistent.marked _ _ found marked))
    exact Prod.ext (by rw [address,same]) same.symm

theorem latestVersionUnique {node} {bucket key} {s mid next final} {before after} {write} (fresh : Fresh bucket s)
    (beforeSent : ∀ e ∈ before, Sent e) (started : run (step node bucket) s before = some mid)
    (writeSent : Sent write) (wrote : Wrote node bucket key mid write) (written : step node bucket mid write = some next)
    (apart : Along (step node bucket) (Apart bucket key) next after) (done : run (step node bucket) next after = some final) :
    Latest final.db bucket key := by
  have sound : Sound bucket mid.db := runKeeps (soundStep fresh.named) (soundFresh fresh)
    (alongOf (fun e mem => (beforeSent e mem).plain) s) started
  have watched := wroteTracked fresh.named sound writeSent.plain wrote written
  have kept : Watched bucket key False final.db := runKeeps (watchedStep fresh.named) watched apart done
  exact latestOfWatched kept

theorem freshBucket : Fresh (ascii "b") versionedBucket := ⟨newBucketEmpty _,by decide⟩

def putKey (seconds : Int) (key : Bytes) (data : Bytes) : Event := ⟨callAt seconds, .put key data OrderedStore.empty⟩

theorem answeredOk {result : Except Error Object} (ok : result.isOk = true) : ∃ obj, result = .ok obj := by
  cases result with
  | ok obj => exact ⟨obj,rfl⟩
  | error e => cases ok

theorem latestVersionAfterTwoWrites : ∃ final, run (step smallNode (ascii "b")) versionedBucket
    [putKey 5 (ascii "k") [7], putKey 6 (ascii "k") [8], ⟨callAt 7, .delete (ascii "k") false []⟩] = some final ∧
    Latest final.db (ascii "b") (ascii "k") := by
  obtain ⟨next,written⟩ : ∃ next, step smallNode (ascii "b") versionedBucket (putKey 5 (ascii "k") [7]) = some next := ⟨_,rfl⟩
  obtain ⟨final,done⟩ : ∃ final, run (step smallNode (ascii "b")) next
      [putKey 6 (ascii "k") [8],⟨callAt 7,.delete (ascii "k") false []⟩] = some final := ⟨_,rfl⟩
  refine ⟨final,by rw [run,written]; exact done,?_⟩
  have wrote : Wrote smallNode (ascii "b") (ascii "k") versionedBucket (putKey 5 (ascii "k") [7]) := ⟨rfl,answeredOk (by decide +kernel)⟩
  have started : run (step smallNode (ascii "b")) versionedBucket [] = some versionedBucket := rfl
  refine latestVersionUnique freshBucket (by simp) started (by decide) wrote written ?_ done
  refine ⟨⟨by decide,fun adopts => ?_⟩,fun _ _ => ⟨⟨by decide,fun adopts => adopts.elim⟩,fun _ _ => trivial⟩⟩
  have none_ : ascii "k" ∉ implicitFolders (ascii "k") := by decide
  exact absurd adopts none_

-- A folder whose only version was deleted comes back as a plain record when an object below it is written.
def folderComesBack : List Event := [⟨callAt 6, .delete (ascii "a/") false (formatInt 5000000000)⟩, putKey 7 (ascii "a/x") [7]]

theorem folderRecordWithoutVersion : Fresh (ascii "b") versionedBucket ∧
    ∃ next final, Wrote smallNode (ascii "b") (ascii "a/") versionedBucket (putKey 5 (ascii "a/") []) ∧
      step smallNode (ascii "b") versionedBucket (putKey 5 (ascii "a/") []) = some next ∧
      run (step smallNode (ascii "b")) next folderComesBack = some final ∧ ¬ Latest final.db (ascii "b") (ascii "a/") := by
  obtain ⟨next,written,final,done,empty,present⟩ : ∃ next, step smallNode (ascii "b") versionedBucket (putKey 5 (ascii "a/") []) = some next ∧
      ∃ final, run (step smallNode (ascii "b")) next folderComesBack = some final ∧ entries final.db (ascii "b") (ascii "a/") = [] ∧
        final.db.objects.get (objectKey (ascii "b") (ascii "a/")) ≠ none := by decide +kernel
  exact ⟨freshBucket,next,final,⟨rfl,answeredOk (by decide +kernel)⟩,written,done,fun latest => present (latest.gone empty)⟩

/-- After any calls, the versions listed for a key are those that can be read under it. -/
theorem listedReadable {node bucket s final events} (new : NewBucket bucket s) (sent : ∀ e ∈ events, Sent e)
    (done : run (step node bucket) s events = some final) (key : Bytes) (ver : ObjectVersion) :
    ver ∈ final.db.getObjectVersions node.sorting bucket key ↔
      ∃ obj, final.db.getObject bucket key obj.versionID = .ok obj ∧ obj.key = key ∧ obj.versionID ≠ [] ∧ ver = versionOf obj := by
  have filed := runFiled new (fun e mem => (sent e mem).plain) done
  rw [memVersions filed]
  constructor
  · rintro ⟨obj,stored,same⟩
    obtain ⟨found,named⟩ := versionsInIff.mp stored
    exact ⟨obj,readable filed new.named stored,named,(filed.versions.at found named).2.1,same⟩
  · rintro ⟨obj,read,rfl,version,same⟩
    exact ⟨obj,(readVersion filed version read).2,same⟩

theorem listedAfterWrite : ∃ s, run (step smallNode (ascii "b")) versionedBucket [putKey 5 (ascii "k") [7]] = some s ∧
    ∃ obj, s.db.getObject (ascii "b") (ascii "k") obj.versionID = .ok obj := by
  refine runShows (fun s => s.db.getObjectVersions byTime (ascii "b") (ascii "k") ≠ []) (by decide +kernel) fun s ran some_ => ?_
  obtain ⟨ver,listed⟩ := List.exists_mem_of_ne_nil _ some_
  obtain ⟨obj,read,_⟩ := (listedReadable (newBucketEmpty _) (by decide) ran (ascii "k") ver).mp listed
  exact ⟨obj,read⟩

end MaxIOFS.LatestVersion
