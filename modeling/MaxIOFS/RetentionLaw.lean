import MaxIOFS.BucketManager
import MaxIOFS.ManagerFiles
import MaxIOFS.ManagerRuns

/-! A version under compliance retention or legal hold, across runs of the object manager. -/
namespace MaxIOFS.RetentionLaw
open ByteString FileTree Effects Runs Ledger MetadataStore Records ObjectManager RecordChanges VersionHistory
    VersionMoves ManagerRuns FileFrame ManagerFiles Filesystem BucketManager OrderedStore List History

inductive Protection where
  | compliance (until_ : Int)
  | legalHold

def Protection.covers : Protection → ObjectMetadata → Prop
  | .compliance until_, obj => ∃ retention, obj.retention = some retention ∧ retention.mode = Records.compliance ∧
      until_ ≤ retention.retainUntilDate
  | .legalHold, obj => obj.legalHold = true

def Protection.inForce : Protection → Int → Prop
  | .compliance until_, now => now < until_
  | .legalHold, _ => True

section
variable {lock : Protection} {now : Int} {bypass : Bool} {old new : ObjectMetadata}

theorem coveredLocked (force : lock.inForce now) (covered : lock.covers old) : lockError now bypass old ≠ none := by
  cases lock with
  | compliance until_ =>
    obtain ⟨retention,stored,mode,date⟩ := covered
    have active : now < retention.retainUntilDate := Int.lt_of_lt_of_le force date
    unfold lockError
    split
    · simp
    · simp [stored,active,mode]
  | legalHold =>
    have held : old.legalHold = true := covered
    simp [lockError,held]

theorem coversSame (covered : lock.covers old) (retention : new.retention = old.retention) (hold : new.legalHold = old.legalHold) :
    lock.covers new := by
  cases lock with
  | compliance until_ =>
    obtain ⟨current,stored,rest⟩ := covered
    exact ⟨current,retention.trans stored,rest⟩
  | legalHold => exact hold.trans covered

def Protection.acceptsRetention : Protection → Option Retention → Prop
  | .compliance _, config => ∀ new, config = some new → new.mode = Records.compliance
  | .legalHold, _ => True

def Protection.acceptsHold : Protection → Option Bytes → Prop
  | .compliance _, _ => True
  | .legalHold, config => config = some legalHoldOn

theorem coversRetention {config} (force : lock.inForce now) (accepts : lock.acceptsRetention config)
    (sets : SetsRetention now config old new) (covered : lock.covers old) : lock.covers new := by
  obtain ⟨retention,hold,kept⟩ := sets
  cases lock with
  | legalHold => exact hold.trans covered
  | compliance until_ =>
    obtain ⟨current,stored,_,date⟩ := covered
    have active : now < current.retainUntilDate := Int.lt_of_lt_of_le force date
    have same : (fromMetadataObject old).retention = some current := stored
    unfold shortens at kept
    rw [same] at kept
    cases config with
    | none => simp [active] at kept
    | some next =>
      have longer : ¬ next.retainUntilDate < current.retainUntilDate := by
        intro shorter
        simp [active,shorter] at kept
      exact ⟨next,retention,accepts next rfl,by omega⟩

theorem coversHold {config} (accepts : lock.acceptsHold config) (sets : SetsLegalHold config old new) (covered : lock.covers old) :
    lock.covers new := by
  obtain ⟨retention,hold⟩ := sets
  cases lock with
  | compliance until_ =>
    obtain ⟨current,stored,rest⟩ := covered
    exact ⟨current,retention.trans stored,rest⟩
  | legalHold =>
    have on : config = some legalHoldOn := accepts
    exact hold.trans (by simp [on])

end

structure Coherent (bucket : Bytes) (db : Database) : Prop where
  filed : Filed bucket db
  pointed : ∀ key, (view bucket db key).Pointed shape

section
variable {now : Int} {bucket key : Bytes} {change : Change} {h h' : KeyHistory}

theorem pointedMove (pointed : h.Pointed shape) (named : h.Named shape) (tame : Tame bucket change) (move : Move now change key h h') :
    h'.Pointed shape := by
  cases move with
  | @insert obj _ =>
    have id : shape.id (marked obj) = some obj.versionID := shapeId tame.2
    exact pointedInsert id rfl
  | plain => exact pointedPlain (shapeNone tame.2)
  | adopt => exact pointedPlain (shapeNone tame.2)
  | @edit _ _ old new _ present same _ =>
    have id : (stamped now new).versionID = old.versionID := same.versionID
    by_cases plain : old.versionID = []
    · exact pointedPlain (shapeNone (id.trans plain))
    · refine pointedEdit pointed (presentStored pointed plain present) ?_ same.isLatest
      rw [shapeId (id ▸ plain),id]
  | dropOlder found _ older => exact pointedRemove pointed found older
  | dropLast => exact pointedClear
  | dropLatest _ _ _ promoted =>
    have id := namedRemove named _ _ promoted
    exact pointedInsert id rfl
  | erase => exact pointedClear

def Held (h : KeyHistory) (v : Bytes) (lock : Protection) : Prop := ∃ obj, h.versions v = some obj ∧ lock.covers obj

def Spares (key v : Bytes) (lock : Protection) : Change → Prop
  | .insert obj => obj.key = key → obj.versionID ≠ v
  | .edit _ _ old new => old.key = key → old.versionID = v → lock.covers old → lock.covers new
  | _ => True

theorem heldPlain {v lock r} (plain : shape.id r = none) (held : Held h v lock) : Held (h.put shape r) v lock := by
  rw [putPlain plain]
  exact held

theorem heldInsert {v w lock r} (held : Held h v lock) (same : w = v → lock.covers r) : Held (h.insert shape w r) v lock := by
  obtain ⟨obj,stored,covered⟩ := held
  by_cases here : v = w
  · exact ⟨r,by simp [History.insert,here],same here.symm⟩
  · exact ⟨demoted obj,by simp [History.insert,here,stored,shape],coversSame covered rfl rfl⟩

theorem heldRemove {v w lock bypass old} (held : Held h v lock)
    (force : lock.inForce now) (found : h.versions w = some old) (unlocked : lockError now bypass old = none) : Held (h.remove w) v lock := by
  obtain ⟨obj,stored,covered⟩ := held
  have other : v ≠ w := by
    rintro rfl
    rw [found] at stored
    cases stored
    exact coveredLocked force covered unlocked
  exact ⟨obj,by simp [remove,Function.update_of_ne other,stored],covered⟩

theorem heldMove {v lock} (pointed : h.Pointed shape) (tame : Tame bucket change)
    (force : lock.inForce now) (spares : Spares key v lock change) (held : Held h v lock) (move : Move now change key h h') : Held h' v lock := by
  cases move with
  | insert => exact heldInsert held (fun same => absurd same (spares rfl))
  | plain => exact heldPlain (shapeNone tame.2) held
  | adopt => exact heldPlain (shapeNone tame.2) held
  | @edit _ _ old new _ present same _ =>
    have id : (stamped now new).versionID = old.versionID := same.versionID
    by_cases plain : old.versionID = []
    · exact heldPlain (shapeNone (id.trans plain)) held
    have stored := presentStored pointed plain present
    rw [putVersion (shapeId (id ▸ plain)),id]
    obtain ⟨obj,found,covered⟩ := held
    by_cases here : old.versionID = v
    · subst here
      rw [stored] at found
      cases found
      exact ⟨stamped now new,by simp,coversSame (spares rfl rfl covered) rfl rfl⟩
    · exact ⟨obj,by simp [Function.update_of_ne (Ne.symm here),found],covered⟩
  | dropOlder found unlocked _ => exact heldRemove held force found unlocked
  | dropLast found unlocked _ alone =>
    obtain ⟨obj,stored,_⟩ := heldRemove held force found unlocked
    rw [alone] at stored
    contradiction
  | dropLatest found unlocked _ promoted =>
    have kept := heldRemove held force found unlocked
    refine heldInsert kept ?_
    rintro rfl
    obtain ⟨_,stored,covered⟩ := kept
    rw [promoted] at stored
    cases stored
    exact coversSame covered rfl rfl
  | erase => exact held

end

section
variable {sorting : VersionSort} {bucket key v : Bytes} {now : Int} {change : Change} {db db' : Database} {lock : Protection}

theorem coherentSame (coherent : Coherent bucket db) (objects : db'.objects = db.objects)
    (versions : db'.versions = db.versions) (open_ : bucket ∉ db'.deletedBuckets) : Coherent bucket db' := by
  refine ⟨⟨?_,?_,open_⟩,fun key => ?_⟩
  · rw [versions]
    exact coherent.filed.versions
  · rw [objects]
    exact coherent.filed.objects
  have same : view bucket db' key = view bucket db key := by
    unfold view
    rw [objects,versions]
  rw [same]
  exact coherent.pointed key

theorem coherentQuiet (same : Quiet db db') (coherent : Coherent bucket db) : Coherent bucket db' :=
  coherentSame coherent same.objects same.versions (same.deleted ▸ coherent.filed.open_)

theorem coherentEffect (named : bucket ≠ []) (tame : Tame bucket change) (effect : Effect sorting bucket now db change db')
    (coherent : Coherent bucket db) : Coherent bucket db' := by
  obtain ⟨filed,target,move,others⟩ := effectMoves coherent.filed named tame effect
  refine ⟨filed,fun key => ?_⟩
  by_cases here : key = target
  · subst here
    exact pointedMove (coherent.pointed key) (coherent.filed.named key) tame move
  · rw [others key here]
    exact coherent.pointed key

structure Kept (bucket key v : Bytes) (lock : Protection) (db : Database) : Prop extends Coherent bucket db where
  held : Held (view bucket db key) v lock

theorem keptQuiet (same : Quiet db db') (kept : Kept bucket key v lock db) : Kept bucket key v lock db' := by
  refine ⟨coherentQuiet same kept.toCoherent,?_⟩
  rw [viewQuiet same]
  exact kept.held

theorem keptEffect (named : bucket ≠ []) (tame : Tame bucket change) (force : lock.inForce now)
    (spares : Spares key v lock change) (effect : Effect sorting bucket now db change db')
    (kept : Kept bucket key v lock db) : Kept bucket key v lock db' := by
  refine ⟨coherentEffect named tame effect kept.toCoherent,?_⟩
  obtain ⟨_,target,move,others⟩ := effectMoves kept.filed named tame effect
  by_cases here : key = target
  · subst here
    exact heldMove (kept.pointed key) tame force spares kept.held move
  · rw [others key here]
    exact kept.held

end

inductive Act where
  | call (e : Event)
  | setVersioning (status : Option Bytes)
  | setObjectLock (config : Option ObjectLock)

def act (node : Node) (bucket : Bytes) (s : State) : Act → Option State
  | .call e => step node bucket s e
  | .setVersioning status =>
    some (setVersioning (parseBucketPath bucket).1 (parseBucketPath bucket).2 status s).2
  | .setObjectLock config =>
    some (setObjectLockConfig (parseBucketPath bucket).1 (parseBucketPath bucket).2 config s).2

def PlainAct : Act → Prop
  | .call e => Plain e
  | _ => True

def SentAct : Act → Prop
  | .call e => Sent e
  | _ => True

theorem SentAct.plain {a} (sent : SentAct a) : PlainAct a := by
  cases a with
  | call e => exact Sent.plain sent
  | setVersioning status => trivial
  | setObjectLock config => trivial

section
variable {node : Node} {bucket : Bytes} {s next : State}

theorem coherentUpdate {db db' found} (done : db.updateBucket found = .ok db') (coherent : Coherent bucket db) : Coherent bucket db' := by
  unfold Database.updateBucket at done
  split at done <;> try contradiction
  cases done
  exact coherentSame coherent rfl rfl (fun listed => coherent.filed.open_ (mem_of_mem_filter listed))

theorem actKeeps {P : Database → Prop} {a} (quiet : ∀ {db db'}, Quiet db db' → P db → P db')
    (effects : ∀ {e change db db'}, a = .call e → Permitted s bucket e change → Effect node.sorting bucket e.call.now db change db' → P db → P db')
    (updates : ∀ {db db' found}, db.updateBucket found = .ok db' → P db → P db') (acted : act node bucket s a = some next) (holds : P s.db) :
    P next.db := by
  have config (change : BucketMetadata → BucketMetadata) tenantID name : Keeps (fun s => P s.db) (do
      let found ← getBucket tenantID name
      database (fun db => db.updateBucket (change found))) :=
    .bind (.observe _) fun _ => keepsDatabase fun holds done => updates done holds
  cases a with
  | call e =>
    obtain ⟨own,rfl⟩ := stepPerforms acted
    exact (performFollows own).keeps quiet (effects rfl) holds
  | setVersioning status =>
    cases acted
    exact (config (fun found => { found with versioningStatus := status }) _ _).after holds
  | setObjectLock lock =>
    cases acted
    exact (config (withObjectLock lock) _ _).after holds

theorem coherentAct {a} (named : bucket ≠ []) (coherent : Coherent bucket s.db) (plain : PlainAct a)
    (acted : act node bucket s a = some next) : Coherent bucket next.db := by
  refine actKeeps coherentQuiet (fun called permitted effect => ?_) coherentUpdate acted coherent
  subst called
  exact coherentEffect named (permittedTame plain permitted) effect

theorem coherentNew (new : NewBucket bucket s) : Coherent bucket s.db := by
  refine ⟨new.filed,fun key => ?_⟩
  rw [new.view]
  exact consistentVacant.pointed

end

def versionFile (bucket key v : Bytes) : Path := getFullPath (getVersionedObjectPath bucket key v)

def Resolves (s : State) (bucket target w key v : Bytes) : Prop := ∃ old, s.db.getObject bucket target w = .ok old ∧
    old.key = key ∧ old.versionID = v

def Lawful (bucket key v : Bytes) (lock : Protection) (s : State) (e : Event) : Prop :=
  lock.inForce e.call.now ∧ match e.request with
    | .setLegalHold target config w => Resolves s bucket target w key v → lock.acceptsHold config
    | .createUpload .. | .uploadPart .. | .complete .. => False
    | _ => True

def Clear (bucket key v : Bytes) (lock : Protection) (s : State) (e : Event) : Prop :=
  Plain e ∧ match e.request with
    | .put target _ _ => ∀ id, chooseVersion e.call true = .ok id → versionFile bucket target id ≠ versionFile bucket key v
    | .delete target _ w =>
      let target := resolveFolderDeleteKey s bucket target
      if w = [] then target = key → chooseVersion e.call true ≠ .ok v
      else (target, w) ≠ (key, v) → ¬ versionFile bucket target w <+: versionFile bucket key v
    | .setRetention target config w => Resolves s bucket target w key v → lock.acceptsRetention config
    | _ => True

def OrdinaryName (p : Path) : Prop := ∀ name, p.getLast? = some name → ¬ ascii ".metadata" <:+ name ∧ ¬ ascii ".metadata-staging" <:+ name

section
variable {node : Node} {bucket key v : Bytes} {lock : Protection} {s next : State} {e : Event} {change : Change}

theorem suffixedLast {p q suffix name} (same : Filesystem.withSuffix p suffix = q) (last : q.getLast? = some name) : suffix <:+ name := by
  unfold Filesystem.withSuffix at same
  split at same
  · subst same
    simp at last
  subst same
  simp only [getLast?_append,getLast?_singleton,Option.some_or,Option.some.injEq] at last
  exact last ▸ suffix_append _ _

theorem ordinaryBeside {q} (ordinary : OrdinaryName q) (present : q ≠ []) (p : Path) : Beside q p := by
  obtain ⟨name,last⟩ := Option.ne_none_iff_exists'.mp (fun none_ => present (getLast?_eq_none_iff.mp none_))
  obtain ⟨noSidecar,noStaging⟩ := ordinary name last
  exact ⟨fun same => noSidecar (suffixedLast same last),fun same => noStaging (suffixedLast same last)⟩

theorem permittedSpares (lawful : Lawful bucket key v lock s e)
    (clear : Clear bucket key v lock s e) (permitted : Permitted s bucket e change) : Spares key v lock change := by
  obtain ⟨_,request⟩ := e
  cases change with
  | insert obj =>
    intro keyed id
    cases request with
    | put target data headers =>
      obtain ⟨_,_,_,named,chosen,_⟩ := permitted
      have other := clear.2 obj.versionID chosen
      rw [← named,keyed,id] at other
      exact other rfl
    | delete target bypass w =>
      obtain ⟨_,current,_,chosen,marker⟩ := permitted
      have named : obj.key = resolveFolderDeleteKey s bucket target := by rw [marker]; rfl
      have other := clear.2
      simp only [current] at other
      exact other (named.symm.trans keyed) (id ▸ chosen)
    | complete uploadID parts => exact lawful.2
    | _ => exact permitted.elim
  | edit target w old new =>
    intro keyed id covered
    cases request with
    | setRetention target config w =>
      obtain ⟨_,_,read,sets,_⟩ := permitted
      exact coversRetention lawful.1 (clear.2 ⟨old,read,keyed,id⟩) sets covered
    | setLegalHold target config w =>
      obtain ⟨_,_,read,sets,_⟩ := permitted
      exact coversHold (lawful.2 ⟨old,read,keyed,id⟩) sets covered
    | setTagging target tags w | setACL target acl w | setRestore target status expires w | updateMetadata target updates =>
      obtain ⟨_,_,_,⟨retention,hold⟩,_⟩ := permitted
      exact coversSame covered retention hold
    | complete uploadID parts => exact lawful.2.elim
    | _ => exact permitted.elim
  | plain | adopt | drop | erase => trivial

structure Guarded (bucket key v : Bytes) (lock : Protection) (file : File) (s : State) : Prop extends
    Kept bucket key v lock s.db where
  on : isBucketVersioningEnabled s bucket = true
  data : At (versionFile bucket key v) (some (.file file)) s.files

theorem dataStep {file} (ordinary : OrdinaryName (versionFile bucket key v)) (guarded : Guarded bucket key v lock file s)
    (lawful : Lawful bucket key v lock s e) (clear : Clear bucket key v lock s e) :
    At (versionFile bucket key v) (some (.file file)) (perform node bucket s e).files := by
  have data := guarded.data
  have on := guarded.on
  have present : versionFile bucket key v ≠ [] := by
    intro root
    unfold At at data
    rw [root,s.files.getRoot] at data
    contradiction
  have beside := ordinaryBeside ordinary present
  obtain ⟨_,request⟩ := e
  cases request with
  | put target bytes headers =>
    refine putObjectAt data (fun id stored m chosen => ?_) (fun id _ => beside _)
    rw [on] at chosen ⊢
    obtain ⟨segment,some_⟩ := chosenSegment chosen
    have other : versionFile bucket target id ≠ versionFile bucket key v := clear.2 id chosen
    exact keepsPutPlain (versionedPlain segment some_ _ _) ⟨beside _,other,fun _ => by simp,fun _ _ _ => by simp⟩
  | delete target bypass w =>
    refine wpState (P := fun s' : State => At (versionFile bucket key v) (some (.file file)) s'.files) ?_
    rw [deleteObject,wpBind,wpCheck]
    refine ⟨fun _ => ?_,fun _ => data⟩
    rw [wpBind,wpGets,wpBind,wpGets,wpIte]
    refine ⟨fun specific => ?_,fun _ => ?_⟩
    · rw [wpBind]
      refine wpOfState ?_
      refine deleteSpecificVersionAt data (fun obj read unlocked => keepsDelete (beside _) ?_)
      have apart := clear.2
      simp only [specific] at apart
      refine apart (fun same => ?_)
      obtain ⟨rfl,rfl⟩ := Prod.mk.inj same
      obtain ⟨_,stored,covered⟩ := guarded.held
      obtain ⟨home,_⟩ := readRecord read
      rw [readable guarded.filed home stored] at read
      cases read
      exact coveredLocked lawful.1 covered unlocked
    · rw [on,wpIte]
      refine ⟨fun _ => ?_,absurd rfl⟩
      exact wpOfState (createDeleteMarkerAt data)
  | createUpload | uploadPart | complete => exact lawful.2.elim
  | setRetention target config w => exact setObjectRetentionAt config (beside _) data
  | setLegalHold target config w => exact setObjectLegalHoldAt config (beside _) data
  | setTagging target tags w => exact setObjectTaggingAt tags (beside _) data
  | setACL target acl w => exact setObjectACLAt acl (beside _) data
  | setRestore target status expires w => exact setRestoreStatusAt status expires (beside _) data
  | updateMetadata target updates => exact updateObjectMetadataAt updates (fun _ => beside _) (fun _ _ => by simp) data

theorem guardedStep {file} (named : bucket ≠ []) (ordinary : OrdinaryName (versionFile bucket key v))
    (guarded : Guarded bucket key v lock file s) (lawful : Lawful bucket key v lock s e) (clear : Clear bucket key v lock s e)
    (stepped : step node bucket s e = some next) : Guarded bucket key v lock file next := by
  have on := stepVersioning stepped guarded.on
  obtain ⟨own,rfl⟩ := stepPerforms stepped
  refine ⟨?_,on,dataStep ordinary guarded lawful clear⟩
  refine (performFollows own).keeps keptQuiet (fun permitted effect holds => ?_) guarded.toKept
  exact keptEffect named (permittedTame clear.1 permitted) lawful.1 (permittedSpares lawful clear permitted) effect holds

end

theorem protectedVersionStays {node} {bucket key v} {lock} {file} {obj} {s mid final} {before} {after}
    (new : NewBucket bucket s) (plain : ∀ a ∈ before, PlainAct a) (started : run (act node bucket) s before = some mid)
    (enabled : isBucketVersioningEnabled mid bucket = true)
    (record : mid.db.versions.get (objectVersionKey bucket key v) = some obj) (keyed : obj.key = key) (covered : lock.covers obj)
    (data : mid.files.get (versionFile bucket key v) = some (.file file)) (ordinary : OrdinaryName (versionFile bucket key v))
    (along : Along (step node bucket) (fun s e => Lawful bucket key v lock s e ∧ Clear bucket key v lock s e) mid after)
    (done : run (step node bucket) mid after = some final) :
    (∃ obj', final.db.versions.get (objectVersionKey bucket key v) = some obj' ∧ obj'.key = key ∧ lock.covers obj') ∧
      final.files.get (versionFile bucket key v) = some (.file file) := by
  have coherent : Coherent bucket mid.db := runKeeps (coherentAct new.named)
    (coherentNew new) (alongOf plain s) started
  have held : Held (view bucket mid.db key) v lock := ⟨obj,versionsInIff.mpr ⟨record,keyed⟩,covered⟩
  have start : Guarded bucket key v lock file mid := ⟨⟨coherent,held⟩,enabled,data⟩
  have kept : Guarded bucket key v lock file final :=
    runKeeps (fun holds ok stepped => guardedStep new.named ordinary holds ok.1 ok.2 stepped) start along done
  obtain ⟨obj',stored,covered'⟩ := kept.held
  obtain ⟨found,named⟩ := versionsInIff.mp stored
  exact ⟨⟨obj',found,named,covered'⟩,kept.data⟩

def lockedVersion : Bytes := ByteString.formatInt (fromSeconds 5)

def lockDate : Int := fromSeconds 100

def retain (seconds : Int) (mode : Bytes) (until_ : Int) : Event := ⟨callAt seconds, .setRetention (ascii "k") (some ⟨mode, until_⟩) lockedVersion⟩

def lockedObject : List Act := [.call ⟨callAt 5, .put (ascii "k") [7] empty⟩, .call (retain 6 compliance lockDate)]

theorem lockedObjectReached : ∃ mid obj file, run (act smallNode (ascii "b")) versionedBucket lockedObject = some mid ∧
    isBucketVersioningEnabled mid (ascii "b") = true ∧
    mid.db.versions.get (objectVersionKey (ascii "b") (ascii "k") lockedVersion) = some obj ∧ obj.key = ascii "k" ∧
    obj.retention = some ⟨compliance,lockDate⟩ ∧ mid.files.get (versionFile (ascii "b") (ascii "k") lockedVersion) = some (.file file) := by
  obtain ⟨mid,started,enabled,⟨obj,found,keyed,retention⟩,data⟩ : ∃ s, run (act smallNode (ascii "b")) versionedBucket lockedObject = some s ∧
      isBucketVersioningEnabled s (ascii "b") = true ∧
      (∃ obj, s.db.versions.get (objectVersionKey (ascii "b") (ascii "k") lockedVersion) = some obj ∧ obj.key = ascii "k" ∧
        obj.retention = some ⟨compliance,lockDate⟩) ∧
      (s.files.file (versionFile (ascii "b") (ascii "k") lockedVersion)).isSome = true := by decide +kernel
  obtain ⟨file,stored⟩ := Option.isSome_iff_exists.mp data
  exact ⟨mid,obj,file,started,enabled,found,keyed,retention,FileTree.Tree.fileIff.mp stored⟩

theorem protectedVersionStaysBesideWrites : ∃ mid final obj, run (act smallNode (ascii "b")) versionedBucket lockedObject = some mid ∧
    run (step smallNode (ascii "b")) mid [retain 7 compliance (fromSeconds 200), ⟨callAt 8, .put (ascii "k") [8] empty⟩,
      ⟨callAt 9, .delete (ascii "k") true []⟩] = some final ∧
      final.db.versions.get (objectVersionKey (ascii "b") (ascii "k") lockedVersion) = some obj := by
  obtain ⟨mid,obj,_,started,enabled,record,keyed,retention,data⟩ := lockedObjectReached
  obtain ⟨final,done⟩ : ∃ final, run (step smallNode (ascii "b")) mid [retain 7 compliance (fromSeconds 200),
    ⟨callAt 8,.put (ascii "k") [8] empty⟩,⟨callAt 9,.delete (ascii "k") true []⟩] = some final := ⟨_,rfl⟩
  have along : Along (step smallNode (ascii "b")) (fun s e =>
      Lawful (ascii "b") (ascii "k") lockedVersion (.compliance lockDate) s e ∧
      Clear (ascii "b") (ascii "k") lockedVersion (.compliance lockDate) s e) mid [retain 7 compliance (fromSeconds 200),
      ⟨callAt 8,.put (ascii "k") [8] empty⟩,⟨callAt 9,.delete (ascii "k") true []⟩] := by
    have early {t} (less : t < lockDate) : (Protection.compliance lockDate).inForce t := less
    refine ⟨⟨⟨early (by decide),trivial⟩,by decide,?_⟩,fun _ _ => ⟨⟨⟨early (by decide),trivial⟩,by decide,?_⟩,
      fun _ _ => ⟨⟨⟨early (by decide),trivial⟩,by decide,?_⟩,fun _ _ => trivial⟩⟩⟩
    · intro _ new same
      cases same
      rfl
    · intro id chosen
      cases (show Except.ok (generateVersionID (callAt 8)) = Except.ok id from chosen)
      decide +kernel
    · intro _ chosen
      exact absurd (Except.ok.inj (show Except.ok (generateVersionID (callAt 9)) = Except.ok lockedVersion from chosen)) (by decide +kernel)
  have ordinary : OrdinaryName (versionFile (ascii "b") (ascii "k") lockedVersion) := by
    intro name last
    cases (show some lockedVersion = some name from last)
    exact ⟨by decide +kernel,by decide +kernel⟩
  have plain : ∀ a ∈ lockedObject, PlainAct a := by
    intro a mem
    rcases mem_cons.mp mem with rfl | mem
    · exact not_mem_nil
    · cases mem_singleton.mp mem
      exact not_mem_nil
  have covered : (Protection.compliance lockDate).covers obj := ⟨_,retention,rfl,Int.le_refl _⟩
  obtain ⟨⟨obj',found,_⟩,_⟩ := protectedVersionStays (newBucketEmpty _) plain started enabled record keyed covered data ordinary along done
  exact ⟨mid,final,obj',started,done,found⟩

-- The mode is not compared: compliance is turned into governance of the same date, and the bypass does the rest.
def weakenAndDelete : List Event := [retain 7 governance lockDate, ⟨callAt 8, .delete (ascii "k") true lockedVersion⟩]

theorem complianceWeakenedAndDeleted : ∃ mid final obj file,
    run (act smallNode (ascii "b")) versionedBucket lockedObject = some mid ∧ isBucketVersioningEnabled mid (ascii "b") = true ∧
    mid.db.versions.get (objectVersionKey (ascii "b") (ascii "k") lockedVersion) = some obj ∧ obj.retention = some ⟨compliance, lockDate⟩ ∧
    mid.files.get (versionFile (ascii "b") (ascii "k") lockedVersion) = some (.file file) ∧
    Along (step smallNode (ascii "b")) (Lawful (ascii "b") (ascii "k") lockedVersion (.compliance lockDate)) mid weakenAndDelete ∧
    run (step smallNode (ascii "b")) mid weakenAndDelete = some final ∧
    final.db.versions.get (objectVersionKey (ascii "b") (ascii "k") lockedVersion) = none ∧
    final.files.get (versionFile (ascii "b") (ascii "k") lockedVersion) = none := by
  obtain ⟨mid,obj,file,started,enabled,record,_,retention,data⟩ := lockedObjectReached
  obtain ⟨mid',again,final,done,gone⟩ : ∃ mid, run (act smallNode (ascii "b")) versionedBucket lockedObject = some mid ∧
      ∃ final, run (step smallNode (ascii "b")) mid weakenAndDelete = some final ∧
        final.db.versions.get (objectVersionKey (ascii "b") (ascii "k") lockedVersion) = none ∧
        final.files.get (versionFile (ascii "b") (ascii "k") lockedVersion) = none := by decide +kernel
  cases started.symm.trans again
  have early {t} (less : t < lockDate) : (Protection.compliance lockDate).inForce t := less
  have lawful : Along (step smallNode (ascii "b")) (Lawful (ascii "b") (ascii "k") lockedVersion (.compliance lockDate)) mid
      weakenAndDelete := ⟨⟨early (by decide),trivial⟩,fun _ _ => ⟨⟨early (by decide),trivial⟩,fun _ _ => trivial⟩⟩
  exact ⟨mid,final,obj,file,started,enabled,record,retention,data,lawful,done,gone⟩

end MaxIOFS.RetentionLaw
