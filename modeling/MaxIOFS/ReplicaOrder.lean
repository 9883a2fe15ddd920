import MaxIOFS.Inventory
import MaxIOFS.LockedPuts

/-! The versions of one key on a replica. A message of the primary is a call of the replica's own object
manager: a raw or a legacy transfer of a version, or a deletion that is to leave a delete marker. Each
records its version as the latest when it arrives, and a deletion may take the folder for the key. -/
namespace MaxIOFS.ReplicaOrder
open ByteString Effects MetadataStore Records ObjectManager RecordChanges StoredObjects VersionHistory VersionMoves Ledger Runs ObjectMetadata
open ManagerRuns (On onIff filedSame versionedBucket newBucketEmpty smallNode callAt)
open LockedPuts (finishView recordView)

def putObjectRaw (node : Node) (call : Call) (bucket key data : Bytes) (sidecar : StagedCommit.Metadata) (metaObj : ObjectMetadata) :
    Action State Error Unit := do
  check (validateObjectName key) .invalidObjectName
  let versioned := decide (metaObj.versionID ≠ [])
  storage (Filesystem.put node.host call.seconds (objectPathOf versioned bucket key metaObj.versionID) data sidecar)
  let existing ← gets (fun s => stored s bucket key)
  let own := { metaObj with bucket := bucket, key := key }
  database fun db =>
    if versioned then db.putObjectVersion own { versionOf own with isLatest := true } else db.putObject call.now own
  finishPut call ⟨fromMetadataObject own, versioned⟩ existing

inductive Message where
  | raw (call : Call) (data : Bytes) (sidecar : StagedCommit.Metadata) (metaObj : ObjectMetadata)
  | legacy (call : Call) (data : Bytes) (headers : Headers)
  | delete (call : Call)

def Message.version : Message → Bytes
  | .raw _ _ _ metaObj => metaObj.versionID
  | .legacy call _ _ | .delete call => (chooseVersion call true).toOption.getD []

def Message.deletes : Message → Bool
  | .delete _ => true
  | _ => false

def finished {α} : Except Error α × State → Option State
  | (.ok _, s) => some s
  | (.error _, _) => none

def deliver (node : Node) (bucket key : Bytes) (s : State) : Message → Option State
  | .raw call data sidecar metaObj => finished (putObjectRaw node call bucket key data sidecar metaObj s)
  | .legacy call data headers => finished (putObject node call bucket key data headers s)
  | .delete call => finished (deleteObject node call bucket key false [] s)

def Proper (m : Message) : Prop := m.version ≠ [] ∧ (58 : UInt8) ∉ m.version

instance (m : Message) : Decidable (Proper m) := inferInstanceAs (Decidable (_ ∧ _))

/-- The key's own name is free and a folder of that name is there: a deletion of the key goes to the folder. -/
def Shadowed (s : State) (bucket key : Bytes) : Prop := resolveFolderDeleteKey s bucket key ≠ key

instance (s : State) (bucket key : Bytes) : Decidable (Shadowed s bucket key) := inferInstanceAs (Decidable (_ ≠ _))

def recorded (s : State) (bucket key : Bytes) (messages : List Message) : List Message :=
  if Shadowed s bucket key then messages.dropWhile Message.deletes else messages

structure Landed (bucket key version : Bytes) (s s' : State) : Prop where
  filed : Filed bucket s'.db
  on : On bucket s'.db
  current : (view bucket s'.db key).current.map versionID = some version
  versions : ∀ v, (view bucket s'.db key).versions v = none ↔ v ≠ version ∧ (view bucket s.db key).versions v = none

section
variable {node : Node} {call : Call} {bucket key id data : Bytes} {headers : Headers} {s s' : State} {m : Message}

theorem finishedSpec {α} {call : Action State Error α} {P : State → Prop} (spec : wp call (fun _ => P) (fun _ _ => True) s)
    (done : finished (call s) = some s') : P s' := by
  unfold wp at spec
  unfold finished at done
  split at done <;> cases done
  rename_i result
  rw [result] at spec
  exact spec

theorem landedOf {record} (filed : Filed bucket s'.db) (on : On bucket s'.db) (own : versionID record = id)
    (shown : view bucket s'.db key = (view bucket s.db key).insert shape id record) : Landed bucket key id s s' := by
  refine ⟨filed,on,?_,fun v => ?_⟩
  · rw [shown]
    exact congrArg some own
  · rw [shown,History.insert]
    by_cases mine : v = id <;> simp [mine]

theorem latestInserted {obj db} (done : s.db.putObjectVersion obj { versionOf obj with isLatest := true } = .ok db) (here : obj.bucket = bucket)
    (keyed : obj.key = key) (own : obj.versionID = id) (filed : Filed bucket s.db) (on : On bucket s.db) (named : key ≠ [])
    (present : id ≠ []) (plain : (58 : UInt8) ∉ id) : Filed bucket db ∧ On bucket db ∧
      ∃ record, record.versionID = id ∧ ∀ other, view bucket db other =
        if other = key then (view bucket s.db other).insert shape id record else view bucket s.db other := by
  subst here keyed own
  have identified : Identified obj.bucket (versioned obj { versionOf obj with isLatest := true }) := ⟨rfl,named,plain⟩
  obtain ⟨filed',shown⟩ := putObjectVersionView filed identified present rfl done
  refine ⟨filed',?_,versioned obj { versionOf obj with isLatest := true },rfl,shown⟩
  unfold On
  rw [putObjectVersionBuckets done]
  exact on

theorem finishOn (node : Node) {pending existing} (home : pending.object.bucket = bucket) :
    Keeps (fun s => On bucket s.db) (finishPut call pending existing) := by
  intro s start
  have kept (s' : State) (followed : Follows node.sorting bucket call.now (fun _ => True) s.db s'.db) : On bucket s'.db := by
    refine followed.keeps (fun same holds => (same.status _).trans holds) (fun _ effect holds => ?_) start
    unfold On
    rw [effectBuckets effect]
    exact holds
  exact wpMono (followsFinish home (fun _ _ => trivial) s (Follows.refl s.db)) (fun _ s' => kept s') (fun _ s' => kept s')

theorem rawLands {sidecar metaObj} (home : bucket ≠ []) (named : key ≠ []) (filed : Filed bucket s.db) (on : On bucket s.db)
    (present : metaObj.versionID ≠ []) (plain : (58 : UInt8) ∉ metaObj.versionID) :
    wp (putObjectRaw node call bucket key data sidecar metaObj) (fun _ s' => Landed bucket key metaObj.versionID s s') (fun _ _ => True) s := by
  rw [putObjectRaw,wpBind,wpCheck]
  refine ⟨fun _ => ?_,fun _ => trivial⟩
  rw [wpBind,wpStorage]
  refine wpMono (wpOfState (P := fun _ => True) trivial) (fun _ files _ => ?_) (fun _ _ _ => trivial)
  rw [wpBind,wpGets,wpBind,wpDatabase,decide_eq_true present,if_pos rfl]
  dsimp only
  cases done : s.db.putObjectVersion { metaObj with bucket := bucket, key := key }
      { versionOf { metaObj with bucket := bucket, key := key } with isLatest := true } with
  | error e => trivial
  | ok db =>
    obtain ⟨filed',on',record,own,shown⟩ := latestInserted done rfl rfl rfl filed on named present plain
    have inserted := (shown key).trans (if_pos rfl)
    refine wpMono (wpAnd (finishView node home rfl rfl { s with files := files, db := db } ⟨filed',inserted⟩)
      (finishOn node rfl { s with files := files, db := db } on')) (fun _ s' kept => ?_) (fun _ _ _ => trivial)
    exact landedOf kept.1.1 kept.2 own kept.1.2

theorem putLands (home : bucket ≠ []) (named : key ≠ []) (filed : Filed bucket s.db) (on : On bucket s.db)
    (chosen : chooseVersion call true = .ok id) (present : id ≠ []) (plain : (58 : UInt8) ∉ id) :
    wp (putObject node call bucket key data headers) (fun _ s' => Landed bucket key id s s') (fun _ _ => True) s := by
  have saved : wp (storeObject node call bucket key data headers) (fun pending s' => s'.db = s.db ∧ Fresh node true bucket key id data pending)
      (fun _ _ => True) s := by
    cases folder : isFolderMarker key with
    | false => exact wpLax (storeObjectHeld (onIff.mpr on) chosen folder) fun _ _ done => ⟨done.1,done.2.2.1⟩
    | true => exact wpLax (Envelopes.storeObjectClear (onIff.mpr on) chosen folder) fun _ _ done => ⟨done.1,done.2.2.1⟩
  rw [putObject,wpBind]
  refine wpMono saved (fun pending s₁ done => ?_) (fun _ _ _ => trivial)
  obtain ⟨same,fresh⟩ := done
  refine wpSure (recordView home named (same ▸ filed) fresh present plain) fun object s' written => ?_
  obtain ⟨_,_,status,filed',shown⟩ := written
  rw [same] at status shown
  exact landedOf filed' ((status _).trans on) fresh.versionID shown

theorem deletionLands (named : key ≠ []) (filed : Filed bucket s.db) (on : On bucket s.db)
    (chosen : chooseVersion call true = .ok id) (present : id ≠ []) (plain : (58 : UInt8) ∉ id) :
    wp (deleteObject node call bucket key false []) (fun _ s' => Landed bucket (resolveFolderDeleteKey s bucket key) id s s' ∧
      ∀ other, other ≠ resolveFolderDeleteKey s bucket key → view bucket s'.db other = view bucket s.db other) (fun _ _ => True) s := by
  rw [deleteObject,wpBind,wpCheck]
  refine ⟨fun _ => ?_,fun _ => trivial⟩
  rw [wpBind,wpGets,wpBind,wpGets,wpIte]
  refine ⟨fun absurd_ => (absurd_ rfl).elim,fun _ => ?_⟩
  rw [if_pos (onIff.mpr on)]
  rw [createDeleteMarker,wpBind,wpGets,wpBind,wpObserve,chosen]
  dsimp only
  rw [wpBind,wpDatabase]
  split
  · rename_i db done
    obtain ⟨filed',on',record,own,shown⟩ := latestInserted done rfl rfl rfl filed on (resolvedNamed named) present plain
    rw [wpBind]
    have quiet : Keeps (fun s' => Quiet db s'.db) (hideMetrics bucket (stored s bucket (resolveFolderDeleteKey s bucket key))) :=
      .ite (fun _ => .ignore (keepsDatabase (fun before done => before.trans (metricsQuiet done)))) (fun _ => .pure _)
    refine wpMono (quiet { s with db := db } (.refl db)) (fun _ s' same => ?_) (fun _ _ _ => trivial)
    have after key := (viewQuiet same key).trans (shown key)
    refine ⟨landedOf (filedSame filed' same.objects same.versions same.deleted) ((same.status _).trans on') own ((after _).trans (if_pos rfl)),
      fun other different => (after other).trans (if_neg different)⟩
  · trivial

theorem chosenVersion (present : (chooseVersion call true).toOption.getD [] ≠ []) :
    chooseVersion call true = .ok ((chooseVersion call true).toOption.getD []) := by
  cases chosen : chooseVersion call true with
  | ok id => rfl
  | error e =>
    rw [chosen] at present
    exact (present rfl).elim

theorem shadowedIff (filed : Filed bucket s.db) (home : bucket ≠ []) : Shadowed s bucket key ↔
    isFolderMarker key = false ∧ (view bucket s.db key).current = none ∧ ((view bucket s.db (key ++ [slash])).current).isSome = true := by
  unfold Shadowed resolveFolderDeleteKey
  rw [Inventory.storedCurrent filed home,Inventory.storedCurrent filed home]
  cases isFolderMarker key <;> cases shown : (view bucket s.db key).current <;> cases below : (view bucket s.db (key ++ [slash])).current <;>
    simp_all [view]

theorem shadowedFolder (shadowed : Shadowed s bucket key) : resolveFolderDeleteKey s bucket key = key ++ [slash] := by
  unfold Shadowed at shadowed
  unfold resolveFolderDeleteKey at shadowed ⊢
  split_ifs at shadowed ⊢ <;> first | rfl | exact absurd rfl shadowed

theorem deliverLands (home : bucket ≠ []) (named : key ≠ []) (filed : Filed bucket s.db) (on : On bucket s.db) (proper : Proper m)
    (lands : m.deletes = false ∨ ¬ Shadowed s bucket key) (delivered : deliver node bucket key s m = some s') :
    Landed bucket key m.version s s' := by
  cases m with
  | raw call data sidecar metaObj => exact finishedSpec (rawLands home named filed on proper.1 proper.2) delivered
  | legacy call data headers => exact finishedSpec (putLands home named filed on (chosenVersion proper.1) proper.1 proper.2) delivered
  | delete call =>
    have own : resolveFolderDeleteKey s bucket key = key := not_not.mp (lands.resolve_left Bool.noConfusion)
    have landed := (finishedSpec (deletionLands named filed on (chosenVersion proper.1) proper.1 proper.2) delivered).1
    rw [own] at landed
    exact landed

-- A deletion that goes to the folder leaves the key without a record, and the folder with one.
theorem deliverAside (home : bucket ≠ []) (named : key ≠ []) (filed : Filed bucket s.db) (on : On bucket s.db) (proper : Proper m)
    (deletes : m.deletes = true) (shadowed : Shadowed s bucket key) (delivered : deliver node bucket key s m = some s') :
    Filed bucket s'.db ∧ On bucket s'.db ∧ view bucket s'.db key = view bucket s.db key ∧ Shadowed s' bucket key := by
  cases m <;> cases deletes
  rename_i call
  obtain ⟨landed,others⟩ := finishedSpec (deletionLands named filed on (chosenVersion proper.1) proper.1 proper.2) delivered
  obtain ⟨plain,none_,_⟩ := (shadowedIff filed home).mp shadowed
  have same := others key (Ne.symm shadowed)
  have kept := landed.current
  rw [shadowedFolder shadowed] at kept
  refine ⟨landed.filed,landed.on,same,(shadowedIff landed.filed home).mpr ⟨plain,by rw [same,none_],?_⟩⟩
  cases shown : (view bucket s'.db (key ++ [slash])).current with
  | none =>
    rw [shown] at kept
    cases kept
  | some _ => rfl

theorem deliverAll {sent} (home : bucket ≠ []) (named : key ≠ []) (filed : Filed bucket s.db) (on : On bucket s.db) (proper : ∀ m ∈ sent, Proper m)
    (ran : run (deliver node bucket key) s sent = some s') :
    Filed bucket s'.db ∧
    (view bucket s'.db key).current.map versionID =
      (((recorded s bucket key sent).map Message.version).getLast?.orElse fun _ => (view bucket s.db key).current.map versionID) ∧
    ∀ v, (view bucket s'.db key).versions v = none ↔
      v ∉ (recorded s bucket key sent).map Message.version ∧ (view bucket s.db key).versions v = none := by
  induction sent generalizing s with
  | nil =>
    cases ran
    simp [recorded,filed]
  | cons m rest ih =>
    obtain ⟨s₁,delivered,later⟩ := Option.bind_eq_some_iff.mp ran
    have proper' : ∀ m ∈ rest, Proper m := fun m mem => proper m (List.mem_cons_of_mem _ mem)
    by_cases aside : m.deletes = true ∧ Shadowed s bucket key
    · obtain ⟨filed',on',same,shadowed⟩ := deliverAside home named filed on (proper m List.mem_cons_self) aside.1 aside.2 delivered
      have skipped : recorded s bucket key (m :: rest) = recorded s₁ bucket key rest := by
        rw [recorded,recorded,if_pos aside.2,if_pos shadowed,List.dropWhile_cons_of_pos aside.1]
      rw [skipped,← same]
      exact ih filed' on' proper' later
    · have lands : m.deletes = false ∨ ¬ Shadowed s bucket key := by
        by_cases shadowed : Shadowed s bucket key
        · exact .inl (Bool.eq_false_iff.mpr fun deletes => aside ⟨deletes,shadowed⟩)
        · exact .inr shadowed
      obtain ⟨filed',on',current,versions⟩ := deliverLands home named filed on (proper m List.mem_cons_self) lands delivered
      have free : ¬ Shadowed s₁ bucket key := by
        intro shadowed
        rw [((shadowedIff filed' home).mp shadowed).2.1] at current
        cases current
      have first : recorded s bucket key (m :: rest) = m :: rest := by
        unfold recorded
        split
        · rename_i shadowed
          rw [List.dropWhile_cons_of_neg fun deletes => aside ⟨deletes,shadowed⟩]
        · rfl
      obtain ⟨filed'',last,all⟩ := ih filed' on' proper' later
      rw [recorded,if_neg free] at last all
      rw [first]
      refine ⟨filed'',?_,fun v => ?_⟩
      · rw [last,current,List.map_cons,List.getLast?_cons]
        cases (rest.map Message.version).getLast? <;> rfl
      · rw [all,versions,List.map_cons,List.mem_cons]
        tauto

def storedVersion (s : State) (bucket key v : Bytes) : Bool := (s.db.versions.get (objectVersionKey bucket key v)).isSome

theorem storedVersionIff {v} (filed : Filed bucket s.db) (plain : (58 : UInt8) ∉ v) :
    storedVersion s bucket key v = true ↔ (view bucket s.db key).versions v ≠ none := by
  unfold storedVersion
  change _ ↔ versionsIn bucket s.db.versions key v ≠ none
  unfold versionsIn
  cases found : s.db.versions.get (objectVersionKey bucket key v) with
  | none => simp
  | some obj =>
    obtain ⟨identified,_,address⟩ := filed.versions _ _ found (inVersionSpace ..)
    have own := (objectVersionKeyInj address plain identified.plain).1
    simp [own]

/-- The replica stores the versions that the primary does and shows the same one. -/
def Agrees (bucket key : Bytes) (primary replica : State) : Prop :=
  (∀ v, (58 : UInt8) ∉ v → storedVersion replica bucket key v = storedVersion primary bucket key v) ∧
  (stored replica bucket key).map versionID = (stored primary bucket key).map versionID

theorem recordedAll {messages} (distinct : (messages.map Message.version).Nodup)
    (all : ∀ m ∈ messages, m.version ∈ (recorded s bucket key messages).map Message.version) : recorded s bucket key messages = messages := by
  unfold recorded at all ⊢
  split
  · rename_i shadowed
    rw [if_pos shadowed] at all
    cases messages with
    | nil => rfl
    | cons m rest =>
      by_cases deletes : m.deletes = true
      · have again := all m List.mem_cons_self
        rw [List.dropWhile_cons_of_pos deletes] at again
        have earlier : m.version ∈ rest.map Message.version := ((List.dropWhile_suffix _).map _).subset again
        exact absurd earlier (List.nodup_cons.mp distinct).1
      · exact List.dropWhile_cons_of_neg deletes
  · rfl

/-- Versions of a key that the primary wrote are on the replica in any order of arrival, unless a deletion comes first and finds
the folder; the current version is the primary's exactly if its last write arrives last. -/
theorem replicaAgrees {primary replica final final'} {sent arrived : List Message} (home : bucket ≠ []) (named : key ≠ [])
    (proper : ∀ m ∈ sent, Proper m) (distinct : (sent.map Message.version).Nodup)
    (same : (arrived.map Message.version).Perm (sent.map Message.version))
    (filed : Filed bucket primary.db) (on : On bucket primary.db) (new : view bucket primary.db key = vacant)
    (filed' : Filed bucket replica.db) (on' : On bucket replica.db) (new' : view bucket replica.db key = vacant)
    (own : recorded primary bucket key sent = sent) (written : run (deliver node bucket key) primary sent = some final)
    (received : run (deliver node bucket key) replica arrived = some final') :
    Agrees bucket key final final' ↔
      recorded replica bucket key arrived = arrived ∧ (arrived.map Message.version).getLast? = (sent.map Message.version).getLast? := by
  have proper' m (mem : m ∈ arrived) : Proper m := by
    obtain ⟨twin,there,version⟩ := List.mem_map.mp (same.mem_iff.mp (List.mem_map_of_mem mem))
    have good := proper twin there
    unfold Proper at good ⊢
    rwa [version] at good
  obtain ⟨done,last,versions⟩ := deliverAll home named filed on proper written
  obtain ⟨done',last',versions'⟩ := deliverAll home named filed' on' proper' received
  rw [new,own] at last versions
  rw [new'] at last' versions'
  have start (last : Option Bytes) : (last.orElse fun _ => (vacant : History Bytes ObjectMetadata).current.map versionID) = last := by
    cases last <;> rfl
  rw [start] at last last'
  unfold Agrees
  rw [Inventory.storedCurrent done home,Inventory.storedCurrent done' home]
  change _ ∧ (view bucket final'.db key).current.map versionID = (view bucket final.db key).current.map versionID ↔ _
  rw [last,last']
  have held {v} (plain : (58 : UInt8) ∉ v) : storedVersion final bucket key v = true ↔ v ∈ sent.map Message.version := by
    rw [storedVersionIff done plain,ne_eq,versions]
    simp [vacant]
  have held' {v} (plain : (58 : UInt8) ∉ v) : storedVersion final' bucket key v = true ↔
      v ∈ (recorded replica bucket key arrived).map Message.version := by
    rw [storedVersionIff done' plain,ne_eq,versions']
    simp [vacant]
  constructor
  · rintro ⟨sets,ends⟩
    have all : recorded replica bucket key arrived = arrived := by
      refine recordedAll (same.nodup_iff.mpr distinct) fun m mem => ?_
      have plain := (proper' m mem).2
      rw [← held' plain,sets _ plain,held plain]
      exact same.mem_iff.mp (List.mem_map_of_mem mem)
    rw [all] at ends
    exact ⟨all,ends⟩
  · rintro ⟨all,ends⟩
    rw [all]
    refine ⟨fun v plain => Bool.eq_iff_iff.mpr ?_,ends⟩
    rw [held' plain,held plain,all,same.mem_iff]

end

def pinned (seconds : Int) (versionID : Bytes) : Call := { callAt seconds with replicatedVersionID := versionID }

def first : Message := .legacy (pinned 1 (ascii "1")) (ascii "x") OrderedStore.empty

def second : Message := .delete (pinned 2 (ascii "2"))

def third : Message := .legacy (pinned 3 (ascii "3")) (ascii "z") OrderedStore.empty

def replica : State → List Message → Option State := run (deliver smallNode (ascii "b") (ascii "k"))

-- The first two messages change places.
theorem arrivedSwapped : ∃ final final', replica versionedBucket [first, second, third] = some final ∧
    replica versionedBucket [second, first, third] = some final' ∧ Agrees (ascii "b") (ascii "k") final final' := by
  obtain ⟨final,ran⟩ : ∃ final, replica versionedBucket [first, second, third] = some final := Option.isSome_iff_exists.mp (by decide +kernel)
  obtain ⟨final',ran'⟩ : ∃ final', replica versionedBucket [second, first, third] = some final' := Option.isSome_iff_exists.mp (by decide +kernel)
  have new := newBucketEmpty (some (ascii "Enabled"))
  refine ⟨final,final',ran,ran',?_⟩
  have free : ¬ Shadowed versionedBucket (ascii "b") (ascii "k") := by decide
  refine (replicaAgrees (by decide) (by decide) ?_ (by decide) ?_ new.filed rfl (new.view _) new.filed rfl (new.view _) (if_neg free) ran ran').mpr
    ⟨if_neg free,by decide⟩
  · decide
  · decide

def shownVersion (s : State) : Option Bytes := (stored s (ascii "b") (ascii "k")).map versionID

def besideFolder : State := (putObject smallNode (callAt 0) (ascii "b") (ascii "k/x") (ascii "y") OrderedStore.empty versionedBucket).2

-- The last write arrives first; and a deletion that arrives first finds the folder of another object.
theorem arrivedOtherwise : (replica versionedBucket [first, third]).map shownVersion = some (some (ascii "3")) ∧
    (replica versionedBucket [third, first]).map shownVersion = some (some (ascii "1")) ∧
    (replica versionedBucket [first, second, third]).map (fun s => storedVersion s (ascii "b") (ascii "k") (ascii "2")) = some true ∧
    (replica besideFolder [second, first, third]).map (fun s => storedVersion s (ascii "b") (ascii "k") (ascii "2")) = some false := by
  decide +kernel

end MaxIOFS.ReplicaOrder
