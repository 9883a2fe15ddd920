import MaxIOFS.KeyFrame
import MaxIOFS.RetentionLaw

/-! Deleting one version of a key while the bucket's versioning goes on and off. A plain object
written while it is suspended stands beside versions that still carry the mark of the latest. -/
namespace MaxIOFS.VersionDeletion
open ByteString FileTree Effects Ledger MetadataStore Records ObjectManager RecordChanges VersionHistory
    VersionMoves ManagerRuns StoredFiles StoredObjects ObjectReads ManagerFiles KeyFrame RetentionLaw Filesystem Runs List

structure Ordinary (v : Bytes) : Prop where
  segment : slash ∉ v
  present : v ≠ []
  named : v ≠ ascii "."
  sidecar : ¬ ascii ".metadata" <:+ v
  staging : ¬ ascii ".metadata-staging" <:+ v

theorem generatedByte {call b} (mem : b ∈ generateVersionID call) : (b = 45 ∨ 48 ≤ b ∧ b ≤ 57) ∨ b = 46 ∨ ∃ k < 16, b = hexDigit k := by
  unfold generateVersionID at mem
  split at mem
  · rcases mem_append.mp mem with front | last
    · rcases mem_append.mp front with number | dot
      · exact .inl (ByteString.formatIntByte number)
      · exact .inr (.inl (mem_singleton.mp (show b ∈ [46] from dot)))
    · obtain ⟨_,_,rfl⟩ := mem_map.mp last
      exact .inr (.inr ⟨_,Nat.mod_lt _ (by decide),rfl⟩)
  · exact .inl (ByteString.formatIntByte mem)

theorem generatedOrdinary (call : Call) : Ordinary (generateVersionID call) := by
  have letter : (116 : UInt8) ∉ generateVersionID call := by
    intro mem
    have digits : ∀ k < 16, (116 : UInt8) ≠ hexDigit k := by decide
    rcases generatedByte mem with number | dot | ⟨k,small,same⟩
    · exact absurd number (by decide)
    · exact absurd dot (by decide)
    · exact digits k small same
  have number : ∃ rest, generateVersionID call = formatInt call.now ++ rest := by
    unfold generateVersionID
    split
    · exact ⟨_,append_assoc ..⟩
    · exact ⟨[],(append_nil _).symm⟩
  refine ⟨fun mem => generatedPlain mem (.inr rfl),generatedPresent call,fun dot => ?_,fun ending => ?_,fun ending => ?_⟩
  · obtain ⟨_,same⟩ := number
    obtain ⟨b,_,shape⟩ := exists_cons_of_ne_nil (ByteString.formatIntNonempty call.now)
    rw [same,shape] at dot
    have head : b = 46 := (List.cons.inj dot).1
    exact absurd (ByteString.formatIntByte (shape ▸ mem_cons_self .. : b ∈ formatInt call.now)) (head ▸ by decide)
  · exact letter (ending.subset (by decide))
  · exact letter (ending.subset (by decide))

def Genuine (e : Event) : Prop := e.call.replicatedVersionID = [] ∨ ∃ call, e.call.replicatedVersionID = generateVersionID call

theorem Genuine.plain {e} (genuine : Genuine e) : Plain e := by
  rcases genuine with none_ | ⟨call,same⟩
  · unfold Plain
    rw [none_]
    exact not_mem_nil
  unfold Plain
  rw [same]
  exact fun mem => generatedPlain mem (.inl rfl)

theorem chosenOrdinary {e id} (genuine : Genuine e) (chosen : chooseVersion e.call true = .ok id) : Ordinary id := by
  unfold chooseVersion at chosen
  rw [if_pos rfl] at chosen
  split at chosen
  · cases chosen
    exact generatedOrdinary _
  rename_i pinned
  split at chosen <;> try contradiction
  cases chosen
  obtain ⟨call,same⟩ := genuine.resolve_left pinned
  exact same ▸ generatedOrdinary call

theorem fullSegment {v} (ordinary : Ordinary v) : getFullPath v = [v] := fullName ordinary.segment ordinary.present ordinary.named

def versionsDirectory (bucket key : Bytes) : Path := getFullPath bucket ++ [ascii ".versions"] ++ getFullPath key

theorem versionedFull {v} (ordinary : Ordinary v) (bucket key : Bytes) :
    getFullPath (getVersionedObjectPath bucket key v) = versionsDirectory bucket key ++ [v] := by
  have shape : getVersionedObjectPath bucket key v = bucket ++ slash :: (ascii ".versions" ++ slash :: (key ++ slash :: v)) := by
    simp [getVersionedObjectPath,ascii,slash]
  rw [shape,fullAppend,fullAppend,fullAppend,fullSegment ordinary,versionsDirectory]
  have directory : getFullPath (ascii ".versions") = [ascii ".versions"] := by decide
  rw [directory]
  simp only [append_assoc]

theorem objectFull (bucket key : Bytes) : getFullPath (getObjectPath bucket key) = getFullPath bucket ++ getFullPath key := by
  rw [getObjectPath,append_assoc,singleton_append,fullAppend]

theorem folderDirectory (bucket key : Bytes) : versionsDirectory bucket (key ++ [slash]) = versionsDirectory bucket key := by
  unfold versionsDirectory
  rw [fullAppend]
  have nothing : getFullPath [] = [] := by decide
  rw [nothing,append_nil]

theorem suffixLength (p : Path) (suffix : Bytes) : (Filesystem.withSuffix p suffix).length = p.length := by
  rcases eq_nil_or_concat p with rfl | ⟨dir,v,rfl⟩
  · rfl
  · rw [concat_eq_append,suffixLast]
    simp

theorem partedVersions {v w} (ordinary : Ordinary v) (ordinary' : Ordinary w) (dir : Path) : Parted (dir ++ [v]) (dir ++ [w]) := by
  have last {a b} (same : dir ++ [a] = dir ++ [b]) : a = b := (List.cons.inj (append_cancel_left same)).1
  refine ⟨fun same => ?_,fun same => ?_,fun same => ?_,fun same => ?_⟩
  · rw [metadataOf,suffixLast] at same
    exact ordinary'.sidecar (last same ▸ suffix_append ..)
  · rw [stagingOf,suffixLast] at same
    exact ordinary'.staging (last same ▸ suffix_append ..)
  · rw [metadataOf,suffixLast] at same
    exact ordinary.sidecar (last same ▸ suffix_append ..)
  · rw [stagingOf,suffixLast] at same
    exact ordinary.staging (last same ▸ suffix_append ..)

theorem partedLonger {p p'} (longer : p'.length < p.length) : Parted p p' := by
  refine ⟨fun same => ?_,fun same => ?_,fun same => ?_,fun same => ?_⟩ <;>
    have lengths := congrArg List.length same
  · rw [metadataOf,suffixLength] at lengths
    omega
  · rw [stagingOf,suffixLength] at lengths
    omega
  · rw [metadataOf,suffixLength] at lengths
    omega
  · rw [stagingOf,suffixLength] at lengths
    omega

structure Sound (bucket : Bytes) (db : Database) : Prop extends Coherent bucket db where
  ordinary : ∀ key v obj, (view bucket db key).versions v = some obj → Ordinary v

section
variable {sorting : VersionSort} {bucket key : Bytes} {now : Int} {change : Change} {h h' : KeyHistory} {db db' : Database}

theorem ordinaryMove (pointed : h.Pointed shape) (tame : Tame bucket change) (chosen : ∀ obj, change = .insert obj → Ordinary obj.versionID)
    (ordinary : ∀ v obj, h.versions v = some obj → Ordinary v) (move : Move now change key h h') {v obj}
    (stored : h'.versions v = some obj) : Ordinary v := by
  have inserted {l : KeyHistory} {w} {r} (own : Ordinary w) (old : ∀ v obj, l.versions v = some obj → Ordinary v)
      (stored : (l.insert shape w r).versions v = some obj) : Ordinary v := by
    by_cases here : v = w
    · exact here ▸ own
    simp only [History.insert,here,if_false,Option.map_eq_some_iff] at stored
    obtain ⟨before,found,_⟩ := stored
    exact old v before found
  have beside {r} (plain : r.versionID = []) (stored : (h.put shape (stamped now r)).versions v = some obj) : Ordinary v := by
    rw [History.putPlain (shapeNone (show (stamped now r).versionID = [] from plain))] at stored
    exact ordinary v obj stored
  cases move with
  | insert => exact inserted (chosen _ rfl) ordinary stored
  | plain => exact beside tame.2 stored
  | adopt => exact beside tame.2 stored
  | @edit _ _ old new _ present same _ =>
    have id : (stamped now new).versionID = old.versionID := same.versionID
    by_cases plain : old.versionID = []
    · exact beside (same.versionID.trans plain) stored
    rw [History.putVersion (shapeId (id ▸ plain)),id] at stored
    by_cases here : v = old.versionID
    · exact here ▸ ordinary _ _ (presentStored pointed plain present)
    · exact ordinary v obj ((Function.update_of_ne here ..).symm.trans stored)
  | dropOlder => exact ordinary v obj (History.removed stored).2
  | dropLast => exact ordinary v obj (History.removed stored).2
  | dropLatest _ _ _ promoted =>
    exact inserted (ordinary _ _ (History.removed promoted).2) (fun w r found => ordinary w r (History.removed found).2) stored
  | erase => exact ordinary v obj stored

theorem soundQuiet (same : Quiet db db') (sound : Sound bucket db) : Sound bucket db' := by
  refine ⟨coherentQuiet same sound.toCoherent,fun key v obj stored => sound.ordinary key v obj ?_⟩
  rwa [viewQuiet same] at stored

theorem soundUpdate {found} (done : db.updateBucket found = .ok db') (sound : Sound bucket db) : Sound bucket db' := by
  refine ⟨coherentUpdate done sound.toCoherent,?_⟩
  unfold Database.updateBucket at done
  split at done <;> try contradiction
  cases done
  exact sound.ordinary

theorem soundEffect (home : bucket ≠ []) (tame : Tame bucket change) (chosen : ∀ obj, change = .insert obj → Ordinary obj.versionID)
    (effect : Effect sorting bucket now db change db') (sound : Sound bucket db) : Sound bucket db' := by
  refine ⟨coherentEffect home tame effect sound.toCoherent,fun key v obj stored => ?_⟩
  obtain ⟨_,target,move,others⟩ := effectMoves sound.filed home tame effect
  by_cases here : key = target
  · subst here
    exact ordinaryMove (sound.pointed key) tame chosen (sound.ordinary key) move stored
  · rw [others key here] at stored
    exact sound.ordinary key v obj stored

end

section
variable {node : Node} {bucket : Bytes} {start s next : State} {e : Event}

theorem permittedOrdinary {obj} (genuine : Genuine e) (permitted : Permitted s bucket e (.insert obj)) : Ordinary obj.versionID := by
  obtain ⟨call,request⟩ := e
  cases request with
  | put key data headers => exact chosenOrdinary genuine permitted.2.2.2.2.1
  | delete key bypass versionID => exact chosenOrdinary genuine permitted.2.2.2.1
  | complete uploadID parts =>
    obtain ⟨_,_,_,_,_,_,id,_⟩ := permitted
    exact id ▸ generatedOrdinary call
  | _ => exact permitted.elim

def GenuineAct : Act → Prop
  | .call e => Genuine e
  | _ => True

theorem soundAct {a} (home : bucket ≠ []) (sound : Sound bucket s.db) (genuine : GenuineAct a)
    (acted : act node bucket s a = some next) : Sound bucket next.db := by
  refine actKeeps soundQuiet (fun called permitted effect => ?_) soundUpdate acted sound
  subst called
  refine soundEffect home (permittedTame (Genuine.plain genuine) permitted) (fun obj inserts => ?_) effect
  subst inserts
  exact permittedOrdinary genuine permitted

theorem soundRun {acts} (new : NewBucket bucket start) (genuine : ∀ a ∈ acts, GenuineAct a)
    (reached : run (act node bucket) start acts = some s) : Sound bucket s.db := by
  refine Runs.runKeeps (soundAct new.named)
    ⟨coherentNew new,fun key v obj stored => ?_⟩ (Runs.alongOf genuine start) reached
  rw [new.view] at stored
  contradiction

end

section
variable {node : Node} {call : Call} {bucket key v : Bytes} {bypass : Bool} {s : State}

variable (node call bucket key bypass s) in
theorem deleteVersionState (specific : v ≠ []) : (deleteObject node call bucket key bypass v s).2 = if validateObjectName key = true then
      (deleteSpecificVersion node call bucket (resolveFolderDeleteKey s bucket key) v bypass s).2 else s := by
  by_cases valid : validateObjectName key = true
  · rw [if_pos valid]
    refine wpState (P := fun s' => s' = (deleteSpecificVersion node call bucket (resolveFolderDeleteKey s bucket key) v bypass s).2) ?_
    rw [deleteObject,wpBind,wpCheck]
    refine ⟨fun _ => ?_,fun invalid => absurd valid (by simp [invalid])⟩
    rw [wpBind,wpGets,wpBind,wpGets,wpIte]
    refine ⟨fun _ => ?_,absurd specific⟩
    rw [wpBind]
    exact wpOfState rfl
  · rw [if_neg valid]
    refine wpState (P := fun s' => s' = s) ?_
    rw [deleteObject,wpBind,wpCheck]
    exact ⟨fun valid' => absurd valid' valid,fun _ => rfl⟩

theorem storedIff {r} (filed : Filed bucket s.db) (home : bucket ≠ []) : stored s bucket key = some r ↔
    (view bucket s.db key).current = some r := by
  constructor
  · intro found
    unfold stored at found
    split at found <;> try contradiction
    rename_i obj read
    cases found
    exact readCurrent filed read
  · intro found
    obtain ⟨keyed,identified⟩ := filed.current found
    have record : s.db.record bucket key [] = some r := found
    unfold stored Database.getObject
    rw [if_neg (by simp [home,← keyed,identified.key]),record]
    exact congrArg some (filledSelf (identified.bucket ▸ home) identified.key)

theorem droppedUnlocked {now h h' old} (stored : h.versions v = some old)
    (move : Move now (.drop key v bypass) key h h') : lockError now bypass old = none := by
  cases move with
  | dropOlder found unlocked _ | dropLast found unlocked _ _ | dropLatest found unlocked _ _ =>
    cases (stored.symm.trans found)
    exact unlocked

theorem droppedThere {now target h h'} (move : Move now (.drop key v bypass) target h h') : target = key := by
  cases move <;> rfl

theorem dropOutcome {t} (result : (deleteSpecificVersion node call bucket key v bypass s).2 = t) (filed : Filed bucket s.db)
    (home : bucket ≠ []) : Filed bucket t.db ∧ (Move call.now (.drop key v bypass) key (view bucket s.db key) (view bucket t.db key) ∧
          (∀ other, other ≠ key → view bucket t.db other = view bucket s.db other) ∨ (∀ other, view bucket t.db other = view bucket s.db other) ∧
          ∀ old, (view bucket s.db key).versions v = some old → lockError call.now bypass old ≠ none) := by
  subst result
  rcases deleteSpecificVersionDrops with ⟨mid,target,old,able,quiet⟩ | ⟨same,unable⟩
  · obtain ⟨filed',target,move,others⟩ := dropMoves filed able.listed able.read able.unlocked able.done
    have after other : view bucket _ other = view bucket _ other := viewQuiet quiet other
    rw [← after] at move
    have others other different := (after other).trans (others other different)
    cases droppedThere move
    exact ⟨filedSame filed' quiet.objects quiet.versions quiet.deleted,.inl ⟨move,others⟩⟩
  · refine ⟨same ▸ filed,.inr ⟨fun other => by rw [same],fun old found unlocked => unable ?_⟩⟩
    obtain ⟨stored,named⟩ := versionsInIff.mp found
    obtain ⟨id,_⟩ := filed.versions.at stored named
    have listed : versionOf old ∈ s.db.getObjectVersions node.sorting bucket key := (memVersions filed).mpr ⟨old,id ▸ found,rfl⟩
    obtain ⟨target,chosen⟩ := Option.isSome_iff_exists.mp (List.find?_isSome
      (p := fun ver : ObjectVersion => decide (ver.versionID = v)) |>.mpr ⟨_,listed,decide_eq_true id⟩)
    obtain ⟨mid,done⟩ : ∃ mid, s.db.deleteObjectVersion bucket key v = .ok mid := by
      unfold Database.deleteObjectVersion
      rw [stored]
      exact ⟨_,rfl⟩
    exact ⟨mid,target,old,chosen,readable filed home found,unlocked,done⟩

theorem resolvedDirectory (s : State) (bucket key : Bytes) :
    versionsDirectory bucket (resolveFolderDeleteKey s bucket key) = versionsDirectory bucket key := by
  unfold resolveFolderDeleteKey
  split
  · rfl
  split
  · rfl
  split
  · exact folderDirectory bucket key
  · rfl

theorem deleteVersionStanding {p'} (specific : v ≠ []) (ordinary : Ordinary v) (present' : p' ≠ [])
    (parted : Parted (versionsDirectory bucket key ++ [v]) p') (below : ¬ versionsDirectory bucket key ++ [v] <+: p') :
    Standing p' s.files (deleteObject node call bucket key bypass v s).2.files := by
  intro q mem
  rw [deleteVersionState node call bucket key bypass s specific]
  split
  · refine deleteSpecificVersionAt rfl fun obj _ _ => ?_
    have path : getFullPath (getVersionedObjectPath bucket (resolveFolderDeleteKey s bucket key) v) = versionsDirectory bucket key ++ [v] := by
      rw [versionedFull ordinary,resolvedDirectory]
    exact deleteFrame present' (path ▸ parted) (path ▸ below) mem
  · rfl

end

def Retrieved (node : Node) (bucket key w : Bytes) (s t : State) : Prop :=
  ∀ obj d, (getObject node bucket key w s).1 = .ok (obj, some d) →
    ∃ latest, (getObject node bucket key w t).1 = .ok ({ obj with isLatest := latest }, some d)

structure Local (node : Node) (bucket key v : Bytes) (s t : State) : Prop where
  versions : ∀ w r, w ≠ v → (view bucket s.db key).versions w = some r → Retrieved node bucket key w s t
  plain : ∀ r, stored s bucket key = some r → r.versionID = [] → Retrieved node bucket key [] s t

section
variable {node : Node} {bucket key w : Bytes} {s t : State} {r : ObjectMetadata} {obj : Object} {data data' : Option Bytes}

def opened (node : Node) (path : Bytes) (obj : Object) (t : Files) : Except Error (Object × Option Bytes) :=
  match (Filesystem.get node.host path t).1 with
  | .ok (data, m) => openObject node m data obj
  | .error e => .error (notFound (.storage e))

theorem readsVersion (specific : w ≠ []) (record : s.db.getObject bucket key w = .ok r) : (getObject node bucket key w s).1 =
    if validateObjectName key = true then opened node (getVersionedObjectPath bucket key w) (fromMetadataObject r) s.files
    else .error .invalidObjectName := by
  refine wpResult ?_
  rw [getObject,wpBind,wpCheck]
  refine ⟨fun valid => ?_,fun invalid => by simp [invalid]⟩
  rw [if_pos valid,recordToRead,if_neg specific,wpBind,wpBind,getObjectRecord,wpObserve,record]
  dsimp only
  rw [wpPure,wpBind,wpMapError,wpStorage]
  simp only [specific,if_false,and_false]
  unfold opened wp
  cases Filesystem.get node.host (getVersionedObjectPath bucket key w) s.files with
  | mk result files =>
    cases result with
    | error e => rfl
    | ok found =>
      dsimp only [observe]
      cases openObject node found.2 found.1 (fromMetadataObject r) <;> rfl

theorem algorithmMarked (m : StagedCommit.Metadata) (obj : Object) (latest : Bool) :
    withAlgorithm m { obj with isLatest := latest } = { withAlgorithm m obj with isLatest := latest } := by
  unfold withAlgorithm
  split <;> rfl

theorem openMarked (latest : Bool) {m shown} (ok : openObject node m data obj = .ok (shown, data')) :
    openObject node m data { obj with isLatest := latest } = .ok ({ shown with isLatest := latest }, data') := by
  unfold openObject at ok ⊢
  split at ok
  · rename_i encrypted
    rw [if_pos encrypted]
    cases key : decryptionKeyFor node m with
    | none => simp [key] at ok
    | some dek =>
      rw [key] at ok
      cases ok
      rw [algorithmMarked]
  · rename_i bare
    cases ok
    rw [if_neg bare]

theorem openShows {m shown} (ok : openObject node m data obj = .ok (shown, data')) : shown.versionID = obj.versionID ∧
    shown.legalHold = obj.legalHold := by
  unfold openObject withAlgorithm at ok
  split at ok
  · split at ok <;> try contradiction
    cases ok
    split <;> exact ⟨rfl,rfl⟩
  · cases ok
    exact ⟨rfl,rfl⟩

theorem retrievedVersion {latest} (specific : w ≠ []) (record : s.db.getObject bucket key w = .ok r)
    (record' : t.db.getObject bucket key w = .ok { r with isLatest := latest })
    (standing : Standing (getFullPath (getVersionedObjectPath bucket key w)) s.files t.files) : Retrieved node bucket key w s t := by
  intro obj d read
  obtain ⟨f,file⟩ := readFile read
  rw [pathIn,if_neg specific,pathOf,if_neg specific] at file
  have agrees : Agrees _ (Filesystem.get node.host (getVersionedObjectPath bucket key w)) := agreesGet
  have same := (agrees s.files t.files ⟨⟨f,file⟩,standing⟩).1
  rw [readsVersion specific record] at read
  rw [readsVersion specific record']
  split at read <;> try contradiction
  rename_i valid
  rw [if_pos valid]
  unfold opened at read ⊢
  rw [← same]
  split at read <;> try contradiction
  exact ⟨latest,openMarked latest read⟩

theorem readShows (read : (getObject node bucket key [] s).1 = .ok (obj, data)) : match stored s bucket key with
    | some r => obj.versionID = r.versionID ∧ obj.legalHold ≠ none
    | none => obj.legalHold = none := by
  have spec : wp (getObject node bucket key []) (fun shown _ => match stored s bucket key with
      | some r => shown.1.versionID = r.versionID ∧ shown.1.legalHold ≠ none
      | none => shown.1.legalHold = none) (fun _ _ => True) s := by
    rw [getObject,wpBind,wpCheck]
    refine ⟨fun _ => ?_,fun _ => trivial⟩
    rw [recordToRead,if_pos rfl,wpBind,wpGets,wpBind]
    refine wpLax (wpOfState (P := fun _ => True) trivial) fun found files _ => ?_
    cases stored s bucket key with
    | none =>
      rw [wpObserve]
      split <;> try trivial
      rename_i shown ok
      exact (openShows ok).2
    | some r =>
      rw [wpIte]
      refine ⟨fun _ => trivial,fun _ => ?_⟩
      rw [wpObserve]
      split <;> try trivial
      rename_i shown ok
      obtain ⟨version,hold⟩ := openShows ok
      exact ⟨version,by rw [hold]; simp [fromMetadataObject]⟩
  unfold wp at spec
  split at spec <;> rename_i result <;> rw [result] at read
  · cases read
    exact spec
  · contradiction

end

section
variable {now : Int} {bucket key v w : Bytes} {bypass : Bool} {h h' : KeyHistory} {r old : ObjectMetadata}

theorem versionLeft (other : w ≠ v) (stored : h.versions w = some r) (move : Move now (.drop key v bypass) key h h') :
    ∃ latest, h'.versions w = some { r with isLatest := latest } := by
  have kept : (h.remove v).versions w = some r := (Function.update_of_ne other ..).trans stored
  cases move with
  | dropOlder => exact ⟨r.isLatest,kept⟩
  | dropLast _ _ _ alone =>
    rw [alone] at kept
    contradiction
  | @dropLatest _ _ _ _ x next _ _ _ _ promoted =>
    by_cases here : w = x
    · subst here
      rw [promoted] at kept
      cases kept
      exact ⟨true,if_pos rfl⟩
    · refine ⟨false,(if_neg here).trans ?_⟩
      rw [kept]
      rfl

theorem currentLeft (named : h.Named shape) (stored : h.versions v = some old) (move : Move now (.drop key v bypass) key h h') :
    if old.isLatest = true then ∀ c, h'.current = some c → c.versionID ≠ [] else h'.current = h.current := by
  cases move with
  | dropOlder found _ older =>
    cases (stored.symm.trans found)
    rw [if_neg (by simp [older])]
    rfl
  | dropLast found _ latest _ =>
    cases (stored.symm.trans found)
    rw [if_pos latest]
    exact fun c current => by cases current
  | dropLatest found _ latest promoted =>
    cases (stored.symm.trans found)
    rw [if_pos latest]
    intro c current
    cases current
    exact (shapeIdIff.mp (History.namedRemove named _ _ promoted)).1

end

section
variable {node : Node} {call : Call} {bucket key v w : Bytes} {bypass : Bool} {s : State} {r old : ObjectMetadata}

structure Displaces (node : Node) (call : Call) (bucket key : Bytes) (bypass : Bool) (old : ObjectMetadata) (s : State) : Prop where
  plain : ∃ r, stored s bucket key = some r ∧ r.versionID = []
  readable : ∃ obj d, (getObject node bucket key [] s).1 = .ok (obj, some d)
  latest : old.isLatest = true
  unlocked : lockError call.now bypass old = none

theorem resolvedSelf (found : stored s bucket key = some r) : resolveFolderDeleteKey s bucket key = key := by
  unfold resolveFolderDeleteKey
  rw [found]
  simp

theorem readValid {data} (read : (getObject node bucket key w s).1 = .ok data) : validateObjectName key = true := by
  by_contra invalid
  have refused : (getObject node bucket key w s).1 = .error .invalidObjectName := by
    refine wpResult ?_
    rw [getObject,wpBind,wpCheck]
    exact ⟨fun valid => absurd valid (by simp [invalid]),fun _ => rfl⟩
  rw [refused] at read
  contradiction

section
variable (sound : Sound bucket s.db) (home : bucket ≠ []) (version : (view bucket s.db key).versions v = some old)
include sound home version

theorem retrievedOther (other : w ≠ v) (found : (view bucket s.db key).versions w = some r) :
    Retrieved node bucket key w s (deleteObject node call bucket key bypass v s).2 := by
  intro obj d read
  have valid := readValid read
  have ordinary := sound.ordinary key v old version
  have ordinary' := sound.ordinary key w r found
  have result := deleteVersionState node call bucket key bypass s ordinary.present
  rw [if_pos valid] at result
  obtain ⟨filed,outcome⟩ := dropOutcome result.symm sound.filed home
  obtain ⟨latest,left⟩ : ∃ latest, (view bucket (deleteObject node call bucket key bypass v s).2.db key).versions w =
      some { r with isLatest := latest } := by
    rcases outcome with ⟨move,others⟩ | ⟨same,_⟩
    · by_cases here : key = resolveFolderDeleteKey s bucket key
      · rw [← here] at move
        exact versionLeft other found move
      · exact ⟨r.isLatest,by rw [others key here]; exact found⟩
    · exact ⟨r.isLatest,by rw [same key]; exact found⟩
  have standing : Standing (getFullPath (getVersionedObjectPath bucket key w)) s.files (deleteObject node call bucket key bypass v s).2.files := by
    rw [versionedFull ordinary']
    refine deleteVersionStanding ordinary.present ordinary (by simp) (partedVersions ordinary ordinary' _) (fun below => other ?_)
    have same := below.eq_of_length (by simp)
    exact (List.cons.inj (append_cancel_left same)).1.symm
  exact retrievedVersion ordinary'.present (readable sound.filed home found) (readable filed home left) standing obj d read

theorem retrievedPlain (current : stored s bucket key = some r) (plain : r.versionID = [])
    (kept : lockError call.now bypass old = none → old.isLatest = false) :
    Retrieved node bucket key [] s (deleteObject node call bucket key bypass v s).2 := by
  intro obj d read
  have valid := readValid read
  have ordinary := sound.ordinary key v old version
  have result := deleteVersionState node call bucket key bypass s ordinary.present
  rw [if_pos valid,resolvedSelf current] at result
  obtain ⟨_,outcome⟩ := dropOutcome result.symm sound.filed home
  have record : (view bucket (deleteObject node call bucket key bypass v s).2.db key).current = (view bucket s.db key).current := by
    rcases outcome with ⟨move,_⟩ | ⟨same,_⟩
    · have left := currentLeft (sound.filed.named key) version move
      rw [kept (droppedUnlocked version move)] at left
      exact left
    · rw [same key]
  have asked : currentVersion s bucket key = [] := by
    rw [currentVersion,current]
    exact plain
  obtain ⟨f,file⟩ := readFile read
  rw [pathIn,if_pos rfl,asked,pathOf,if_pos rfl] at file
  have longer : (getFullPath (getObjectPath bucket key)).length < (versionsDirectory bucket key ++ [v]).length := by
    rw [objectFull,versionsDirectory]
    simp only [length_append,length_singleton]
    omega
  have standing : Standing (getFullPath (getObjectPath bucket key)) s.files (deleteObject node call bucket key bypass v s).2.files :=
    deleteVersionStanding ordinary.present ordinary
    (fun root => by rw [root,s.files.getRoot] at file; contradiction)
    (partedLonger longer) (fun below => Nat.not_lt.mpr below.length_le longer)
  have same : SameObject bucket key [] s (deleteObject node call bucket key bypass v s).2 := ⟨record,asked,⟨f,file⟩,standing⟩
  exact ⟨obj.isLatest,(agreesGetObject s _ same).1.symm.trans read⟩

theorem displacedLost (displaces : Displaces node call bucket key bypass old s) :
    ¬ Retrieved node bucket key [] s (deleteObject node call bucket key bypass v s).2 := by
  intro retrieved
  obtain ⟨_,current,plain⟩ := displaces.plain
  obtain ⟨obj,d,read⟩ := displaces.readable
  obtain ⟨_,again⟩ := retrieved obj d read
  have result := deleteVersionState node call bucket key bypass s (sound.ordinary key v old version).present
  rw [if_pos (readValid read),resolvedSelf current] at result
  obtain ⟨filed,outcome⟩ := dropOutcome result.symm sound.filed home
  have before := readShows read
  have after := readShows again
  rw [current] at before
  rcases outcome with ⟨move,_⟩ | ⟨_,locked⟩
  · have left := currentLeft (sound.filed.named key) version move
    rw [if_pos displaces.latest] at left
    cases now : stored (deleteObject node call bucket key bypass v s).2 bucket key with
    | none =>
      rw [now] at after
      exact before.2 after
    | some c =>
      rw [now] at after
      exact left c ((storedIff filed home).mp now) (after.1.symm.trans (before.1.trans plain))
  · exact locked old version displaces.unlocked

end

end

/-- On UTF-8 names, deleting a version leaves every other copy exactly when it does not displace an object put without one. -/
theorem versionDeletionLocal {node} {bucket key v} {start s} {before} {old}
    (call : Call) (bypass : Bool) (new : NewBucket bucket start) (genuine : ∀ a ∈ before, GenuineAct a ∧ SentAct a)
    (reached : run (act node bucket) start before = some s) (version : (view bucket s.db key).versions v = some old) :
    Local node bucket key v s (deleteObject node call bucket key bypass v s).2 ↔ ¬ Displaces node call bucket key bypass old s := by
  have sound := soundRun new (fun a inside => (genuine a inside).1) reached
  constructor
  · intro local_ displaces
    obtain ⟨r,current,plain⟩ := displaces.plain
    exact displacedLost sound new.named version displaces (local_.plain r current plain)
  intro spared
  refine ⟨fun w r other found => retrievedOther sound new.named version other found,fun r current plain obj d read => ?_⟩
  refine retrievedPlain sound new.named version current plain (fun unlocked => ?_) obj d read
  by_contra latest
  exact spared ⟨⟨r,current,plain⟩,⟨obj,d,read⟩,by simpa using latest,unlocked⟩

/-! Two versions of k in bucket b, and an object put while versioning is suspended. -/

def writtenAt (seconds : Int) (data : Bytes) : Act := .call ⟨callAt seconds, .put (ascii "k") data OrderedStore.empty⟩

def suspendedCopies : List Act := [writtenAt 5 [1], writtenAt 6 [2], .setVersioning (some (ascii "Suspended")), writtenAt 7 [3]]

def versionAt (seconds : Int) : Bytes := formatInt (fromSeconds seconds)

theorem suspendedGenuine : ∀ a ∈ suspendedCopies, GenuineAct a ∧ SentAct a := by
  intro a mem
  simp only [suspendedCopies,mem_cons,not_mem_nil,or_false] at mem
  rcases mem with rfl | rfl | rfl | rfl
  · exact ⟨.inl rfl,show Sent _ by decide⟩
  · exact ⟨.inl rfl,show Sent _ by decide⟩
  · exact ⟨trivial,trivial⟩
  · exact ⟨.inl rfl,show Sent _ by decide⟩

-- The older of the two versions goes, and nothing else does.
theorem olderVersionDeleted : ∃ s, run (act smallNode (ascii "b")) versionedBucket suspendedCopies = some s ∧
    Local smallNode (ascii "b") (ascii "k") (versionAt 5) s
    (deleteObject smallNode (callAt 8) (ascii "b") (ascii "k") false (versionAt 5) s).2 := by
  refine runShows (fun s => ∃ r, (view (ascii "b") s.db (ascii "k")).versions (versionAt 5) = some r ∧ r.isLatest = false)
    (by decide +kernel) fun s reached ⟨old,version,older⟩ => ?_
  refine (versionDeletionLocal (callAt 8) false (newBucketEmpty _) suspendedGenuine reached version).mpr fun displaces => ?_
  rw [displaces.latest] at older
  contradiction

-- The newer one still carries the mark: the older takes the place of the object that was put last.
theorem suspendedObjectReplaced : ∃ s old, run (act smallNode (ascii "b")) versionedBucket suspendedCopies = some s ∧
    (view (ascii "b") s.db (ascii "k")).versions (versionAt 6) = some old ∧
    (getObject smallNode (ascii "b") (ascii "k") [] s).1.toOption.map Prod.snd = some (some [3]) ∧ (getObject smallNode (ascii "b") (ascii "k") []
      (deleteObject smallNode (callAt 8) (ascii "b") (ascii "k") false (versionAt 6) s).2).1.toOption.map Prod.snd = some (some [1]) ∧
    ¬ Local smallNode (ascii "b") (ascii "k") (versionAt 6) s
    (deleteObject smallNode (callAt 8) (ascii "b") (ascii "k") false (versionAt 6) s).2 := by
  obtain ⟨s,reached,there,⟨r,stored,plain⟩,first,second⟩ : ∃ s, run (act smallNode (ascii "b")) versionedBucket suspendedCopies = some s ∧
      ((view (ascii "b") s.db (ascii "k")).versions (versionAt 6)).isSome = true ∧
      (∃ r, stored s (ascii "b") (ascii "k") = some r ∧ r.versionID = []) ∧
      (getObject smallNode (ascii "b") (ascii "k") [] s).1.toOption.map Prod.snd = some (some [3]) ∧
      (getObject smallNode (ascii "b") (ascii "k") []
        (deleteObject smallNode (callAt 8) (ascii "b") (ascii "k") false (versionAt 6) s).2).1.toOption.map Prod.snd = some (some [1]) := by
    decide +kernel
  obtain ⟨old,version⟩ := Option.isSome_iff_exists.mp there
  refine ⟨s,old,reached,version,first,second,fun local_ => ?_⟩
  obtain ⟨⟨obj,_⟩,answered,bytes⟩ := Option.map_eq_some_iff.mp first
  cases bytes
  obtain ⟨_,again⟩ := local_.plain r stored plain obj [3] (toOptionIff.mp answered)
  rw [again] at second
  cases (Option.some.inj second)

end MaxIOFS.VersionDeletion
