import MaxIOFS.ManagerRuns

/-! Runs whose requests name everything in UTF-8: every record is read back under the key and the version it was
written with, so a store that keeps the bytes does what the store of JSON records does. -/
namespace MaxIOFS.TextRuns
open ByteString MetadataStore Records ObjectManager RecordChanges VersionHistory VersionMoves ManagerRuns Ledger Utf8 List
open Runs (run runKeeps alongOf)

structure ReadBack (obj : ObjectMetadata) : Prop where
  key : Text obj.key
  versionID : Text obj.versionID

def Throughout (h : KeyHistory) : Prop := (∀ c, h.current = some c → ReadBack c) ∧ ∀ v r, h.versions v = some r → ReadBack r

def Brings : Change → Prop
  | .insert obj | .plain obj | .adopt obj => ReadBack obj
  | _ => True

theorem readBackSame {old new} (same : SameIdentity old new) (read : ReadBack old) : ReadBack new :=
  ⟨same.key ▸ read.key,same.versionID ▸ read.versionID⟩

theorem throughoutPut {h : KeyHistory} {obj} (all : Throughout h) (read : ReadBack obj) : Throughout (h.put shape obj) := by
  unfold History.put
  split
  · exact ⟨fun c current => Option.some.inj current ▸ read,all.2⟩
  refine ⟨fun c current => ?_,fun v r found => ?_⟩
  · dsimp only at current
    split at current
    · exact Option.some.inj current ▸ read
    · exact all.1 c current
  · dsimp only at found
    rw [Function.update_apply] at found
    split at found
    · exact Option.some.inj found ▸ read
    · exact all.2 v r found

theorem throughoutInsert {h : KeyHistory} {obj} (all : Throughout h) (v : Bytes) (read : ReadBack obj) : Throughout (h.insert shape v obj) := by
  refine ⟨fun c current => Option.some.inj current ▸ read,fun w r found => ?_⟩
  unfold History.insert at found
  dsimp only at found
  split at found
  · exact Option.some.inj found ▸ read
  · obtain ⟨old,stored,rfl⟩ := Option.map_eq_some_iff.mp found
    exact ⟨(all.2 w old stored).key,(all.2 w old stored).versionID⟩

theorem throughoutRemove {h : KeyHistory} (all : Throughout h) (v : Bytes) : Throughout (h.remove v) := by
  refine ⟨all.1,fun w r found => ?_⟩
  unfold History.remove at found
  dsimp only at found
  rw [Function.update_apply] at found
  split at found
  · cases found
  · exact all.2 w r found

theorem throughoutMove {now change key h h'} (all : Throughout h) (brings : Brings change) (move : Move now change key h h') : Throughout h' := by
  cases move with
  | insert => exact throughoutInsert all _ ⟨brings.key,brings.versionID⟩
  | plain => exact throughoutPut all ⟨brings.key,brings.versionID⟩
  | adopt => exact throughoutPut all ⟨brings.key,brings.versionID⟩
  | @edit _ _ old new _ present same _ =>
    have read : ReadBack old := present.elim (all.1 old) fun version => all.2 _ old version.2
    have new_ := readBackSame same read
    exact throughoutPut all ⟨new_.key,new_.versionID⟩
  | dropOlder => exact throughoutRemove all _
  | dropLast => exact ⟨by simp [History.clear],(throughoutRemove all _).2⟩
  | @dropLatest _ _ _ _ w next _ _ _ _ promoted =>
    have read := (throughoutRemove all _).2 w next promoted
    exact throughoutInsert (throughoutRemove all _) _ ⟨read.key,read.versionID⟩
  | erase => exact ⟨by simp [History.clear],all.2⟩

theorem slashLow : slash < 0x80 := by decide

theorem textSegments {key : Bytes} (text : Text key) : ∀ part ∈ split slash key, Text part := by
  induction size : key.length using Nat.strong_induction_on generalizing key with
  | h n ih =>
    by_cases nested : slash ∈ key
    · obtain ⟨a,b,rfl⟩ := append_of_mem nested
      obtain ⟨front,back⟩ := (textAt slashLow a b).mp text
      rw [length_append,length_cons] at size
      rw [splitAppend]
      intro part mem
      rcases mem_append.mp mem with here | there
      · exact ih a.length (by omega) front rfl part here
      · exact ih b.length (by omega) back rfl part there
    · rw [splitSegment nested]
      exact fun part mem => mem_singleton.mp mem ▸ text

theorem textFolders {current : Bytes} {parts} (text : Text current) (all : ∀ part ∈ parts, Text part) :
    ∀ folder ∈ folderPrefixes current parts, Text folder := by
  induction parts generalizing current with
  | nil => simp [folderPrefixes]
  | cons part rest ih =>
    have later := fun p mem => all p (mem_cons_of_mem part mem)
    unfold folderPrefixes
    split
    · exact ih text later
    have next : Text (if current = [] then part else current ++ [slash] ++ part) := by
      split
      · exact all part mem_cons_self
      · rw [append_assoc,singleton_append,textAt slashLow]
        exact ⟨text,all part mem_cons_self⟩
    intro folder mem
    rcases mem_cons.mp mem with rfl | below
    · exact (textAt slashLow _ []).mpr ⟨next,rfl⟩
    · exact ih next later folder below

theorem textImplicit {key folder : Bytes} (text : Text key) (mem : folder ∈ implicitFolders key) : Text folder := by
  unfold implicitFolders at mem
  split at mem
  · cases mem
  · exact textFolders (show Text ([] : Bytes) from rfl) (fun part inside => textSegments text part (mem_of_mem_dropLast inside)) folder mem

theorem textGenerated (call : Call) : Text (generateVersionID call) := by
  have number {i b} (mem : b ∈ formatInt i) : b < 0x80 := by
    rcases formatIntByte mem with rfl | ⟨-,high⟩
    · decide
    · exact high.trans_lt (by decide)
  have digit {bytes b} (mem : b ∈ hex bytes) : b < 0x80 := by
    have small : ∀ k < 16, hexDigit k < 0x80 := by decide
    obtain ⟨_,_,rfl⟩ := mem_map.mp mem
    exact small _ (Nat.mod_lt _ (by decide))
  refine textLow fun b mem => ?_
  unfold generateVersionID at mem
  split at mem
  · rcases mem_append.mp mem with front | last
    · rcases mem_append.mp front with here | dot
      · exact number here
      · rw [mem_singleton.mp (show b ∈ [46] from dot)]
        decide
    · exact digit last
  · exact number mem

section
variable {node : Node} {bucket : Bytes} {s final : State} {e : Event}

theorem textChosen {id} (sent : Sent e) (chosen : chooseVersion e.call true = .ok id) : Text id := by
  unfold chooseVersion at chosen
  rw [if_pos rfl] at chosen
  split at chosen
  · cases chosen
    exact textGenerated _
  split at chosen <;> try contradiction
  cases chosen
  exact sent.text _ mem_cons_self

def UploadsNamed (s : State) (e : Event) : Prop :=
  ∀ uploadID parts upload, e.request = .complete uploadID parts → s.db.getMultipartUpload uploadID = .ok upload → Text upload.key

theorem permittedBrings {change} (sent : Sent e) (uploads : UploadsNamed s e) (permitted : Permitted s bucket e change) : Brings change := by
  have names := fun name mem => sent.text name (mem_cons_of_mem _ mem)
  have chosen {id} : chooseVersion e.call true = .ok id → Text id := textChosen sent
  have edits {key v} {rel} (text : Text key) (ok : EditChange s bucket key v rel change) : Brings change := by
    cases change <;> simp only [EditChange] at ok <;> try trivial
    exact ⟨ok.2.2.2.1 ▸ text,ok.2.2.2.2 ▸ rfl⟩
  obtain ⟨call,request⟩ := e
  cases request with
  | put key data headers =>
    have text : Text key := names key mem_cons_self
    cases change <;> simp only [Permitted,PutChange] at permitted
    · obtain ⟨_,_,_,rfl,version,_⟩ := permitted
      exact ⟨text,chosen version⟩
    · exact ⟨permitted.2.2.1 ▸ text,permitted.2.2.2 ▸ rfl⟩
    · exact ⟨textImplicit text permitted.2.1,permitted.2.2 ▸ rfl⟩
  | delete key bypass versionID =>
    have text : Text key := names key mem_cons_self
    have resolved : Text (resolveFolderDeleteKey s bucket key) := by
      unfold resolveFolderDeleteKey
      split_ifs <;> first | exact text | exact (textAt slashLow key []).mpr ⟨text,rfl⟩
    cases change <;> simp only [Permitted] at permitted <;> try trivial
    obtain ⟨_,_,_,version,same⟩ := permitted
    have version := chosen version
    rw [same] at version ⊢
    exact ⟨resolved,version⟩
  | createUpload uploadID key headers => exact permitted.elim
  | uploadPart uploadID partNumber data => exact permitted.elim
  | complete uploadID parts =>
    obtain ⟨upload,found,_,ok⟩ := permitted
    have text := uploads uploadID parts upload rfl found
    cases change <;> simp only [CompleteChange] at ok
    · exact ⟨ok.2.2.1 ▸ text,ok.2.2.2.1 ▸ textGenerated call⟩
    · exact ⟨ok.2.2.1 ▸ text,ok.2.2.2 ▸ rfl⟩
  | setRetention key config versionID => exact edits (names key mem_cons_self) permitted
  | setLegalHold key config versionID => exact edits (names key mem_cons_self) permitted
  | setTagging key tags versionID => exact edits (names key mem_cons_self) permitted
  | setACL key acl versionID => exact edits (names key mem_cons_self) permitted
  | setRestore key status expiresAt versionID => exact edits (names key mem_cons_self) permitted
  | updateMetadata key updates => exact edits (names key mem_cons_self) permitted

structure Legible (bucket : Bytes) (db : Database) : Prop where
  filed : Filed bucket db
  read : ∀ key, Throughout (view bucket db key)

theorem legibleStep {next} (home : bucket ≠ []) (legible : Legible bucket s.db) (ok : Sent e ∧ UploadsNamed s e)
    (stepped : step node bucket s e = some next) : Legible bucket next.db := by
  obtain ⟨own,rfl⟩ := stepPerforms stepped
  refine (performFollows own).keeps (fun same holds => ?_) (fun permitted effect holds => ?_) legible
  · exact ⟨filedSame holds.filed same.objects same.versions same.deleted,fun key => by rw [viewQuiet same]; exact holds.read key⟩
  obtain ⟨filed,key,move,others⟩ := effectMoves holds.filed home (permittedTame ok.1.plain permitted) effect
  refine ⟨filed,fun other => ?_⟩
  by_cases here : other = key
  · exact here ▸ throughoutMove (holds.read key) (permittedBrings ok.1 ok.2 permitted) move
  · exact others other here ▸ holds.read other

/-- After any requests that name everything in UTF-8, every record of the bucket is read back under its own key and version. -/
theorem textRunReadBack {events} (new : NewBucket bucket s) (sent : Runs.Along (step node bucket) (fun s e => Sent e ∧ UploadsNamed s e) s events)
    (done : run (step node bucket) s events = some final) : Legible bucket final.db := by
  refine runKeeps (I := fun s => Legible bucket s.db) (fun holds ok stepped => legibleStep new.named holds ok stepped)
    ⟨new.filed,fun key => ?_⟩ sent done
  rw [new.view]
  exact ⟨by simp [vacant],by simp [vacant]⟩

end

-- The letter é, an object below it, and a deletion.
def accented : List Event :=
  [⟨callAt 1, .put [195, 169] [1] OrderedStore.empty⟩, ⟨callAt 2, .put [195, 169, 47, 120] [2] OrderedStore.empty⟩,
    ⟨callAt 3, .delete [195, 169] false []⟩]

theorem accentedReadBack : ∃ final, run (step smallNode (ascii "b")) versionedBucket accented = some final ∧ Legible (ascii "b") final.db := by
  have ends : (run (step smallNode (ascii "b")) versionedBucket accented).isSome = true := by decide +kernel
  obtain ⟨final,done⟩ := Option.isSome_iff_exists.mp ends
  have sent : Runs.Along (step smallNode (ascii "b")) (fun s e => Sent e ∧ UploadsNamed s e) versionedBucket accented := by
    refine ⟨⟨by decide,?_⟩,fun _ _ => ⟨⟨by decide,?_⟩,fun _ _ => ⟨⟨by decide,?_⟩,fun _ _ => trivial⟩⟩⟩ <;> rintro _ _ _ ⟨⟩
  exact ⟨final,done,textRunReadBack (newBucketEmpty _) sent done⟩

end MaxIOFS.TextRuns
