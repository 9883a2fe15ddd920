import MaxIOFS.ManagerRuns

/-! The calls that set one field of an object's record, and what they leave of its other fields. -/
namespace MaxIOFS.SetterFrames
open ManagerRuns ByteString OrderedStore Effects MetadataStore Records ObjectManager RecordChanges ObjectMetadata

inductive Setter where
  | tagging (tags : Option (List (Bytes × Bytes)))
  | clearTagging
  | acl (list : Option ACL)
  | retention (config : Option Retention)
  | legalHold (config : Option Bytes)
  | restore (status : Bytes) (expiresAt : Option Int)

namespace Setter

def perform (node : Node) (call : Call) (bucket key versionID : Bytes) : Setter → Action State Error Unit
  | .tagging tags => setObjectTagging node call bucket key tags versionID
  | .clearTagging => deleteObjectTagging node call bucket key versionID
  | .acl list => setObjectACL node call bucket key list versionID
  | .retention config => setObjectRetention node call bucket key config versionID
  | .legalHold config => setObjectLegalHold node call bucket key config versionID
  | .restore status expiresAt => setRestoreStatus node call bucket key status expiresAt versionID

def written (old : ObjectMetadata) : Setter → ObjectMetadata
  | .tagging tags => toMetadataObject { fromMetadataObject old with tags := tags }
  | .clearTagging => toMetadataObject { fromMetadataObject old with tags := some [] }
  | .acl list => toMetadataObject { fromMetadataObject old with acl := list }
  | .retention config => toMetadataObject { fromMetadataObject old with retention := config }
  | .legalHold config => toMetadataObject { fromMetadataObject old with legalHold := config }
  | .restore status expiresAt =>
    { toMetadataObject (fromMetadataObject old) with restoreStatus := status, restoreExpiresAt := expiresAt }

def others (setter : Setter) (r : ObjectMetadata) : ObjectMetadata :=
  let r := { r with updatedAt := none }
  match setter with
  | .tagging _ | .clearTagging => { r with tags := empty }
  | .acl _ => { r with acl := none }
  | .retention _ => { r with retention := none }
  | .legalHold _ => { r with legalHold := false }
  | .restore _ _ => { r with restoreStatus := [], restoreExpiresAt := none }

def restores : Setter → Bool
  | .restore _ _ => true
  | _ => false

end Setter

section
variable {node : Node} {call : Call} {bucket key v : Bytes} {s : State} {r : ObjectMetadata}

def PutBack (call : Call) (new : ObjectMetadata) (s s' : State) : Prop :=
  ∃ db, s.db.putObject call.now new = .ok db ∧ s'.db.objects = db.objects ∧ s'.db.versions = db.versions

theorem savePuts {new s'} (same : s'.db = s.db) : wp (save call new) (fun _ => PutBack call new s) (fun _ _ => True) s' := by
  rw [save,wpDatabase,same]
  cases done : s.db.putObject call.now new with
  | ok db => exact ⟨db,done,rfl,rfl⟩
  | error e => trivial

theorem sourceRead {obj} (read : s.db.getObject bucket key v = .ok r) (source : Source s bucket key v obj) : obj = fromMetadataObject r := by
  cases source with
  | record read' => rw [Except.ok.inj (read.symm.trans read')]
  | file current missing _ =>
    subst current
    exact absurd read (storedNone missing r)

theorem setterPuts (setter : Setter) (read : s.db.getObject bucket key v = .ok r) :
    wp (setter.perform node call bucket key v) (fun _ => PutBack call (setter.written r) s) (fun _ _ => True) s := by
  have reads {edit : Object → Action State Error Unit}
      (edits : ∀ s', s'.db = s.db → wp (edit (fromMetadataObject r)) (fun _ => PutBack call (setter.written r) s) (fun _ _ => True) s') :
      wp (do let obj ← getObjectMetadataForVersion node bucket key v; edit obj) (fun _ => PutBack call (setter.written r) s)
      (fun _ _ => True) s := by
    rw [wpBind]
    refine wpLax (getForVersionSpec node bucket key v s) fun obj s' found => ?_
    rw [sourceRead read found.2]
    exact edits s' found.1
  cases setter with
  | tagging tags =>
    refine reads fun s' same => ?_
    rw [wpBind,wpCheck]
    exact ⟨fun _ => savePuts same,fun _ => trivial⟩
  | clearTagging =>
    exact reads fun s' same => savePuts same
  | acl acl =>
    refine reads fun s' same => ?_
    rw [wpBind]
    refine wpLax (savePuts same) fun _ s₁ put => ?_
    rw [wpIte]
    refine ⟨fun _ => put,fun _ => ?_⟩
    cases acl with
    | none => trivial
    | some acl =>
      exact put
  | retention config =>
    refine reads fun s' same => ?_
    cases shortens call.now config (fromMetadataObject r) with
    | some e => trivial
    | none => exact savePuts same
  | legalHold config =>
    exact reads fun s' same => savePuts same
  | restore status expiresAt =>
    exact reads fun s' same => savePuts same

end

theorem backIs (r : ObjectMetadata) : toMetadataObject (fromMetadataObject r) =
    { r with restoreStatus := [], restoreExpiresAt := none, createdAt := none, updatedAt := none } := by
  have tags : (toMetadataObject (fromMetadataObject r)).tags = r.tags := Store.extGet (tagsRoundTrip r)
  have hold : (toMetadataObject (fromMetadataObject r)).legalHold = r.legalHold := holdRoundTrip r
  calc toMetadataObject (fromMetadataObject r) = { toMetadataObject (fromMetadataObject r) with
          tags := (toMetadataObject (fromMetadataObject r)).tags
          legalHold := (toMetadataObject (fromMetadataObject r)).legalHold } := rfl
    _ = _ := by rw [tags,hold]; rfl

theorem othersWritten (setter : Setter) (now : Int) (r : ObjectMetadata) :
    setter.others (stamped now (setter.written r)) = setter.others (stamped now (toMetadataObject (fromMetadataObject r))) := by
  cases setter <;> rfl

structure StoredAt (bucket key v : Bytes) (db : Database) (r : ObjectMetadata) : Prop where
  home : bucket ≠ []
  named : key ≠ []
  found : db.record bucket key v = some r
  bucket : r.bucket = [] ∨ r.bucket = bucket
  version : v ≠ [] → r.versionID = v

structure Carried (setter : Setter) (now : Int) (bucket key : Bytes) (r : ObjectMetadata) : Prop where
  bucket : r.bucket = bucket
  key : r.key = key
  restore : setter.restores = false → r.restoreStatus = [] ∧ r.restoreExpiresAt = none
  created : r.createdAt = some now
  modified : 1000000000 ≤ r.lastModified ∨ r.lastModified = now

-- The current record of the key names a version that is not marked latest: only the version's entry is written.
def Detached (v : Bytes) (r : ObjectMetadata) : Prop := v = [] ∧ r.versionID ≠ [] ∧ r.isLatest = false

instance (v : Bytes) (r : ObjectMetadata) : Decidable (Detached v r) := inferInstanceAs (Decidable (_ ∧ _))

-- A key that is no UTF-8 is read back as another one, and the record is written under that one.
def Misnamed (key : Bytes) (r : ObjectMetadata) : Prop := r.key ≠ [] ∧ r.key ≠ key

section
variable {node : Node} {call : Call} {bucket key v : Bytes} {s : State} {r : ObjectMetadata}

theorem othersCarried (setter : Setter) (now : Int) (stored : StoredAt bucket key v s.db r) (own : r.key = [] ∨ r.key = key) :
    setter.others (stamped now (setter.written (filled bucket key r))) = setter.others r ↔ Carried setter now bucket key r := by
  have named {mine given : Bytes} (own : mine = [] ∨ mine = given) : (if mine = [] then given else mine) = mine ↔ mine = given := by
    rcases own with absent | same
    · rw [if_pos absent,eq_comm]
    · rw [same,ite_self]
  have modified : (if r.lastModified < 1000000000 then now else r.lastModified) = r.lastModified ↔ 1000000000 ≤ r.lastModified ∨
      r.lastModified = now := by
    split <;> omega
  have split : Carried setter now bucket key r ↔ r.bucket = bucket ∧ r.key = key ∧ (1000000000 ≤ r.lastModified ∨ r.lastModified = now) ∧
      (setter.restores = false → r.restoreStatus = [] ∧ r.restoreExpiresAt = none) ∧ r.createdAt = some now :=
    ⟨fun c => ⟨c.bucket,c.key,c.modified,c.restore,c.created⟩,fun c => ⟨c.1,c.2.1,c.2.2.2.1,c.2.2.2.2,c.2.2.1⟩⟩
  rw [split,← named stored.bucket,← named own,← modified,othersWritten,backIs]
  cases setter <;> simp only [Setter.others,Setter.restores,stamped,filled,Option.getD_none,mk.injEq,true_and,and_true,
    forall_const,reduceCtorEq,false_implies,eq_comm (a := r.restoreStatus),eq_comm (a := r.restoreExpiresAt),
    eq_comm (a := r.createdAt),and_assoc] <;> exact Iff.rfl

theorem putRecord {db db' : Database} {now obj} (done : db.putObject now obj = .ok db') (home : obj.bucket = bucket)
    (named : obj.key = key) (version : v ≠ [] → obj.versionID = v) :
    db'.record bucket key v = if Detached v obj then db.record bucket key v else some (stamped now obj) := by
  subst home named
  obtain ⟨rfl,_⟩ := putObjectWrites done
  unfold Database.record
  by_cases current : v = []
  · subst current
    simp only [if_true]
    by_cases own : obj.versionID = [] ∨ obj.isLatest = true
    · have attached : ¬ Detached [] obj := fun apart => own.elim apart.2.1 fun latest => Bool.false_ne_true (apart.2.2.symm.trans latest)
      rw [if_neg attached]
      change (if obj.versionID = [] ∨ obj.isLatest = true then db.objects.set (objectKey obj.bucket obj.key) (stamped now obj)
        else db.objects).get _ = _
      rw [if_pos own,Store.getSetSame]
    · have apart : Detached [] obj := ⟨rfl,fun unnamed => own (.inl unnamed),Bool.eq_false_iff.mpr fun latest => own (.inr latest)⟩
      rw [if_pos apart]
      change (if obj.versionID = [] ∨ obj.isLatest = true then db.objects.set (objectKey obj.bucket obj.key) (stamped now obj)
        else db.objects).get _ = _
      rw [if_neg own]
  · have attached : ¬ Detached v obj := fun apart => current apart.1
    have own := version current
    subst own
    rw [if_neg current,if_neg attached]
    change (if obj.versionID = [] then db.versions else db.versions.set (objectVersionKey obj.bucket obj.key obj.versionID) (stamped now obj)).get
      _ = _
    rw [if_neg current,Store.getSetSame]

theorem putElsewhere {db db' : Database} {now obj} (done : db.putObject now obj = .ok db') (home : obj.bucket = bucket)
    (other : obj.key ≠ key) (version : v ≠ [] → obj.versionID = v) : db'.record bucket key v = db.record bucket key v := by
  subst home
  obtain ⟨rfl,_⟩ := putObjectWrites done
  unfold Database.record writeObject
  by_cases current : v = []
  · have apart : objectKey obj.bucket obj.key ≠ objectKey obj.bucket key := fun same => other (List.append_cancel_left same)
    simp only [if_pos current]
    split
    · exact Store.getSetOther _ _ apart
    · rfl
  · have apart : objectVersionKey obj.bucket obj.key obj.versionID ≠ objectVersionKey obj.bucket key v := by
      rw [version current]
      intro same
      have keys := List.append_cancel_right same
      exact other (List.append_cancel_left (List.append_cancel_right keys))
    simp only [if_neg current]
    split
    · rfl
    · exact Store.getSetOther _ _ apart

/-- A setter leaves the other fields of the record exactly when what it does not carry over was not there,
or when it writes its record elsewhere. -/
theorem setterKeepsOthers {setter : Setter} {s' : State} (stored : StoredAt bucket key v s.db r)
    (returned : setter.perform node call bucket key v s = (.ok (), s')) :
    (∃ r', s'.db.record bucket key v = some r' ∧ setter.others r' = setter.others r) ↔
      Detached v r ∨ Misnamed key r ∨ Carried setter call.now bucket key r := by
  have read : s.db.getObject bucket key v = .ok (filled bucket key r) := by
    unfold Database.getObject
    rw [if_neg (not_or.mpr ⟨stored.home,stored.named⟩),stored.found]
  obtain ⟨db,done,objects,versions⟩ := wpOk (setterPuts setter read) returned
  have identity : SameIdentity (filled bucket key r) (setter.written (filled bucket key r)) := by cases setter <;> exact ⟨rfl,rfl,rfl,rfl⟩
  have home : (filled bucket key r).bucket = bucket := by
    rcases stored.bucket with absent | same
    · exact if_pos absent
    · exact (if_neg (same ▸ stored.home)).trans same
  have after : s'.db.record bucket key v = db.record bucket key v := by
    unfold Database.record
    rw [objects,versions]
  have version (asked : v ≠ []) := identity.versionID.trans (stored.version asked)
  rw [after]
  by_cases elsewhere : Misnamed key r
  · have other : (filled bucket key r).key ≠ key := fun same => elsewhere.2 ((if_neg elsewhere.1).symm.trans same)
    rw [putElsewhere done (identity.bucket.trans home) (fun same => other (identity.key.symm.trans same)) version,stored.found]
    exact iff_of_true ⟨r,rfl,rfl⟩ (.inr (.inl elsewhere))
  have own : r.key = [] ∨ r.key = key := by
    by_contra neither
    exact elsewhere (not_or.mp neither)
  have named : (filled bucket key r).key = key := by
    rcases own with absent | same
    · exact if_pos absent
    · exact (if_neg (same ▸ stored.named)).trans same
  have detached : Detached v (setter.written (filled bucket key r)) ↔ Detached v r := by
    rw [Detached,identity.versionID,identity.isLatest]
    exact Iff.rfl
  rw [putRecord done (identity.bucket.trans home) (identity.key.trans named) version]
  by_cases apart : Detached v r
  · rw [if_pos (detached.mpr apart),stored.found]
    exact iff_of_true ⟨r,rfl,rfl⟩ (.inl apart)
  rw [if_neg fun held => apart (detached.mp held),or_iff_right apart,or_iff_right elsewhere,← othersCarried setter call.now stored own]
  constructor
  · rintro ⟨_,same,kept⟩
    exact Option.some.inj same ▸ kept
  · exact fun kept => ⟨_,rfl,kept⟩

end

def sampleRecord (status : Bytes) : ObjectMetadata :=
  { toMetadataObject (sidecarObject (ascii "b") (ascii "k") empty) with
    versionID := ascii "v", lastModified := fromSeconds 4, restoreStatus := status, createdAt := some (fromSeconds 5) }

def sampleStore (status : Bytes) : State :=
  { versionedBucket with
    db := { versionedBucket.db with
      versions := empty.set (objectVersionKey (ascii "b") (ascii "k") (ascii "v")) (sampleRecord status) } }

theorem sampleStored (status : Bytes) : StoredAt (ascii "b") (ascii "k") (ascii "v") (sampleStore status).db (sampleRecord status) :=
  ⟨by decide,by decide,Store.getSetSame ..,.inr rfl,fun _ => rfl⟩

def tagBlue : Setter := .tagging (some [(ascii "colour", ascii "blue")])

theorem freshRecordKeepsOthers : ∃ s' r', tagBlue.perform smallNode (callAt 5) (ascii "b") (ascii "k") (ascii "v") (sampleStore []) =
    (.ok (), s') ∧ s'.db.record (ascii "b") (ascii "k") (ascii "v") = some r' ∧ tagBlue.others r' = tagBlue.others (sampleRecord []) := by
  obtain ⟨s',returned⟩ : ∃ s', tagBlue.perform smallNode (callAt 5) (ascii "b") (ascii "k") (ascii "v") (sampleStore []) = (.ok (), s') := ⟨_,rfl⟩
  have carried : Carried tagBlue (callAt 5).now (ascii "b") (ascii "k") (sampleRecord []) := ⟨rfl,rfl,fun _ => ⟨rfl,rfl⟩,rfl,.inl (by decide)⟩
  obtain ⟨r',found,kept⟩ := (setterKeepsOthers (sampleStored []) returned).mpr (.inr (.inr carried))
  exact ⟨s',r',returned,found,kept⟩

-- Tagging a restored object forgets that it was restored.
theorem taggingDropsRestore : ∃ s', tagBlue.perform smallNode (callAt 5) (ascii "b") (ascii "k") (ascii "v")
      (sampleStore (ascii "restored")) = (.ok (), s') ∧
    StoredAt (ascii "b") (ascii "k") (ascii "v") (sampleStore (ascii "restored")).db (sampleRecord (ascii "restored")) ∧
    ∃ r', s'.db.record (ascii "b") (ascii "k") (ascii "v") = some r' ∧ r'.restoreStatus = [] ∧
      tagBlue.others r' ≠ tagBlue.others (sampleRecord (ascii "restored")) := by
  refine ⟨_,rfl,sampleStored _,_,rfl,rfl,fun same => ?_⟩
  exact absurd (congrArg restoreStatus same) (by decide)

end MaxIOFS.SetterFrames
