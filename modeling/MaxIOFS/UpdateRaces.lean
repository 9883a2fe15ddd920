import MaxIOFS.LockedPuts

/-! Setters against new versions on one key of a versioned bucket. A setter reads a record in
one step and puts the whole record back in another; a put stores its version and records it.
The log has the updates written, the newest first. -/
namespace MaxIOFS.UpdateRaces
open Function (update update_self update_of_ne)
open ByteString Effects Runs Ledger ObjectManager RecordChanges Records MetadataStore StoredObjects
    VersionHistory VersionMoves SetterFrames OrderedStore
  HandlerSteps RetentionLaw
open LockedPuts ManagerRuns

inductive Update where
  | tagging (tags : Option (List (Bytes × Bytes)))
  | retention (config : Option Retention)
  | legalHold (config : Option Bytes)
  | acl (list : ACL)
  deriving DecidableEq

inductive Field where
  | tags | retention | legalHold | acl
  deriving DecidableEq, Repr

namespace Update

def setter : Update → Setter
  | .tagging tags => .tagging tags
  | .retention config => .retention config
  | .legalHold config => .legalHold config
  | .acl given => .acl (some given)

def edit (call : Call) (bucket key versionID : Bytes) (obj : Object) : Update → Action State Error Unit
  | .tagging tags => do
    check (decide ((tags.getD []).length ≤ 10)) .tooManyTags
    save call (toMetadataObject { obj with tags := tags })
  | .retention config => match shortens call.now config obj with
    | some e => fail e
    | none => save call (toMetadataObject { obj with retention := config })
  | .legalHold config => save call (toMetadataObject { obj with legalHold := config })
  | .acl given => do
    save call (toMetadataObject { obj with acl := some given })
    if versionID ≠ [] then pure ()
    else database (fun db => .ok { db with objectACLs := db.objectACLs.set (aclKeyOf bucket key) given })

def field : Update → Field
  | .tagging _ => .tags
  | .retention _ => .retention
  | .legalHold _ => .legalHold
  | .acl _ => .acl

def texts : Update → List Bytes
  | .tagging tags => (tags.getD []).flatMap fun tag => [tag.1, tag.2]
  | .retention config => config.toList.map Retention.mode
  | .legalHold _ => []
  | .acl given => [given.owner.id, given.owner.displayName] ++ given.grants.flatMap fun grant =>
      [grant.grantee.type, grant.grantee.id, grant.grantee.displayName, grant.grantee.emailAddress, grant.grantee.uri, grant.permission]

def On (r : ObjectMetadata) : Update → Prop
  | .tagging tags => r.tags = empty.setAll (tags.getD [])
  | .retention config => r.retention = config
  | .legalHold config => r.legalHold = decide (config = some legalHoldOn)
  | .acl given => r.acl = some given

end Update

section
variable {node : Node} {call : Call} {bucket key v : Bytes} {s : State} {r : ObjectMetadata}

theorem editSaves (u : Update) : wp (u.edit call bucket key v (fromMetadataObject r)) (fun _ s' => Saved call (u.setter.written r) s s')
    (fun _ s' => s' = s) s := by
  have saves new : wp (save call new) (fun _ s' => Saved call new s s') (fun _ s' => s' = s) s := by
    rw [save,wpDatabase]
    cases done : s.db.putObject call.now new with
    | ok db => exact ⟨db,db.objectACLs,done,rfl⟩
    | error e => rfl
  cases u with
  | tagging tags =>
    rw [Update.edit,wpBind,wpCheck]
    exact ⟨fun _ => saves _,fun _ => rfl⟩
  | retention config =>
    rw [Update.edit]
    cases shortens call.now config (fromMetadataObject r) with
    | some e => rfl
    | none => exact saves _
  | legalHold config => exact saves _
  | acl given =>
    rw [Update.edit,wpBind]
    refine wpMono (saves _) (fun _ s₁ saved => ?_) (fun _ _ same => same)
    rw [wpIte]
    refine ⟨fun _ => saved,fun _ => ?_⟩
    obtain ⟨db,_,done,rfl⟩ := saved
    exact ⟨db,_,done,rfl⟩

theorem onWritten (u : Update) (now : Int) (r : ObjectMetadata) : u.On (stamped now (u.setter.written r)) := by
  cases u with
  | tagging tags => cases tags <;> rfl
  | retention config | legalHold config | acl given => rfl

theorem onOther {u other : Update} (now : Int) (different : other.field ≠ u.field) (on : u.On r) :
    u.On (stamped now (other.setter.written r)) := by
  have back := backIs r
  have tags : (toMetadataObject (fromMetadataObject r)).tags = r.tags := by rw [back]
  have hold : (toMetadataObject (fromMetadataObject r)).legalHold = r.legalHold := by rw [back]
  cases u <;> cases other <;> first
    | exact absurd rfl different
    | exact on
    | exact tags.trans on
    | exact hold.trans on

end

abbrev Log := List (Bytes × Update)

def Present (versions : Bytes → Option ObjectMetadata) (log : Log) : Prop :=
  ∀ newer older v u, log = newer ++ (v, u) :: older → (∀ e ∈ newer, e.1 = v → e.2.field ≠ u.field) → ∃ r, versions v = some r ∧ u.On r

section
variable {versions : Bytes → Option ObjectMetadata} {log : Log} {v : Bytes} {r : ObjectMetadata}

theorem presentWrite {u} (now : Int) (present : Present versions log) (found : versions v = some r) :
    Present (update versions v (some (stamped now (u.setter.written r)))) ((v, u) :: log) := by
  intro newer older v' u' shape_ last
  cases newer with
  | nil =>
    obtain ⟨head,_⟩ := List.cons.inj shape_
    cases head
    exact ⟨_,update_self ..,onWritten u now r⟩
  | cons first rest =>
    obtain ⟨rfl,tail⟩ := List.cons.inj shape_
    obtain ⟨r',found',on⟩ := present rest older v' u' tail (fun e mem => last e (List.mem_cons_of_mem _ mem))
    by_cases same : v' = v
    · subst same
      cases (found.symm.trans found')
      exact ⟨_,update_self ..,onOther now (last _ List.mem_cons_self rfl) on⟩
    · exact ⟨r',(update_of_ne same ..).trans found',on⟩

theorem presentInsert {h : KeyHistory} {new} (present : Present h.versions log) (unused : h.versions v = none) :
    Present (h.insert shape v new).versions log := by
  intro newer older v' u shape_ last
  obtain ⟨r',found,on⟩ := present newer older v' u shape_ last
  have other : v' ≠ v := by
    rintro rfl
    rw [unused] at found
    contradiction
  refine ⟨demoted r',?_,by cases u <;> exact on⟩
  unfold History.insert
  dsimp only
  rw [if_neg other,found]
  rfl

end

structure Put where
  call : Call
  data : Bytes
  headers : Headers

structure Change where
  call : Call
  versionID : Bytes
  update : Update

inductive PutPhase where
  | waiting
  | stored (pending : Pending)
  | returned

inductive SetPhase where
  | waiting
  | read (obj : Object)
  | returned

structure World where
  state : State
  puts : Nat → PutPhase
  sets : Nat → SetPhase
  last : Option Bytes
  log : Log

inductive Event where
  | store (i : Nat)
  | record (i : Nat)
  | read (i : Nat)
  | write (i : Nat)

def begin_ (s : State) : World := ⟨s, fun _ => .waiting, fun _ => .waiting, none, []⟩

section
variable (node : Node) (bucket key : Bytes) (puts : Nat → Put) (changes : Nat → Change)

def storeStep (w : World) (i : Nat) : World :=
  match storeObject node (puts i).call bucket key (puts i).data (puts i).headers w.state with
  | (.ok pending, s) => { w with state := s, puts := update w.puts i (.stored pending) }
  | (.error _, s) => { w with state := s, puts := update w.puts i .returned }

def recordStep (w : World) (i : Nat) (pending : Pending) : World :=
  match recordObject (puts i).call pending w.state with
  | (.ok object, s) => { w with state := s, puts := update w.puts i .returned, last := some object.versionID }
  | (.error _, s) => { w with state := s, puts := update w.puts i .returned }

def readStep (w : World) (i : Nat) : World :=
  match getObjectMetadataForVersion node bucket key (changes i).versionID w.state with
  | (.ok obj, s) => { w with state := s, sets := update w.sets i (.read obj) }
  | (.error _, s) => { w with state := s, sets := update w.sets i .returned }

def writeStep (w : World) (i : Nat) (obj : Object) : World :=
  match (changes i).update.edit (changes i).call bucket key (changes i).versionID obj w.state with
  | (.ok _, s) =>
    { w with state := s, sets := update w.sets i .returned, log := (obj.versionID, (changes i).update) :: w.log }
  | (.error _, s) => { w with state := s, sets := update w.sets i .returned }

def step (w : World) : Event → Option World
  | .store i => match w.puts i with
    | .waiting => some (storeStep node bucket key puts w i)
    | _ => none
  | .record i => match w.puts i with
    | .stored pending => some (recordStep puts w i pending)
    | _ => none
  | .read i => match w.sets i with
    | .waiting => some (readStep node bucket key changes w i)
    | _ => none
  | .write i => match w.sets i with
    | .read obj => some (writeStep bucket key changes w i obj)
    | _ => none

def Careful (w : World) : Event → Prop
  | .store i => ∀ id, chooseVersion (puts i).call true = .ok id → (view bucket w.state.db key).versions id = none ∧
      ∀ j pending, w.puts j = .stored pending → pending.object.versionID ≠ id
  | .write i => ∀ obj, w.sets i = .read obj → ∃ r, (view bucket w.state.db key).versions obj.versionID = some r ∧ fromMetadataObject r = obj
  | _ => True

end

structure Inv (node : Node) (bucket key : Bytes) (puts : Nat → Put) (w : World) : Prop where
  filed : Filed bucket w.state.db
  on : isBucketVersioningEnabled w.state bucket = true
  pending : ∀ i pending, w.puts i = .stored pending → key ≠ [] ∧ pending.object.versionID ≠ [] ∧
    (58 : UInt8) ∉ pending.object.versionID ∧ Fresh node true bucket key pending.object.versionID (puts i).data pending ∧
    (view bucket w.state.db key).versions pending.object.versionID = none
  distinct : ∀ i j p q, w.puts i = .stored p → w.puts j = .stored q → p.object.versionID = q.object.versionID → i = j
  last : ∀ v, w.last = some v → v ≠ [] ∧ (view bucket w.state.db key).Consistent shape ∧
    ∃ c, (view bucket w.state.db key).current = some c ∧ c.versionID = v
  present : Present (view bucket w.state.db key).versions w.log

section
variable {node : Node} {bucket key : Bytes} {puts : Nat → Put} {changes : Nat → Change} {w next : World} {i : Nat}

theorem stillStored {f : Nat → PutPhase} {phase j pending} (other : ∀ p, phase ≠ .stored p)
    (found : update f i phase j = .stored pending) : j ≠ i ∧ f j = .stored pending := by
  by_cases here : j = i
  · subst here
    rw [update_self] at found
    exact absurd found (other pending)
  · rw [update_of_ne here] at found
    exact ⟨here,found⟩

theorem quietInv (inv : Inv node bucket key puts w) (db : next.state.db = w.state.db) (last : next.last = w.last) (log : next.log = w.log)
    (pending : ∀ i pending, next.puts i = .stored pending → key ≠ [] ∧ pending.object.versionID ≠ [] ∧
      (58 : UInt8) ∉ pending.object.versionID ∧ Fresh node true bucket key pending.object.versionID (puts i).data pending ∧
      (view bucket w.state.db key).versions pending.object.versionID = none)
    (distinct : ∀ i j p q, next.puts i = .stored p → next.puts j = .stored q → p.object.versionID = q.object.versionID → i = j) :
    Inv node bucket key puts next where
  filed := db ▸ inv.filed
  on := (versioningSame bucket fun q => by rw [db]).trans inv.on
  pending := db ▸ pending
  distinct := distinct
  last := by
    rw [last,db]
    exact inv.last
  present := by
    rw [log,db]
    exact inv.present

theorem storeInv (colonFree : ByteString.colon ∉ (puts i).call.replicatedVersionID) (inv : Inv node bucket key puts w)
    (waiting : w.puts i = .waiting) (careful : Careful bucket key puts w (.store i)) :
    Inv node bucket key puts (storeStep node bucket key puts w i) := by
  have spec : wp (storeObject node (puts i).call bucket key (puts i).data (puts i).headers) (fun pending s' => s'.db = w.state.db ∧
      validateObjectName key = true ∧ ∃ id, chooseVersion (puts i).call true = .ok id ∧ Fresh node true bucket key id (puts i).data pending)
      (fun _ s' => s'.db = w.state.db) w.state := by
    refine wpMono (wpAnd (storeObjectSpec ..) storeObjectSource) (fun pending s' done => ?_) (fun _ _ failed => failed.1)
    obtain ⟨⟨db,_⟩,valid,id,chosen,_,fresh,_⟩ := done
    rw [inv.on] at chosen fresh
    exact ⟨db,valid,id,chosen,fresh⟩
  unfold storeStep
  unfold wp at spec
  split at spec
  · rename_i pending s result
    rw [result]
    obtain ⟨db,valid,id,chosen,fresh⟩ := spec
    obtain ⟨unused,others⟩ := careful id chosen
    obtain ⟨plain,present⟩ := chosenPlain colonFree chosen
    have own := fresh.versionID
    have apart {j} {p} (found : w.puts j = .stored p) : p.object.versionID ≠ pending.object.versionID :=
      fun same => others j p found (same.trans own)
    refine quietInv inv db rfl rfl (fun j p found => ?_) (fun j k p q first second same => ?_)
    · dsimp only at found
      by_cases here : j = i
      · subst here
        rw [update_self] at found
        cases found
        exact ⟨validName valid,own ▸ present,own ▸ plain,own ▸ fresh,own ▸ unused⟩
      · rw [update_of_ne here] at found
        exact inv.pending j p found
    · dsimp only at first second
      by_cases left : j = i
      · subst left
        by_contra different
        rw [update_self] at first
        rw [update_of_ne (Ne.symm different)] at second
        cases first
        exact apart second same.symm
      · rw [update_of_ne left] at first
        by_cases right : k = i
        · subst right
          rw [update_self] at second
          cases second
          exact absurd same (apart first)
        · rw [update_of_ne right] at second
          exact inv.distinct j k p q first second same
  · rename_i e s result
    rw [result]
    refine quietInv inv spec rfl rfl (fun j p found => ?_) (fun j k p q first second same => ?_)
    · exact inv.pending j p (stillStored (by simp) found).2
    · exact inv.distinct j k p q (stillStored (by simp) first).2 (stillStored (by simp) second).2 same

theorem recordInv {pending : Pending} (home : bucket ≠ []) (inv : Inv node bucket key puts w) (found : w.puts i = .stored pending) :
    Inv node bucket key puts (recordStep puts w i pending) := by
  obtain ⟨named,present,plain,fresh,unused⟩ := inv.pending i pending found
  have spec : wp (recordObject (puts i).call pending) _ _ w.state := recordView home named inv.filed fresh present plain
  unfold recordStep
  unfold wp at spec
  split at spec
  · rename_i object s result
    rw [result]
    obtain ⟨rfl,_,status,filed,shown⟩ := spec
    refine ⟨filed,(versioningSame bucket status).trans inv.on,fun j p here => ?_,fun j k p q first second same => ?_,fun v latest => ?_,?_⟩
    · obtain ⟨other,here⟩ := stillStored (by simp) here
      obtain ⟨named,some_,plain,fresh',unused'⟩ := inv.pending j p here
      have apart : p.object.versionID ≠ pending.object.versionID := fun same => other (inv.distinct j i p pending here found same)
      refine ⟨named,some_,plain,fresh',?_⟩
      rw [shown,History.insert]
      dsimp only
      rw [if_neg apart,unused']
      rfl
    · exact inv.distinct j k p q (stillStored (by simp) first).2 (stillStored (by simp) second).2 same
    · cases latest
      rw [shown]
      exact ⟨present,History.consistentInsert (inv.filed.named key) (shapeId present) rfl,_,rfl,rfl⟩
    · rw [shown]
      exact presentInsert inv.present unused
  · exact spec.elim

section
variable (inv : Inv node bucket key puts w)
include inv

theorem readInv : Inv node bucket key puts (readStep node bucket key changes w i) := by
  have spec := getForVersionSpec node bucket key (changes i).versionID w.state
  unfold readStep
  unfold wp at spec
  split at spec
  · rename_i obj s result
    rw [result]
    exact quietInv inv spec.1 rfl rfl inv.pending inv.distinct
  rename_i e s result
  rw [result]
  exact quietInv inv spec rfl rfl inv.pending inv.distinct

theorem savedInv {r u call s sets} (found : (view bucket w.state.db key).versions r.versionID = some r)
    (saved : Saved call (u.setter.written r) w.state s) :
    Inv node bucket key puts { w with state := s, sets := sets, log := (r.versionID, u) :: w.log } := by
  obtain ⟨db,_,done,rfl⟩ := saved
  have same := (writtenSame u.setter r).toSameIdentity
  obtain ⟨stored,keyed⟩ := versionsInIff.mp found
  obtain ⟨_,version,identified⟩ := inv.filed.versions.at stored keyed
  obtain ⟨filed,views⟩ := putObjectView inv.filed (same.bucket.trans identified.bucket) (same.versionID ▸ identified.plain) done
  have shown := views key
  have own : (stamped call.now (u.setter.written r)).versionID = r.versionID := same.versionID
  have id : shape.id (stamped call.now (u.setter.written r)) = some r.versionID := by
    rw [shapeId (own.symm ▸ version),own]
  rw [if_pos (same.key.trans keyed).symm] at shown
  have versions : (view bucket db key).versions =
      update (view bucket w.state.db key).versions r.versionID (some (stamped call.now (u.setter.written r))) := by
    rw [shown,History.putVersion id]
  refine ⟨filedSame filed rfl rfl rfl,?_,fun j p here => ?_,inv.distinct,fun v latest => ?_,?_⟩
  · refine (versioningSame bucket fun q => ?_).trans inv.on
    exact congrArg (fun buckets => (buckets.get q).map BucketMetadata.versioningStatus) (putObjectBuckets done)
  · obtain ⟨named,some_,plain,fresh,unused⟩ := inv.pending j p here
    refine ⟨named,some_,plain,fresh,?_⟩
    have apart : p.object.versionID ≠ r.versionID := by
      intro equal
      rw [equal,found] at unused
      contradiction
    change (view bucket db key).versions _ = none
    rw [versions,update_of_ne apart]
    exact unused
  · obtain ⟨version,consistent,c,current,named⟩ := inv.last v latest
    change v ≠ [] ∧ (view bucket db key).Consistent shape ∧ ∃ c, (view bucket db key).current = some c ∧ c.versionID = v
    refine ⟨version,?_,?_⟩
    · rw [shown]
      exact History.consistentEdit consistent found id same.isLatest
    rw [shown,History.putVersion id]
    split
    · rename_i marked
      have was : r.isLatest = true := same.isLatest.symm.trans marked
      cases (current.symm.trans (consistent.marked _ r found was))
      exact ⟨_,rfl,own.trans named⟩
    · exact ⟨c,current,named⟩
  · change Present (view bucket db key).versions _
    rw [versions]
    exact presentWrite call.now inv.present found

theorem writeInv {obj} (here : w.sets i = .read obj) (careful : Careful bucket key puts w (.write i)) : Inv node bucket key puts
    (writeStep bucket key changes w i obj) := by
  obtain ⟨r,found,rfl⟩ := careful obj here
  have spec : wp ((changes i).update.edit (changes i).call bucket key (changes i).versionID (fromMetadataObject r)) _ _ w.state :=
    editSaves (changes i).update
  unfold writeStep
  unfold wp at spec
  split at spec
  · rename_i answer s result
    rw [result]
    exact savedInv inv found spec
  rename_i e s result
  rw [result]
  exact quietInv inv (congrArg State.db spec) rfl rfl inv.pending inv.distinct

end

theorem stepInv {event} (home : bucket ≠ []) (colonFree : ∀ i, ByteString.colon ∉ (puts i).call.replicatedVersionID)
    (inv : Inv node bucket key puts w) (careful : Careful bucket key puts w event)
    (stepped : step node bucket key puts changes w event = some next) : Inv node bucket key puts next := by
  cases event with
  | store i =>
    simp only [step] at stepped
    split at stepped <;> try contradiction
    rename_i waiting
    cases stepped
    exact storeInv (colonFree i) inv waiting careful
  | record i =>
    simp only [step] at stepped
    split at stepped <;> try contradiction
    rename_i pending found
    cases stepped
    exact recordInv home inv found
  | read i =>
    simp only [step] at stepped
    split at stepped <;> try contradiction
    cases stepped
    exact readInv inv
  | write i =>
    simp only [step] at stepped
    split at stepped <;> try contradiction
    rename_i obj here
    cases stepped
    exact writeInv inv here careful

theorem beginInv {s} (filed : Filed bucket s.db) (on : isBucketVersioningEnabled s bucket = true) : Inv node bucket key puts (begin_ s) where
  filed := filed
  on := on
  pending := fun _ _ found => by contradiction
  distinct := fun _ _ _ _ first => by contradiction
  last := fun _ latest => by contradiction
  present := fun newer older v u shape_ => by simp [begin_] at shape_

-- JSON keeps a string that is UTF-8; of another it keeps U+FFFD for each byte it cannot read.
structure Readable (key : Bytes) (puts : Nat → Put) (changes : Nat → Change) : Prop where
  key : Utf8.Text key
  pinned : ∀ i, ByteString.colon ∉ (puts i).call.replicatedVersionID ∧ Utf8.Text (puts i).call.replicatedVersionID
  updates : ∀ i, ∀ text ∈ (changes i).update.texts, Utf8.Text text

/-- While every setter writes back a record that is still the one it read, the version recorded last is the current
and only latest one, and the newest update of each field is on the version it read. -/
theorem updatesAndVersionsStay {s mid} {before} {events} (new : ManagerRuns.NewBucket bucket s)
    (sent : ∀ a ∈ before, SentAct a) (started : run (act node bucket) s before = some mid)
    (enabled : isBucketVersioningEnabled mid bucket = true) (readable : Readable key puts changes)
    (careful : Along (step node bucket key puts changes) (Careful bucket key puts) (begin_ mid) events)
    (ran : run (step node bucket key puts changes) (begin_ mid) events = some w) :
    (∀ v, w.last = some v → (∃ c, stored w.state bucket key = some c ∧ c.versionID = v) ∧
      (∃ r, (view bucket w.state.db key).versions v = some r ∧ r.isLatest = true) ∧
      ∀ u r, (view bucket w.state.db key).versions u = some r → r.isLatest = true → u = v) ∧
      Present (view bucket w.state.db key).versions w.log := by
  have coherent : Coherent bucket mid.db := runKeeps (coherentAct new.named)
    (coherentNew new) (alongOf (fun a inside => (sent a inside).plain) s) started
  have inv : Inv node bucket key puts w := runKeeps (stepInv new.named fun i => (readable.pinned i).1)
    (beginInv coherent.filed enabled) careful ran
  refine ⟨fun v latest => ?_,inv.present⟩
  obtain ⟨version,consistent,c,current,rfl⟩ := inv.last v latest
  obtain ⟨keyed,identified⟩ := inv.filed.current current
  have shown := storedAt new.named (keyed ▸ identified.key) current identified.bucket keyed
  refine ⟨⟨c,shown,rfl⟩,?_,fun u r listed marked => ?_⟩
  · exact ⟨c,consistent.pointed c _ current (shapeId version)⟩
  · cases (current.symm.trans (consistent.marked u r listed marked))
    exact (shapeIdIff.mp (consistent.named u c listed)).2.symm

end

def twoPuts (i : Nat) : Put := ⟨callAt (5 + i), if i = 0 then ascii "one" else ascii "other", empty⟩

def colour : Update := .tagging (some [(ascii "colour", ascii "blue")])

def tagCurrent (_ : Nat) : Change := ⟨callAt 20, [], colour⟩

def onlyFirst (w : World) : Prop := ∀ j, 2 ≤ j → w.puts j = .waiting

def Early : Event → Prop
  | .store i => i < 2
  | .record i => i < 2
  | _ => True

instance (e : Event) : Decidable (Early e) := by
  cases e <;> unfold Early <;> infer_instance

def pendingID : PutPhase → Option Bytes
  | .stored pending => some pending.object.versionID
  | _ => none

def carefulCheck (bucket key : Bytes) (puts : Nat → Put) (w : World) : Event → Bool
  | .store i => match chooseVersion (puts i).call true with
    | .ok id => ((view bucket w.state.db key).versions id).isNone && decide (pendingID (w.puts 0) ≠ some id) &&
        decide (pendingID (w.puts 1) ≠ some id)
    | .error _ => true
  | .write i => match w.sets i with
    | .read obj => ((view bucket w.state.db key).versions obj.versionID).map fromMetadataObject == some obj
    | _ => true
  | _ => true

theorem carefulChecked {bucket key puts w e} (few : onlyFirst w) (ok : carefulCheck bucket key puts w e = true) : Careful bucket key puts w e := by
  cases e with
  | store i =>
    intro id chosen
    simp only [carefulCheck,chosen,Bool.and_eq_true,decide_eq_true_eq] at ok
    obtain ⟨⟨unused,first⟩,second⟩ := ok
    refine ⟨Option.isNone_iff_eq_none.mp unused,fun j pending found same => ?_⟩
    have mine : pendingID (w.puts j) = some id := by
      rw [found]
      exact congrArg some same
    match j with
    | 0 => exact first mine
    | 1 => exact second mine
    | j + 2 =>
      rw [few (j + 2) (by omega)] at found
      contradiction
  | write i =>
    intro obj here
    simp only [carefulCheck,here,beq_iff_eq] at ok
    exact Option.map_eq_some_iff.mp ok
  | record i | read i => trivial

theorem fewStep {node bucket key puts changes w next e} (few : onlyFirst w)
    (early : Early e) (stepped : step node bucket key puts changes w e = some next) : onlyFirst next := by
  intro j late
  cases e with
  | store i =>
    have other : j ≠ i := by
      change i < 2 at early
      omega
    simp only [step] at stepped
    split at stepped <;> try contradiction
    cases stepped
    unfold storeStep
    split <;> exact (update_of_ne other ..).trans (few j late)
  | record i =>
    have other : j ≠ i := by
      change i < 2 at early
      omega
    simp only [step] at stepped
    split at stepped <;> try contradiction
    cases stepped
    unfold recordStep
    split <;> exact (update_of_ne other ..).trans (few j late)
  | read i =>
    simp only [step] at stepped
    split at stepped <;> try contradiction
    cases stepped
    unfold readStep
    split <;> exact few j late
  | write i =>
    simp only [step] at stepped
    split at stepped <;> try contradiction
    cases stepped
    unfold writeStep
    split <;> exact few j late

def firstVersion : Bytes := ByteString.formatInt (fromSeconds 5)
def secondVersion : Bytes := ByteString.formatInt (fromSeconds 6)

theorem tagThenVersion : ∃ w, run (step smallNode (ascii "b") (ascii "k") twoPuts tagCurrent) (begin_ versionedBucket)
      [.store 0, .record 0, .read 0, .write 0, .store 1, .record 1] = some w ∧
    (∃ c, stored w.state (ascii "b") (ascii "k") = some c ∧ c.versionID = secondVersion) ∧
    ∃ r, (view (ascii "b") w.state.db (ascii "k")).versions firstVersion = some r ∧ colour.On r := by
  refine runShows (fun w => w.last = some secondVersion ∧ w.log = [(firstVersion, colour)]) (by decide +kernel) fun w ran ⟨last,written⟩ => ?_
  have careful : Along (step smallNode (ascii "b") (ascii "k") twoPuts tagCurrent) (Careful (ascii "b") (ascii "k") twoPuts)
      (begin_ versionedBucket) [.store 0,.record 0,.read 0,.write 0,.store 1,.record 1] :=
    alongChecked (I := onlyFirst) (fun few _ ok => carefulChecked few ok) fewStep (by decide) (fun _ _ => rfl) (by decide +kernel)
  have started : run (act smallNode (ascii "b")) versionedBucket [] = some versionedBucket := rfl
  have readable : Readable (ascii "k") twoPuts tagCurrent :=
    ⟨by decide,fun _ => ⟨List.not_mem_nil,rfl⟩,fun _ => (by decide : ∀ text ∈ colour.texts, Utf8.Text text)⟩
  obtain ⟨latest,present⟩ := updatesAndVersionsStay (ManagerRuns.newBucketEmpty _) (by simp) started (by decide) readable careful ran
  exact ⟨(latest _ last).1,present [] [] firstVersion colour written (by simp)⟩

theorem tagAcrossVersion : ∃ w c, run (step smallNode (ascii "b") (ascii "k") twoPuts tagCurrent) (begin_ versionedBucket)
      [.store 0, .record 0, .read 0, .store 1, .record 1, .write 0] = some w ∧ w.last = some secondVersion ∧
    stored w.state (ascii "b") (ascii "k") = some c ∧ c.versionID = firstVersion ∧
    ∃ r r', (view (ascii "b") w.state.db (ascii "k")).versions firstVersion = some r ∧
      (view (ascii "b") w.state.db (ascii "k")).versions secondVersion = some r' ∧ r.isLatest = true ∧ r'.isLatest = true := by
  obtain ⟨w,ran,last,⟨c,found,named⟩,⟨r,listed,marked⟩,r',listed',marked'⟩ : ∃ w,
      run (step smallNode (ascii "b") (ascii "k") twoPuts tagCurrent) (begin_ versionedBucket)
        [.store 0,.record 0,.read 0,.store 1,.record 1,.write 0] = some w ∧ w.last = some secondVersion ∧
      (∃ c, stored w.state (ascii "b") (ascii "k") = some c ∧ c.versionID = firstVersion) ∧
      (∃ r, (view (ascii "b") w.state.db (ascii "k")).versions firstVersion = some r ∧ r.isLatest = true) ∧
      ∃ r, (view (ascii "b") w.state.db (ascii "k")).versions secondVersion = some r ∧ r.isLatest = true := by
    decide +kernel
  exact ⟨w,c,ran,last,found,named,r,r',listed,listed',marked,marked'⟩

end MaxIOFS.UpdateRaces
