import MaxIOFS.HandlerSteps

/-! The metadata operations on one key of a primary and a replica: each is sent by itself, arrives at
any time and as often as it is retried, and is carried out again on what the replica then holds. -/
namespace MaxIOFS.MetadataFanout
open ByteString OrderedStore Records ObjectManager SetterFrames HandlerSteps Function Runs StagedCommit Calendar ObjectMetadata

inductive Operation where
  | set (setter : Setter)
  | updateMetadata (updates : Metadata)

def Operation.written (old : ObjectMetadata) : Operation → ObjectMetadata
  | .set setter => setter.written old
  | .updateMetadata updates => toMetadataObject (updated updates (fromMetadataObject old))

def Operation.accepted (now : Int) (old : ObjectMetadata) : Operation → Prop
  | .set setter => accepts now old setter
  | .updateMetadata _ => True

-- What the payload unmarshals to: a nil configuration arrives as an empty one.
def Operation.received : Operation → Operation
  | .set (.tagging none) => .set (.tagging (some []))
  | .set (.acl none) => .set (.acl (some ⟨⟨[], []⟩, []⟩))
  | .set (.retention none) => .set (.retention (some ⟨[], zeroTime⟩))
  | .set (.legalHold none) => .set (.legalHold (some []))
  | op => op

structure Message where
  versionID : Bytes
  op : Operation

structure Key where
  current : Bytes
  versions : Bytes → Option ObjectMetadata

def Key.address (k : Key) (versionID : Bytes) : Bytes := if versionID = [] then k.current else versionID

def Key.create (k : Key) (obj : ObjectMetadata) : Key := ⟨obj.versionID, update k.versions obj.versionID (some obj)⟩

def Key.perform (k : Key) (m : Message) : Key :=
  { k with versions := update k.versions (k.address m.versionID) ((k.versions (k.address m.versionID)).map m.op.written) }

structure World where
  (primary replica : Key)
  sent : List Message
  (delivered mark : Nat)

inductive Event where
  | put (obj : ObjectMetadata)
  | call (message : Message)
  | deliver (i : Nat) (now : Int)

instance (now : Int) (old : ObjectMetadata) (op : Operation) : Decidable (op.accepted now old) := by
  unfold Operation.accepted accepts
  cases op with
  | updateMetadata updates => exact isTrue trivial
  | set setter => cases setter <;> infer_instance

def Key.receive (k : Key) (now : Int) (m : Message) : Key :=
  match k.versions (k.address m.versionID) with
  | none => k
  | some old => if m.op.accepted now old then k.perform m else k

def step (w : World) : Event → Option World
  | .put obj => some { w with primary := w.primary.create obj, replica := w.replica.create obj, mark := w.sent.length }
  | .call m => some { w with primary := w.primary.perform m, sent := w.sent ++ [⟨m.versionID, m.op.received⟩] }
  | .deliver i now => (w.sent[i]?).map fun m => { w with
      replica := w.replica.receive now m
      delivered := if i = w.delivered then w.delivered + 1 else w.delivered }

def Orderly (w : World) : Event → Prop
  | .put _ => w.delivered = w.sent.length
  | .call m => m.op.received = m.op
  | .deliver i now => (i = w.delivered ∨ i + 1 = w.delivered ∧ w.mark < w.delivered) ∧ ∀ m old, w.sent[i]? = some m →
      w.replica.versions (w.replica.address m.versionID) = some old → m.op.accepted now old

section
variable {k : Key} {m : Message} {w w' : World}

theorem mergedTwice (m updates : Metadata) : (m.setAll updates.entries).setAll updates.entries = m.setAll updates.entries := by
  refine Store.extGet fun name => ?_
  rw [Store.getSetEntries,Store.getSetEntries]
  cases updates.get name <;> rfl

theorem writtenTwice (op : Operation) (r : ObjectMetadata) : op.written (op.written r) = op.written r := by
  cases op with
  | set setter =>
    cases setter with
    | tagging tags => exact congrArg (fun r => { r with tags := empty.setAll (tags.getD []) }) (backIs (Setter.written r (.tagging tags)))
    | clearTagging => exact congrArg (fun r => { r with tags := empty }) (backIs (Setter.written r .clearTagging))
    | acl list => exact congrArg (fun r => { r with acl := list }) (backIs (Setter.written r (.acl list)))
    | retention config => exact congrArg (fun r => { r with retention := config }) (backIs (Setter.written r (.retention config)))
    | legalHold config =>
      exact congrArg (fun r => { r with legalHold := decide (config = some legalHoldOn) }) (backIs (Setter.written r (.legalHold config)))
    | restore status expires =>
      exact congrArg (fun r => { r with restoreStatus := status, restoreExpiresAt := expires })
        (backIs (Setter.written r (.restore status expires)))
  | updateMetadata updates =>
    have type : (updates.get contentTypeKey).getD ((updates.get contentTypeKey).getD r.contentType) =
        (updates.get contentTypeKey).getD r.contentType := by
      cases updates.get contentTypeKey <;> rfl
    have same m t (merged : m = r.metadata.setAll updates.entries) (typed : t = (updates.get contentTypeKey).getD r.contentType) :
        { Operation.written r (.updateMetadata updates) with metadata := m, contentType := t } =
        Operation.written r (.updateMetadata updates) := by
      rw [merged,typed]
      rfl
    refine (congrArg (fun r => { r with
      metadata := r.metadata.setAll updates.entries, contentType := (updates.get contentTypeKey).getD r.contentType })
      (backIs (Operation.written r (.updateMetadata updates)))).trans (same _ _ (mergedTwice _ _) type)

theorem performTwice (k : Key) (m : Message) : (k.perform m).perform m = k.perform m := by
  have again : ((k.versions (k.address m.versionID)).map m.op.written).map m.op.written =
      (k.versions (k.address m.versionID)).map m.op.written := by
    cases k.versions (k.address m.versionID) with
    | none => rfl
    | some r => exact congrArg some (writtenTwice m.op r)
  have here : (k.perform m).versions (k.address m.versionID) = (k.versions (k.address m.versionID)).map m.op.written := update_self ..
  change Key.mk k.current (update (k.perform m).versions (k.address m.versionID)
    (((k.perform m).versions (k.address m.versionID)).map m.op.written)) = _
  rw [here,again,← here,Function.update_eq_self]
  rfl

theorem receiveAccepted {now} (accepted : ∀ old, k.versions (k.address m.versionID) = some old → m.op.accepted now old) :
    k.receive now m = k.perform m := by
  cases found : k.versions (k.address m.versionID) with
  | none =>
    have same : k.perform m = k := by
      unfold Key.perform
      rw [found,Option.map_none,← found,Function.update_eq_self]
    rw [same,Key.receive,found]
  | some old =>
    rw [Key.receive,found]
    exact if_pos (accepted old found)

structure Inv (w : World) : Prop where
  within : w.delivered ≤ w.sent.length
  pending : (w.sent.drop w.delivered).foldl Key.perform w.replica = w.primary
  last : ∀ m, w.mark < w.delivered → w.sent[w.delivered - 1]? = some m → w.replica.perform m = w.replica

theorem stepInv {e} (inv : Inv w) (orderly : Orderly w e) (stepped : step w e = some w') : Inv w' := by
  cases e with
  | put obj =>
    cases stepped
    have all : w.delivered = w.sent.length := orderly
    have equal := inv.pending
    rw [all,List.drop_length] at equal
    refine ⟨inv.within,?_,fun m early => absurd early (by simp [all])⟩
    rw [all,List.drop_length,← equal]
    rfl
  | call m =>
    cases stepped
    have whole : (⟨m.versionID,m.op.received⟩ : Message) = m := congrArg (Message.mk m.versionID) orderly
    refine ⟨?_,?_,fun m' early last => inv.last m' early ?_⟩
    · rw [List.length_append]
      exact Nat.le_add_right_of_le inv.within
    · rw [List.drop_append_of_le_length inv.within,List.foldl_append,inv.pending,whole]
      rfl
    have within := inv.within
    change w.mark < w.delivered at early
    have before : w.delivered - 1 < w.sent.length := by omega
    exact (List.getElem?_append_left before).symm.trans last
  | deliver i now =>
    obtain ⟨m,found,rfl⟩ := Option.map_eq_some_iff.mp stepped
    obtain ⟨order,accepted⟩ := orderly
    have performed : w.replica.receive now m = w.replica.perform m := receiveAccepted fun old => accepted m old found
    obtain ⟨inside,here⟩ := List.getElem?_eq_some_iff.mp found
    rcases order with rfl | ⟨again,fresh⟩
    · have rest := inv.pending
      rw [List.drop_eq_getElem_cons inside,here] at rest
      refine ⟨?_,?_,fun m' _ last => ?_⟩
      · simpa using Nat.succ_le_of_lt inside
      · simpa [performed] using rest
      have same : m' = m := by
        have there : w.sent[w.delivered]? = some m' := by simpa using last
        exact Option.some.inj (there.symm.trans found)
      rw [same]
      simpa [performed] using performTwice w.replica m
    · have other : i ≠ w.delivered := by omega
      have last : w.sent[w.delivered - 1]? = some m := by
        rw [← again]
        simpa using found
      have still : w.replica.receive now m = w.replica := performed.trans (inv.last m fresh last)
      refine ⟨?_,?_,?_⟩ <;> simp only [if_neg other,still]
      · exact inv.within
      · exact inv.pending
      · exact inv.last

def begin_ (k : Key) : World := ⟨k, k, [], 0, 0⟩

/-- When every message has been carried out, in order and none after the next version was made, the replica
has the primary's records. -/
theorem replicaCatchesUp {events} (orderly : Along step Orderly (begin_ k) events) (ran : run step (begin_ k) events = some w)
    (processed : w.delivered = w.sent.length) : w.replica = w.primary := by
  have start : Inv (begin_ k) := ⟨Nat.le_refl 0,rfl,fun _ early => absurd early (Nat.lt_irrefl 0)⟩
  have inv : Inv w := runKeeps stepInv start orderly ran
  have equal := inv.pending
  rwa [processed,List.drop_length] at equal

end

def plain : Key := ⟨[], fun v => if v = [] then some (folderObject 0 (ascii "b") (ascii "k")) else none⟩

def tagged (value : Bytes) : Message := ⟨[], .set (.tagging (some [(ascii "t", value)]))⟩

-- Two tags are sent before either arrives; the first arrives twice, and a third follows.
def retried : List Event := [.call (tagged [1]), .call (tagged [2]), .deliver 0 5, .deliver 0 6, .deliver 1 7, .call (tagged [3]), .deliver 2 8]

theorem tagsAccepted {w : World} {i : Nat} {now value} (sent : w.sent[i]? = some (tagged value)) :
    ∀ (m : Message) old, w.sent[i]? = some m → w.replica.versions (w.replica.address m.versionID) = some old → m.op.accepted now old := by
  intro m _ found _
  cases sent.symm.trans found
  exact Nat.le_of_ble_eq_true rfl

theorem retriedCatchesUp : ∃ w, run step (begin_ plain) retried = some w ∧ w.delivered = w.sent.length ∧ w.replica = w.primary := by
  have orderly : Along step Orderly (begin_ plain) retried := by
    refine ⟨rfl,fun w₁ stepped => ?_⟩
    cases stepped
    refine ⟨rfl,fun w₂ stepped => ?_⟩
    cases stepped
    refine ⟨⟨.inl rfl,tagsAccepted rfl⟩,fun w₃ stepped => ?_⟩
    cases stepped
    refine ⟨⟨.inr ⟨rfl,by decide⟩,tagsAccepted rfl⟩,fun w₄ stepped => ?_⟩
    cases stepped
    refine ⟨⟨.inl rfl,tagsAccepted rfl⟩,fun w₅ stepped => ?_⟩
    cases stepped
    refine ⟨rfl,fun w₆ stepped => ?_⟩
    cases stepped
    exact ⟨⟨.inl rfl,tagsAccepted rfl⟩,fun _ _ => trivial⟩
  exact ⟨_,rfl,rfl,replicaCatchesUp orderly rfl rfl⟩

-- The second of two tags arrives first; and a removed retention arrives as an empty one.
theorem messagesCross : (run step (begin_ plain) [.call (tagged [1]), .call (tagged [2]), .deliver 1 5, .deliver 0 6]).map
        (fun w => ((w.primary.versions []).map fun r => r.tags.entries, (w.replica.versions []).map fun r => r.tags.entries)) =
      some (some [(ascii "t", [2])], some [(ascii "t", [1])]) ∧ (run step (begin_ plain) [.call ⟨[], .set (.retention none)⟩, .deliver 0 5]).map
        (fun w => ((w.primary.versions []).map retention, (w.replica.versions []).map retention)) = some (some none, some (some ⟨[], zeroTime⟩)) :=
  ⟨rfl,rfl⟩

end MaxIOFS.MetadataFanout
