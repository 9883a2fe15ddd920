import MaxIOFS.OrderedStore
import MaxIOFS.Runs

/-! One path of the filesystem backend: its data file, its sidecar and the staged
sidecar of a Put in progress. A call is a list of file-system effects, each atomic;
a crash keeps a prefix of them. `writer` names the call whose content a file holds:
no operation reads it. Directories in the place of these files are not modelled. -/
namespace MaxIOFS.StagedCommit
open ByteString OrderedStore Runs

abbrev Metadata := Store Bytes Bytes

structure Stored where
  bytes : Bytes
  modTime : Int
  writer : Nat
  deriving DecidableEq

structure Sidecar where
  entries : Metadata
  writer : Option Nat
  deriving DecidableEq

structure Slot where
  data : Option Stored
  (sidecar staged : Option Sidecar)
  deriving DecidableEq

def vacant : Slot := ⟨none, none, none⟩

def etagKey : Bytes := ascii "etag"
def sizeKey : Bytes := ascii "size"
def lastModifiedKey : Bytes := ascii "last_modified"

def entry (m : Metadata) (k : Bytes) : Bytes := (m.get k).getD []

def calculated (md5 : Bytes → Bytes) (now : Int) (data : Bytes) (m : Metadata) : Metadata :=
  ((m.set sizeKey (formatInt data.length)).set etagKey (md5 data)).set lastModifiedKey (formatInt now)

structure Job where
  bytes : Bytes
  metadata : Metadata
  now : Int

def Job.stored (job : Job) (i : Nat) : Stored := ⟨job.bytes, job.now, i⟩
def Job.sidecar (md5 : Bytes → Bytes) (job : Job) (i : Nat) : Sidecar := ⟨calculated md5 job.now job.bytes job.metadata, some i⟩

inductive Repair where
  | nothing | rollForward | discard
  deriving DecidableEq, Repr

def repairChoice (md5 : Bytes → Bytes) (s : Slot) : Repair :=
  match s.staged with
  | none => .nothing
  | some staged =>
    if entry staged.entries etagKey = [] then .discard else
      match s.data with
      | none => .discard
      | some stored =>
        let size := parseInt (entry staged.entries sizeKey)
        if size.2 = true ∧ size.1 ≠ stored.bytes.length then .discard
        else if md5 stored.bytes = entry staged.entries etagKey then .rollForward
        else .discard

def repairWith (s : Slot) : Repair → Slot
  | .nothing => s
  | .rollForward => match s.staged with
    | some m => { s with sidecar := some m, staged := none }
    | none => s
  | .discard => { s with staged := none }

def repairStagedCommit (md5 : Bytes → Bytes) (s : Slot) : Slot := repairWith s (repairChoice md5 s)

def generateBasicMetadata (md5 : Bytes → Bytes) (stored : Stored) : Metadata :=
  ((empty.set sizeKey (formatInt stored.bytes.length)).set lastModifiedKey (formatInt stored.modTime)).set etagKey (md5 stored.bytes)

def getMetadata (md5 : Bytes → Bytes) (s : Slot) : Option Sidecar :=
  let r := repairStagedCommit md5 s
  match r.sidecar with
  | some m => some m
  | none => r.data.map (fun stored => ⟨generateBasicMetadata md5 stored, none⟩)

def get (md5 : Bytes → Bytes) (s : Slot) : Option (Stored × Sidecar) := do
  let stored ← (repairStagedCommit md5 s).data
  let m ← getMetadata md5 (repairStagedCommit md5 s)
  some (stored, m)

inductive Effect where
  | repair
  | stage (m : Sidecar)
  | renameData (stored : Stored)
  | renameSidecar
  | saveSidecar (entries : Metadata)
  | removeData
  | removeSidecar
  | removeStaged

def apply (md5 : Bytes → Bytes) (s : Slot) : Effect → Slot
  | .repair => repairStagedCommit md5 s
  | .stage m => { s with staged := some m }
  | .renameData stored => { s with data := some stored }
  | .renameSidecar => match s.staged with
    | some m => { s with sidecar := some m, staged := none }
    | none => s
  | .saveSidecar entries => { s with sidecar := some ⟨entries, s.sidecar.bind Sidecar.writer⟩ }
  | .removeData => { s with data := none }
  | .removeSidecar => { s with sidecar := none }
  | .removeStaged => { s with staged := none }

inductive Request where
  | put (data : Bytes) (metadata : Metadata) (now : Int)
  | setMetadata (entries : Metadata)
  | get
  | delete

structure Call where
  request : Request
  crash : Option Nat

def effects (md5 : Bytes → Bytes) (writer : Nat) (s : Slot) : Request → List Effect
  | .put data metadata now =>
    [.repair, .stage ⟨calculated md5 now data metadata, some writer⟩, .renameData ⟨data, now, writer⟩, .renameSidecar]
  | .setMetadata entries => [.repair, .saveSidecar entries]
  | .get => [.repair, .repair]
  | .delete => match s.data with
    | none => []
    | some _ => [.removeData, .removeSidecar, .removeStaged]

def survived (crash : Option Nat) (program : List Effect) : List Effect :=
  match crash with
  | none => program
  | some k => program.take k

def perform (md5 : Bytes → Bytes) (writer : Nat) (s : Slot) (call : Call) : Slot :=
  (survived call.crash (effects md5 writer s call.request)).foldl (apply md5) s

structure Backend where
  slot : Slot
  calls : Nat

def step (md5 : Bytes → Bytes) (b : Backend) (call : Call) : Option Backend := some ⟨perform md5 b.calls b.slot call, b.calls + 1⟩

def Keeping (md5 : Bytes → Bytes) (b : Backend) (call : Call) : Prop :=
  match call.request with
  | .setMetadata entries => ∃ current, getMetadata md5 b.slot = some current ∧
      entry entries etagKey = entry current.entries etagKey ∧ entry entries sizeKey = entry current.entries sizeKey
  | _ => True

def SamePut (md5 : Bytes → Bytes) (s : Slot) : Prop :=
  (∀ stored m, get md5 s = some (stored, m) → m.writer = some stored.writer) ∧
  (∀ m, getMetadata md5 s = some m → ∃ stored, (repairStagedCommit md5 s).data = some stored ∧ m.writer = some stored.writer)

def Untouched (md5 : Bytes → Bytes) (b : Backend) (data : Bytes) (metadata : Metadata) (now : Int) (k : Nat) : Prop :=
  let after := perform md5 b.calls b.slot ⟨.put data metadata now, some k⟩
  get md5 after = get md5 b.slot ∧ getMetadata md5 after = getMetadata md5 b.slot

/-! The two crashes that break the pair: a Put stopped after staging when the file already
holds its bytes, and a Delete stopped between the data file and the sidecar. -/
def Clean (md5 : Bytes → Bytes) (b : Backend) (call : Call) : Prop :=
  match call.request, call.crash with
  | .put data _ _, some 2 => ∀ stored, (repairStagedCommit md5 b.slot).data = some stored → stored.bytes ≠ data
  | .delete, some 1 => b.slot.data = none ∨ b.slot.sidecar = none
  | _, _ => True

theorem calculatedEtag (md5 now data m) : entry (calculated md5 now data m) etagKey = md5 data := by
  have other : lastModifiedKey ≠ etagKey := by decide
  simp [entry,calculated,Store.getSetOther _ _ other]

theorem calculatedSize (md5 now data m) : entry (calculated md5 now data m) sizeKey = formatInt data.length := by
  have time : lastModifiedKey ≠ sizeKey := by decide
  have etag : etagKey ≠ sizeKey := by decide
  simp [entry,calculated,Store.getSetOther _ _ time,Store.getSetOther _ _ etag]

def Matched (md5 : Bytes → Bytes) (stored : Stored) (m : Sidecar) : Prop :=
  m.writer = some stored.writer ∧ entry m.entries etagKey = md5 stored.bytes

def Settled (md5 : Bytes → Bytes) (s : Slot) : Prop :=
  s.staged = none ∧ (s.data = none ∧ s.sidecar = none ∨ ∃ stored m, s.data = some stored ∧ s.sidecar = some m ∧ Matched md5 stored m)

def Consistent (md5 : Bytes → Bytes) (s : Slot) : Prop :=
  s.data = none ∧ s.sidecar = none ∨ ∃ stored, s.data = some stored ∧
    ((∃ m, s.sidecar = some m ∧ Matched md5 stored m) ∧ (∀ staged, s.staged = some staged → entry staged.entries etagKey ≠ md5 stored.bytes) ∨
      ∃ staged, s.staged = some staged ∧ Matched md5 stored staged ∧ entry staged.entries sizeKey = formatInt stored.bytes.length)

theorem settledConsistent {md5 s} (settled : Settled md5 s) : Consistent md5 s := by
  obtain ⟨clear,empty | ⟨stored,m,data,sidecar,matched⟩⟩ := settled
  · exact .inl empty
  · exact .inr ⟨stored,data,.inl ⟨⟨m,sidecar,matched⟩,by simp [clear]⟩⟩

theorem repairNothing (md5 : Bytes → Bytes) {s} (clear : s.staged = none) : repairStagedCommit md5 s = s := by
  simp only [repairStagedCommit,repairChoice,clear,repairWith]

theorem repairDiscards {md5 s stored staged} (data : s.data = some stored) (pending : s.staged = some staged)
    (other : entry staged.entries etagKey ≠ md5 stored.bytes) : repairStagedCommit md5 s = { s with staged := none } := by
  simp only [repairStagedCommit,repairChoice,pending,data,if_neg other.symm,ite_self,repairWith]

theorem repairMissing {md5 s} (data : s.data = none) : repairStagedCommit md5 s = { s with staged := none } := by
  cases pending : s.staged with
  | none => rw [repairNothing md5 pending,← pending]
  | some staged => simp only [repairStagedCommit,repairChoice,pending,data,ite_self,repairWith]

theorem repairForward {md5 s stored staged} (nonempty : ∀ b, md5 b ≠ []) (data : s.data = some stored)
    (pending : s.staged = some staged) (etag : entry staged.entries etagKey = md5 stored.bytes)
    (size : entry staged.entries sizeKey = formatInt stored.bytes.length) :
    repairStagedCommit md5 s = { s with sidecar := some staged, staged := none } := by
  have named : ¬ entry staged.entries etagKey = [] := by rw [etag]; exact nonempty _
  have agrees : ¬ ((parseInt (entry staged.entries sizeKey)).2 = true ∧ (parseInt (entry staged.entries sizeKey)).1 ≠ stored.bytes.length) := by
    rw [size]
    intro mismatch
    exact mismatch.2 (parseFormatNat (Prod.ext rfl mismatch.1))
  simp only [repairStagedCommit,repairChoice,pending,data,if_neg named,if_neg agrees,if_pos etag.symm,repairWith]

theorem repairSettles {md5 s} (nonempty : ∀ b, md5 b ≠ []) (consistent : Consistent md5 s) : Settled md5 (repairStagedCommit md5 s) := by
  obtain ⟨data,sidecar⟩ | ⟨stored,data,⟨⟨m,sidecar,matched⟩,dead⟩ | ⟨staged,pending,matched,size⟩⟩ := consistent
  · rw [repairMissing data]
    exact ⟨rfl,.inl ⟨data,sidecar⟩⟩
  · cases pending : s.staged with
    | none =>
      rw [repairNothing md5 pending]
      exact ⟨pending,.inr ⟨stored,m,data,sidecar,matched⟩⟩
    | some staged =>
      rw [repairDiscards data pending (dead staged pending)]
      exact ⟨rfl,.inr ⟨stored,m,data,sidecar,matched⟩⟩
  · rw [repairForward nonempty data pending matched.2 size]
    exact ⟨rfl,.inr ⟨stored,staged,data,rfl,matched⟩⟩

theorem settledSamePut {md5 s} (settled : Settled md5 (repairStagedCommit md5 s)) : SamePut md5 s := by
  have again := repairNothing md5 settled.1
  obtain ⟨_,⟨data,sidecar⟩ | ⟨_,_,data,sidecar,matched⟩⟩ := settled
  · simp [SamePut,get,getMetadata,data,sidecar]
  · simp [SamePut,get,getMetadata,again,data,sidecar,matched.1]

theorem performPut (md5 writer s data metadata now crash) : perform md5 writer s ⟨.put data metadata now,crash⟩ =
      let r := repairStagedCommit md5 s
      let m : Sidecar := ⟨calculated md5 now data metadata,some writer⟩
      match crash with
      | some 0 => s
      | some 1 => r
      | some 2 => { r with staged := some m }
      | some 3 => { r with data := some ⟨data,now,writer⟩, staged := some m }
      | _ => ⟨some ⟨data,now,writer⟩,some m,none⟩ := by
  match crash with
  | none | some 0 | some 1 | some 2 | some 3 => rfl
  | some (k + 4) => simp [perform,survived,effects,apply]

theorem performDelete {md5 writer s stored} (data : s.data = some stored) (crash) :
    perform md5 writer s ⟨.delete,crash⟩ = match crash with
      | some 0 => s
      | some 1 => { s with data := none }
      | some 2 => { s with data := none, sidecar := none }
      | _ => vacant := by
  match crash with
  | none | some 0 | some 1 | some 2 | some (k + 3) => simp [perform,survived,effects,data,apply,vacant]

theorem putConsistent {md5 b data metadata now crash} (injective : Function.Injective md5)
    (nonempty : ∀ b, md5 b ≠ []) (consistent : Consistent md5 b.slot) (clean : Clean md5 b ⟨.put data metadata now,crash⟩) :
    Consistent md5 (perform md5 b.calls b.slot ⟨.put data metadata now,crash⟩) := by
  have settled := repairSettles nonempty consistent
  have fresh : Matched md5 ⟨data,now,b.calls⟩ ⟨calculated md5 now data metadata,some b.calls⟩ := ⟨rfl,calculatedEtag md5 now data metadata⟩
  rw [performPut]
  match crash with
  | some 0 => exact consistent
  | some 1 => exact settledConsistent settled
  | some 2 =>
    obtain ⟨_,empty | ⟨stored,m,found,sidecar,matched⟩⟩ := settled
    · exact .inl empty
    refine .inr ⟨stored,found,.inl ⟨⟨m,sidecar,matched⟩,?_⟩⟩
    intro staged pending
    cases pending
    rw [calculatedEtag]
    exact fun same => clean stored found (injective same).symm
  | some 3 =>
    exact .inr ⟨⟨data,now,b.calls⟩,rfl,.inr ⟨_,rfl,fresh,calculatedSize md5 now data metadata⟩⟩
  | none | some (k + 4) =>
    exact settledConsistent ⟨rfl,.inr ⟨⟨data,now,b.calls⟩,_,rfl,rfl,fresh⟩⟩

theorem setMetadataConsistent {md5 b entries crash} (nonempty : ∀ b, md5 b ≠ []) (consistent : Consistent md5 b.slot)
    (keeping : Keeping md5 b ⟨.setMetadata entries,crash⟩) : Consistent md5 (perform md5 b.calls b.slot ⟨.setMetadata entries,crash⟩) := by
  have settled := repairSettles nonempty consistent
  have saved : Consistent md5 (apply md5 (repairStagedCommit md5 b.slot) (.saveSidecar entries)) := by
    obtain ⟨_,read,etag,_⟩ := keeping
    obtain ⟨clear,⟨data,sidecar⟩ | ⟨stored,m,data,sidecar,matched⟩⟩ := settled
    · simp [getMetadata,data,sidecar] at read
    simp only [getMetadata,sidecar,Option.some.injEq] at read
    subst read
    refine settledConsistent ⟨clear,.inr ⟨stored,⟨entries,m.writer⟩,data,?_,matched.1,etag.trans matched.2⟩⟩
    simp [apply,sidecar]
  match crash with
  | some 0 => exact consistent
  | some 1 => exact settledConsistent settled
  | none | some (k + 2) => simpa [perform,survived,effects,apply] using saved

theorem deleteConsistent {md5 b crash} (consistent : Consistent md5 b.slot) (clean : Clean md5 b ⟨.delete,crash⟩) :
    Consistent md5 (perform md5 b.calls b.slot ⟨.delete,crash⟩) := by
  cases data : b.slot.data with
  | none =>
    have idle : perform md5 b.calls b.slot ⟨.delete,crash⟩ = b.slot := by
      cases crash <;> simp [perform,survived,effects,data]
    rw [idle]
    exact consistent
  | some stored =>
    rw [performDelete data]
    match crash with
    | some 0 => exact consistent
    | some 1 =>
      obtain missing | sidecar := clean
      · simp [data] at missing
      · exact .inl ⟨rfl,sidecar⟩
    | some 2 | none | some (k + 3) => exact .inl ⟨rfl,rfl⟩

theorem getConsistent {md5 : Bytes → Bytes} {b : Backend} {crash} (nonempty : ∀ b, md5 b ≠ []) (consistent : Consistent md5 b.slot) :
    Consistent md5 (perform md5 b.calls b.slot ⟨.get,crash⟩) := by
  have settled := repairSettles nonempty consistent
  have twice := repairNothing md5 settled.1
  match crash with
  | some 0 => exact consistent
  | some 1 => exact settledConsistent settled
  | none | some (k + 2) => simpa [perform,survived,effects,apply,twice] using settledConsistent settled

theorem stepConsistent {md5 b call next} (injective : Function.Injective md5) (nonempty : ∀ b, md5 b ≠ [])
    (consistent : Consistent md5 b.slot) (ok : Keeping md5 b call ∧ Clean md5 b call) (done : step md5 b call = some next) :
    Consistent md5 next.slot := by
  cases done
  obtain ⟨request,_⟩ := call
  cases request with
  | put data metadata now => exact putConsistent injective nonempty consistent ok.2
  | setMetadata entries => exact setMetadataConsistent nonempty consistent ok.1
  | get => exact getConsistent nonempty consistent
  | delete => exact deleteConsistent consistent ok.2

theorem repairDropsStage {md5 r m} (clear : r.staged = none) (dead : ∀ stored, r.data = some stored → entry m.entries etagKey ≠ md5 stored.bytes) :
    repairStagedCommit md5 { r with staged := some m } = r := by
  obtain ⟨data,_⟩ := r
  cases clear
  cases data with
  | none => exact repairMissing rfl
  | some stored => exact repairDiscards rfl rfl (dead stored rfl)

theorem crashedPutUntouched {md5 b data metadata now k} (injective : Function.Injective md5)
    (nonempty : ∀ b, md5 b ≠ []) (consistent : Consistent md5 b.slot) (before : k ≤ 2)
    (clean : Clean md5 b ⟨.put data metadata now,some k⟩) : Untouched md5 b data metadata now k := by
  have settled := repairSettles nonempty consistent
  have same : repairStagedCommit md5 (perform md5 b.calls b.slot ⟨.put data metadata now,some k⟩) = repairStagedCommit md5 b.slot := by
    match k with
    | 0 => rfl
    | 1 => exact repairNothing md5 settled.1
    | 2 =>
      refine repairDropsStage settled.1 (fun stored found => ?_)
      rw [calculatedEtag]
      exact fun same => clean stored found (injective same).symm
  simp only [Untouched,get,getMetadata,same,and_self]

/-! In a run whose crashes all avoid the two windows of `Clean`, every answer given in the state
reached is one Put's data and metadata, and a further Put that crashes before its data rename,
again outside that window, does not change the answers. -/
theorem crashConsistency {md5 calls final} (injective : Function.Injective md5) (nonempty : ∀ b, md5 b ≠ [])
    (along : Along (step md5) (fun b call => Keeping md5 b call ∧ Clean md5 b call) ⟨vacant, 0⟩ calls)
    (done : run (step md5) ⟨vacant, 0⟩ calls = some final) :
    SamePut md5 final.slot ∧ ∀ data metadata now k, k ≤ 2 → Clean md5 final ⟨.put data metadata now, some k⟩ →
    Untouched md5 final data metadata now k := by
  have consistent : Consistent md5 final.slot := runKeeps (stepConsistent injective nonempty)
      (.inl ⟨rfl,rfl⟩) along done
  refine ⟨settledSamePut (repairSettles nonempty consistent),?_⟩
  intro data metadata now k before clean
  exact crashedPutUntouched injective nonempty consistent before clean

def shown (b : Bytes) : Bytes := 1 :: b

theorem shownInjective : Function.Injective shown := fun _ _ same => List.cons.inj same |>.2

def firstPut : Call := ⟨.put [7] empty 0, none⟩
def noted : Metadata := empty.set (ascii "note") [9]

theorem crashConsistencyAfterStaging : run (step shown) ⟨vacant, 0⟩ [firstPut, ⟨.put [8] noted 1, some 2⟩] ≠ none ∧
      ∀ final, run (step shown) ⟨vacant, 0⟩ [firstPut, ⟨.put [8] noted 1, some 2⟩] = some final → SamePut shown final.slot := by
  refine ⟨by simp [run,step],fun final done => ?_⟩
  have present : (repairStagedCommit shown (perform shown 0 vacant firstPut)).data = some ⟨[7],0,0⟩ := by decide
  refine (crashConsistency shownInjective (by simp [shown]) ?_ done).1
  refine ⟨⟨trivial,trivial⟩,fun next taken => ?_⟩
  cases taken
  refine ⟨⟨trivial,fun stored found => ?_⟩,fun _ _ => trivial⟩
  cases (found.symm.trans present)
  decide

-- A second Put of the bytes already there, stopped after staging, replaces the metadata of the first;
-- a Delete stopped after the data file leaves metadata that is still answered.
theorem crashedPutAndDeleteSeen : (¬ Untouched shown ⟨perform shown 0 vacant firstPut, 1⟩ [7] noted 1 2 ∧
      ¬ SamePut shown (perform shown 1 (perform shown 0 vacant firstPut) ⟨.put [7] noted 1, some 2⟩)) ∧
    ¬ SamePut shown (perform shown 1 (perform shown 0 vacant firstPut) ⟨.delete, some 1⟩) := by
  refine ⟨⟨fun untouched => ?_,fun same => ?_⟩,fun same => ?_⟩
  · exact absurd untouched.2 (by decide)
  · have read := same.1 ⟨[7],0,0⟩ ⟨calculated shown 1 [7] noted,some 1⟩ (by decide)
    exact absurd read (by decide)
  obtain ⟨_,found,_⟩ := same.2 ⟨calculated shown 0 [7] empty,some 0⟩ (by decide)
  have gone : (repairStagedCommit shown (perform shown 1 (perform shown 0 vacant firstPut) ⟨.delete,some 1⟩)).data = none := by decide
  simp [gone] at found

end MaxIOFS.StagedCommit
