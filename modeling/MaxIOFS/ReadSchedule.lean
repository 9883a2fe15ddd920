import MaxIOFS.StagedCommit

/-! One Get among any number of Puts on its path, interleaved effect by effect. Get takes
the path lock only to repair, and only when it sees a stage; the file it opened keeps its
content. Lock, repair and unlock inside Get are one step: nobody else moves meanwhile. -/
namespace MaxIOFS.ReadSchedule
open ByteString StagedCommit Runs

inductive PutPc where
  | waiting | locked | repaired | staged | renamed | done
  deriving DecidableEq, Repr

inductive GetPc where
  | checking
  | repairing
  | opening
  | rechecking (held : Stored)
  | rerepairing (held : Stored)
  | reading (held : Stored)
  | done (answer : Option (Stored × Sidecar))
  deriving DecidableEq

structure System where
  slot : Slot
  lock : Option Nat
  puts : Nat → PutPc
  get : GetPc

inductive Event where
  | put (i : Nat)
  | get

variable (md5 : Bytes → Bytes) (jobs : Nat → Job)

def System.put (s : System) (i : Nat) (slot : Slot) (pc : PutPc) : System := { s with slot := slot, puts := Function.update s.puts i pc }

def stepPut (s : System) (i : Nat) : Option System :=
  match s.puts i with
  | .waiting => if s.lock = none then some { s.put i s.slot .locked with lock := some i } else none
  | .locked => some (s.put i (repairStagedCommit md5 s.slot) .repaired)
  | .repaired => some (s.put i (apply md5 s.slot (.stage ((jobs i).sidecar md5 i))) .staged)
  | .staged => some (s.put i (apply md5 s.slot (.renameData ((jobs i).stored i))) .renamed)
  | .renamed => some { s.put i (apply md5 s.slot .renameSidecar) .done with lock := none }
  | .done => none

def stepGet (s : System) : Option System :=
  match s.get with
  | .checking => some { s with get := if s.slot.staged = none then .opening else .repairing }
  | .repairing =>
    if s.lock = none then some { s with slot := repairStagedCommit md5 s.slot, get := .opening } else none
  | .opening => match s.slot.data with
    | none => some { s with get := .done none }
    | some stored => some { s with get := .rechecking stored }
  | .rechecking held => some { s with get := if s.slot.staged = none then .reading held else .rerepairing held }
  | .rerepairing held =>
    if s.lock = none then some { s with slot := repairStagedCommit md5 s.slot, get := .reading held } else none
  | .reading held => match s.slot.sidecar with
    | some m => some { s with get := .done (some (held, m)) }
    -- Without a sidecar the metadata is made from whatever file is at the path now.
    | none => some { s with get := .done (s.slot.data.map fun now => (held, ⟨generateBasicMetadata md5 now, none⟩)) }
  | .done _ => none

def step (s : System) : Event → Option System
  | .put i => stepPut md5 jobs s i
  | .get => stepGet md5 s

def start (slot : Slot) : System := ⟨slot, none, fun _ => .waiting, .checking⟩

def holding : GetPc → Option Stored
  | .rechecking held | .rerepairing held | .reading held => some held
  | .checking | .repairing | .opening | .done _ => none

def Undisturbed (s : System) : Event → Prop
  | .put i => s.puts i = .renamed → ∀ held, holding s.get = some held → held.writer = i
  | .get => True

structure Genuine (s : Slot) : Prop where
  data : ∀ stored, s.data = some stored → stored = (jobs stored.writer).stored stored.writer
  sidecar : ∀ m i, s.sidecar = some m → m.writer = some i → m = (jobs i).sidecar md5 i
  staged : ∀ m i, s.staged = some m → m.writer = some i → m = (jobs i).sidecar md5 i

def past : GetPc → Prop
  | .checking | .repairing => False
  | _ => True

def Whole (s : Slot) : Prop := s.data = none ∧ s.sidecar = none ∨ ∃ stored m, s.data = some stored ∧ s.sidecar = some m ∧ Matched md5 stored m

def Holding (s : System) (i : Nat) : PutPc → Prop
  | .locked => Consistent md5 s.slot ∧ (past s.get → s.slot.staged = none)
  | .repaired => Settled md5 s.slot
  | .staged => Whole md5 s.slot ∧ s.slot.staged = some ((jobs i).sidecar md5 i)
  | .renamed => s.slot.data = some ((jobs i).stored i) ∧ s.slot.staged = some ((jobs i).sidecar md5 i)
  | .waiting | .done => False

def SidecarOf (s : Slot) (held : Stored) : Prop := ∃ m, s.sidecar = some m ∧ m.writer = some held.writer

structure Safe (s : System) : Prop where
  genuine : Genuine md5 jobs s.slot
  free : s.lock = none → Consistent md5 s.slot ∧ (past s.get → s.slot.staged = none)
  held : ∀ i, s.lock = some i → Holding md5 jobs s i (s.puts i)
  outside : ∀ i, s.lock ≠ some i → s.puts i = .waiting ∨ s.puts i = .done
  opened : ∀ stored, holding s.get = some stored → stored = (jobs stored.writer).stored stored.writer ∧
    (SidecarOf s.slot stored ∨ s.lock = some stored.writer ∧ s.puts stored.writer = .renamed)
  ready : ∀ stored, s.get = .reading stored → SidecarOf s.slot stored
  answered : ∀ stored m, s.get = .done (some (stored, m)) → ∃ i, stored = (jobs i).stored i ∧ m = (jobs i).sidecar md5 i

variable {md5 : Bytes → Bytes} {jobs : Nat → Job}

theorem repairGenuine {s} (genuine : Genuine md5 jobs s) : Genuine md5 jobs (repairStagedCommit md5 s) := by
  unfold repairStagedCommit
  cases StagedCommit.repairChoice md5 s with
  | nothing => exact genuine
  | discard => exact ⟨genuine.data,genuine.sidecar,fun m i found => by simp [repairWith] at found⟩
  | rollForward =>
    cases staged : s.staged with
    | none => simpa only [repairWith,staged] using genuine
    | some m =>
      simp only [repairWith,staged]
      refine ⟨genuine.data,fun n i found named => ?_,fun n i found => by simp at found⟩
      cases found
      exact genuine.staged m i staged named

theorem consistentWhole {s} (consistent : Consistent md5 s) (clear : s.staged = none) : Whole md5 s := by
  obtain empty | ⟨stored,data,⟨⟨m,sidecar,matched⟩,_⟩ | ⟨staged,pending,_⟩⟩ := consistent
  · exact .inl empty
  · exact .inr ⟨stored,m,data,sidecar,matched⟩
  · simp [clear] at pending

theorem wholeSidecar {s stored} (whole : Whole md5 s) (data : s.data = some stored) : SidecarOf s stored := by
  obtain ⟨missing,_⟩ | ⟨_,m,found,sidecar,matched⟩ := whole
  · simp [data] at missing
  · cases (data.symm.trans found)
    exact ⟨m,sidecar,matched.1⟩

theorem Safe.holder {s i} (safe : Safe md5 jobs s) (active : s.puts i ≠ .waiting ∧ s.puts i ≠ .done) : s.lock = some i :=
  Classical.byContradiction fun other => (safe.outside i other).elim active.1 active.2

theorem Safe.sidecarHeld {s i stored} (safe : Safe md5 jobs s) (lock : s.lock = some i) (early : s.puts i ≠ .renamed)
    (open_ : holding s.get = some stored) : SidecarOf s.slot stored := by
  obtain ⟨_,here | ⟨locked,renamed⟩⟩ := safe.opened stored open_
  · exact here
  · cases (lock.symm.trans locked)
    exact absurd renamed early

theorem Safe.moved {s i slot pc} (safe : Safe md5 jobs s) (lock : s.lock = some i)
    (genuine : Genuine md5 jobs slot) (held : Holding md5 jobs (s.put i slot pc) i pc)
    (sidecar : ∀ stored, holding s.get = some stored → SidecarOf slot stored) : Safe md5 jobs (s.put i slot pc) where
  genuine := genuine
  free free := by simp [System.put,lock] at free
  held k same := by
    have here : i = k := Option.some.inj (lock.symm.trans same)
    subst here
    simpa [System.put] using held
  outside k other := by
    have away : k ≠ i := fun same => other (by rw [same]; exact lock)
    simpa [System.put,away] using safe.outside k other
  opened stored open_ := ⟨(safe.opened stored open_).1,.inl (sidecar stored open_)⟩
  ready stored reads := sidecar stored (by rw [show s.get = .reading stored from reads]; rfl)
  answered := safe.answered

theorem stepPutSafe {s i next} (nonempty : ∀ b, md5 b ≠ []) (safe : Safe md5 jobs s)
    (undisturbed : Undisturbed s (.put i)) (taken : stepPut md5 jobs s i = some next) : Safe md5 jobs next := by
  have lock : s.puts i ≠ .waiting ∧ s.puts i ≠ .done → s.lock = some i := safe.holder
  have held := fun active => safe.held i (lock active)
  have early := fun active (other : s.puts i ≠ .renamed) stored (open_ : holding s.get = some stored) =>
    safe.sidecarHeld (lock active) other open_
  unfold stepPut at taken
  cases pc : s.puts i <;> simp only [pc,ne_eq,reduceCtorEq,not_false_eq_true,and_self,forall_const] at lock held early taken
  case waiting =>
    split at taken <;> try contradiction
    rename_i free
    cases taken
    exact {
      genuine := safe.genuine
      free := fun none => by simp at none
      held := fun k same => by
        cases same
        simpa [System.put,Holding] using safe.free free
      outside := fun k other => by
        have away : k ≠ i := fun same => other (by rw [same])
        simpa [System.put,away] using safe.outside k (by simp [free])
      opened := fun stored open_ => by
        obtain ⟨own,here | ⟨locked,_⟩⟩ := safe.opened stored open_
        · exact ⟨own,.inl here⟩
        · simp [free] at locked
      ready := safe.ready
      answered := safe.answered }
  case locked =>
    obtain ⟨consistent,clear⟩ := held
    cases taken
    refine safe.moved lock (repairGenuine safe.genuine) (repairSettles nonempty consistent) ?_
    intro stored open_
    have later : past s.get := by
      cases pc : s.get <;> simp [pc] at open_ <;> trivial
    rw [repairNothing md5 (clear later)]
    exact early stored open_
  case repaired =>
    cases taken
    refine safe.moved lock ⟨safe.genuine.data,safe.genuine.sidecar,fun m k found named => ?_⟩ ⟨held.2,rfl⟩ early
    cases found
    cases named
    rfl
  case staged =>
    cases taken
    refine safe.moved lock ⟨fun stored found => ?_,safe.genuine.sidecar,safe.genuine.staged⟩ ⟨rfl,held.2⟩ early
    cases found
    rfl
  case renamed =>
    obtain ⟨data,staged⟩ := held
    have own := undisturbed pc
    cases taken
    have committed : apply md5 s.slot .renameSidecar =
        { s.slot with sidecar := some ((jobs i).sidecar md5 i), staged := none } := by simp only [apply,staged]
    rw [committed]
    have paired : ∀ stored, holding s.get = some stored →
        SidecarOf { s.slot with sidecar := some ((jobs i).sidecar md5 i), staged := none } stored := by
      intro stored open_
      exact ⟨_,rfl,by rw [own stored open_]; rfl⟩
    exact {
      genuine := ⟨safe.genuine.data,fun m k found named => by
          cases found
          cases named
          rfl,fun m k found => by simp [System.put] at found⟩
      free := fun _ => ⟨settledConsistent ⟨rfl,.inr ⟨_,_,data,rfl,rfl,calculatedEtag md5 _ _ _⟩⟩,fun _ => rfl⟩
      held := fun k same => by simp at same
      outside := fun k _ => by
        by_cases here : k = i
        · exact .inr (by simp [System.put,here])
        · simpa [System.put,here] using safe.outside k (by simp [lock,Ne.symm here])
      opened := fun stored open_ => ⟨(safe.opened stored open_).1,.inl (paired stored open_)⟩
      ready := fun stored reads => paired stored (by rw [show s.get = .reading stored from reads]; rfl)
      answered := safe.answered }

theorem Safe.looked {s pc} (safe : Safe md5 jobs s) (clear : past pc → past s.get ∨ s.slot.staged = none)
    (opened : ∀ stored, holding pc = some stored → stored = (jobs stored.writer).stored stored.writer ∧
      (SidecarOf s.slot stored ∨ s.lock = some stored.writer ∧ s.puts stored.writer = .renamed))
    (ready : ∀ stored, pc = .reading stored → SidecarOf s.slot stored)
    (answered : ∀ stored m, pc = .done (some (stored, m)) → ∃ i, stored = (jobs i).stored i ∧ m = (jobs i).sidecar md5 i) :
    Safe md5 jobs { s with get := pc } where
  genuine := safe.genuine
  free free := ⟨(safe.free free).1,fun later => (clear later).elim (safe.free free).2 id⟩
  held i lock := by
    have held := safe.held i lock
    cases at_ : s.puts i <;> rw [at_] at held <;> try exact held
    exact ⟨held.1,fun later => (clear later).elim held.2 id⟩
  outside := safe.outside
  opened := opened
  ready := ready
  answered := answered

theorem Safe.present {s stored} (safe : Safe md5 jobs s) (later : past s.get) (data : s.slot.data = some stored) :
    stored = (jobs stored.writer).stored stored.writer ∧
    (SidecarOf s.slot stored ∨ s.lock = some stored.writer ∧ s.puts stored.writer = .renamed) := by
  refine ⟨safe.genuine.data stored data,?_⟩
  cases lock : s.lock with
  | none =>
    obtain ⟨consistent,clear⟩ := safe.free lock
    exact .inl (wholeSidecar (consistentWhole consistent (clear later)) data)
  | some i =>
    have held := safe.held i lock
    cases pc : s.puts i <;> rw [pc] at held
    · exact held.elim
    · exact .inl (wholeSidecar (consistentWhole held.1 (held.2 later)) data)
    · exact .inl (wholeSidecar held.2 data)
    · exact .inl (wholeSidecar held.1 data)
    · cases (data.symm.trans held.1)
      exact .inr ⟨rfl,pc⟩
    · exact held.elim

section
variable {s} (nonempty : ∀ b, md5 b ≠ []) (safe : Safe md5 jobs s)
include nonempty safe

theorem Safe.repairs {pc} (free : s.lock = none) (opened : ∀ stored, holding pc = some stored →
    stored = (jobs stored.writer).stored stored.writer ∧
      SidecarOf (repairStagedCommit md5 s.slot) stored) (unanswered : ∀ answer, pc ≠ .done answer) :
      Safe md5 jobs { s with slot := repairStagedCommit md5 s.slot, get := pc } where
  genuine := repairGenuine safe.genuine
  free _ :=
    have settled := repairSettles nonempty (safe.free free).1
    ⟨settledConsistent settled,fun _ => settled.1⟩
  held i lock := by simp [free] at lock
  outside := safe.outside
  opened stored open_ := ⟨(opened stored open_).1,.inl (opened stored open_).2⟩
  ready stored reads := (opened stored (by rw [show pc = .reading stored from reads]; rfl)).2
  answered stored m answer := absurd answer (unanswered _)

theorem stepGetSafe {next} (taken : stepGet md5 s = some next) : Safe md5 jobs next := by
  unfold stepGet at taken
  cases pc : s.get with
  | checking =>
    simp only [pc] at taken
    cases taken
    by_cases clear : s.slot.staged = none
    · simp only [clear]
      exact safe.looked (fun _ => .inr clear) (by simp [holding]) (by simp) (by simp)
    · simp only [clear]
      exact safe.looked (fun later => later.elim) (by simp [holding]) (by simp) (by simp)
  | repairing =>
    simp only [pc] at taken
    split at taken <;> try contradiction
    rename_i free
    cases taken
    exact safe.repairs nonempty free (by simp [holding]) (by simp)
  | opening =>
    have later : past s.get := by rw [pc]; trivial
    simp only [pc] at taken
    split at taken <;> cases taken
    · exact safe.looked (fun _ => .inl later) (by simp [holding]) (by simp) (by simp)
    rename_i stored data
    refine safe.looked (fun _ => .inl later) (fun other same => ?_) (by simp) (by simp)
    cases same
    exact safe.present later data
  | rechecking held =>
    have later : past s.get := by rw [pc]; trivial
    have mine := safe.opened held (by rw [pc]; rfl)
    simp only [pc] at taken
    cases taken
    by_cases clear : s.slot.staged = none
    · simp only [clear]
      have sidecar : SidecarOf s.slot held := by
        obtain ⟨_,here | ⟨lock,renamed⟩⟩ := mine
        · exact here
        have busy := safe.held held.writer lock
        rw [renamed] at busy
        exact absurd (clear.symm.trans busy.2) (by simp)
      refine safe.looked (fun _ => .inl later) (fun other same => ?_) (fun other same => ?_) (by simp)
      · cases same
        exact ⟨mine.1,.inl sidecar⟩
      · cases same
        exact sidecar
    · simp only [clear,if_false]
      refine safe.looked (fun _ => .inl later) (fun other same => ?_) (by simp) (by simp)
      cases same
      exact mine
  | rerepairing held =>
    have later : past s.get := by rw [pc]; trivial
    have mine := safe.opened held (by rw [pc]; rfl)
    simp only [pc] at taken
    split at taken <;> try contradiction
    rename_i free
    cases taken
    refine safe.repairs nonempty free (fun other same => ?_) (by simp)
    cases same
    rw [repairNothing md5 ((safe.free free).2 later)]
    obtain ⟨own,here | ⟨lock,_⟩⟩ := mine
    · exact ⟨own,here⟩
    · simp [free] at lock
  | reading held =>
    have later : past s.get := by rw [pc]; trivial
    have own := (safe.opened held (by rw [pc]; rfl)).1
    obtain ⟨m,sidecar,named⟩ := safe.ready held pc
    simp only [pc,sidecar] at taken
    cases taken
    refine safe.looked (fun _ => .inl later) (by simp [holding]) (by simp) (fun stored n answer => ?_)
    cases answer
    exact ⟨held.writer,own,safe.genuine.sidecar m held.writer sidecar named⟩
  | done answer => simp only [pc,reduceCtorEq] at taken

theorem stepSafe {event next} (undisturbed : Undisturbed s event) (taken : step md5 jobs s event = some next) : Safe md5 jobs next := by
  cases event with
  | put i => exact stepPutSafe nonempty safe undisturbed taken
  | get => exact stepGetSafe nonempty safe taken

end

theorem startSafe {slot} (genuine : Genuine md5 jobs slot) (consistent : Consistent md5 slot) : Safe md5 jobs (start slot) where
  genuine := genuine
  free _ := ⟨consistent,fun later => later.elim⟩
  held i lock := by simp [start] at lock
  outside _ _ := .inl rfl
  opened stored open_ := by simp [start,holding] at open_
  ready stored reads := by simp [start] at reads
  answered stored m answer := by simp [start] at answer

/-! From any state crashes can leave: in every schedule in which no other Put moves its sidecar into
place while Get holds its file open, the answer is one Put's bytes and sidecar, so it opens to that
Put's plaintext. `decrypt` stands for the decryption; each Put's own pair opens to what it stored. -/
theorem readNotTorn {slot events final stored m} {decrypt : Bytes → Metadata → Option Bytes} {plaintext : Nat → Bytes}
    (nonempty : ∀ b, md5 b ≠ []) (genuine : Genuine md5 jobs slot) (consistent : Consistent md5 slot)
    (sealed : ∀ i, decrypt (jobs i).bytes ((jobs i).sidecar md5 i).entries = some (plaintext i))
    (undisturbed : Along (step md5 jobs) Undisturbed (start slot) events) (done : run (step md5 jobs) (start slot) events = some final)
    (answer : final.get = .done (some (stored, m))) : ∃ i, (stored = (jobs i).stored i ∧ m = (jobs i).sidecar md5 i) ∧
      decrypt stored.bytes m.entries = some (plaintext i) := by
  have safe : Safe md5 jobs final := runKeeps (fun held ok taken => stepSafe nonempty held ok taken)
    (startSafe genuine consistent) undisturbed done
  obtain ⟨i,data,sidecar⟩ := safe.answered stored m answer
  refine ⟨i,⟨data,sidecar⟩,?_⟩
  rw [data,sidecar]
  exact sealed i

def plain (b : Bytes) : Bytes := 1 :: b
def numbered (i : Nat) : Job := ⟨[UInt8.ofNat i], OrderedStore.empty, 0⟩
def afterFirst : Slot := ⟨some ((numbered 0).stored 0), some ((numbered 0).sidecar plain 0), none⟩

def checked (b : Bytes) (m : Metadata) : Option Bytes :=
  if entry m etagKey = plain b then some b else none

theorem checkedOwn (i : Nat) : checked (numbered i).bytes ((numbered i).sidecar plain i).entries = some (numbered i).bytes :=
  if_pos (calculatedEtag plain _ _ _)

theorem afterFirstGenuine : Genuine plain numbered afterFirst where
  data stored found := by cases found; rfl
  sidecar m i found named := by cases found; cases named; rfl
  staged m i found := by simp [afterFirst] at found

theorem afterFirstConsistent : Consistent plain afterFirst := settledConsistent ⟨rfl,.inr ⟨_,_,rfl,rfl,rfl,calculatedEtag plain _ _ _⟩⟩

theorem readNotTornBesidePut : ∃ final, run (step plain numbered) (start afterFirst) [.get, .put 1, .get, .put 1, .get, .get] = some final ∧
      checked ((numbered 0).stored 0).bytes ((numbered 0).sidecar plain 0).entries = some [0] := by
  have along : Along (step plain numbered) Undisturbed (start afterFirst) [.get,.put 1,.get,.put 1,.get,.get] := by
    refine ⟨trivial,fun next taken => ?_⟩
    cases taken
    refine ⟨fun renamed => absurd renamed (by decide),fun next taken => ?_⟩
    cases taken
    refine ⟨trivial,fun next taken => ?_⟩
    cases taken
    refine ⟨fun renamed => absurd renamed (by decide),fun next taken => ?_⟩
    exact ⟨trivial,fun _ _ => ⟨trivial,fun _ _ => trivial⟩⟩
  obtain ⟨final,done⟩ : ∃ final, run (step plain numbered) (start afterFirst) [.get,.put 1,.get,.put 1,.get,.get] = some final := ⟨_,rfl⟩
  have answer : final.get = .done (some ((numbered 0).stored 0, (numbered 0).sidecar plain 0)) := by
    cases done
    decide
  obtain ⟨i,⟨data,_⟩,opens⟩ := readNotTorn (by simp [plain]) afterFirstGenuine afterFirstConsistent checkedOwn along done answer
  have same : 0 = i := congrArg Stored.writer data
  subst same
  exact ⟨final,done,opens⟩

-- Get opens the old file, a Put replaces both files, Get reads the new sidecar.
theorem readTorn : ∃ final, run (step plain numbered) (start afterFirst) ([.get, .get] ++ List.replicate 5 (.put 1) ++ [.get, .get]) = some final ∧
      final.get = .done (some ((numbered 0).stored 0, (numbered 1).sidecar plain 1)) ∧
      checked ((numbered 0).stored 0).bytes ((numbered 1).sidecar plain 1).entries = none :=
  ⟨_,rfl,by decide,by decide⟩

end MaxIOFS.ReadSchedule
