import MaxIOFS.KeyFrame
import MaxIOFS.MultipartSteps

/-! A completion beside any number of uploads of its parts. The completion validates the parts
one after another, hashes what their records say and then reads their files; an upload replaces
the file first and the record afterwards. -/
namespace MaxIOFS.PartRaces
open Function ByteString FileTree Effects Turns Runs ObjectManager RecordChanges Records MetadataStore MultipartSteps OrderedStore
open StagedCommit (Metadata calculated entry)
open Filesystem FileFrame StoredFiles StoredObjects ObjectReads PartFiles ManagerFiles KeyFrame Completions List

theorem zerosRead (k : Nat) (rest : Bytes) : readDigits 0 (replicate k 48 ++ rest) = readDigits 0 rest := by
  induction k with
  | zero => rfl
  | succ k ih => exact ih

theorem fiveDigitsRead (n : Nat) : readDigits 0 (fiveDigits n) = some n := by
  rw [fiveDigits,if_neg (by omega),nil_append,zerosRead]
  exact ByteString.readDigitsDigits (Nat.lt_succ_self n)

theorem fiveDigitsInj {n m} (positive : 0 < n) (positive' : 0 < m) (same : fiveDigits n = fiveDigits m) : n = m := by
  obtain ⟨a,rfl⟩ := Int.eq_ofNat_of_zero_le positive.le
  obtain ⟨b,rfl⟩ := Int.eq_ofNat_of_zero_le positive'.le
  have read := fiveDigitsRead a
  rw [show fiveDigits (a : Int) = _ from same,fiveDigitsRead b] at read
  rw [Option.some.inj read]

section
variable {uploadID : Bytes} {n m : Int}

theorem partKeyInj (positive : 0 < n) (positive' : 0 < m) (same : partKey uploadID n = partKey uploadID m) : n = m :=
  fiveDigitsInj positive positive' (append_cancel_left same)

theorem partFileInj (positive : 0 < n) (positive' : 0 < m) (same : partFile uploadID n = partFile uploadID m) : n = m := by
  rw [partShape,partShape] at same
  exact fiveDigitsInj positive positive' (cons.inj (append_cancel_left same)).1

theorem partPlain (uploadID : Bytes) (n : Int) : hasSuffix [slash] (getMultipartPartPath uploadID n) = false := by
  rw [Bool.eq_false_iff]
  intro ending
  obtain ⟨_,shape⟩ := ByteString.hasSuffixIff.mp ending
  have present : fiveDigits n ≠ [] := fun none_ => ByteString.formatIntNonempty n.natAbs (append_eq_nil_iff.mp none_).2
  have last : (getMultipartPartPath uploadID n).getLast? = (fiveDigits n).getLast? := by
    rw [getMultipartPartPath,getLast?_append_of_ne_nil _ present]
  rw [← shape,getLast?_concat] at last
  exact fiveDigitsFree (by decide) (mem_of_getLast? last.symm)

theorem partClear (uploadID : Bytes) (n m : Int) : Clear (partFile uploadID n) (partFile uploadID m) := by
  have length suffix : (withSuffix (partFile uploadID m) suffix).length = (partFile uploadID n).length := by
    rw [partShape,partShape,suffixLast]
    simp
  have beside := partBeside uploadID m n
  have beside' := partBeside uploadID n m
  exact ⟨beside.metadata,beside.staging,fun inside => beside'.metadata (inside.eq_of_length (length _)),
    fun inside => beside'.staging (inside.eq_of_length (length _))⟩

end

structure Setting where
  node : Node
  call : Call
  uploadID : Bytes
  parts : List Part
  sources : Nat → Source

structure World where
  state : State
  stage : Stage
  phase : Nat → Phase

inductive Event where
  | complete
  | upload (i : Nat)

def Setting.completion (x : Setting) : Cut State Error Object Stage := completing x.node x.call x.uploadID x.parts

def Setting.uploader (x : Setting) (i : Nat) : Cut State Error PartMetadata Phase := uploading x.node x.uploadID (x.sources i)

def begin_ (s : State) : World := ⟨s, .waiting, fun _ => .waiting⟩

def step (x : Setting) (w : World) : Event → Option World
  | .complete => match x.completion.answer w.stage with
    | some _ => none
    | none => some { w with stage := (x.completion.turn w.stage w.state).1, state := (x.completion.turn w.stage w.state).2 }
  | .upload i => match (x.uploader i).answer (w.phase i) with
    | some _ => none
    | none => some { w with
        phase := update w.phase i ((x.uploader i).turn (w.phase i) w.state).1
        state := ((x.uploader i).turn (w.phase i) w.state).2 }

def midway : Phase → Bool
  | .waiting | .returned _ => false
  | .placed | .described _ | .unrecorded _ => true

def Quiet (x : Setting) (phase : Nat → Phase) (n : Int) : Prop := ∀ i, midway (phase i) = true → (x.sources i).partNumber ≠ n

def watched (parts : List Part) : Stage → List Part
  | .validating _ _ _ seen _ => seen
  | .hashing .. | .opening _ => parts
  | .combining _ _ _ rest => rest
  | _ => []

/-- A part is validated while no upload of it is midway, and an upload of a part begins while no
other one is midway and the completion is not between validating and reading it. -/
def Careful (x : Setting) (w : World) : Event → Prop
  | .complete => match w.stage with
    | .validating _ _ _ _ (part :: _) => Quiet x w.phase part.partNumber
    | _ => True
  | .upload i => match w.phase i with
    | .waiting => Quiet x w.phase (x.sources i).partNumber ∧ ∀ part ∈ watched x.parts w.stage, part.partNumber ≠ (x.sources i).partNumber
    | _ => True

def Setting.digest (x : Setting) (i : Nat) : Bytes := x.node.host.md5 (x.sources i).data

structure Held (x : Setting) (i : Nat) (t : Files) : Prop where
  positive : 0 < (x.sources i).partNumber
  valid : validatePath (getMultipartPartPath x.uploadID (x.sources i).partNumber) = true
  holds : Holds t (partFile x.uploadID (x.sources i).partNumber) (x.sources i).data
    (calculated x.node.host.md5 (x.sources i).call.seconds (x.sources i).data (partSidecar x.uploadID (x.sources i).partNumber))

section
variable {x : Setting} {w next : World} {s : State} {i j : Nat} {n : Int}

theorem placeSpec (x : Setting) (i : Nat) (s : State) : wp (place x.node x.uploadID (x.sources i)) (fun _ s' => s'.db = s.db ∧ Held x i s'.files ∧
      ∀ j, (x.sources i).partNumber ≠ (x.sources j).partNumber → Held x j s.files → Held x j s'.files)
    (fun _ s' => s'.db = s.db ∧ (Unblocked s.files (partFile x.uploadID (x.sources i).partNumber) → s'.files = s.files) ∧
      ∀ j, (x.sources i).partNumber ≠ (x.sources j).partNumber → Held x j s.files → Held x j s'.files) s := by
  rw [place,wpBind,wpCheck]
  refine ⟨fun range => ?_,fun _ => ⟨rfl,fun _ => rfl,fun _ _ held => held⟩⟩
  have positive : 0 < (x.sources i).partNumber := by
    have := (of_decide_eq_true range).1
    omega
  rw [wpBind,getUpload,wpObserve]
  cases s.db.getMultipartUpload x.uploadID with
  | error e => exact ⟨rfl,fun _ => rfl,fun _ _ held => held⟩
  | ok upload =>
    have others t : ∀ j, (x.sources i).partNumber ≠ (x.sources j).partNumber → Held x j t →
        Held x j (put x.node.host (x.sources i).call.seconds (getMultipartPartPath x.uploadID (x.sources i).partNumber)
          (x.sources i).data (partSidecar x.uploadID (x.sources i).partNumber) t).2 := by
      intro j other held
      obtain ⟨_,found⟩ := held.holds.data
      refine ⟨held.positive,held.valid,holdsKept held.holds fun q mem => ?_⟩
      exact (putFileFrame (partPlain _ _) found held.holds.present (partClear _ _ _)
        (fun same => other (partFileInj positive held.positive same)) mem).after rfl
    rw [wpStorage]
    refine wpMono (wpAnd (putPlainSpec (partPlain _ _)) (wpOfState (P := fun t' => ∀ j, (x.sources i).partNumber ≠ (x.sources j).partNumber →
      Held x j s.files → Held x j t') (others s.files))) (fun _ t' done => ?_) (fun _ t' failed => ?_)
    · obtain ⟨⟨valid,_,holds⟩,frame⟩ := done
      exact ⟨rfl,⟨positive,valid,holds⟩,frame⟩
    · exact ⟨rfl,failed.1.2,failed.2⟩

end

structure Backed (x : Setting) (s : State) (phase : Nat → Phase) (n : Int) (record : PartMetadata) (i : Nat) : Prop where
  number : (x.sources i).partNumber = n
  returned : ∃ answer, phase i = .returned (.ok answer)
  held : Held x i s.files
  etag : record.etag = x.digest i

structure Uploads (x : Setting) (start s : State) (phase : Nat → Phase) : Prop where
  db : ∃ parts, s.db = { start.db with parts := parts }
  held : ∀ i, midway (phase i) = true → Held x i s.files
  alone : ∀ i j, midway (phase i) = true → midway (phase j) = true → (x.sources i).partNumber = (x.sources j).partNumber → i = j
  described : ∀ i part, phase i = .described part → part.uploadID = x.uploadID ∧ part.partNumber = (x.sources i).partNumber ∧
    part.etag = x.digest i
  recordable : ∀ i e, phase i ≠ .unrecorded e
  sound : ∀ n record, 0 < n → Quiet x phase n → s.db.parts.get (partKey x.uploadID n) = some record → ∃ i, Backed x s phase n record i

structure Chosen (x : Setting) (phase : Nat → Phase) (part : Part) (i : Nat) : Prop where
  number : (x.sources i).partNumber = part.partNumber
  returned : ∃ answer, phase i = .returned (.ok answer)
  listed : part.etag ≠ [] → trimQuotes part.etag = trimQuotes (x.digest i)

structure Good (x : Setting) (s : State) (phase : Nat → Phase) (part : Part) (i : Nat) : Prop extends Chosen x phase part i where
  held : Held x i s.files
  record : ∃ record, s.db.parts.get (partKey x.uploadID part.partNumber) = some record ∧ record.etag = x.digest i
  quiet : Quiet x phase part.partNumber

structure Moved (x : Setting) (i : Nat) (s : State) (phase : Nat → Phase) (s' : State) (phase' : Nat → Phase) : Prop where
  others : ∀ j, j ≠ i → phase' j = phase j
  db : ∃ parts, s'.db = { s.db with parts := parts }
  records : ∀ n, 0 < n → n ≠ (x.sources i).partNumber → s'.db.parts.get (partKey x.uploadID n) = s.db.parts.get (partKey x.uploadID n)
  held : ∀ j, (x.sources i).partNumber ≠ (x.sources j).partNumber → Held x j s.files → Held x j s'.files

section
variable {x : Setting} {start s s' : State} {phase phase' : Nat → Phase} {i j : Nat} {n : Int}

section
variable (moved : Moved x i s phase s' phase')
include moved

theorem quietMoved (other : (x.sources i).partNumber ≠ n) (quiet : Quiet x phase n) : Quiet x phase' n := by
  intro j mid
  by_cases same : j = i
  · exact same ▸ other
  · rw [moved.others j same] at mid
    exact quiet j mid

theorem backedMoved {record} (other : (x.sources i).partNumber ≠ n) (backed : Backed x s phase n record j) : Backed x s' phase' n record j := by
  have apart : j ≠ i := fun same => other (same ▸ backed.number)
  exact ⟨backed.number,(moved.others j apart).symm ▸ backed.returned,moved.held j (fun same => other (same.trans backed.number)) backed.held,
    backed.etag⟩

theorem goodMoved {part} (other : (x.sources i).partNumber ≠ part.partNumber) (good : Good x s phase part j) : Good x s' phase' part j := by
  have apart : j ≠ i := fun same => other (same ▸ good.number)
  obtain ⟨record,found,etag⟩ := good.record
  refine ⟨⟨good.number,(moved.others j apart).symm ▸ good.returned,good.listed⟩,
    moved.held j (fun same => other (same.trans good.number)) good.held,⟨record,?_,etag⟩,quietMoved moved other good.quiet⟩
  rw [moved.records _ (good.number ▸ good.held.positive) (Ne.symm other)]
  exact found

end

theorem uploadsMoved {p} (uploads : Uploads x start s phase) (moved : Moved x i s phase s' (update phase i p))
    (exclusive : midway p = true → ∀ j, j ≠ i → midway (phase j) = true → (x.sources j).partNumber ≠ (x.sources i).partNumber)
    (kept : ∀ j, j ≠ i → midway (phase j) = true → Held x j s'.files) (held : midway p = true → Held x i s'.files)
    (described : ∀ part, p = .described part → part.uploadID = x.uploadID ∧ part.partNumber = (x.sources i).partNumber ∧ part.etag = x.digest i)
    (recordable : ∀ e, p ≠ .unrecorded e)
    (sound : midway p = false → ∀ record, 0 < (x.sources i).partNumber →
      s'.db.parts.get (partKey x.uploadID (x.sources i).partNumber) = some record →
      ∃ j, Backed x s' (update phase i p) (x.sources i).partNumber record j) : Uploads x start s' (update phase i p) where
  db := by
    obtain ⟨_,before⟩ := uploads.db
    obtain ⟨parts',after⟩ := moved.db
    exact ⟨parts',by rw [after,before]⟩
  held := (forall_update_iff phase fun j q => midway q = true → Held x j s'.files).mpr ⟨held,kept⟩
  alone := fun j k mid mid' number => by
    by_cases here : j = i <;> by_cases there : k = i
    · exact here.trans there.symm
    · subst here
      rw [update_self] at mid
      rw [update_of_ne there] at mid'
      exact absurd number.symm (exclusive mid k there mid')
    · subst there
      rw [update_self] at mid'
      rw [update_of_ne here] at mid
      exact absurd number (exclusive mid' j here mid)
    · rw [update_of_ne here] at mid
      rw [update_of_ne there] at mid'
      exact uploads.alone j k mid mid' number
  described := (forall_update_iff phase fun j q => ∀ part, q = .described part → part.uploadID = x.uploadID ∧
    part.partNumber = (x.sources j).partNumber ∧ part.etag = x.digest j).mpr ⟨described,fun j _ => uploads.described j⟩
  recordable := (forall_update_iff phase fun _ q => ∀ e, q ≠ .unrecorded e).mpr ⟨recordable,fun j _ => uploads.recordable j⟩
  sound := fun n record positive quiet found => by
    obtain ⟨own,others⟩ := (forall_update_iff phase fun j q => midway q = true → (x.sources j).partNumber ≠ n).mp quiet
    by_cases same : n = (x.sources i).partNumber
    · subst same
      exact sound (Bool.eq_false_iff.mpr fun mid => own mid rfl) record positive found
    rw [moved.records n positive same] at found
    have before : Quiet x phase n := by
      intro j mid
      by_cases here : j = i
      · exact here ▸ Ne.symm same
      · exact others j here mid
    obtain ⟨j,backed⟩ := uploads.sound n record positive before found
    exact ⟨j,backedMoved moved (Ne.symm same) backed⟩

theorem movedFiles (p : Phase) (db : s'.db = s.db)
    (frame : ∀ j, (x.sources i).partNumber ≠ (x.sources j).partNumber → Held x j s.files → Held x j s'.files) :
    Moved x i s phase s' (update phase i p) :=
  ⟨fun _ other => update_of_ne other _ _,⟨s.db.parts,by rw [db]⟩,fun n _ _ => by rw [db],frame⟩

def Advances (x : Setting) (start s : State) (phase : Nat → Phase) (i : Nat) (p : Phase) (s' : State) : Prop :=
  Moved x i s phase s' (update phase i p) ∧ Uploads x start s' (update phase i p)

theorem placeAdvances (uploads : Uploads x start s phase) (waiting : phase i = .waiting) (quiet : Quiet x phase (x.sources i).partNumber) :
    wp ((x.uploader i).act .waiting) (Advances x start s phase i) (fun e => Advances x start s phase i ((x.uploader i).failed .waiting e)) s := by
  have others : ∀ j, j ≠ i → midway (phase j) = true → (x.sources j).partNumber ≠ (x.sources i).partNumber := fun j _ mid => quiet j mid
  change wp (place x.node x.uploadID (x.sources i) >>= fun _ => pure Phase.placed) _ (fun e => Advances x start s phase i (.returned (.error e))) s
  rw [wpBind]
  refine wpMono (placeSpec x i s) (fun _ s' done => ?_) (fun e s' failed => ?_)
  · obtain ⟨db,held,frame⟩ := done
    have moved : Moved x i s phase s' (update phase i .placed) := movedFiles _ db frame
    refine ⟨moved,uploadsMoved uploads moved (fun _ => others) (fun j other mid => frame j (Ne.symm (others j other mid)) (uploads.held j mid))
      (fun _ => held) nofun nofun nofun⟩
  · obtain ⟨db,unblocked,frame⟩ := failed
    have moved : Moved x i s phase s' (update phase i (.returned (.error e))) := movedFiles _ db frame
    refine ⟨moved,uploadsMoved uploads moved (fun _ => others) (fun j other mid => frame j (Ne.symm (others j other mid)) (uploads.held j mid))
      nofun nofun nofun (fun _ record positive found => ?_)⟩
    -- A part that has a record has its file, so the put had room and left everything.
    rw [db] at found
    obtain ⟨j,backed⟩ := uploads.sound _ record positive quiet found
    have apart : j ≠ i := by
      rintro rfl
      obtain ⟨_,returned⟩ := backed.returned
      rw [waiting] at returned
      contradiction
    have room : Unblocked s.files (partFile x.uploadID (x.sources i).partNumber) := backed.number ▸ backed.held.holds.unblocked
    refine ⟨j,backed.number,?_,?_,backed.etag⟩
    · rw [update_of_ne apart]
      exact backed.returned
    · rw [unblocked room]
      exact backed.held

theorem describeAdvances (uploads : Uploads x start s phase) (placed : phase i = .placed) :
    wp ((x.uploader i).act .placed) (Advances x start s phase i) (fun e => Advances x start s phase i ((x.uploader i).failed .placed e)) s := by
  have mid : midway (phase i) = true := by
    rw [placed]
    rfl
  have held := uploads.held i mid
  change wp (storage (getMetadata x.node.host (getMultipartPartPath x.uploadID (x.sources i).partNumber)) >>= fun m =>
    pure (Phase.described (describe x.uploadID (x.sources i).partNumber m))) _ _ s
  rw [wpBind,wpStorage]
  refine wpIs (getMetadataHeld held.valid held.holds) ?_
  refine ⟨movedFiles _ rfl fun _ _ held => held,uploadsMoved uploads (movedFiles _ rfl fun _ _ held => held)
    (fun _ j other mid' same => other (uploads.alone j i mid' mid same)) (fun j _ mid => uploads.held j mid) (fun _ => held)
    (fun part found => ?_) nofun nofun⟩
  cases found
  exact ⟨rfl,rfl,StagedCommit.calculatedEtag x.node.host.md5 (x.sources i).call.seconds (x.sources i).data
    (partSidecar x.uploadID (x.sources i).partNumber)⟩

section
variable {upload} (named : x.uploadID ≠ []) (known : start.db.getMultipartUpload x.uploadID = .ok upload) (uploads : Uploads x start s phase)
include named known uploads

theorem recordAdvances {part} (described : phase i = .described part) : wp ((x.uploader i).act (.described part)) (Advances x start s phase i)
      (fun e => Advances x start s phase i ((x.uploader i).failed (.described part) e)) s := by
  have mid : midway (phase i) = true := by
    rw [described]
    rfl
  have held := uploads.held i mid
  obtain ⟨home,number,etag⟩ := uploads.described i part described
  obtain ⟨parts,before⟩ := uploads.db
  have put : s.db.putPart part = .ok { s.db with parts := s.db.parts.set (partKey x.uploadID part.partNumber) part } := by
    have there : s.db.getMultipartUpload x.uploadID = .ok upload := by
      rw [before]
      exact known
    have positive := held.positive
    rw [Database.putPart,home,if_neg (by simp only [named,false_or]; omega),there]
    rfl
  change wp (database (fun db => db.putPart part) >>= fun _ => pure (Phase.returned (.ok part))) _ _ s
  rw [wpBind,wpDatabase,put]
  have moved : Moved x i s phase { s with db := { s.db with parts := s.db.parts.set (partKey x.uploadID part.partNumber) part } }
      (update phase i (.returned (.ok part))) := by
    refine ⟨fun _ other => update_of_ne other _ _,⟨_,rfl⟩,fun n positive other => ?_,fun _ _ held => held⟩
    refine Store.getSetOther _ _ fun same => other ?_
    exact (partKeyInj (number ▸ held.positive) positive same).symm.trans number
  refine ⟨moved,uploadsMoved uploads moved nofun (fun j _ mid => uploads.held j mid) (fun _ => held) nofun nofun
    (fun _ record positive found => ?_)⟩
  rw [number,Store.getSetSame] at found
  cases found
  exact ⟨i,rfl,⟨part,update_self ..⟩,held,etag⟩

theorem uploadAdvances (quiet : phase i = .waiting → Quiet x phase (x.sources i).partNumber) (open_ : (x.uploader i).answer (phase i) = none) :
    Advances x start s phase i ((x.uploader i).turn (phase i) s).1 ((x.uploader i).turn (phase i) s).2 := by
  refine turnSpec ?_
  cases here : phase i with
  | waiting => exact placeAdvances uploads here (quiet here)
  | placed => exact describeAdvances uploads here
  | described part => exact recordAdvances named known uploads here
  | unrecorded e => exact absurd here (uploads.recordable i e)
  | returned answer =>
    rw [here] at open_
    contradiction

end

end

section
variable {x : Setting} {s : State} {i : Nat} {bucket key v : Bytes} {q : Path} {n : Int}

theorem headPrefix {a b : Path} (present : a ≠ []) (inside : a <+: b) : a.head? = b.head? := by
  obtain ⟨_,rfl⟩ := inside
  cases a with
  | nil => exact absurd rfl present
  | cons first rest => rfl

theorem objectPresent (outside : Outside bucket) (key v : Bytes) : getFullPath (pathOf bucket key v) ≠ [] := by
  obtain ⟨_,_,shape,_⟩ := outside
  obtain ⟨_,path⟩ := pathRoot bucket key v
  rw [path,shape]
  simp

theorem partHead (uploadID : Bytes) (n : Int) : (partFile uploadID n).head? = some systemRoot := partNames uploadID n (by simp [names])

theorem selfNames (p : Path) : p ∈ names p := by simp [names]

theorem objectBeside (outside : Outside bucket) (mem : q ∈ names (getFullPath (pathOf bucket key v))) (uploadID : Bytes) (n : Int) :
    Beside q (partFile uploadID n) := by
  have apart := objectNames outside mem
  exact ⟨fun same => apart (same ▸ partNames uploadID n (by simp [names])),fun same => apart (same ▸ partNames uploadID n (by simp [names]))⟩

theorem objectClear (outside : Outside bucket) {key v uploadID} {n} : Clear (partFile uploadID n) (getFullPath (pathOf bucket key v)) := by
  have present := objectPresent outside key v
  have beside := objectBeside outside (selfNames (getFullPath (pathOf bucket key v))) uploadID n
  have above q mem : ¬ q <+: partFile uploadID n := fun inside =>
    objectNames outside mem ((headPrefix (namesDir present mem).1 inside).trans (partHead uploadID n))
  exact ⟨beside.metadata,beside.staging,above _ (by simp [names]),above _ (by simp [names])⟩

theorem objectOther (outside : Outside bucket) {key v uploadID} {n} : partFile uploadID n ≠ getFullPath (pathOf bucket key v) := by
  intro same
  exact objectNames outside (selfNames _) (same ▸ partHead uploadID n)

theorem turnFiles {P} (put : Keeps P (put x.node.host (x.sources i).call.seconds (getMultipartPartPath x.uploadID (x.sources i).partNumber)
      (x.sources i).data (partSidecar x.uploadID (x.sources i).partNumber)))
    (read : Keeps P (getMetadata x.node.host (getMultipartPartPath x.uploadID (x.sources i).partNumber)))
    (remove : Keeps P (delete (getMultipartPartPath x.uploadID (x.sources i).partNumber))) (p : Phase) (before : P s.files) :
    P ((x.uploader i).turn p s).2.files := by
  refine turnSpec (P := fun _ (s' : State) => P s'.files) ?_
  cases p with
  | waiting =>
    have first : Keeps (fun s => P s.files) (place x.node x.uploadID (x.sources i)) :=
      Keeps.bind (Keeps.check _ _) fun _ => Keeps.bind (Keeps.observe _) fun _ => keepsFiles put
    exact Keeps.bind first (fun _ => Keeps.pure _) s before
  | placed => exact Keeps.bind (keepsFiles read) (fun _ => Keeps.pure _) s before
  | described part => exact Keeps.bind (keepsWrites _) (fun _ => Keeps.pure _) s before
  | unrecorded e => exact Keeps.bind (Keeps.ignore (keepsFiles remove)) (fun _ => Keeps.pure _) s before
  | returned answer => exact before

theorem turnHolds {d m} (outside : Outside bucket) (p : Phase) (holds : Holds s.files (getFullPath (pathOf bucket key v)) d m) :
    Holds ((x.uploader i).turn p s).2.files (getFullPath (pathOf bucket key v)) d m := by
  obtain ⟨_,found⟩ := holds.data
  have present := objectPresent outside key v
  refine holdsKept holds fun q mem => ?_
  refine turnFiles (P := At q (s.files.get q)) ?_ ?_ ?_ p rfl
  · exact putFileFrame (partPlain _ _) found present (objectClear outside) (objectOther outside) mem
  · exact keepsGetMetadata (objectBeside outside mem _ _)
  · exact partsAway outside mem

theorem turnDir (outside : Outside bucket) (p : Phase) (isdir : s.files.get (getFullPath (pathOf bucket key v)) = some .dir) :
    ((x.uploader i).turn p s).2.files.get (getFullPath (pathOf bucket key v)) = some .dir := by
  refine turnFiles (P := At (getFullPath (pathOf bucket key v)) (some .dir)) ?_ ?_ ?_ p isdir
  · exact keepsPutPlain (partPlain _ _) ⟨objectBeside outside (selfNames _) _ _,objectOther outside,fun _ => by simp,fun _ _ _ => by simp⟩
  · exact keepsGetMetadata (objectBeside outside (selfNames _) _ _)
  · exact partsAway outside (selfNames _)

theorem turnObjects (p : Phase) : ((x.uploader i).turn p s).2.db.objects = s.db.objects := by
  have files {α : Type} (m : Action Files Filesystem.StorageError α) : Keeps (fun s' => s'.db.objects = s.db.objects) (storage m) :=
    filesStorage (fun same => same) m
  refine turnSpec (P := fun _ (s' : State) => s'.db.objects = s.db.objects) ?_
  cases p with
  | waiting =>
    have first : Keeps (fun s' => s'.db.objects = s.db.objects) (place x.node x.uploadID (x.sources i)) :=
      Keeps.bind (Keeps.check _ _) fun _ => Keeps.bind (Keeps.observe _) fun _ => files _
    exact Keeps.bind first (fun _ => Keeps.pure _) s rfl
  | placed => exact Keeps.bind (files _) (fun _ => Keeps.pure _) s rfl
  | described part =>
    change wp (database (fun db => db.putPart part) >>= fun _ => pure (Phase.returned (.ok part))) _ _ s
    rw [wpBind,wpDatabase]
    cases done : s.db.putPart part with
    | error e => rfl
    | ok db =>
      obtain ⟨_,rfl⟩ := putPartWrites done
      rfl
  | unrecorded e => exact Keeps.bind (Keeps.ignore (files _)) (fun _ => Keeps.pure _) s rfl
  | returned answer => rfl

end

def bytesOf (x : Setting) (choice : Part → Nat) (parts : List Part) : Bytes := parts.flatMap fun part => (x.sources (choice part)).data

def tagsOf (x : Setting) (choice : Part → Nat) (parts : List Part) : List Bytes := parts.map fun part => trimQuotes (x.digest (choice part))

structure Fits (x : Setting) (start : State) (upload : MultipartUpload) (phase : Nat → Phase) (choice : Part → Nat) (plan : Plan) : Prop where
  same : plan.upload = upload
  enabled : plan.enabled = isBucketVersioningEnabled start upload.bucket
  chosen : ∀ part ∈ x.parts, Chosen x phase part (choice part)
  etag : ∃ hex, x.node.multipartDigest (tagsOf x choice x.parts) = some hex ∧ plan.etag = hex ++ ascii "-" ++ formatNat x.parts.length

def Placed (x : Setting) (plan : Plan) (data : Bytes) (s : State) : Prop :=
  if hasSuffix [slash] (plan.path x.call) then s.files.get (getFullPath (plan.path x.call)) = some .dir
  else validatePath (plan.path x.call) = true ∧ ∃ m,
    Holds s.files (getFullPath (plan.path x.call)) data (calculated x.node.host.md5 x.call.seconds data m)

def Progress (x : Setting) (start : State) (upload : MultipartUpload) (s : State) (phase : Nat → Phase) : Stage → Prop
  | .waiting => Uploads x start s phase
  | .validating u enabled _ seen rest => Uploads x start s phase ∧ u = upload ∧ enabled = isBucketVersioningEnabled start upload.bucket ∧
    x.parts = seen ++ rest ∧ 0 ≤ lastNumber seen ∧ ∀ part ∈ seen, ∃ i, Good x s phase part i
  | .hashing u enabled _ tags rest => Uploads x start s phase ∧ u = upload ∧ enabled = isBucketVersioningEnabled start upload.bucket ∧
    ∃ choice seen, x.parts = seen ++ rest ∧ (∀ part ∈ x.parts, Good x s phase part (choice part)) ∧ tags = tagsOf x choice seen
  | .opening plan => Uploads x start s phase ∧ ∃ choice, Fits x start upload phase choice plan ∧
    ∀ part ∈ x.parts, Good x s phase part (choice part)
  | .combining plan _ data rest => Uploads x start s phase ∧ ∃ choice seen, Fits x start upload phase choice plan ∧ x.parts = seen ++ rest ∧
    (∀ part ∈ rest, Good x s phase part (choice part)) ∧ data = bytesOf x choice seen
  | .combined plan => ∃ choice, Fits x start upload phase choice plan ∧ Placed x plan (bytesOf x choice x.parts) s
  | .measured plan size tag _ => ∃ choice, Fits x start upload phase choice plan ∧ Placed x plan (bytesOf x choice x.parts) s ∧
    (hasSuffix [slash] (plan.path x.call) = false →
      size = recordedSize (bytesOf x choice x.parts).length ∧ tag = x.node.host.md5 (bytesOf x choice x.parts))
  | .staged plan size tag _ data => ∃ choice, Fits x start upload phase choice plan ∧ data = bytesOf x choice x.parts ∧
    size = recordedSize data.length ∧ tag = x.node.host.md5 data ∧
    validatePath (plan.path x.call) = true ∧ hasSuffix [slash] (plan.path x.call) = false
  | .encrypted plan size modified => ∃ choice, Fits x start upload phase choice plan ∧
    Joined x.node x.call plan.upload (plan.path x.call) (bytesOf x choice x.parts) (size, modified) s
  | .saving plan object => ∃ choice sizes, Fits x start upload phase choice plan ∧
    object = plan.object x.call sizes.1 sizes.2 ∧ Joined x.node x.call plan.upload (plan.path x.call) (bytesOf x choice x.parts) sizes s
  | .recorded plan object => ∃ choice sizes, Fits x start upload phase choice plan ∧
    object = plan.object x.call sizes.1 sizes.2 ∧ Joined x.node x.call plan.upload (plan.path x.call) (bytesOf x choice x.parts) sizes s ∧
    ∃ r, s.db.objects.get (objectKey plan.upload.bucket plan.upload.key) = some r ∧ Points object r
  | .discarding .. => True
  | .answered (.error _) => True
  | .answered (.ok object) => ∃ choice plan, Fits x start upload phase choice plan ∧
    Assembled x.node x.call plan.upload (plan.version x.call) plan.etag (bytesOf x choice x.parts) object s

section
variable {x : Setting} {start s s' : State} {upload : MultipartUpload} {phase phase' : Nat → Phase} {choice : Part → Nat} {plan : Plan}
  {i : Nat} {p : Phase}
variable {enabled : Bool} {data : Bytes} {modified size : Int} {rest : List Part} {u : MultipartUpload}

theorem planPath (plan : Plan) (call : Call) : plan.path call = pathOf plan.upload.bucket plan.upload.key (plan.version call) :=
  assembledPath call plan.upload plan.enabled

theorem fitsKept (kept : ∀ j answer, phase j = .returned answer → phase' j = .returned answer)
    (fits : Fits x start upload phase choice plan) : Fits x start upload phase' choice plan := by
  refine ⟨fits.same,fits.enabled,fun part mem => ?_,fits.etag⟩
  have chosen := fits.chosen part mem
  obtain ⟨answer,returned⟩ := chosen.returned
  exact ⟨chosen.number,⟨answer,kept _ _ returned⟩,chosen.listed⟩

theorem placedKept (outside : Outside plan.upload.bucket) (p : Phase) (placed : Placed x plan data s) :
    Placed x plan data ((x.uploader i).turn p s).2 := by
  unfold Placed at placed ⊢
  rw [planPath] at placed ⊢
  split
  · rename_i folder
    rw [if_pos folder] at placed
    exact turnDir outside p placed
  rename_i plain
  rw [if_neg plain] at placed
  obtain ⟨valid,m,holds⟩ := placed
  exact ⟨valid,m,turnHolds outside p holds⟩

theorem joinedTurn {sizes} (outside : Outside plan.upload.bucket) (p : Phase)
    (joined : Joined x.node x.call plan.upload (plan.path x.call) data sizes s) :
    Joined x.node x.call plan.upload (plan.path x.call) data sizes ((x.uploader i).turn p s).2 := by
  obtain ⟨envelope,given,holds⟩ := joined.held
  refine ⟨joined.size,joined.valid,joined.file,envelope,given,?_⟩
  rw [planPath] at holds ⊢
  exact turnHolds outside p holds

theorem progressUpload (named : x.uploadID ≠ []) (known : start.db.getMultipartUpload x.uploadID = .ok upload) (outside : Outside upload.bucket)
    {stage} (progress : Progress x start upload s phase stage) (careful : Careful x ⟨s,stage,phase⟩ (.upload i))
    (open_ : (x.uploader i).answer (phase i) = none) :
    Progress x start upload ((x.uploader i).turn (phase i) s).2 (update phase i ((x.uploader i).turn (phase i) s).1) stage := by
  have kept : ∀ j answer, phase j = .returned answer → update phase i ((x.uploader i).turn (phase i) s).1 j = .returned answer := by
    intro j answer returned
    have apart : j ≠ i := by
      rintro rfl
      rw [returned] at open_
      contradiction
    rw [update_of_ne apart]
    exact returned
  have quiet : phase i = .waiting → Quiet x phase (x.sources i).partNumber := by
    intro waiting
    rw [Careful,show (World.mk s stage phase).phase i = _ from waiting] at careful
    exact careful.1
  have advance (uploads : Uploads x start s phase) := uploadAdvances named known uploads quiet open_
  have good (uploads : Uploads x start s phase) {part} {j} (mem : part ∈ watched x.parts stage) (good : Good x s phase part j) :
      Good x ((x.uploader i).turn (phase i) s).2 (update phase i ((x.uploader i).turn (phase i) s).1) part j := by
    refine goodMoved (advance uploads).1 ?_ good
    cases here : phase i with
    | waiting =>
      rw [Careful,show (World.mk s stage phase).phase i = _ from here] at careful
      exact Ne.symm (careful.2 part mem)
    | placed | described _ | unrecorded _ => exact good.quiet i (by rw [here]; rfl)
    | returned answer =>
      rw [here] at open_
      contradiction
  cases stage with
  | waiting => exact (advance progress).2
  | validating u enabled total seen rest =>
    obtain ⟨uploads,home,status,split,order,found⟩ := progress
    refine ⟨(advance uploads).2,home,status,split,order,fun part mem => ?_⟩
    obtain ⟨j,before⟩ := found part mem
    exact ⟨j,good uploads mem before⟩
  | hashing u enabled existing tags rest =>
    obtain ⟨uploads,home,status,choice,seen,split,found,hashed⟩ := progress
    exact ⟨(advance uploads).2,home,status,choice,seen,split,fun part mem => good uploads mem (found part mem),hashed⟩
  | opening plan =>
    obtain ⟨uploads,choice,fits,found⟩ := progress
    exact ⟨(advance uploads).2,choice,fitsKept kept fits,fun part mem => good uploads mem (found part mem)⟩
  | combining plan contentType data rest =>
    obtain ⟨uploads,choice,seen,fits,split,found,read⟩ := progress
    exact ⟨(advance uploads).2,choice,seen,fitsKept kept fits,split,fun part mem => good uploads mem (found part mem),read⟩
  | combined plan =>
    obtain ⟨choice,fits,placed⟩ := progress
    exact ⟨choice,fitsKept kept fits,placedKept (fits.same ▸ outside) _ placed⟩
  | measured plan size tag modified =>
    obtain ⟨choice,fits,placed,measured⟩ := progress
    exact ⟨choice,fitsKept kept fits,placedKept (fits.same ▸ outside) _ placed,measured⟩
  | staged plan size tag modified data =>
    obtain ⟨choice,fits,rest⟩ := progress
    exact ⟨choice,fitsKept kept fits,rest⟩
  | encrypted plan size modified =>
    obtain ⟨choice,fits,joined⟩ := progress
    exact ⟨choice,fitsKept kept fits,joinedTurn (fits.same ▸ outside) _ joined⟩
  | saving plan object =>
    obtain ⟨choice,sizes,fits,made,joined⟩ := progress
    exact ⟨choice,sizes,fitsKept kept fits,made,joinedTurn (fits.same ▸ outside) _ joined⟩
  | recorded plan object =>
    obtain ⟨choice,sizes,fits,made,joined,r,found,points⟩ := progress
    refine ⟨choice,sizes,fitsKept kept fits,made,joinedTurn (fits.same ▸ outside) _ joined,r,?_,points⟩
    rw [turnObjects]
    exact found
  | discarding plan e => trivial
  | answered result =>
    cases result with
    | error e => trivial
    | ok object =>
      obtain ⟨choice,plan,fits,made,⟨r,found,points⟩,files⟩ := progress
      refine ⟨choice,plan,fitsKept kept fits,made,⟨r,by rw [turnObjects]; exact found,points⟩,fun outside => ?_⟩
      obtain ⟨sizes,joined⟩ := files outside
      rw [← planPath] at joined ⊢
      exact ⟨sizes,joinedTurn outside _ joined⟩

def Goes (x : Setting) (start : State) (upload : MultipartUpload) (s : State) (phase : Nat → Phase) (stage : Stage) : Prop :=
  wp (x.completion.act stage) (fun next s' => Progress x start upload s' phase next)
    (fun e s' => Progress x start upload s' phase (x.completion.failed stage e)) s

theorem beginGoes (known : start.db.getMultipartUpload x.uploadID = .ok upload) (progress : Progress x start upload s phase .waiting) :
    Goes x start upload s phase .waiting := by
  obtain ⟨_,db⟩ := progress.db
  dsimp only [Goes,Setting.completion,completing]
  have there : s.db.getMultipartUpload x.uploadID = .ok upload := by
    rw [db]
    exact known
  rw [wpBind,getUpload,wpObserve,there]
  dsimp only
  rw [wpBind,wpGets,wpBind,wpCheck]
  refine ⟨fun _ => ⟨progress,rfl,?_,rfl,le_refl _,fun part mem => ?_⟩,fun _ => trivial⟩
  · exact versioningSame upload.bucket fun q => by rw [db]
  · simp at mem

theorem acceptedRecord {part} (accepted : partAccepted s x.uploadID part = .ok size) :
    ∃ record, s.db.parts.get (partKey x.uploadID part.partNumber) = some record ∧
    (part.etag ≠ [] → trimQuotes part.etag = trimQuotes record.etag) := by
  unfold partAccepted Database.getPart at accepted
  cases found : s.db.parts.get (partKey x.uploadID part.partNumber) with
  | none =>
    rw [found] at accepted
    contradiction
  | some record =>
    rw [found] at accepted
    dsimp only at accepted
    split at accepted <;> try contradiction
    rename_i same
    exact ⟨record,rfl,fun given => by_contra fun other => same ⟨given,other⟩⟩

theorem validateGoes {total seen part}
    (progress : Progress x start upload s phase (.validating u enabled total seen (part :: rest))) (quiet : Quiet x phase part.partNumber) :
    Goes x start upload s phase (.validating u enabled total seen (part :: rest)) := by
  obtain ⟨uploads,home,status,split,_,found⟩ := progress
  dsimp only [Goes,Setting.completion,completing]
  rw [wpBind,wpCheck]
  refine ⟨fun ordered => ?_,fun _ => trivial⟩
  have positive : 0 < part.partNumber := by
    have := of_decide_eq_true ordered
    omega
  rw [wpBind,wpObserve]
  cases accepted : partAccepted s x.uploadID part with
  | error e => trivial
  | ok size =>
    obtain ⟨record,entry,listed⟩ := acceptedRecord accepted
    obtain ⟨i,backed⟩ := uploads.sound _ record positive quiet entry
    refine ⟨uploads,home,status,by rw [split,append_assoc]; rfl,?_,fun other mem => ?_⟩
    · rw [lastSeen]
      exact positive.le
    rcases mem_append.mp mem with before | here
    · exact found other before
    · cases mem_singleton.mp here
      exact ⟨i,⟨backed.number,backed.returned,fun given => backed.etag ▸ listed given⟩,backed.held,⟨record,entry,backed.etag⟩,quiet⟩

theorem admitGoes {total seen} (progress : Progress x start upload s phase (.validating u enabled total seen [])) :
    Goes x start upload s phase (.validating u enabled total seen []) := by
  obtain ⟨uploads,home,status,split,_,found⟩ := progress
  rw [append_nil] at split
  subst split
  choose! choice good using found
  dsimp only [Goes,Setting.completion,completing]
  rw [wpBind,wpGets,wpBind]
  refine wpLax (keepsQuota s rfl) fun _ _ same => ?_
  subst same
  exact ⟨uploads,home,status,choice,[],rfl,good,rfl⟩

theorem hashGoes {existing tags} (progress : Progress x start upload s phase (.hashing u enabled existing tags rest)) :
    Goes x start upload s phase (.hashing u enabled existing tags rest) := by
  obtain ⟨uploads,home,status,choice,seen,split,good,hashed⟩ := progress
  cases rest with
  | cons part rest =>
    dsimp only [Goes,Setting.completion,completing]
    rw [wpBind,wpObserve]
    obtain ⟨_,entry,etag⟩ := (good part (split ▸ by simp)).record
    unfold partTag Database.getPart
    rw [entry]
    dsimp only
    rw [etag]
    by_cases hex : (trimQuotes (x.digest (choice part))).length = 32
    · rw [if_pos hex]
      exact ⟨uploads,home,status,choice,seen ++ [part],by rw [split,append_assoc]; rfl,good,by simp [hashed,tagsOf]⟩
    · rw [if_neg hex]
      trivial
  | nil =>
    rw [append_nil] at split
    subst split
    dsimp only [Goes,Setting.completion,completing]
    cases digest : x.node.multipartDigest tags with
    | none => trivial
    | some hex => exact ⟨uploads,choice,⟨home,status,fun part mem => (good part mem).toChosen,hex,hashed ▸ digest,rfl⟩,good⟩

theorem openGoes (progress : Progress x start upload s phase (.opening plan)) : Goes x start upload s phase (.opening plan) := by
  obtain ⟨uploads,choice,fits,good⟩ := progress
  have next contentType : Progress x start upload s phase (.combining plan contentType [] x.parts) := ⟨uploads,choice,[],fits,rfl,good,rfl⟩
  dsimp only [Goes,Setting.completion,completing]
  rw [wpBind,ObjectManager.partContentType.eq_def]
  split
  · exact next []
  rename_i part rest shape
  have held := (good part (shape ▸ mem_cons_self ..)).held
  have number := (good part (shape ▸ mem_cons_self ..)).number
  rw [wpBind,wpAttempt,wpStorage,← number]
  refine wpIs (getMetadataHeld held.valid held.holds) ?_
  exact next []

theorem combineGoes {contentType} (progress : Progress x start upload s phase (.combining plan contentType data rest)) :
    Goes x start upload s phase (.combining plan contentType data rest) := by
  obtain ⟨uploads,choice,seen,fits,split,good,read⟩ := progress
  cases rest with
  | cons part rest =>
    have held := (good part mem_cons_self).held
    have number := (good part mem_cons_self).number
    dsimp only [Goes,Setting.completion,completing]
    rw [wpBind,readPart,wpBind,wpStorage,← number]
    refine wpIs (getHeld held.valid held.holds) ?_
    refine ⟨uploads,choice,seen ++ [part],fits,by rw [split,append_assoc]; rfl,fun other mem => good other (mem_cons_of_mem _ mem),?_⟩
    simp [read,bytesOf]
  | nil =>
    rw [append_nil] at split
    subst split
    dsimp only [Goes,Setting.completion,completing]
    rw [wpBind,wpStorage]
    cases folder : hasSuffix [slash] (plan.path x.call) with
    | false =>
      refine wpLax (putPlainSpec folder) fun _ t stored => ⟨choice,fits,?_⟩
      rw [Placed,folder]
      exact ⟨stored.1,_,read ▸ stored.2.2⟩
    | true =>
      refine wpLax (putSlashDir folder) fun _ t stored => ⟨choice,fits,?_⟩
      rw [Placed,folder]
      exact stored.2

theorem measureGoes (progress : Progress x start upload s phase (.combined plan)) : Goes x start upload s phase (.combined plan) := by
  obtain ⟨choice,fits,placed⟩ := progress
  dsimp only [Goes,Setting.completion,completing]
  rw [wpBind,wpStorage]
  cases folder : hasSuffix [slash] (plan.path x.call) with
  | false =>
    rw [Placed,folder] at placed
    obtain ⟨valid,m,holds⟩ := placed
    refine wpIs (getMetadataHeld valid holds) ?_
    refine ⟨choice,fits,?_,fun _ => ⟨sidecarSize ..,StagedCommit.calculatedEtag ..⟩⟩
    rw [Placed,folder]
    exact ⟨valid,m,holds⟩
  | true =>
    rw [Placed,folder] at placed
    refine wpLax (keepsGetMetadata (besideSelf (directoryPresent placed)) s.files placed) fun _ t isdir => ⟨choice,fits,?_,?_⟩
    · rw [Placed,folder]
      exact isdir
    · rw [folder]
      exact fun plain => by contradiction

theorem stageGoes {tag} (progress : Progress x start upload s phase (.measured plan size tag modified)) :
    Goes x start upload s phase (.measured plan size tag modified) := by
  obtain ⟨choice,fits,placed,measured⟩ := progress
  dsimp only [Goes,Setting.completion,completing]
  rw [wpBind,readPart,wpBind,wpStorage]
  cases folder : hasSuffix [slash] (plan.path x.call) with
  | false =>
    rw [Placed,folder] at placed
    obtain ⟨valid,m,holds⟩ := placed
    refine wpIs (getHeld valid holds) ?_
    exact ⟨choice,fits,rfl,(measured folder).1,(measured folder).2,valid,folder⟩
  | true =>
    rw [Placed,folder] at placed
    refine wpLax (getDirectory placed) fun read _ none_ => ?_
    obtain ⟨_,_⟩ := read
    cases none_
    trivial

theorem encryptGoes {tag} (progress : Progress x start upload s phase (.staged plan size tag modified data)) :
    Goes x start upload s phase (.staged plan size tag modified data) := by
  obtain ⟨choice,fits,rfl,rfl,rfl,valid,plain⟩ := progress
  dsimp only [Goes,Setting.completion,completing]
  rw [wpBind,storeEncryptedMultipartObject]
  cases given : x.call.envelope with
  | none => trivial
  | some envelope =>
    rw [wpStorage]
    refine wpLax (putPlainSpec plain) fun _ t stored => ?_
    exact ⟨choice,fits,rfl,valid,plain,envelope,given,stored.2.2⟩

theorem timeGoes (progress : Progress x start upload s phase (.encrypted plan size modified)) :
    Goes x start upload s phase (.encrypted plan size modified) := by
  obtain ⟨choice,fits,joined⟩ := progress
  obtain ⟨envelope,given,holds⟩ := joined.held
  dsimp only [Goes,Setting.completion,completing]
  rw [wpBind,wpStorage]
  refine wpIs (getMetadataHeld joined.valid holds) ?_
  exact ⟨choice,(size, _),fits,rfl,joined.size,joined.valid,joined.file,envelope,given,holds⟩

theorem saveGoes {object} (progress : Progress x start upload s phase (.saving plan object)) :
    Goes x start upload s phase (.saving plan object) := by
  obtain ⟨choice,sizes,fits,rfl,joined⟩ := progress
  have plain : plan.enabled = false → (plan.object x.call sizes.1 sizes.2).versionID = [] := fun off => if_neg (by simp [off])
  dsimp only [Goes,Setting.completion,completing]
  rw [wpBind]
  refine wpLax (savePoints plain) fun _ s' saved => ?_
  obtain ⟨files,record⟩ := saved
  exact ⟨choice,sizes,fits,rfl,joinedKept joined fun q _ => by rw [files],record⟩

theorem finishGoes {object} (outside : Outside upload.bucket) (progress : Progress x start upload s phase (.recorded plan object)) :
    Goes x start upload s phase (.recorded plan object) := by
  obtain ⟨choice,sizes,fits,rfl,joined,r,entry,points⟩ := progress
  dsimp only [Goes,Setting.completion,completing]
  rw [wpBind]
  refine wpMono (wpAnd (cleanupSurely plan.upload.bucket x.uploadID _ plan.existing x.parts plan.enabled s trivial)
    (cleanupKeeps x.node x.call x.uploadID (plan.version x.call) x.parts plan.enabled _ plan.existing entry)) (fun _ s' done => ?_)
    (fun _ _ never => never.1.elim)
  refine ⟨choice,plan,fits,⟨sizes.2,by rw [← joined.size]; rfl⟩,⟨r,done.2.1,points⟩,fun _ => ⟨sizes,?_⟩⟩
  rw [planPath] at joined
  exact joinedKept joined (done.2.2 (fits.same ▸ outside))

theorem progressComplete (known : start.db.getMultipartUpload x.uploadID = .ok upload) (outside : Outside upload.bucket) {stage}
    (progress : Progress x start upload s phase stage) (careful : Careful x ⟨s,stage,phase⟩ .complete)
    (unanswered : x.completion.answer stage = none) :
    Progress x start upload (x.completion.turn stage s).2 phase (x.completion.turn stage s).1 := by
  refine turnSpec (P := fun next s' => Progress x start upload s' phase next) ?_
  cases stage with
  | waiting => exact beginGoes known progress
  | validating u enabled total seen rest =>
    cases rest with
    | nil => exact admitGoes progress
    | cons part rest => exact validateGoes progress careful
  | hashing u enabled existing tags rest => exact hashGoes progress
  | opening plan => exact openGoes progress
  | combining plan contentType data rest => exact combineGoes progress
  | combined plan => exact measureGoes progress
  | measured plan size tag modified => exact stageGoes progress
  | staged plan size tag modified data => exact encryptGoes progress
  | encrypted plan size modified => exact timeGoes progress
  | saving plan object => exact saveGoes progress
  | recorded plan object => exact finishGoes outside progress
  | discarding plan e =>
    dsimp only [Setting.completion,completing]
    rw [wpBind]
    exact wpOfState trivial
  | answered result => contradiction

end

section
variable {x : Setting} {start : State} {upload : MultipartUpload} {w next : World} {event : Event}

def Inv (x : Setting) (start : State) (upload : MultipartUpload) (w : World) : Prop := Progress x start upload w.state w.phase w.stage

theorem beginInv (fresh : ∀ n, start.db.parts.get (partKey x.uploadID n) = none) : Inv x start upload (begin_ start) := by
  refine ⟨⟨start.db.parts,rfl⟩,fun i mid => ?_,fun i j mid => ?_,fun i part found => ?_,fun i e found => ?_,fun n record _ _ found => ?_⟩
  · contradiction
  · contradiction
  · contradiction
  · contradiction
  · rw [show (begin_ start).state = start from rfl,fresh n] at found
    contradiction

theorem stepInv (named : x.uploadID ≠ []) (known : start.db.getMultipartUpload x.uploadID = .ok upload) (outside : Outside upload.bucket)
    (inv : Inv x start upload w) (careful : Careful x w event) (stepped : step x w event = some next) : Inv x start upload next := by
  cases event with
  | complete =>
    simp only [step] at stepped
    split at stepped <;> try contradiction
    rename_i open_
    cases stepped
    exact progressComplete known outside inv careful open_
  | upload i =>
    simp only [step] at stepped
    split at stepped <;> try contradiction
    rename_i open_
    cases stepped
    exact progressUpload named known outside inv careful open_

structure Consistent (x : Setting) (start : State) (upload : MultipartUpload) (choice : Part → Nat) (w : World) (object : Object) : Prop where
  chosen : ∀ part ∈ x.parts, Chosen x w.phase part (choice part)
  etag : ∃ hex, x.node.multipartDigest (tagsOf x choice x.parts) = some hex ∧ object.etag = hex ++ ascii "-" ++ formatNat x.parts.length
  size : ((bytesOf x choice x.parts).length : Int) ≤ maxInt64 → object.size = (bytesOf x choice x.parts).length
  record : ∃ r, w.state.db.objects.get (objectKey upload.bucket upload.key) = some r ∧ Points object r
  stored : ∃ sizes, Joined x.node x.call upload (pathOf upload.bucket upload.key (versionFor x.call start upload))
    (bytesOf x choice x.parts) sizes w.state

/-- A completion that succeeds in a careful run has made the object of one upload for each part. -/
theorem completionConsistent (named : x.uploadID ≠ []) (known : start.db.getMultipartUpload x.uploadID = .ok upload)
    (outside : Outside upload.bucket) (fresh : ∀ n, start.db.parts.get (partKey x.uploadID n) = none) {events}
    (careful : Along (step x) (Careful x) (begin_ start) events) (ran : run (step x) (begin_ start) events = some w) {object}
    (answered : w.stage = .answered (.ok object)) : ∃ choice, Consistent x start upload choice w object := by
  have inv : Inv x start upload w := runKeeps (stepInv named known outside) (beginInv fresh) careful ran
  unfold Inv at inv
  rw [answered] at inv
  obtain ⟨choice,plan,fits,⟨_,rfl⟩,record,files⟩ := inv
  have same := fits.same
  subst same
  obtain ⟨hex,digest,etag⟩ := fits.etag
  refine ⟨choice,fits.chosen,⟨hex,digest,etag⟩,recordedSmall,record,?_⟩
  have version : plan.version x.call = versionFor x.call start plan.upload := by
    unfold Plan.version versionFor
    rw [fits.enabled]
  rw [← version]
  exact files outside

end

open ManagerRuns List

def firstBytes : Bytes := replicate 31 48
def secondBytes : Bytes := replicate 31 49

def samePart : Setting where
  node := smallNode
  call := callAt 9
  uploadID := ascii "u"
  parts := [⟨1, ascii "m" ++ firstBytes⟩]
  sources := fun i => ⟨callAt i, 1, if i = 0 then firstBytes else secondBytes⟩

def created : State := (createMultipartUpload (callAt 5) (ascii "u") (ascii "b") (ascii "k") empty (newBucket none)).2

def calm (phase : Nat → Phase) (n : Int) : Bool := (range 2).all fun i => !midway (phase i) || decide ((samePart.sources i).partNumber ≠ n)

def checkCareful (w : World) : Event → Bool
  | .complete => match w.stage with
    | .validating _ _ _ _ (part :: _) => calm w.phase part.partNumber
    | _ => true
  | .upload i => match w.phase i with
    | .waiting => calm w.phase (samePart.sources i).partNumber &&
      (watched samePart.parts w.stage).all fun part => decide (part.partNumber ≠ (samePart.sources i).partNumber)
    | _ => true

def Two (w : World) : Prop := ∀ i, 2 ≤ i → w.phase i = .waiting

def ofTwo : Event → Bool
  | .complete => true
  | .upload i => decide (i < 2)

theorem calmQuiet {w n} (two : Two w) (passed : calm w.phase n = true) : Quiet samePart w.phase n := by
  intro i mid
  have few : i < 2 := by
    by_contra many
    rw [two i (by omega)] at mid
    contradiction
  have checked := all_eq_true.mp passed i (mem_range.mpr few)
  rw [mid] at checked
  simpa using checked

theorem checkSound {w event} (two : Two w) (_ : ofTwo event = true) (passed : checkCareful w event = true) : Careful samePart w event := by
  cases event with
  | complete =>
    dsimp only [checkCareful] at passed
    dsimp only [Careful]
    split
    · rename_i shape
      rw [shape] at passed
      exact calmQuiet two passed
    · trivial
  | upload i =>
    dsimp only [checkCareful] at passed
    dsimp only [Careful]
    split
    · rename_i waiting
      rw [waiting] at passed
      obtain ⟨quiet,free⟩ := (Bool.and_eq_true _ _).mp passed
      exact ⟨calmQuiet two quiet,fun part mem => of_decide_eq_true (all_eq_true.mp free part mem)⟩
    · trivial

theorem stepTwo {w next event} (two : Two w) (few : ofTwo event = true) (stepped : step samePart w event = some next) : Two next := by
  cases event with
  | complete =>
    simp only [step] at stepped
    split at stepped <;> try contradiction
    cases stepped
    exact two
  | upload i =>
    simp only [step] at stepped
    split at stepped <;> try contradiction
    cases stepped
    intro j many
    have apart : j ≠ i := by
      have := of_decide_eq_true few
      omega
    exact (update_of_ne apart _ _).trans (two j many)

def inTurn : List Event := replicate 3 (.upload 0) ++ replicate 14 .complete

def between : List Event := replicate 3 (.upload 0) ++ replicate 5 .complete ++ [.upload 1] ++ replicate 9 .complete

def accepted (w : World) : Bool := match w.stage with
  | .answered (.ok _) => true
  | _ => false

theorem acceptedAnswer {w} (done : accepted w = true) : ∃ object, w.stage = .answered (.ok object) := by
  unfold accepted at done
  split at done
  · rename_i object answered
    exact ⟨object,answered⟩
  · contradiction

theorem createdKnown : ∃ upload, created.db.getMultipartUpload (ascii "u") = .ok upload ∧ upload.bucket = ascii "b" ∧ upload.key = ascii "k" :=
  ⟨_,rfl,rfl,rfl⟩

theorem createdFresh (n : Int) : created.db.parts.get (partKey (ascii "u") n) = none := rfl

theorem uploadsInTurn : ∃ upload w object choice, created.db.getMultipartUpload (ascii "u") = .ok upload ∧
    run (step samePart) (begin_ created) inTurn = some w ∧ w.stage = .answered (.ok object) ∧
    Consistent samePart created upload choice w object := by
  obtain ⟨w,ran,done⟩ : ∃ w, run (step samePart) (begin_ created) inTurn = some w ∧ accepted w = true := by decide +kernel
  obtain ⟨object,answered⟩ := acceptedAnswer done
  obtain ⟨upload,known,home,_⟩ := createdKnown
  have careful : Along (step samePart) (Careful samePart) (begin_ created) inTurn :=
    alongChecked checkSound stepTwo (by decide) (fun _ _ => rfl) (by decide +kernel)
  obtain ⟨choice,consistent⟩ := completionConsistent (by decide) known (home ▸ ⟨ascii "b",[],by decide,by decide⟩)
    createdFresh careful ran answered
  exact ⟨upload,w,object,choice,known,ran,answered,consistent⟩

theorem samePath {upload} (home : upload.bucket = ascii "b") (named : upload.key = ascii "k") :
    getFullPath (pathOf upload.bucket upload.key (versionFor samePart.call created upload)) = [ascii "b",ascii "k"] := by
  rw [versionFor,home,named]
  decide

theorem secondUnlisted {upload w object choice} (home : upload.bucket = ascii "b")
    (named : upload.key = ascii "k") (left : w.state.files.get [ascii "b",ascii "k"] = some (.file ⟨.data (1 :: secondBytes),9⟩)) :
    ¬ Consistent samePart created upload choice w object := by
  intro consistent
  obtain ⟨_,joined⟩ := consistent.stored
  obtain ⟨_,given,holds⟩ := joined.held
  cases given
  obtain ⟨_,found⟩ := holds.data
  rw [samePath home named,left] at found
  have bytes : 1 :: secondBytes = [1] ++ bytesOf samePart choice samePart.parts := by
    injection found with node
    injection node with file
    injection file with content
    injection content
  have brought : (samePart.sources (choice ⟨1,ascii "m" ++ firstBytes⟩)).data = secondBytes := (append_nil _).symm.trans (cons.inj bytes).2.symm
  have listed := (consistent.chosen ⟨1,ascii "m" ++ firstBytes⟩ (mem_singleton.mpr rfl)).listed (by decide)
  rw [Setting.digest,brought] at listed
  exact absurd listed (by decide)

-- The object holds the second upload's bytes under the first one's tag.
theorem uploadBetween : ∃ upload w object, created.db.getMultipartUpload (ascii "u") = .ok upload ∧
    run (step samePart) (begin_ created) between = some w ∧ w.stage = .answered (.ok object) ∧
    ∀ choice, ¬ Consistent samePart created upload choice w object := by
  obtain ⟨w,ran,done,left⟩ : ∃ w, run (step samePart) (begin_ created) between = some w ∧ accepted w = true ∧
      w.state.files.get [ascii "b",ascii "k"] = some (.file ⟨.data (1 :: secondBytes),9⟩) := by decide +kernel
  obtain ⟨object,answered⟩ := acceptedAnswer done
  obtain ⟨upload,known,home,named⟩ := createdKnown
  exact ⟨upload,w,object,known,ran,answered,fun choice => secondUnlisted home named left⟩

end MaxIOFS.PartRaces
