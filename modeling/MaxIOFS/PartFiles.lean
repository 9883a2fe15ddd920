import MaxIOFS.ObjectReads

/-! The files of an upload's parts. Reading one leaves all of them as they are, so a completion
joins the bytes that were there when it began. -/
namespace MaxIOFS.PartFiles
open ByteString FileTree Effects MetadataStore ObjectManager Filesystem FileFrame StoredFiles

def partFile (uploadID : Bytes) (partNumber : Int) : Path := getFullPath (getMultipartPartPath uploadID partNumber)

def partsBytes (host : Host) (t : Files) (uploadID : Bytes) (parts : List Part) : Bytes :=
  parts.flatMap fun part => ((t.file (partFile uploadID part.partNumber)).map fun f => host.bytes f.content).getD []

theorem fiveDigitsByte {n b} (mem : b ∈ fiveDigits n) : b = 45 ∨ 48 ≤ b ∧ b ≤ 57 := by
  rcases List.mem_append.mp mem with front | number
  · rcases List.mem_append.mp front with sign | padding
    · split at sign
      · exact .inl (List.mem_singleton.mp sign)
      · cases sign
    · rw [List.eq_of_mem_replicate padding]
      exact .inr (by decide)
  · exact formatIntByte number

theorem fiveDigitsFree {n b} (other : ¬ (b = 45 ∨ 48 ≤ b ∧ b ≤ 57)) : b ∉ fiveDigits n := fun mem => other (fiveDigitsByte mem)

theorem partShape (uploadID : Bytes) (n : Int) : partFile uploadID n =
    getFullPath (ascii ".maxiofs/multipart/parts/" ++ uploadID) ++ [fiveDigits n] := by
  have dot : fiveDigits n ≠ ascii "." := fun same => fiveDigitsFree (b := 46) (by decide) (by rw [same]; decide)
  have present : fiveDigits n ≠ [] := fun none_ => formatIntNonempty n.natAbs (List.append_eq_nil_iff.mp none_).2
  have shape : getMultipartPartPath uploadID n = (ascii ".maxiofs/multipart/parts/" ++ uploadID) ++ slash :: fiveDigits n := by
    simp [getMultipartPartPath]
  rw [partFile,shape,fullAppend,fullName (fiveDigitsFree (by decide)) present dot]

theorem partBeside (uploadID : Bytes) (n m : Int) : Beside (partFile uploadID n) (partFile uploadID m) := by
  have apart suffix (dotted : 46 ∈ suffix) : withSuffix (partFile uploadID m) suffix ≠ partFile uploadID n := by
    intro same
    rw [partShape,partShape,suffixLast] at same
    have last : fiveDigits m ++ suffix = fiveDigits n := by simpa using same
    exact fiveDigitsFree (by decide) (last ▸ List.mem_append_right _ dotted)
  exact ⟨apart _ (by decide),apart _ (by decide)⟩

def SameParts (uploadID : Bytes) (t t' : Files) : Prop := ∀ n, t'.get (partFile uploadID n) = t.get (partFile uploadID n)

section
variable {node : Node} {uploadID : Bytes} {t : Files}

theorem keepsParts {α} {m : Action Files StorageError α} (each : ∀ n x, Keeps (At (partFile uploadID n) x) m) :
    Keeps (fun s => SameParts uploadID t s.files) (storage m) := by
  intro s same
  rw [wpStorage]
  exact wpOfState fun n => (each n _).after (same n)

theorem readPartSpec (n : Int) {s} : wp (readPart node (getMultipartPartPath uploadID n))
    (fun data _ => ∃ f, s.files.get (partFile uploadID n) = some (.file f) ∧ data = node.host.bytes f.content) (fun _ _ => True) s := by
  have here := partBeside uploadID n n
  rw [readPart,wpBind,wpStorage,Filesystem.get,wpBind,wpCheck]
  refine ⟨fun _ => ?_,fun _ => trivial⟩
  rw [wpBind]
  refine wpLax (keepsMaybeRepair here s.files rfl) fun _ t₁ same => ?_
  have found : t₁.get (partFile uploadID n) = s.files.get (partFile uploadID n) := same
  rw [wpBind,wpObserve]
  cases seen : t₁.stat (partFile uploadID n) with
  | missing | notDirectory =>
    rw [show t₁.stat (getFullPath (getMultipartPartPath uploadID n)) = _ from seen]
    trivial
  | dir =>
    rw [show t₁.stat (getFullPath (getMultipartPartPath uploadID n)) = _ from seen]
    dsimp only
    rw [wpBind]
    exact wpLax (wpOfState (P := fun _ => True) trivial) fun _ _ _ => trivial
  | file f =>
    rw [show t₁.stat (getFullPath (getMultipartPartPath uploadID n)) = _ from seen]
    dsimp only
    rw [wpBind]
    refine wpLax (wpOfState (P := fun _ => True) trivial) fun _ _ _ => ?_
    exact ⟨f,found ▸ Tree.statFile.mp seen,rfl⟩

theorem keepsReadPart (n : Int) : Keeps (fun s => SameParts uploadID t s.files) (readPart node (getMultipartPartPath uploadID n)) := by
  have beside m : Beside (partFile uploadID m) (getFullPath (getMultipartPartPath uploadID n)) := partBeside uploadID m n
  refine .bind (keepsParts fun m x => keepsGet (beside m)) fun read => ?_
  obtain ⟨data,_⟩ := read
  cases data with
  | some bytes => exact .pure _
  | none => exact .fail _

theorem readPartsSpec (parts : List Part) {s} (same : SameParts uploadID t s.files) :
    wp (readParts node uploadID parts) (fun data _ => data = partsBytes node.host t uploadID parts) (fun _ _ => True) s := by
  induction parts generalizing s with
  | nil => rfl
  | cons part rest ih =>
    change wp (readPart node (getMultipartPartPath uploadID part.partNumber) >>= fun first =>
      readParts node uploadID rest >>= fun later => pure (first ++ later)) _ _ s
    rw [wpBind]
    refine wpLax (wpAnd (readPartSpec part.partNumber) (keepsReadPart part.partNumber s same)) fun first s₁ read => ?_
    obtain ⟨⟨f,found,content⟩,same₁⟩ := read
    have head : t.file (partFile uploadID part.partNumber) = some f := Tree.fileIff.mpr ((same part.partNumber).symm.trans found)
    rw [wpBind]
    refine wpLax (ih same₁) fun later _ joined => ?_
    rw [wpPure,joined,content,partsBytes,partsBytes,List.flatMap_cons,head,Option.map_some,Option.getD_some]

theorem keepsContentType (parts : List Part) : Keeps (fun s => SameParts uploadID t s.files) (partContentType node uploadID parts) := by
  cases parts with
  | nil => exact .pure _
  | cons part rest =>
    have beside m : Beside (partFile uploadID m) (getFullPath (getMultipartPartPath uploadID part.partNumber)) :=
      partBeside uploadID m part.partNumber
    refine .bind (.attempt (keepsParts fun m x => keepsGetMetadata (beside m))) fun m => ?_
    cases m <;> exact .pure _

end

end MaxIOFS.PartFiles
