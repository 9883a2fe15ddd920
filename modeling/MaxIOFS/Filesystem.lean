import MaxIOFS.Effects
import MaxIOFS.FileTree
import MaxIOFS.StagedCommit

/-! The filesystem backend over a directory tree: objects, their sidecars, staged sidecars
and folder markers are files of the tree. Calls run one after another here; the effects of
one commit and their interleavings are the subject of `StagedCommit`. Temporary files live
only inside a call and are not modelled; the root directory exists. -/
namespace MaxIOFS.Filesystem
open ByteString FileTree Effects StagedCommit OrderedStore

inductive Content where
  | data (bytes : Bytes)
  | sidecar (entries : Metadata)
  deriving DecidableEq

structure File where
  content : Content
  modTime : Int
  deriving DecidableEq

abbrev Files := FileTree.Tree File

inductive StorageError where
  | invalidPath
  | objectNotFound
  | createDirectory
  | createFolderMarker
  | createMetadataDirectory
  | createTempFile
  | createMetadataTempFile
  | writeData
  | stageMetadata
  | atomicMove
  | atomicMetadataMove
  | statFile
  | openFile
  | readMetadata
  | parseMetadata
  | notADirectory
  deriving DecidableEq, Repr

structure Host where
  md5 : Bytes → Bytes
  encode : Metadata → Bytes
  decode : Bytes → Option Metadata
  directorySize : Int
  directoryTime : Path → Int

def Host.bytes (host : Host) : Content → Bytes
  | .data b => b
  | .sidecar m => host.encode m

def Host.entries (host : Host) : Content → Option Metadata
  | .data b => host.decode b
  | .sidecar m => some m

/-! Paths. -/

def isDriveQualifiedPath (path : Bytes) : Bool :=
  match path with
  | first :: 58 :: _ => decide (65 ≤ first ∧ first ≤ 90) || decide (97 ≤ first ∧ first ≤ 122)
  | _ => false

-- Joining to the root drops empty and "." segments; ".." was rejected before.
def getFullPath (path : Bytes) : Path := (split slash path).filter (fun s => s ≠ [] ∧ s ≠ ascii ".")

def validatePath (path : Bytes) : Bool :=
  path ≠ [] && !decide (92 ∈ path) && !hasPrefix [slash] path && !isDriveQualifiedPath path &&
    (split slash path).all (· ≠ ascii "..") && getFullPath path ≠ []

def withSuffix (p : Path) (suffix : Bytes) : Path :=
  match p.getLast? with
  | none => []
  | some name => p.dropLast ++ [name ++ suffix]

def metadataOf (p : Path) : Path := withSuffix p (ascii ".metadata")
def stagingOf (p : Path) : Path := withSuffix p (ascii ".metadata-staging")
def folderMarker : Bytes := ascii ".maxiofs-folder"
def markerIn (p : Path) : Path := p ++ [folderMarker]

def try_ (change : Files → Option Files) (e : StorageError) : Action Files StorageError Unit := fun t =>
  match change t with
  | some t' => (.ok (), t')
  | none => (.error e, t)

def discard (p : Path) : Action Files StorageError Unit := update (fun t => (t.remove p).getD t)

def rename (t : Files) (source target : Path) : Option Files := do
  let file ← t.file source
  let moved ← t.write target file
  moved.remove source

def slotAt (host : Host) (t : Files) (p : Path) : Slot where
  data := (t.file p).map (fun f => ⟨host.bytes f.content, f.modTime, 0⟩)
  sidecar := (t.file (metadataOf p)).bind (fun f => (host.entries f.content).map (⟨·, none⟩))
  staged := (t.file (stagingOf p)).map (fun f => ⟨(host.entries f.content).getD empty, none⟩)

def repairStagedCommit (host : Host) (p : Path) : Action Files StorageError Unit := do
  let choice ← gets (fun t => repairChoice host.md5 (slotAt host t p))
  match choice with
  | .nothing => pure ()
  | .discard => discard (stagingOf p)
  | .rollForward => update (fun t => (rename t (stagingOf p) (metadataOf p)).getD t)

def saveMetadata (now : Int) (p : Path) (m : Metadata) : Action Files StorageError Unit := do
  try_ (·.mkdirAll p.dropLast) .createMetadataDirectory
  try_ (·.write (metadataOf p) ⟨.sidecar m, now⟩) .atomicMetadataMove

def ensureFolderMarkersInPath (now : Int) (dir : Path) : Action Files StorageError Unit :=
  each (Tree.ancestors dir).reverse fun q =>
    update fun t => match t.stat (markerIn q) with
      | .missing => (t.write (markerIn q) ⟨.data [], now⟩).getD t
      | _ => t

/-! Backend calls; `now` is in seconds. -/

def emptyMD5 : Bytes := ascii "d41d8cd98f00b204e9800998ecf8427e"

def putFolder (now : Int) (p : Path) (m : Metadata) : Action Files StorageError Unit := do
  -- A file on the way is replaced by a directory, and its sidecar goes with it.
  each (Tree.ancestors p) fun q => update fun t =>
    match t.file q with
    | none => t
    | some _ =>
      let t := (t.remove q).getD t
      (t.remove (metadataOf q)).getD t
  try_ (·.mkdirAll p) .createDirectory
  try_ (·.write (markerIn p) ⟨.data [], now⟩) .createFolderMarker
  let m := ((m.set sizeKey (ascii "0")).set etagKey emptyMD5).set lastModifiedKey (formatInt now)
  saveMetadata now p (m.set (ascii "content-type") (ascii "application/x-directory"))

def putFile (host : Host) (now : Int) (p : Path) (data : Bytes) (m : Metadata) : Action Files StorageError Unit := do
  try_ (·.mkdirAll p.dropLast) .createDirectory
  ensureFolderMarkersInPath now p.dropLast
  repairStagedCommit host p
  let m := calculated host.md5 now data m
  try_ (·.write (stagingOf p) ⟨.sidecar m, now⟩) .stageMetadata
  let moved ← attempt (try_ (·.write p ⟨.data data, now⟩) .atomicMove)
  match moved with
  | .error e => do
    discard (stagingOf p)
    fail e
  | .ok _ => try_ (fun t => rename t (stagingOf p) (metadataOf p)) .atomicMetadataMove

def put (host : Host) (now : Int) (path data : Bytes) (m : Metadata) : Action Files StorageError Unit := do
  check (validatePath path) .invalidPath
  if hasSuffix [slash] path then putFolder now (getFullPath path) m
  else putFile host now (getFullPath path) data m

def maybeRepair (host : Host) (p : Path) : Action Files StorageError Unit := do
  let staged ← gets (fun t => t.stat (stagingOf p))
  match staged with
  | .file _ | .dir => repairStagedCommit host p
  | .missing | .notDirectory => pure ()

def generateBasicMetadata (host : Host) (t : Files) (p : Path) : Except StorageError Metadata :=
  match t.stat p with
  | .missing => .error .objectNotFound
  | .notDirectory => .error .statFile
  | .dir => .ok ((empty.set sizeKey (formatInt host.directorySize)).set lastModifiedKey
      (formatInt (host.directoryTime p)))
  | .file f => .ok (((empty.set sizeKey (formatInt (host.bytes f.content).length)).set lastModifiedKey
      (formatInt f.modTime)).set etagKey (host.md5 (host.bytes f.content)))

def readSidecar (host : Host) (t : Files) (p : Path) : Except StorageError Metadata :=
  match t.stat (metadataOf p) with
  | .missing => generateBasicMetadata host t p
  | .dir | .notDirectory => .error .readMetadata
  | .file f => match host.entries f.content with
    | some m => .ok m
    | none => .error .parseMetadata

def getMetadata (host : Host) (path : Bytes) : Action Files StorageError Metadata := do
  check (validatePath path) .invalidPath
  maybeRepair host (getFullPath path)
  observe (fun t => readSidecar host t (getFullPath path))

-- A directory opens as well; reading from it is what fails, so it yields no bytes.
def get (host : Host) (path : Bytes) : Action Files StorageError (Option Bytes × Metadata) := do
  check (validatePath path) .invalidPath
  maybeRepair host (getFullPath path)
  let data ← observe (fun t => match t.stat (getFullPath path) with
    | .missing => .error .objectNotFound
    | .notDirectory => .error .statFile
    | .dir => .ok none
    | .file f => .ok (some (host.bytes f.content)))
  let m ← getMetadata host path
  pure (data, m)

def setMetadata (host : Host) (now : Int) (path : Bytes) (m : Metadata) : Action Files StorageError Unit := do
  check (validatePath path) .invalidPath
  repairStagedCommit host (getFullPath path)
  saveMetadata now (getFullPath path) m

def delete (path : Bytes) : Action Files StorageError Unit := do
  check (validatePath path) .invalidPath
  let p := getFullPath path
  let found ← gets (fun t => t.stat p)
  match found with
  | .missing => fail .objectNotFound
  | .notDirectory => fail .statFile
  | .dir => do
    update (·.removeAll p)
    discard (metadataOf p)
    discard (stagingOf p)
  | .file _ => do
    discard p
    discard (metadataOf p)
    discard (stagingOf p)

def exists_ (t : Files) (path : Bytes) : Except StorageError Bool :=
  if validatePath path then
    match t.stat (getFullPath path) with
    | .missing => .ok false
    | .notDirectory => .error .statFile
    | .dir | .file _ => .ok true
  else .error .invalidPath

end MaxIOFS.Filesystem
