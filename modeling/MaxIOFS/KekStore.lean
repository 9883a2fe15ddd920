import MaxIOFS.Effects
import MaxIOFS.Hex
import MaxIOFS.OrderedStore
import MaxIOFS.Runs

/-! The key-encryption keys of a node: the table of versions in its database and the copy of
it in memory. A statement of the database may fail, and then it changed nothing; a
transaction takes effect with its commit or not at all. -/
namespace MaxIOFS.KekStore
open ByteString Effects Hex OrderedStore

structure Row where
  keyHex : Bytes
  (isCurrent clusterShared : Bool)
  deriving DecidableEq, Repr

abbrev Table := Store Int Row

structure Memory where
  keys : Store Int Bytes
  clusterShared : Store Int Bool
  current : Int
  deriving DecidableEq

structure KeyStore where
  db : Table
  memory : Memory
  deriving DecidableEq

inductive Error where
  | malformed (version : Int)
  | conflict (version : Int)
  | noCurrentVersion
  | random
  | sql
  | corrupt (version : Int)
  | noneMarkedCurrent
  | invalidConfigKey
  deriving DecidableEq, Repr

structure KeyRecord where
  version : Int
  keyHex : Bytes
  isCurrent : Bool
  deriving DecidableEq, Repr

def decodeKeyHex (keyHex : Bytes) : Option Bytes := if keyHex.length = 64 then decodeString keyHex else none

def Key : Type := { key : Bytes // key.length = 32 }

structure Faults where
  (insert begin_ : Bool)
  statement : Nat → Bool
  commit : Bool

def statements (fails : Nat → Bool) : Nat → List (Table → Table) → Table → Option Table
  | _, [], t => some t
  | n, statement :: rest, t => if fails n then none else statements fails (n + 1) rest (statement t)

def transaction (faults : Faults) (body : List (Table → Table)) (t : Table) : Except Error Table :=
  if faults.begin_ then .error .sql
  else match statements faults.statement 0 body t with
    | none => .error .sql
    | some t' => if faults.commit then .error .sql else .ok t'

def updateAll (change : Int → Row → Row) (t : Table) : Table := t.setAll (t.entries.map (fun e => (e.1, change e.1 e.2)))

def clearCurrent : Table → Table := updateAll (fun _ row => { row with isCurrent := false })

def setCurrent (version : Int) : Table → Table := updateAll (fun v row => if v = version then { row with isCurrent := true } else row)

def upsert (version : Int) (key : Bytes) (t : Table) : Table :=
  match t.get version with
  | some row => t.set version { row with clusterShared := true }
  | none => t.set version ⟨encodeToString key, false, true⟩

def loadRow (m : Memory) (e : Int × Row) : Except Error Memory :=
  match decodeKeyHex e.2.keyHex with
  | none => .error (.corrupt e.1)
  | some key => .ok
    { keys := m.keys.set e.1 key
      clusterShared := m.clusterShared.set e.1 e.2.clusterShared
      current := if e.2.isCurrent then e.1 else m.current }

def emptyMemory : Memory := ⟨OrderedStore.empty, OrderedStore.empty, 0⟩

def loadAll (t : Table) : Except Error Memory :=
  match t.entries.foldlM loadRow emptyMemory with
  | .error e => .error e
  | .ok m => if m.keys ≠ OrderedStore.empty ∧ m.current = 0 then .error .noneMarkedCurrent else .ok m

def insertKey (fails : Bool) (version : Int) (key : Bytes) (current clusterShared : Bool) : Action KeyStore Error Unit := do
  let free ← gets (fun s => (s.db.get version).isNone)
  check (!fails && free) .sql
  update (fun s =>
    { db := s.db.set version ⟨encodeToString key, current, clusterShared⟩
      memory :=
        { keys := s.memory.keys.set version key
          clusterShared := s.memory.clusterShared.set version clusterShared
          current := if current then version else s.memory.current } })

def markCurrent (faults : Faults) (version : Int) : Action KeyStore Error Unit := do
  let t ← observe (fun s => transaction faults [clearCurrent, setCurrent version] s.db)
  update (fun s => { db := t, memory := { s.memory with current := version } })

def bootstrap (t : Table) (configKeyHex : Bytes) (key : Key) (fails : Bool) : Except Error KeyStore :=
  match loadAll t with
  | .error e => .error e
  | .ok m =>
    if m.current ≠ 0 then .ok ⟨t, m⟩
    else
      let seed := if configKeyHex = [] then some key.1 else decodeKeyHex configKeyHex
      match seed with
      | none => .error .invalidConfigKey
      | some seed => match insertKey fails 1 seed true false ⟨t, m⟩ with
        | (.ok _, s) => .ok s
        | (.error e, _) => .error e

def wrap (n : Int) : Int := (n + 2 ^ 63) % 2 ^ 64 - 2 ^ 63

def nextVersion (order : List Int) : Int := order.foldl (fun next version => if next ≤ version then wrap (version + 1) else next) 1

def clusterSharedKeys (m : Memory) : List KeyRecord :=
  (m.keys.entries.filter (fun e => (m.clusterShared.get e.1).getD false)).map (fun e => ⟨e.1, encodeToString e.2, decide (e.1 = m.current)⟩)

def addCurrent (faults : Faults) (order : List Int) (key : Option Key) (clusterShared : Bool) : Action KeyStore Error Int :=
  match key with
  | none => fail .random
  | some key => do
    insertKey faults.insert (nextVersion order) key.1 false clusterShared
    markCurrent faults (nextVersion order)
    pure (nextVersion order)

def rotate (faults : Faults) (order : List Int) (key : Option Key) (clusterShared : Bool) : Action KeyStore Error Int :=
  addCurrent faults order key clusterShared

def ensureClusterKey (faults : Faults) (order : List Int) (key : Option Key) : Action KeyStore Error (List KeyRecord) := do
  let records ← gets (fun s => clusterSharedKeys s.memory)
  if records ≠ [] then pure records
  else do
    let _ ← addCurrent faults order key true
    gets (fun s => clusterSharedKeys s.memory)

def parseRecord (m : Memory) (r : KeyRecord) : Except Error (Int × Bytes) :=
  match decodeKeyHex r.keyHex with
  | none => .error (.malformed r.version)
  | some key => match m.keys.get r.version with
    | some known => if encodeToString known ≠ r.keyHex then .error (.conflict r.version) else .ok (r.version, key)
    | none => .ok (r.version, key)

def currentVersion (records : List KeyRecord) : Int := records.foldl (fun current r => if r.isCurrent then r.version else current) 0

def adoptClusterKeys (faults : Faults) (records : List KeyRecord) : Action KeyStore Error Unit :=
  if records = [] then pure ()
  else do
    let parsed ← observe (fun s => records.mapM (parseRecord s.memory))
    check (decide (currentVersion records ≠ 0)) .noCurrentVersion
    let t ← observe (fun s => transaction faults (parsed.map (fun p => upsert p.1 p.2) ++ [clearCurrent, setCurrent (currentVersion records)])
      s.db)
    update (fun s =>
      { db := t
        memory :=
          { keys := s.memory.keys.setAll parsed
            clusterShared := s.memory.clusterShared.setAll (parsed.map (fun p => (p.1, true)))
            current := currentVersion records } })

inductive Event where
  | rotate (faults : Faults) (order : List Int) (key : Option Key) (clusterShared : Bool)
  | ensure (faults : Faults) (order : List Int) (key : Option Key)
  | adopt (faults : Faults) (records : List KeyRecord)

def perform : Event → Action KeyStore Error Unit
  | .rotate faults order key clusterShared => do
    let _ ← rotate faults order key clusterShared
    pure ()
  | .ensure faults order key => do
    let _ ← ensureClusterKey faults order key
    pure ()
  | .adopt faults records => adoptClusterKeys faults records

def versions (s : KeyStore) : List Int := s.memory.keys.entries.map Prod.fst

def visits (s : KeyStore) : Event → Bool
  | .rotate _ order _ _ => decide (order.Perm (versions s))
  | .ensure _ order _ => decide (order.Perm (versions s))
  | .adopt _ _ => true

def step (s : KeyStore) (e : Event) : Option KeyStore := if visits s e then some (perform e s).2 else none

end MaxIOFS.KekStore
