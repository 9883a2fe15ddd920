import MaxIOFS.ByteString
import MaxIOFS.Runs

/-! The migration of a bucket whose source is deleted at the end. The rows to copy come from the table
`objects` of the node's database, while the objects themselves are in the object store that is deleted.
No statement of the program makes that table. -/
namespace MaxIOFS.Migration
open ByteString Runs

structure Row where
  key : Bytes
  size : Int
  (etag versionID : Bytes)

structure Object where
  (key data etag : Bytes)

/-- The target's versions of each key, with their bytes and ETags, newest first. -/
abbrev Target := Bytes → List (Bytes × Bytes)

/-- The tables there are; of their rows only those of `objects` are read here, in the order of their creation. -/
structure Database where
  tables : List Bytes
  objects : List Row

inductive Statement where
  | createTable (name : Bytes)
  | dropTable (name : Bytes)
  | renameTable (name new : Bytes)
  deriving DecidableEq

def Database.exec (db : Database) : Statement → Option Database
  | .createTable name => some (if name ∈ db.tables then db else { db with tables := name :: db.tables })
  | .dropTable name => some { db with tables := db.tables.filter (· ≠ name) }
  | .renameTable name new =>
    if name ∈ db.tables ∧ new ∉ db.tables then some { db with tables := new :: db.tables.filter (· ≠ name) } else none

def Database.rows (db : Database) : Option (List Row) := if ascii "objects" ∈ db.tables then some db.objects else none

def tableNames : List Bytes :=
  [ascii "access_keys", ascii "audit_logs", ascii "bucket_inventory_configs", ascii "bucket_inventory_reports", ascii "bucket_permissions",
    ascii "cluster_access_key_sync", ascii "cluster_bucket_permission_sync", ascii "cluster_bucket_replication", ascii "cluster_config",
    ascii "cluster_deletion_log", ascii "cluster_global_config", ascii "cluster_group_mapping_sync", ascii "cluster_group_sync",
    ascii "cluster_health_history", ascii "cluster_idp_provider_sync", ascii "cluster_migrations", ascii "cluster_nodes",
    ascii "cluster_replication_queue", ascii "cluster_replication_status", ascii "cluster_tenant_sync", ascii "cluster_user_sync",
    ascii "encryption_keys", ascii "group_members", ascii "groups", ascii "ha_scrub_runs", ascii "ha_sync_jobs", ascii "identity_providers",
    ascii "idp_group_mappings", ascii "logging_targets", ascii "metric_aggregates", ascii "metric_snapshots", ascii "replication_queue",
    ascii "replication_rules", ascii "replication_status", ascii "role_capabilities", ascii "schema_version", ascii "shares",
    ascii "system_settings", ascii "tenants", ascii "user_capability_overrides", ascii "users"]

/-- What the program asks of the database's schema: its migrations, and what each manager does when it starts. -/
def schema : List Statement :=
  tableNames.map .createTable ++ [.renameTable (ascii "bucket_permissions") (ascii "bucket_permissions_old"),
    .dropTable (ascii "bucket_permissions_old"), .dropTable (ascii "shares"), .dropTable (ascii "replication_status"),
    .dropTable (ascii "replication_queue"), .dropTable (ascii "replication_rules")]

structure Setting where
  bucket : Bytes
  db : Database
  get : Bytes → Option Bytes
  fails : Nat → Bool
  versioned : Bool
  md5 : Bytes → Bytes
  (permissions acls configuration : Bool)
  answers : Nat → Bool
  (location deleteSource verifyData : Bool)

structure Copied where
  target : Target
  objectsMigrated : Nat
  bytesMigrated : Int

section
variable (x : Setting)

def objectPath (row : Row) : Bytes :=
  if row.versionID ≠ [] ∧ row.versionID ≠ ascii "null" then x.bucket ++ ascii "/.versions/" ++ row.key ++ ascii "/" ++ row.versionID
  else x.bucket ++ ascii "/" ++ row.key

def copyObject (i : Nat) (row : Row) : Option Bytes := if x.fails i then none else x.get (objectPath x row)

def Target.put (t : Target) (key data : Bytes) : Target := fun k =>
  if k = key then (data, x.md5 data) :: (if x.versioned then t k else []) else t k

/-- The copies made, and whether the loop came to its end. -/
def copyBucketObjects (c : Copied) (errors i : Nat) : List Row → Copied × Bool
  | [] => (c, true)
  | row :: rest => match copyObject x i row with
    | none => if errors + 1 ≥ 10 then (c, false) else copyBucketObjects c (errors + 1) (i + 1) rest
    | some data => copyBucketObjects ⟨c.target.put x row.key data, c.objectsMigrated + 1, c.bytesMigrated + row.size⟩ errors (i + 1) rest

def verifyMigration (rows : List Row) (c : Copied) : Bool :=
  let total := (rows.map Row.size).sum
  decide (c.objectsMigrated = rows.length) && decide (100 * (total - c.bytesMigrated).natAbs ≤ total) &&
  (rows.take 10).zipIdx.all fun (row, i) => x.answers i && match c.target row.key with
    | [] => false
    | latest :: _ => decide (row.etag = [] ∨ latest.2 = row.etag)

inductive Failure where
  | count | copy | permissions | acls | configuration | verification | location
  deriving DecidableEq

/-- What the target holds at the end, and whether the source was deleted. -/
structure Outcome where
  target : Target
  sourceDeleted : Bool
  error : Option Failure

def executeMigration (target : Target) : Outcome := match x.db.rows with
  | none => ⟨target, false, some .count⟩
  | some rows =>
    let (c, complete) := copyBucketObjects x ⟨target, 0, 0⟩ 0 0 rows
    if !complete then ⟨c.target, false, some .copy⟩
    else if !x.permissions then ⟨c.target, false, some .permissions⟩
    else if !x.acls then ⟨c.target, false, some .acls⟩
    else if !x.configuration then ⟨c.target, false, some .configuration⟩
    else if x.verifyData && decide (rows ≠ []) && !verifyMigration x rows c then ⟨c.target, false, some .verification⟩
    else if !x.location then ⟨c.target, false, some .location⟩
    else ⟨c.target, x.deleteSource, none⟩

def Stored (target : Target) (o : Object) : Prop := (o.data, o.etag) ∈ target o.key

/-- If the source is deleted, the target holds all of it. -/
def Safe (target : Target) (source : List Object) : Prop :=
  (executeMigration x target).sourceDeleted = true → ∀ o ∈ source, Stored (executeMigration x target).target o

end

section
variable {db db' : Database} {statement : Statement}

theorem execTables (absent : ascii "objects" ∉ db.tables) (issued : statement ∈ schema) (done : db.exec statement = some db') :
    ascii "objects" ∉ db'.tables := by
  have other : ∀ name ∈ tableNames, ascii "objects" ≠ name := by decide
  have few : ∀ {name}, Statement.createTable name ∈ schema → name ∈ tableNames := by
    intro name mem
    simpa [schema] using mem
  have renamed : ∀ {name new}, Statement.renameTable name new ∈ schema → new = ascii "bucket_permissions_old" := by
    intro name new mem
    simp only [schema,List.mem_append,List.mem_map,reduceCtorEq,and_false,exists_false,false_or,List.mem_cons,Statement.renameTable.injEq,
      List.not_mem_nil,or_false] at mem
    exact mem.2
  cases statement with
  | createTable name =>
    cases done
    split
    · exact absent
    · exact List.not_mem_cons_of_ne_of_not_mem (other name (few issued)) absent
  | dropTable name =>
    cases done
    exact fun mem => absent (List.mem_filter.mp mem).1
  | renameTable name new =>
    rw [Database.exec] at done
    split at done <;> cases done
    rw [renamed issued]
    exact List.not_mem_cons_of_ne_of_not_mem (by decide) fun mem => absent (List.mem_filter.mp mem).1

end

def emptied : Database := ⟨[], []⟩

def moving : Setting :=
  ⟨ascii "b", emptied, fun _ => some [1], fun _ => false, false, fun data => ascii "m" ++ data, true, true, true, fun _ => true, true, true, true⟩

def photo : Object := ⟨ascii "k", [1], ascii "m" ++ [1]⟩

end MaxIOFS.Migration
