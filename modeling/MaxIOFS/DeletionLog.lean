import MaxIOFS.OrderedStore

/-! The deletion log of a cluster node: one tombstone for each deleted entity. Recording a
deletion writes the receiver's own time, whatever time the tombstone came with. -/
namespace MaxIOFS.DeletionLog
open ByteString OrderedStore List

-- Times are nanoseconds; the log keeps whole seconds.
def unix (time : Int) : Int := time / 1000000000

abbrev Key := Bytes × Bytes

structure DeletionEntry where
  (id entityType entityID deletedByNodeID : Bytes)
  deletedAt : Int
  deriving DecidableEq, Repr

def DeletionEntry.key (e : DeletionEntry) : Key := (e.entityType, e.entityID)

structure Log where
  rows : List DeletionEntry
  unique : (rows.map DeletionEntry.key).Nodup

namespace Log

def empty : Log := ⟨[], nodup_nil⟩

def find (log : Log) (key : Key) : Option DeletionEntry := log.rows.find? (fun e => e.key = key)

def rewrite (key : Key) (node : Bytes) (seconds : Int) (e : DeletionEntry) : DeletionEntry :=
  if e.key = key then { e with deletedByNodeID := node, deletedAt := seconds } else e

theorem rewriteKey (key : Key) (node : Bytes) (seconds : Int) (e : DeletionEntry) : (rewrite key node seconds e).key = e.key := by
  unfold rewrite
  split <;> rfl

theorem rewriteKeys (key : Key) (node : Bytes) (seconds : Int) (rows : List DeletionEntry) :
    (rows.map (rewrite key node seconds)).map DeletionEntry.key = rows.map DeletionEntry.key := by
  rw [map_map]
  exact map_congr_left fun e _ => rewriteKey key node seconds e

def recordDeletion (id : Bytes) (key : Key) (node : Bytes) (now : Int) (log : Log) : Log :=
  if present : key ∈ log.rows.map DeletionEntry.key then
    ⟨log.rows.map (rewrite key node (unix now)), rewriteKeys key node (unix now) log.rows ▸ log.unique⟩
  else
    ⟨log.rows ++ [⟨id, key.1, key.2, node, unix now⟩], by
      rw [map_append, map_singleton]
      refine nodup_append.mpr ⟨log.unique, nodup_singleton _, fun k mem k' last same => present ?_⟩
      have own : k = key := same.trans (mem_singleton.mp last)
      exact own ▸ mem⟩

def cleanupOldDeletions (now : Int) (maxAge : Nat) (log : Log) : Log :=
  ⟨log.rows.filter (fun e => decide (unix (now - maxAge) ≤ e.deletedAt)), log.unique.sublist (List.filter_sublist.map _)⟩

end Log

structure Entities where
  (tenants users identityProviders groupMappings groups : Store Bytes Int)

-- Tenants carry a time, the others seconds; an entity that is not there is not newer.
def entityIsNewerThanTombstone (entities : Entities) (e : DeletionEntry) : Bool :=
  let newer (updatedAt : Option Int) : Bool := match updatedAt with
    | some seconds => decide (e.deletedAt < seconds)
    | none => false
  if e.entityType = ascii "tenant" then newer ((entities.tenants.get e.entityID).map unix)
  else if e.entityType = ascii "user" then newer (entities.users.get e.entityID)
  else if e.entityType = ascii "idp_provider" then newer (entities.identityProviders.get e.entityID)
  else if e.entityType = ascii "group_mapping" then newer (entities.groupMappings.get e.entityID)
  else if e.entityType = ascii "group" then newer (entities.groups.get e.entityID)
  else false

def DeletionEntry.name (e : DeletionEntry) : Bytes := e.entityType ++ ascii ":" ++ e.entityID

-- The later of two rows of one name is the one looked up.
def stamp (entries : List DeletionEntry) (name : Bytes) : Option Int :=
  (entries.reverse.find? (fun e => e.name = name)).map DeletionEntry.deletedAt

def tombstonesToPeer (localTombstones remote : List DeletionEntry) : List DeletionEntry :=
  localTombstones.filter (fun e => match stamp remote e.name with
    | some there => decide (there < e.deletedAt)
    | none => true)

def remoteTombstones (remote localTombstones : List DeletionEntry) : List DeletionEntry :=
  remote.filter (fun e => match stamp localTombstones e.name with
    | some here => decide (here < e.deletedAt)
    | none => true)

namespace Log

theorem findMem {log : Log} {key e} : log.find key = some e ↔ e ∈ log.rows ∧ e.key = key := by
  constructor
  · intro found
    exact ⟨List.mem_of_find?_eq_some found,by simpa using List.find?_some found⟩
  rintro ⟨mem,same⟩
  cases found : log.find key with
  | none => exact absurd same (of_decide_eq_false ((Bool.not_eq_true _).mp (List.find?_eq_none.mp found e mem)))
  | some other =>
    have here := List.mem_of_find?_eq_some found
    have own : other.key = key := by simpa using List.find?_some found
    exact congrArg some (inj_on_of_nodup_map log.unique here mem (own.trans same.symm))

theorem findRecorded (id : Bytes) (key : Key) (node : Bytes) (now : Int) (log : Log) :
    ∃ e, (log.recordDeletion id key node now).find key = some e ∧ e.deletedAt = unix now := by
  unfold recordDeletion
  split
  · rename_i present
    obtain ⟨e,mem,same⟩ := mem_map.mp present
    refine ⟨rewrite key node (unix now) e,findMem.mpr ⟨mem_map.mpr ⟨e,mem,rfl⟩,(rewriteKey ..).trans same⟩,?_⟩
    rw [rewrite,if_pos same]
  · exact ⟨⟨id,key.1,key.2,node,unix now⟩,findMem.mpr ⟨mem_append.mpr (.inr (mem_singleton.mpr rfl)),rfl⟩,rfl⟩

theorem findOther {id key key' node now} {log : Log} (other : key ≠ key') : (log.recordDeletion id key node now).find key' = log.find key' := by
  unfold recordDeletion
  split
  · ext e
    rw [findMem,findMem]
    have kept {e} (same : e.key = key') : rewrite key node (unix now) e = e := by
      rw [rewrite,if_neg fun own => other (own.symm.trans same)]
    constructor
    · rintro ⟨mem,same⟩
      obtain ⟨e',mem',rfl⟩ := mem_map.mp mem
      have old := (rewriteKey key node (unix now) e').symm.trans same
      rw [kept old]
      exact ⟨mem',old⟩
    · rintro ⟨mem,same⟩
      exact ⟨mem_map.mpr ⟨e,mem,kept same⟩,same⟩
  · ext e
    rw [findMem,findMem,mem_append,mem_singleton]
    constructor
    · rintro ⟨mem | rfl,same⟩
      · exact ⟨mem,same⟩
      · exact absurd same other
    · rintro ⟨mem,same⟩
      exact ⟨.inl mem,same⟩

theorem findCleaned {log : Log} {key now maxAge e} :
    (log.cleanupOldDeletions now maxAge).find key = some e ↔ log.find key = some e ∧ unix (now - maxAge) ≤ e.deletedAt := by
  rw [findMem,findMem,cleanupOldDeletions,mem_filter,decide_eq_true_iff]
  tauto

end Log

end MaxIOFS.DeletionLog
