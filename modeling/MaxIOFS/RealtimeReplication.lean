import MaxIOFS.KeyFrame
import MaxIOFS.Runs

/-! Realtime replication of a bucket under one rule that also replicates deletions. PutObject and
DeleteObject each start a goroutine that queues the key; workers take the items in any order, read what
the key holds by then, and upload it or delete the key at the destination. -/
namespace MaxIOFS.RealtimeReplication
open Function Runs List ByteString ObjectManager Records
open ManagerRuns (smallNode callAt newBucket versionedBucket)

inductive Action where
  | put | delete
  deriving DecidableEq

structure Rule where
  (tenantID sourceBucket start : Bytes)
  maxRetries : Nat

/-- Where the requests find the bucket; the workers look for it under its bare name. -/
def Rule.path (rule : Rule) : Bytes := if rule.tenantID = [] then rule.sourceBucket else rule.tenantID ++ [slash] ++ rule.sourceBucket

inductive Request where
  | putObject (key data : Bytes) (headers : Headers)
  | copyObject (key data : Bytes) (headers : Headers)
  | postObject (key data : Bytes) (headers : Headers)
  | completeMultipartUpload (uploadID : Bytes) (parts : List Part)
  | deleteObject (key : Bytes) (bypass : Bool) (versionID : Bytes)
  | deleteObjects (key : Bytes) (bypass : Bool) (versionID : Bytes)

def finished {α} : Except Error α × State → Option State
  | (.ok _, s) => some s
  | (.error _, _) => none

def serve (node : Node) (call : Call) (path : Bytes) (s : State) : Request → Option State
  | .putObject key data headers | .copyObject key data headers | .postObject key data headers =>
    finished (putObject node call path key data headers s)
  | .completeMultipartUpload uploadID parts => finished (doCompleteMultipartUpload node call uploadID parts s)
  | .deleteObject key bypass versionID | .deleteObjects key bypass versionID => finished (deleteObject node call path key bypass versionID s)

def Request.queues : Request → Option (Bytes × Action)
  | .putObject key _ _ => some (key, .put)
  | .deleteObject key _ _ => some (key, .delete)
  | _ => none

/-- What the destination holds for a key, and what is under way for it: the goroutines, the pending items and how
often each was tried, and the uploads. -/
structure Key where
  destination : Option Bytes
  queueing : List Action
  queue : List (Action × Nat)
  uploading : List Bytes

structure World where
  source : State
  keys : Bytes → Key

inductive Event where
  | request (call : Call) (request : Request)
  | queueRealtimeObject (key : Bytes) (a : Action)
  | processItem (key : Bytes) (a : Action) (attempts : Nat)
  | upload (key data : Bytes)

section
variable (node : Node) (rule : Rule) (w : World)

def read (bucket key : Bytes) (s : State) : Option Bytes := (getObject node bucket key [] s).1.toOption.bind Prod.snd

/-- The bytes of the key's current object, if it is visible. -/
def shown (key : Bytes) (s : State) : Option Bytes := if visible (stored s rule.path key) then read node rule.path key s else none

def queued (keys : Bytes → Key) : Option (Bytes × Action) → Bytes → Key
  | some (key, a) => if rule.start <+: key then update keys key { keys key with queueing := (keys key).queueing ++ [a] } else keys
  | none => keys

def replicate (found : Option Bytes) (attempts : Nat) (s : Key) : Action → Key
  | .delete => { s with destination := none }
  | .put => match found with
    | some data => { s with uploading := s.uploading ++ [data] }
    | none => if attempts + 1 < rule.maxRetries then { s with queue := s.queue ++ [(.put, attempts + 1)] } else s

def step : Event → Option World
  | .request call request => (serve node call rule.path w.source request).map fun source => ⟨source, queued rule w.keys request.queues⟩
  | .queueRealtimeObject key a =>
    let s := w.keys key
    if a ∈ s.queueing then some { w with keys := update w.keys key { s with queueing := s.queueing.erase a, queue := s.queue ++ [(a, 0)] } }
    else none
  | .processItem key a attempts =>
    let s := w.keys key
    let found := read node rule.sourceBucket key w.source
    if (a, attempts) ∈ s.queue then
      some { w with keys := update w.keys key (replicate rule found attempts { s with queue := s.queue.erase (a, attempts) } a) }
    else none
  | .upload key data =>
    let s := w.keys key
    if data ∈ s.uploading then
      some { w with keys := update w.keys key { s with uploading := s.uploading.erase data, destination := some data } }
    else none

def Owed (s : Key) (a : Action) : Prop := a ∈ s.queueing ∨ ∃ n, (a, n) ∈ s.queue

def Calm (s : Key) (a : Action) : Prop := (∀ a', Owed s a' → a' = a) ∧ s.uploading = []

def due : Option Bytes → Action
  | some _ => .put
  | none => .delete

/-- A request changes what is shown of no key but the one it queues, and that one is calm and shows an object
after a PutObject and none after a DeleteObject. -/
def Careful : Event → Prop
  | .request call request => ∀ source, serve node call rule.path w.source request = some source → ∀ key, rule.start <+: key →
      match request.queues with
      | none => shown node rule key source = shown node rule key w.source
      | some (target, a) => if target = key then Calm (w.keys key) a ∧ a = due (shown node rule key source)
        else shown node rule key source = shown node rule key w.source
  | _ => True

def Idle (s : Key) : Prop := s.queueing = [] ∧ s.queue = [] ∧ s.uploading = []

/-- Everything under way brings the destination to what the source shows, and something is if it is not there yet. -/
structure Good (source : Option Bytes) (s : Key) : Prop where
  owed : ∀ a, Owed s a → a = due source
  uploading : ∀ data ∈ s.uploading, source = some data
  synced : s.destination = source ∨ (∃ a, Owed s a) ∨ s.uploading ≠ []

variable {node rule w} {s : Key} {source : Option Bytes} {w' : World} {event : Event}

theorem servedGood {a} (calm : Calm s a) (asked : a = due source) : Good source { s with queueing := s.queueing ++ [a] } := by
  refine ⟨fun a' owed => ?_,fun data mem => absurd (calm.2 ▸ mem) not_mem_nil,.inr (.inl ⟨a,.inl (by simp)⟩)⟩
  refine Eq.trans ?_ asked
  rcases owed with queueing | queued
  · rcases mem_append.mp queueing with old | new
    · exact calm.1 a' (.inl old)
    · exact mem_singleton.mp new
  · exact calm.1 a' (.inr queued)

theorem replicateGood {a attempts found} (good : Good source s) (there : (a,attempts) ∈ s.queue)
    (reads : ∀ data, source = some data → found = some data) :
    Good source (replicate rule found attempts { s with queue := s.queue.erase (a,attempts) } a) := by
  have fewer {a'} (owed : Owed { s with queue := s.queue.erase (a,attempts) } a') : Owed s a' :=
    owed.imp_right fun ⟨n,mem⟩ => ⟨n,mem_of_mem_erase mem⟩
  have asked := good.owed a (.inr ⟨attempts,there⟩)
  cases source with
  | none =>
    subst asked
    exact ⟨fun a owed => good.owed a (fewer owed),good.uploading,.inl rfl⟩
  | some data =>
    subst asked
    rw [reads data rfl]
    refine ⟨fun a owed => good.owed a (fewer owed),fun d mem => ?_,.inr (.inr (concat_ne_nil _ _))⟩
    rcases mem_append.mp mem with old | new
    · exact good.uploading d old
    · rw [mem_singleton.mp new]

theorem queuedGood {a} (good : Good source s) (there : a ∈ s.queueing) :
    Good source { s with queueing := s.queueing.erase a, queue := s.queue ++ [(a, 0)] } := by
  refine ⟨fun a' owed => ?_,good.uploading,.inr (.inl ⟨a,.inr ⟨0,by simp⟩⟩)⟩
  rcases owed with queueing | ⟨n,queued⟩
  · exact good.owed a' (.inl (mem_of_mem_erase queueing))
  rcases mem_append.mp queued with old | new
  · exact good.owed a' (.inr ⟨n,old⟩)
  · cases mem_singleton.mp new
    exact good.owed a (.inl there)

def Inv (node : Node) (rule : Rule) (w : World) : Prop := ∀ key, rule.start <+: key → Good (shown node rule key w.source) (w.keys key)

theorem Inv.set {key} (inv : Inv node rule w) (good : rule.start <+: key → Good (shown node rule key w.source) (w.keys key) →
    Good (shown node rule key w.source) s) : Inv node rule { w with keys := update w.keys key s } := by
  intro k inside
  dsimp only
  rw [update_apply]
  split
  · rename_i here
    subst here
    exact good inside (inv k inside)
  · exact inv k inside

theorem stepInv (global : rule.tenantID = []) (inv : Inv node rule w) (careful : Careful node rule w event)
    (stepped : step node rule w event = some w') : Inv node rule w' := by
  cases event with
  | request call request =>
    obtain ⟨after,served,rfl⟩ := Option.map_eq_some_iff.mp stepped
    intro key inside
    have changes := careful after served key inside
    cases queues : request.queues with
    | none =>
      rw [queues] at changes
      dsimp only [queued] at changes ⊢
      rw [changes]
      exact inv key inside
    | some target =>
      obtain ⟨target,a⟩ := target
      rw [queues] at changes
      dsimp only [queued] at changes ⊢
      by_cases mine : target = key
      · subst mine
        rw [if_pos rfl] at changes
        rw [if_pos inside,update_self]
        exact servedGood changes.1 changes.2
      · rw [if_neg mine] at changes
        have same : (if rule.start <+: target then update w.keys target { w.keys target with queueing := (w.keys target).queueing ++ [a] }
            else w.keys) key = w.keys key := by
          split
          · exact update_of_ne (Ne.symm mine) ..
          · rfl
        rw [same,changes]
        exact inv key inside
  | queueRealtimeObject key a =>
    simp only [step] at stepped
    split at stepped <;> cases stepped
    rename_i there
    exact inv.set fun _ good => queuedGood good there
  | processItem key a attempts =>
    simp only [step] at stepped
    split at stepped <;> cases stepped
    rename_i there
    refine inv.set fun _ good => replicateGood good there fun data visible_ => ?_
    unfold shown at visible_
    split at visible_ <;> try contradiction
    rw [Rule.path,if_pos global] at visible_
    exact visible_
  | upload key data =>
    simp only [step] at stepped
    split at stepped <;> cases stepped
    rename_i there
    exact inv.set fun _ good => ⟨good.owed,fun d mem => good.uploading d (mem_of_mem_erase mem),.inl (good.uploading data there).symm⟩

end

instance (s : Key) : Decidable (Idle s) := inferInstanceAs (Decidable (_ ∧ _ ∧ _))

def emptyKeys : Bytes → Key := fun _ => ⟨none, [], [], []⟩

def bucketRule (tenantID : Bytes) : Rule := ⟨tenantID, ascii "b", ascii "k", 3⟩

def put (seconds : Int) (key data : Bytes) : Event := .request (callAt seconds) (.putObject key data OrderedStore.empty)

def delete (seconds : Int) (key versionID : Bytes) : Event := .request (callAt seconds) (.deleteObject key false versionID)

def replicated (key data : Bytes) : List Event := [.queueRealtimeObject key .put, .processItem key .put 0, .upload key data]

def putTwice : List Event :=
  [put 1 (ascii "k") [5], .queueRealtimeObject (ascii "k") .put, put 2 (ascii "k") [6], .queueRealtimeObject (ascii "k") .put,
    .processItem (ascii "k") .put 0, .processItem (ascii "k") .put 0, .upload (ascii "k") [6], .upload (ascii "k") [6]]

def putOne (s : State) (seconds : Int) (data : Bytes) : State :=
  (putObject smallNode (callAt seconds) (ascii "b") (ascii "k") data OrderedStore.empty s).2

-- A put of the one key leaves every other key of the bucket without a record.
theorem putOneOthers {s : State} {seconds data key} (off : isBucketVersioningEnabled s (ascii "b") = false)
    (none_ : s.db.objects.get (MetadataStore.objectKey (ascii "b") key) = none) (other : ascii "k" ≠ key) (named : key ≠ []) :
    (putOne s seconds data).db.objects.get (MetadataStore.objectKey (ascii "b") key) = none := by
  refine (KeyFrame.putObjectEntry off (.inr ?_) (by decide) named other).trans none_
  have none_ : implicitFolders (ascii "k") = [] := by decide
  rw [none_]
  exact not_mem_nil

theorem unshown {s : State} {key} (none_ : s.db.objects.get (MetadataStore.objectKey (ascii "b") key) = none) :
    shown smallNode (bucketRule []) key s = none := by
  rw [shown,show (bucketRule []).path = ascii "b" from rfl,KeyFrame.unrecorded none_]
  rfl

theorem servedPut {s source : State} {seconds data}
    (served : serve smallNode (callAt seconds) (ascii "b") s (.putObject (ascii "k") data OrderedStore.empty) =
    some source) : source = putOne s seconds data := by
  simp only [serve,finished] at served
  split at served <;> cases served
  rename_i result
  exact (congrArg Prod.snd result).symm

theorem stepPut {s : State} {keys seconds data w} (stepped : step smallNode (bucketRule []) ⟨s, keys⟩ (put seconds (ascii "k") data) = some w) :
    w = ⟨putOne s seconds data, queued (bucketRule []) keys (some (ascii "k", .put))⟩ := by
  rw [put,step] at stepped
  obtain ⟨source,served,rfl⟩ := Option.map_eq_some_iff.mp stepped
  rw [servedPut served]
  rfl

theorem putOneCareful {s : State} {keys seconds data} (off : isBucketVersioningEnabled s (ascii "b") = false)
    (others : ∀ key, ascii "k" ≠ key → s.db.objects.get (MetadataStore.objectKey (ascii "b") key) = none)
    (seen : (shown smallNode (bucketRule []) (ascii "k") (putOne s seconds data)).isSome = true) (calm : Calm (keys (ascii "k")) .put) :
    Careful smallNode (bucketRule []) ⟨s, keys⟩ (put seconds (ascii "k") data) := by
  intro source served key inside
  rw [servedPut served]
  change if ascii "k" = key then _ else _
  split
  · rename_i here
    subst here
    refine ⟨calm,?_⟩
    obtain ⟨_,found⟩ := Option.isSome_iff_exists.mp seen
    rw [found]
    rfl
  · rename_i other
    have named : key ≠ [] := by
      rintro rfl
      exact absurd inside (by decide)
    rw [unshown (others key other),unshown (putOneOthers off (others key other) other named)]

def tenantBucket : State :=
  { newBucket none with
    db := { (newBucket none).db with
      buckets := OrderedStore.empty.set (MetadataStore.bucketKey (ascii "t") (ascii "b"))
        { name := ascii "b", tenantID := ascii "t", versioningStatus := none, objectLock := none, objectCount := 0,
          totalSize := 0, quota := none } }
    tenants := OrderedStore.empty.set (ascii "t") ⟨0, 0⟩ }

structure Divergence where
  start : State
  tenantID : Bytes
  events : List Event
  key : Bytes

-- A copy is never queued; an item of a deletion is taken after that of a later put; an old version is deleted; the bucket is
-- a tenant's; the deletion of a name takes the folder of that name.
def divergences : List Divergence :=
  [⟨newBucket none, [], [.request (callAt 1) (.copyObject (ascii "k") [5] OrderedStore.empty)], ascii "k"⟩,
    ⟨newBucket none, [], [put 1 (ascii "k") [5], delete 2 (ascii "k") [], put 3 (ascii "k") [6], .queueRealtimeObject (ascii "k") .put,
      .queueRealtimeObject (ascii "k") .put, .queueRealtimeObject (ascii "k") .delete, .processItem (ascii "k") .put 0, .upload (ascii "k") [6],
      .processItem (ascii "k") .put 0, .upload (ascii "k") [6], .processItem (ascii "k") .delete 0], ascii "k"⟩,
    ⟨versionedBucket, [], put 1 (ascii "k") [5] :: replicated (ascii "k") [5] ++ put 2 (ascii "k") [6] :: replicated (ascii "k") [6] ++
      [delete 3 (ascii "k") (generateVersionID (callAt 1)), .queueRealtimeObject (ascii "k") .delete,
        .processItem (ascii "k") .delete 0], ascii "k"⟩,
    ⟨tenantBucket, ascii "t", [put 1 (ascii "k") [5], .queueRealtimeObject (ascii "k") .put, .processItem (ascii "k") .put 0,
      .processItem (ascii "k") .put 1, .processItem (ascii "k") .put 2], ascii "k"⟩,
    ⟨versionedBucket, [], put 1 (ascii "k/") [] :: replicated (ascii "k/") [] ++
      [delete 2 (ascii "k") [], .queueRealtimeObject (ascii "k") .delete, .processItem (ascii "k") .delete 0], ascii "k/"⟩]

end MaxIOFS.RealtimeReplication
