import MaxIOFS.BucketCounters
import MaxIOFS.TagIndex

/-! The storage counter of a tenant against the bytes of its buckets, over runs on all of them. -/
namespace MaxIOFS.TenantUsage
open LatestVersion Totals
open ByteString (Bytes ascii slash splitFirst)
open OrderedStore MetadataStore Records ObjectManager RecordChanges VersionHistory VersionMoves ManagerRuns
    Accounts Inventory TagIndex BucketCounters Runs Completions

section
variable {sorting : VersionSort} {bucket home key v : Bytes} {now : Int} {db db' : Database}

theorem promotionAside (valid : Valid bucket) (own : Valid home) (other : bucket ≠ home) (filed : Filed home db) :
    Aside bucket db (promotion sorting home key v db) := by
  unfold promotion
  split
  · cases done : db.deleteObject home key with
    | ok db' => exact asideDelete valid own other done
    | error e => exact .refl _ _
  cases chosen : nextLatest v (db.getObjectVersions sorting home key) with
  | none => exact .refl _ _
  | some next =>
    obtain ⟨obj,stored,rfl⟩ := (memVersions filed).mp (nextLatestMem chosen).1
    have read : db.getObject home key (versionOf obj).versionID = .ok obj := readable filed own.named stored
    obtain ⟨found,keyed⟩ := versionsInIff.mp stored
    obtain ⟨_,_,identified⟩ := filed.versions.at found keyed
    dsimp only
    rw [read]
    dsimp only
    cases done : db.putObjectVersion obj { versionOf obj with isLatest := true } with
    | ok db' => exact asidePutVersion valid own other identified.bucket done
    | error e => exact .refl _ _

theorem readHome {old} (filed : Filed home db) (read : db.getObject home key v = .ok old) : old.bucket = home := by
  by_cases current : v = []
  · subst current
    exact (filed.current (readCurrent filed read)).2.bucket
  · exact (filed.versions _ _ (readVersion filed current read).1 (inVersionSpace ..)).1.bucket

theorem effectAside {change} (valid : Valid bucket) (own : Valid home) (other : bucket ≠ home) (filed : Filed home db)
    (tame : Tame home change) (effect : Effect sorting home now db change db') : Aside bucket db db' := by
  cases effect with
  | insert done => exact asidePutVersion valid own other tame.1.bucket done
  | plain done => exact asidePut valid own other tame.1 done
  | adopt _ done => exact asidePut valid own other tame.1 done
  | edit read same done => exact asidePut valid own other (same.bucket.trans (readHome filed read)) done
  | @drop key v bypass target old mid listed read unlocked done =>
    have first := asideDeleteVersion valid own other done
    obtain ⟨_,dropped⟩ := droppedVersion filed ⟨listed,read,unlocked,done⟩
    split
    · exact first.trans (promotionAside valid own other dropped.filed)
    · exact first
  | erase _ _ done => exact asideDelete valid own other done

end

section
variable {node : Node} {bucket : Bytes} {s next : State} {e : Event}

theorem stepFiledOther {other} (own : Valid bucket) (filed : Filed bucket s.db) (valid : Valid other) (filed' : Filed other s.db)
    (plain : Plain e) (stepped : step node bucket s e = some next) : Filed other next.db := by
  obtain ⟨belongs,rfl⟩ := stepPerforms stepped
  have both : Filed bucket (perform node bucket s e).db ∧ Filed other (perform node bucket s e).db := by
    refine (performFollows belongs).keeps (P := fun db => Filed bucket db ∧ Filed other db)
      (fun same holds => ?_) (fun permitted effect holds => ?_) ⟨filed,filed'⟩
    · exact ⟨filedSame holds.1 same.objects same.versions same.deleted,filedSame holds.2 same.objects same.versions same.deleted⟩
    have moved := (effectMoves holds.1 own.named (permittedTame plain permitted) effect).1
    refine ⟨moved,?_⟩
    by_cases here : other = bucket
    · exact here ▸ moved
    · exact filedAside holds.2 (effectAside valid own here holds.1 (permittedTame plain permitted) effect)
  exact both.2

theorem stepModes (stepped : step node bucket s e = some next) (other : Bytes) :
    isBucketVersioningEnabled next other = isBucketVersioningEnabled s other := by
  obtain ⟨belongs,rfl⟩ := stepPerforms stepped
  refine versioningSame other ?_
  refine (performFollows belongs).keeps (P := fun db => ∀ key, (db.buckets.get key).map BucketMetadata.versioningStatus =
    (s.db.buckets.get key).map BucketMetadata.versioningStatus) (fun same holds key => ?_) (fun _ effect holds key => ?_) (fun _ => rfl)
  · exact (same.status key).trans (holds key)
  · rw [effectBuckets effect]
    exact holds key

end

def Usage (tenant : Bytes) (s : State) (amount : Int) : Prop :=
  ∃ found, s.tenants.get tenant = some found ∧ found.maxStorageBytes = 0 ∧ found.currentStorageBytes = amount

def ownedBy (tenant bucket : Bytes) : Prop := (parseBucketPath bucket).1 = tenant

instance (tenant bucket : Bytes) : Decidable (ownedBy tenant bucket) := inferInstanceAs (Decidable (_ = _))

theorem splitFirstJoin (separator : UInt8) (path : Bytes) :
    path = (splitFirst separator path).1 ++ ((splitFirst separator path).2.map (separator :: ·)).getD [] := by
  induction path with
  | nil => rfl
  | cons b rest induction =>
    unfold splitFirst
    split
    · rename_i same
      rw [same]
      rfl
    · exact congrArg (b :: ·) induction

theorem ownedPath {tenant bucket} (named : tenant ≠ []) (owned : ownedBy tenant bucket) : tenant ++ [slash] <+: bucket ++ colon := by
  have joined := splitFirstJoin slash bucket
  unfold ownedBy parseBucketPath at owned
  cases cut : splitFirst slash bucket with
  | mk first rest =>
    rw [cut] at owned joined
    cases rest with
    | none => exact absurd owned.symm named
    | some name =>
      cases owned
      exact ⟨name ++ colon,by rw [joined]; simp⟩

section
variable {tenant bucket : Bytes} {s s' : State} {amount delta : Int}

theorem usageIncrement (named : tenant ≠ []) (owned : ownedBy tenant bucket) (grows : 0 ≤ delta) (usage : Usage tenant s amount)
    (booked : s'.tenants = used bucket (fun tenants id => incrementTenantStorage tenants id delta) s.tenants) :
    Usage tenant s' (amount + delta) := by
  obtain ⟨found,present,unlimited,counted⟩ := usage
  rw [used,owned,if_neg named,incrementTenantStorage] at booked
  by_cases nothing : delta ≤ 0
  · rw [if_pos nothing] at booked
    exact ⟨found,booked ▸ present,unlimited,by omega⟩
  rw [if_neg nothing,present] at booked
  dsimp only at booked
  rw [if_pos (.inl unlimited)] at booked
  have present' := (congrArg (·.get tenant) booked).trans (OrderedStore.Store.getSetSame ..)
  exact ⟨_,present',unlimited,congrArg (· + delta) counted⟩

theorem usageDecrement (named : tenant ≠ []) (owned : ownedBy tenant bucket) (shrinks : 0 ≤ delta) (held : delta ≤ amount)
    (usage : Usage tenant s amount)
    (booked : s'.tenants = used bucket (fun tenants id => decrementTenantStorage tenants id delta) s.tenants) :
    Usage tenant s' (amount - delta) := by
  obtain ⟨found,present,unlimited,_⟩ := usage
  rw [used,owned,if_neg named,decrementTenantStorage] at booked
  by_cases nothing : delta ≤ 0
  · rw [if_pos nothing] at booked
    exact ⟨found,booked ▸ present,unlimited,by omega⟩
  rw [if_neg nothing,present] at booked
  have present' := (congrArg (·.get tenant) booked).trans (OrderedStore.Store.getSetSame ..)
  refine ⟨_,present',unlimited,?_⟩
  dsimp only
  split <;> omega

end

-- A write under versioning takes an identifier of no bytes; without it, it is no smaller than what it replaces.
def Grows (s : State) (bucket key : Bytes) (size : Int) (id : Bytes) : Prop :=
  if isBucketVersioningEnabled s bucket then Unused s bucket key id
  else ∀ old, stored s bucket key = some old → old.size ≤ size

def Careful (node : Node) (bucket : Bytes) (s : State) (e : Event) : Prop :=
  Plain e ∧ match e.request with
  | .put key data _ => ∀ id, chooseVersion e.call (isBucketVersioningEnabled s bucket) = .ok id → Grows s bucket key data.length id
  | .complete uploadID parts => ∀ upload, s.db.getMultipartUpload uploadID = .ok upload →
      Grows s bucket upload.key (recordedSize (PartFiles.partsBytes node.host s.files uploadID parts).length) (generateVersionID e.call)
  | .delete key bypass v =>
    if v = [] then ∀ id, chooseVersion e.call true = .ok id → Unused s bucket (resolveFolderDeleteKey s bucket key) id
    else ∀ old, (view bucket s.db (resolveFolderDeleteKey s bucket key)).versions v = some old → lockError e.call.now bypass old = none →
    old.size = 0
  | .createUpload .. | .uploadPart .. => True
  | _ => False

structure Kept (tenant : Bytes) (modes : Bytes → Bool) (s : State) : Prop where
  filed : ∀ bucket, Valid bucket → ownedBy tenant bucket → Filed bucket s.db
  mode : ∀ bucket, modes bucket = isBucketVersioningEnabled s bucket
  regular : Regular (tenant ++ [slash]) modes s.db
  usage : Usage tenant s ((bytes (tenant ++ [slash])).total s.db)

section
variable {node : Node} {tenant bucket : Bytes} {modes : Bytes → Bool} {s s' : State} {e : Event}

theorem carefulCounted (careful : Careful node bucket s e) : Counted e.request := by
  obtain ⟨_,request⟩ := e
  cases request <;> first | trivial | exact careful.2

theorem carefulGrows (careful : Careful node bucket s e) {obj} (origin : Origin node bucket s e obj) :
    Grows s bucket obj.key obj.size obj.versionID := by
  obtain ⟨_,request⟩ := e
  cases request with
  | put key data headers =>
    obtain ⟨chosen,_,_,shape⟩ := origin
    have grows := careful.2 _ chosen
    have key' : obj.key = key := congrArg Object.key shape
    have size : obj.size = data.length := congrArg Object.size shape
    rw [key',size]
    exact grows
  | complete uploadID parts =>
    obtain ⟨upload,_,_,found,_,_,shape⟩ := origin
    have grows := careful.2 upload found
    subst shape
    unfold Grows at grows ⊢
    cases mode : isBucketVersioningEnabled s bucket with
    | true =>
      rw [mode] at grows
      exact grows
    | false =>
      rw [mode] at grows
      exact grows
  | _ => exact origin.elim

section
variable (named : tenant ≠ []) (owned : ownedBy tenant bucket) (valid : Valid bucket) (kept : Kept tenant modes s)
include named owned valid kept

theorem writeUsage {obj} (home : obj.bucket = bucket) (version : modes bucket = true ↔ obj.versionID ≠ []) (size : 0 ≤ obj.size)
    (grows : Grows s bucket obj.key obj.size obj.versionID) (written : Written (modes bucket) obj s s') :
    Usage tenant s' ((bytes (tenant ++ [slash])).total s'.db) := by
  subst home
  have covers := ownedPath named owned
  have after : (bytes (tenant ++ [slash])).total s'.db = _ := written.records _ covers
  rw [bytesGain covers (kept.filed _ valid owned) valid.named kept.regular rfl version] at after
  rw [Grows,← kept.mode] at grows
  have unused : modes obj.bucket = true → Unused s obj.bucket obj.key obj.versionID := fun on => by rwa [if_pos on] at grows
  rw [unusedReplaces unused] at after
  have booked := written.tenants
  rw [after]
  cases on : modes obj.bucket with
  | true =>
    rw [on] at booked
    rw [if_pos rfl,Int.sub_zero]
    exact usageIncrement named owned size kept.usage booked
  | false =>
    rw [on] at booked
    rw [on] at grows
    rw [if_neg Bool.false_ne_true]
    cases found : stored s obj.bucket obj.key with
    | none =>
      rw [found] at booked
      rw [Option.map_none,Option.getD_none,Int.sub_zero]
      exact usageIncrement named owned size kept.usage booked
    | some old =>
      rw [found] at booked
      have room := grows old found
      exact usageIncrement named owned (Int.sub_nonneg_of_le room) kept.usage booked

theorem eraseUsage (off : modes bucket = false) {key obj buckets} (found : stored s bucket key = some obj)
    (regular : Regular (tenant ++ [slash]) modes s'.db) (booked : Booked bucket (fun W => -W.current s.db bucket key) buckets
      (used bucket fun tenants id => decrementTenantStorage tenants id obj.size) s s') :
      Usage tenant s' ((bytes (tenant ++ [slash])).total s'.db) := by
  have covers := ownedPath named owned
  have filed := kept.filed _ valid owned
  have after : (bytes (tenant ++ [slash])).total s'.db = _ := booked.records _ covers
  rw [currentBytes covers filed valid.named kept.regular,off,if_neg Bool.false_ne_true,found,Option.map_some,Option.getD_some] at after
  have heavy := bytesNonneg regular
  have size : 0 ≤ obj.size := (regularObject covers filed kept.regular (storedCurrent filed valid.named key ▸ found)).1
  have usage := usageDecrement named owned size (by omega) kept.usage booked.tenants
  rw [after]
  exact usage

end

theorem usageSame (kept : Kept tenant modes s) (same : s'.tenants = s.tenants)
    (total : (bytes (tenant ++ [slash])).total s'.db = (bytes (tenant ++ [slash])).total s.db) :
    Usage tenant s' ((bytes (tenant ++ [slash])).total s'.db) := by
  rw [total]
  obtain ⟨found,present,rest⟩ := kept.usage
  exact ⟨found,same ▸ present,rest⟩

section
variable (named : tenant ≠ []) (owned : ownedBy tenant bucket) (valid : Valid bucket) (kept : Kept tenant modes s)
include named owned valid kept

theorem markerUsage (on : modes bucket = true) {obj} {buckets} (home : obj.bucket = bucket) (empty : obj.size = 0)
    (version : obj.versionID ≠ []) (unused : Unused s bucket obj.key obj.versionID)
    (booked : Booked bucket (fun W => W.gain true s.db obj) buckets id s s') : Usage tenant s' ((bytes (tenant ++ [slash])).total s'.db) := by
  subst home
  have covers := ownedPath named owned
  have after : (bytes (tenant ++ [slash])).total s'.db = _ := booked.records _ covers
  have gain := bytesGain covers (kept.filed _ valid owned) valid.named kept.regular rfl (iff_of_true on version)
  rw [on,unusedReplaces fun _ => unused,empty] at gain
  rw [gain] at after
  exact usageSame kept booked.tenants (after.trans (Int.add_zero _))

theorem bookingUsage (careful : Careful node bucket s e) (regular : Regular (tenant ++ [slash]) modes s'.db)
    (booking : Booking node bucket s e s') :
    Usage tenant s' ((bytes (tenant ++ [slash])).total s'.db) := by
  have covers := ownedPath named owned
  have filed := kept.filed _ valid owned
  cases booking with
  | idle booked => exact usageSame kept booked.tenants ((booked.records (bytes (tenant ++ [slash])) covers).trans (Int.add_zero _))
  | @write obj origin written =>
    have version := originVersion origin
    rw [← kept.mode] at version written
    exact writeUsage named owned valid kept (originShape origin).1 version (originShape origin).2 (carefulGrows careful origin) written
  | @erase key bypass obj asked off found booked =>
    exact eraseUsage named owned valid kept ((kept.mode bucket).trans off) found regular booked
  | @marker key bypass versionID asked on chosen booked =>
    have unused := careful.2
    rw [asked] at unused
    dsimp only at unused
    rw [if_pos rfl] at unused
    exact markerUsage named owned valid kept ((kept.mode bucket).trans on) rfl rfl (chosenSegment chosen).2 (unused versionID chosen) booked
  | @drop key bypass v mid target old asked version able booked =>
    have empty := careful.2
    rw [asked] at empty
    dsimp only at empty
    rw [if_neg version] at empty
    obtain ⟨_,dropped⟩ := droppedVersion filed able
    have nothing := empty old dropped.stored able.unlocked
    refine usageSame kept booked.tenants ?_
    have after : (bytes (tenant ++ [slash])).total s'.db = _ := booked.records _ covers
    have promoted := bytesPromotion node.sorting covers filed kept.regular dropped
    have mid : (bytes (tenant ++ [slash])).total mid = _ - old.size := dropped.records _ covers
    split at after <;> omega

theorem tenantKept (careful : Careful node bucket s e) (stepped : step node bucket s e = some s') : Kept tenant modes s' := by
  have filed := kept.filed _ valid owned
  have others other valid' owned' : Filed other s'.db := stepFiledOther valid filed valid' (kept.filed _ valid' owned') careful.1 stepped
  have mode other : modes other = isBucketVersioningEnabled s' other := (kept.mode other).trans (stepModes stepped other).symm
  obtain ⟨own,rfl⟩ := stepPerforms stepped
  have booking : Booking node bucket s e (perform node bucket s e) := performBooks own (carefulCounted careful)
  have regular := regularBooking (ownedPath named owned) (kept.mode bucket) filed kept.regular booking
  exact ⟨others,mode,regular,bookingUsage named owned valid kept careful regular booking⟩

end

end

def tenantStep (node : Node) (tenant : Bytes) (s : State) (t : Task) : Option State :=
  if ownedBy tenant t.bucket then task node s t else none

structure NewTenant (tenant : Bytes) (s : State) : Prop where
  named : tenant ≠ []
  objects : ∀ q obj, s.db.objects.get q = some obj → ¬ ascii "obj:" ++ (tenant ++ [slash]) <+: q
  versions : ∀ q obj, s.db.versions.get q = some obj → ¬ ascii "version:" ++ (tenant ++ [slash]) <+: q
  open_ : ∀ bucket ∈ s.db.deletedBuckets, ¬ ownedBy tenant bucket
  usage : Usage tenant s 0

theorem newKept {tenant s} (new : NewTenant tenant s) : Kept tenant (isBucketVersioningEnabled s) s := by
  have empty (W : Weighing) (front : W.front = tenant ++ [slash]) : W.total s.db = 0 := by
    have objects : total W.objectWeight s.db.objects = 0 := totalZero fun q obj found =>
      if_neg fun inside => new.objects q obj found (front ▸ inside)
    have versions : total W.versionWeight s.db.versions = 0 := totalZero fun q obj found =>
      if_neg fun inside => new.versions q obj found (front ▸ inside)
    rw [Weighing.total,objects,versions]
    rfl
  refine ⟨fun bucket valid owned => ?_,fun _ => rfl,empty _ rfl,?_⟩
  · have covers := ownedPath new.named owned
    have bucketNew : NewBucket bucket s := by
      refine ⟨valid.named,fun q obj found inside => new.versions q obj found (List.IsPrefix.trans ?_ inside),
        fun q obj found inside => new.objects q obj found (List.IsPrefix.trans ?_ inside),fun closed => new.open_ bucket closed owned⟩
      · exact (List.prefix_append_right_inj _).mpr covers
      · exact (List.prefix_append_right_inj _).mpr covers
    exact bucketNew.filed
  · rw [empty (bytes _) rfl]
    exact new.usage

/-- In every run of careful steps on the buckets of a new tenant its usage is the bytes of all their versions. -/
theorem usageAlongCarefulRuns {node} {tenant} {start final} {tasks} (new : NewTenant tenant start)
    (along : Along (tenantStep node tenant) (fun s t => Careful node t.bucket s t.event) start tasks)
    (done : run (tenantStep node tenant) start tasks = some final) : Usage tenant final (storedBytes final.db (tenant ++ [slash])) := by
  have kept : Kept tenant (isBucketVersioningEnabled start) final := by
    refine runKeeps (fun {s t next} holds careful stepped => ?_) (newKept new) along done
    unfold tenantStep at stepped
    split at stepped <;> try contradiction
    rename_i owned
    unfold task at stepped
    split at stepped <;> try contradiction
    rename_i valid
    exact tenantKept new.named owned ⟨valid.1,valid.2⟩ holds careful stepped
  rw [← bytesTotal]
  exact kept.usage

def newTenant : State where
  db := { emptyDatabase with
    buckets := OrderedStore.empty.set (bucketKey (ascii "t") (ascii "b"))
      { name := ascii "b", tenantID := ascii "t", versioningStatus := none, objectLock := none
        objectCount := 0, totalSize := 0, quota := none } }
  files := FileTree.Tree.empty
  tenants := OrderedStore.empty.set (ascii "t") ⟨0, 0⟩

theorem newTenantEmpty : NewTenant (ascii "t") newTenant := by
  refine ⟨by decide,fun q obj found => ?_,fun q obj found => ?_,fun bucket closed => ?_,⟨0,0⟩,rfl,rfl,rfl⟩
  · cases found
  · cases found
  · cases closed

def tenantTask (event : Event) : Task := ⟨ascii "t/b", event⟩

def largerThenDeleted : List Task :=
  [tenantTask (putKey 5 (ascii "k") [7]), tenantTask (putKey 6 (ascii "k") [7, 8]), tenantTask (BucketCounters.deleteKey 7 (ascii "k") [])]

theorem storedAll {s bucket key size} (fits : (stored s bucket key).all (fun old => decide (old.size ≤ size)) = true) :
    ∀ old, stored s bucket key = some old → old.size ≤ size := by
  intro old found
  rw [found] at fits
  simpa using fits

theorem largerThenDeletedCareful : Along (tenantStep smallNode (ascii "t")) (fun s t => Careful smallNode t.bucket s t.event) newTenant
    largerThenDeleted := by
  have growing {s} {key id} {size : Int} (off : isBucketVersioningEnabled s (ascii "t/b") = false)
      (fits : (stored s (ascii "t/b") key).all (fun old => decide (old.size ≤ size)) = true) : Grows s (ascii "t/b") key size id := by
    rw [Grows,off]
    exact storedAll fits
  refine ⟨⟨by decide,fun id _ => growing rfl rfl⟩,fun s₁ first => ?_⟩
  cases first
  refine ⟨⟨by decide,fun id _ => growing (by decide +kernel) (by decide +kernel)⟩,fun s₂ second => ?_⟩
  cases second
  exact ⟨⟨by decide,fun id _ => BucketCounters.unusedWithout (by decide +kernel)⟩,fun _ _ => trivial⟩

theorem usageAfterDelete : ∃ final, run (tenantStep smallNode (ascii "t")) newTenant largerThenDeleted = some final ∧
    Usage (ascii "t") final (storedBytes final.db (ascii "t" ++ [slash])) := by
  obtain ⟨final,done⟩ : ∃ final, run (tenantStep smallNode (ascii "t")) newTenant largerThenDeleted = some final := ⟨_,rfl⟩
  exact ⟨final,done,usageAlongCarefulRuns newTenantEmpty largerThenDeletedCareful done⟩

-- A smaller object in the place of a larger one leaves the usage as it was.
theorem smallerOverwriteStillUsed : NewTenant (ascii "t") newTenant ∧
    ∃ final, run (tenantStep smallNode (ascii "t")) newTenant [tenantTask (putKey 5 (ascii "k") [7, 8]),
      tenantTask (putKey 6 (ascii "k") [9])] = some final ∧ ¬ Usage (ascii "t") final (storedBytes final.db (ascii "t" ++ [slash])) := by
  refine ⟨newTenantEmpty,runShows (fun s => (s.tenants.get (ascii "t")).map Tenant.currentStorageBytes = some 2 ∧
    storedBytes s.db (ascii "t" ++ [slash]) = 1) (by decide +kernel) fun final ran ⟨counter,held⟩ right => ?_⟩
  obtain ⟨_,present,_,amount⟩ := right
  rw [present,Option.map_some,amount,held] at counter
  exact absurd counter (by decide)

end MaxIOFS.TenantUsage
