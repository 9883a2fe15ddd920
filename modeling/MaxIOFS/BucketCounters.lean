import MaxIOFS.Inventory
import MaxIOFS.LatestVersion
import MaxIOFS.Listing

/-! The two counters of a bucket against what it holds: the keys whose current object a listing
shows, and the bytes of all versions. -/
namespace MaxIOFS.BucketCounters
open LatestVersion
open ByteString (Bytes ascii)
open OrderedStore MetadataStore Records ObjectManager RecordChanges VersionHistory VersionMoves ManagerRuns Accounts Inventory
open Runs (run Along runKeeps runShows)
open List Weighing

def shown (obj : ObjectMetadata) : Bool := !implicitFolder obj && !isMetadataDeleteMarker obj

def visibleKeys (db : Database) (bucket : Bytes) : Int := ((db.objects.scan (objectSpace bucket)).filter (fun e => shown e.2)).length

def Counters (bucket : Bytes) (s : State) (count size : Int) : Prop :=
  ∃ found, bucketOf s bucket = some found ∧ found.objectCount = count ∧ found.totalSize = size

def keys (front : Bytes) : Weighing where
  front := front
  object obj := if shown obj then 1 else 0
  version _ := 0
  stamp _ _ := rfl
  demote _ := rfl
  folder now bucket key := by
    refine if_neg ?_
    have folder : implicitFolder (folderObject now bucket key) = true := by
      unfold implicitFolder folderObject
      exact decide_eq_true (Store.getSetSame ..)
    simp [shown, folder]

theorem keysTotal (bucket : Bytes) (db : Database) : (keys (bucket ++ colon)).total db = visibleKeys db bucket := by
  have objects := Totals.totalScan (ascii "obj:" ++ (bucket ++ colon)) (fun obj => if shown obj then 1 else 0) db.objects
  have count := Totals.sumFilter (fun e => shown e.2) (fun _ => 1) (db.objects.scan (objectSpace bucket))
  have weightless : Totals.total (keys (bucket ++ colon)).versionWeight db.versions = 0 := Totals.totalZero fun q obj _ => ite_self 0
  have space : ascii "obj:" ++ (bucket ++ colon) = objectSpace bucket := (append_assoc ..).symm
  unfold total visibleKeys
  rw [weightless,Int.add_zero]
  refine (?_ : _ = Totals.total _ _).trans (objects.trans (count.trans ?_))
  · unfold objectWeight keys
    rw [space]
  · simp

def disguised (front : Bytes) : Flaw where
  front := front
  object obj := if obj.versionID = [] ∧ isMetadataDeleteMarker obj = true ∨ obj.versionID ≠ [] ∧ implicitFolder obj = true then 1 else 0
  version obj := if obj.versionID = [] ∨ implicitFolder obj = true then 1 else 0
  stamp _ _ := rfl
  demote _ := rfl
  folder now bucket key := by
    refine if_neg ?_
    have present : isMetadataDeleteMarker (folderObject now bucket key) = false :=
      show decide ((0 : Int) = 0 ∧ Filesystem.emptyMD5 = []) = false by decide
    have plain : (folderObject now bucket key).versionID = [] := rfl
    simp [present, plain]
  objectHeavy _ := indicatorNonneg _
  versionHeavy _ := indicatorNonneg _
  carried obj none_ := by
    have fine : ¬ (obj.versionID = [] ∨ implicitFolder obj = true) := fun bad => by simp [bad] at none_
    refine if_neg ?_
    change ¬ (obj.versionID = [] ∧ isMetadataDeleteMarker obj = true ∨ obj.versionID ≠ [] ∧ implicitFolder obj = true)
    tauto

def Charges (bucket : Bytes) (change : Buckets → Buckets) (count size : Int) : Prop :=
  ∀ buckets found, buckets.get (bucketKey (parseBucketPath bucket).1 (parseBucketPath bucket).2) = some found →
    0 ≤ found.objectCount → 0 ≤ found.totalSize →
    ∃ found', (change buckets).get (bucketKey (parseBucketPath bucket).1 (parseBucketPath bucket).2) = some found' ∧
      found'.versioningStatus = found.versioningStatus ∧ found'.objectCount = max 0 (found.objectCount + count) ∧
      found'.totalSize = max 0 (found.totalSize + size)

section
variable {bucket : Bytes}

theorem chargesNothing : Charges bucket id 0 0 := by
  intro buckets found present count size
  exact ⟨found,present,rfl,by omega,by omega⟩

theorem chargesCharged (count size : Int) : Charges bucket (charged bucket count size) count size := by
  intro buckets found present _ _
  unfold charged
  dsimp only
  rw [present]
  exact ⟨_,Store.getSetSame ..,rfl,rfl,rfl⟩

theorem chargesPut {size existing} (on : Bool) : Charges bucket (putCharge bucket size on existing)
    (if on then (if visible existing then 0 else 1) else (if existing = none then 1 else 0))
    (if on then size else size - (existing.map ObjectMetadata.size).getD 0) := by
  cases on with
  | true => exact chargesCharged _ _
  | false =>
    cases existing with
    | none =>
      have whole : size - ((none : Option ObjectMetadata).map ObjectMetadata.size).getD 0 = size := Int.sub_zero size
      rw [whole]
      exact chargesCharged _ _
    | some obj =>
      change Charges bucket (fun buckets => if size - obj.size = 0 then buckets else charged bucket 0 (size - obj.size) buckets) 0
        (size - obj.size)
      by_cases same : size - obj.size = 0
      · simp only [same]
        exact chargesNothing
      · simp only [if_neg same]
        exact chargesCharged _ _

theorem chargesDrop (old : ObjectMetadata) (size : Int) (next : Option ObjectVersion) : Charges bucket (versionCharge bucket old size next)
    ((if (next.map isVersionDeleteMarker).getD true then 0 else 1) - (if isMetadataDeleteMarker old then 0 else 1))
    (if isMetadataDeleteMarker old = false ∧ (next.map isVersionDeleteMarker).getD true = true then -size else 0) := by
  cases next with
  | none =>
    cases marker : isMetadataDeleteMarker old with
    | true =>
      have still : versionCharge bucket old size none = id := funext fun _ => if_pos marker
      rw [still]
      exact chargesNothing
    | false =>
      have paid : versionCharge bucket old size none = charged bucket (-1) (-size) := funext fun _ => if_neg (by simp [marker])
      rw [paid]
      exact chargesCharged _ _
  | some ver =>
    have shape : versionCharge bucket old size (some ver) = fun buckets =>
        if isMetadataDeleteMarker old then if isVersionDeleteMarker ver then buckets else charged bucket 1 0 buckets
        else if isVersionDeleteMarker ver then charged bucket (-1) (-size) buckets else buckets := rfl
    rw [shape,Option.map_some]
    cases isMetadataDeleteMarker old <;> cases isVersionDeleteMarker ver
    · exact chargesNothing
    · exact chargesCharged _ _
    · exact chargesCharged _ _
    · exact chargesNothing

end

theorem newerFoldNewest {deleted} {versions : List ObjectVersion} {best next} (found : versions.foldl (newer deleted) best = some next) :
    (∀ ver ∈ versions, ver.versionID ≠ deleted → ver.lastModified ≤ next.lastModified) ∧ ∀ b, best = some b →
    b.lastModified ≤ next.lastModified := by
  induction versions generalizing best with
  | nil => exact ⟨fun _ mem => absurd mem not_mem_nil,fun b same => by rw [Option.some.inj (same.symm.trans found)]⟩
  | cons ver rest ih =>
    obtain ⟨later,first⟩ := ih found
    have step : (ver.versionID ≠ deleted → ver.lastModified ≤ next.lastModified) ∧ ∀ b, best = some b → b.lastModified ≤ next.lastModified := by
      unfold newer at first
      split at first
      · rename_i same
        exact ⟨absurd same,first⟩
      cases best with
      | none => exact ⟨fun _ => first ver rfl,fun b none_ => by cases none_⟩
      | some b =>
        dsimp only at first
        split at first
        · have bound := first ver rfl
          refine ⟨fun _ => bound,fun c same => ?_⟩
          cases same
          omega
        · have bound := first b rfl
          refine ⟨fun _ => by omega,fun c same => ?_⟩
          cases same
          exact bound
    refine ⟨fun w mem other => ?_,step.2⟩
    rcases mem_cons.mp mem with rfl | inside
    · exact step.1 other
    · exact later w inside other

structure Newest (bucket key v : Bytes) (db : Database) (obj : ObjectMetadata) : Prop where
  stored : (view bucket db key).versions obj.versionID = some obj
  other : obj.versionID ≠ v
  newest : ∀ w, (view bucket db key).versions w.versionID = some w → w.versionID ≠ v → w.lastModified ≤ obj.lastModified

theorem nextNewest {sorting bucket key v db next} (filed : Filed bucket db)
    (chosen : nextLatest v (db.getObjectVersions sorting bucket key) = some next) : ∃ obj, next = versionOf obj ∧ Newest bucket key v db obj := by
  obtain ⟨listed,other⟩ := nextLatestMem chosen
  obtain ⟨obj,stored,rfl⟩ := (memVersions filed).mp listed
  exact ⟨obj,rfl,stored,other,fun w found apart =>
    (newerFoldNewest chosen).1 _ ((memVersions filed).mpr ⟨w,found,rfl⟩) apart⟩

section
variable {sorting : VersionSort} {bucket key v : Bytes} {db mid : Database} {old : ObjectMetadata}

theorem droppedOther (dropped : Dropped bucket key v db mid old) {w} :
    (view bucket mid key).versions w.versionID = some w ↔ (view bucket db key).versions w.versionID = some w ∧ w.versionID ≠ v := by
  rw [dropped.removed,Ledger.History.remove]
  by_cases here : w.versionID = v
  · simp [here]
  · simp [here]

theorem promotedNewest (filed : Filed bucket db) (dropped : Dropped bucket key v db mid old) {next}
    (promoted : Promoted sorting bucket key v mid next) :
    match next, nextLatest v (db.getObjectVersions sorting bucket key) with
    | none, none => True
    | some a, some ver => Newest bucket key v db a ∧ ∃ b, ver = versionOf b ∧ Newest bucket key v db b
    | _, _ => False := by
  cases promoted with
  | none alone =>
    cases chosen : nextLatest v (db.getObjectVersions sorting bucket key) with
    | none => trivial
    | some ver =>
      obtain ⟨_,rfl,newest⟩ := nextNewest filed chosen
      have kept := (droppedOther dropped).mpr ⟨newest.stored,newest.other⟩
      rw [noVersions dropped.filed alone] at kept
      contradiction
  | @some a stored chosen =>
    obtain ⟨found,other⟩ := (droppedOther dropped).mp stored
    have newest : Newest bucket key v db a := by
      refine ⟨found,other,fun w known apart => ?_⟩
      exact (newerFoldNewest chosen).1 _ ((memVersions dropped.filed).mpr ⟨w,(droppedOther dropped).mpr ⟨known,apart⟩,rfl⟩) apart
    have some_ : nextLatest v (db.getObjectVersions sorting bucket key) ≠ none :=
      newerFoldSome (.inr ⟨versionOf a,(memVersions filed).mpr ⟨a,found,rfl⟩,other⟩)
    obtain ⟨_,told⟩ := Option.ne_none_iff_exists'.mp some_
    rw [told]
    exact ⟨newest,nextNewest filed told⟩

end

def folderMark : Bytes := ascii "x-maxiofs-implicit-folder"

def Unused (s : State) (bucket key id : Bytes) : Prop := ∀ old, s.db.versions.get (objectVersionKey bucket key id) = some old → old.size = 0

def NoFolder (s : State) (bucket key : Bytes) : Prop := ∀ obj, s.db.objects.get (objectKey bucket key) = some obj → implicitFolder obj = false

structure CleanWrite (s : State) (bucket key : Bytes) (metadata : StagedCommit.Metadata) : Prop where
  unmarked : metadata.get folderMark ≠ some (ascii "true")
  free : NoFolder s bucket key

def CleanDrop (s : State) (bucket key v : Bytes) (old : ObjectMetadata) : Prop :=
  if old.isLatest then
    (∀ a b, Newest bucket key v s.db a → Newest bucket key v s.db b → isMetadataDeleteMarker a = isMetadataDeleteMarker b) ∧
      (0 < old.size → removed (deleteVersionFile bucket key v old.size s).1 = true ∧ ∀ a, Newest bucket key v s.db a →
        isMetadataDeleteMarker a = true)
  else old.size = 0

def Careful (bucket : Bytes) (s : State) (e : Event) : Prop :=
  Plain e ∧ match e.request with
  | .put key _ headers => CleanWrite s bucket key (extractUserMetadata headers) ∧
      ∀ id, chooseVersion e.call (isBucketVersioningEnabled s bucket) = .ok id → Unused s bucket key id
  | .complete uploadID _ => ∀ upload, s.db.getMultipartUpload uploadID = .ok upload →
      CleanWrite s bucket upload.key (filterStorageMetadataKeys upload.metadata) ∧ Unused s bucket upload.key (generateVersionID e.call)
  | .delete key bypass v =>
    if v = [] then
      (NoFolder s bucket (resolveFolderDeleteKey s bucket key) ∨ visibleKeys s.db bucket = 0) ∧
        ∀ id, chooseVersion e.call true = .ok id → Unused s bucket (resolveFolderDeleteKey s bucket key) id
    else ∀ old, (view bucket s.db (resolveFolderDeleteKey s bucket key)).versions v = some old → lockError e.call.now bypass old = none →
      CleanDrop s bucket (resolveFolderDeleteKey s bucket key) v old
  | .createUpload .. | .uploadPart .. => True
  | _ => False

structure Balanced (bucket : Bytes) (on : Bool) (s : State) : Prop where
  filed : Filed bucket s.db
  mode : isBucketVersioningEnabled s bucket = on
  sound : on = true → Sound bucket s.db
  regular : Regular (bucket ++ colon) (fun _ => on) s.db
  undisguised : (disguised (bucket ++ colon)).total s.db = 0
  counted : Counters bucket s ((keys (bucket ++ colon)).total s.db) ((bytes (bucket ++ colon)).total s.db)

theorem bucketOfGet (s : State) (bucket : Bytes) :
    bucketOf s bucket = s.db.buckets.get (bucketKey (parseBucketPath bucket).1 (parseBucketPath bucket).2) := by
  unfold bucketOf Database.getBucket
  dsimp only
  cases s.db.buckets.get (bucketKey (parseBucketPath bucket).1 (parseBucketPath bucket).2) <;> rfl

theorem keysNonneg (front : Bytes) (db : Database) : 0 ≤ (keys front).total db := by
  refine Int.add_nonneg (Totals.totalNonneg fun q obj _ => ?_) (Totals.totalNonneg fun q obj _ => ?_)
  · unfold objectWeight keys
    split
    · exact indicatorNonneg _
    · exact Int.le_refl 0
  · exact (ite_self (0 : Int)).ge

section
variable {node : Node} {bucket : Bytes} {on : Bool} {s s' : State} {e : Event}

theorem settled {gain buckets tenants count size}
    (balanced : Balanced bucket on s) (booked : Booked bucket gain buckets tenants s s') (charges : Charges bucket buckets count size)
    (keysNext : (keys (bucket ++ colon)).total s'.db = max 0 ((keys (bucket ++ colon)).total s.db + count))
    (bytesNext : (bytes (bucket ++ colon)).total s'.db = max 0 ((bytes (bucket ++ colon)).total s.db + size)) :
    isBucketVersioningEnabled s' bucket = on ∧
      Counters bucket s' ((keys (bucket ++ colon)).total s'.db) ((bytes (bucket ++ colon)).total s'.db) := by
  obtain ⟨found,present,counted,sized⟩ := balanced.counted
  have mode := balanced.mode
  rw [bucketOfGet] at present
  obtain ⟨found',present',status,counted',sized'⟩ :=
    charges s.db.buckets found present (counted ▸ keysNonneg ..) (sized ▸ bytesNonneg balanced.regular)
  rw [← booked.buckets] at present'
  refine ⟨?_,found',(bucketOfGet ..).trans present',?_,?_⟩
  · unfold isBucketVersioningEnabled at mode ⊢
    rw [bucketOfGet,present] at mode
    rw [bucketOfGet,present']
    dsimp only at mode ⊢
    rw [status]
    exact mode
  · rw [counted',counted,keysNext]
  · rw [sized',sized,bytesNext]

theorem currentKeys (balanced : Balanced bucket on s) (named : bucket ≠ []) {key} (free : NoFolder s bucket key) :
    (keys (bucket ++ colon)).current s.db bucket key = if visible (stored s bucket key) then 1 else 0 := by
  rw [storedCurrent balanced.filed named,current]
  cases found : s.db.objects.get (objectKey bucket key) with
  | none => rfl
  | some obj =>
    change (if shown obj then 1 else 0) = if visible (some obj) then 1 else 0
    unfold shown
    rw [free obj found]
    rfl

theorem plainVisible (balanced : Balanced bucket false s) (named : bucket ≠ []) {key obj}
    (found : stored s bucket key = some obj) : visible (stored s bucket key) = true := by
  rw [storedCurrent balanced.filed named] at found ⊢
  rw [found]
  have plain := (regularObject prefix_rfl balanced.filed balanced.regular found).2
  rw [if_neg Bool.false_ne_true] at plain
  have spared : (disguised (bucket ++ colon)).object obj = 0 := Flaw.objectSpared balanced.undisguised prefix_rfl found
  cases marker : isMetadataDeleteMarker obj with
  | false => simp [visible,marker]
  | true => simp [disguised,plain,marker] at spared

structure CleanOrigin (bucket : Bytes) (s : State) (obj : ObjectMetadata) : Prop where
  free : NoFolder s bucket obj.key
  visible : shown obj = true
  unused : isBucketVersioningEnabled s bucket = true → Unused s bucket obj.key obj.versionID

theorem cleanOrigin (digest : node.host.md5 [] ≠ []) (careful : Careful bucket s e) {obj} (origin : Origin node bucket s e obj) :
    CleanOrigin bucket s (toMetadataObject obj) := by
  obtain ⟨call,request⟩ := e
  cases request with
  | put key data headers =>
    obtain ⟨chosen,final,retention,shape⟩ := origin
    obtain ⟨_,clean,unused⟩ := careful
    have record : toMetadataObject obj = toMetadataObject (newObject node call bucket key data headers obj.versionID final retention) :=
      congrArg toMetadataObject shape
    refine ⟨by rw [record]; exact clean.free,?_,fun on => by rw [record]; exact unused _ chosen⟩
    have folder : implicitFolder (toMetadataObject obj) = false := by
      rw [record]
      exact decide_eq_false clean.unmarked
    have object : isMetadataDeleteMarker (toMetadataObject obj) = false := by
      rw [record]
      refine decide_eq_false fun empty => digest ?_
      have nothing : data = [] := eq_nil_of_length_eq_zero (Int.ofNat.inj empty.1)
      exact nothing ▸ empty.2
    simp [shown,folder,object]
  | complete uploadID parts =>
    obtain ⟨upload,etag,modified,found,_,present,shape⟩ := origin
    obtain ⟨clean,unused⟩ := careful.2 upload found
    subst shape
    refine ⟨clean.free,?_,fun on => ?_⟩
    · have folder id size : implicitFolder (toMetadataObject (multipartObject upload id etag size modified)) = false :=
        decide_eq_false clean.unmarked
      have object id size : isMetadataDeleteMarker (toMetadataObject (multipartObject upload id etag size modified)) = false :=
        decide_eq_false fun empty => present empty.2
      simp [shown,folder,object]
    · rw [on]
      exact unused
  | _ => exact origin.elim

end

section
variable {node : Node} {bucket : Bytes} {on : Bool} {s s' : State} {e : Event}
variable {obj : ObjectMetadata} {tenants : Tenants → Tenants}

theorem keysGain (front : Bytes) (on : Bool) (db : Database) (obj : ObjectMetadata) :
    (keys front).gain on db obj = (if shown obj then 1 else 0) - (keys front).current db obj.bucket obj.key := by
  have weightless : (keys front).standing db obj.bucket obj.key obj.versionID = 0 := by
    unfold standing
    cases db.versions.get (objectVersionKey obj.bucket obj.key obj.versionID) <;> rfl
  unfold gain
  cases on with
  | true =>
    rw [weightless]
    change (if shown obj then 1 else 0) + 0 - _ - 0 = _
    omega
  | false => rfl

theorem currentNonneg (front : Bytes) (db : Database) (bucket key : Bytes) : 0 ≤ (keys front).current db bucket key := by
  unfold current
  cases db.objects.get (objectKey bucket key) with
  | none => exact Int.le_refl 0
  | some _ => exact indicatorNonneg _

theorem unusedReplaces (unused : on = true → Unused s obj.bucket obj.key obj.versionID) :
    replaced s on obj = if on then 0 else ((stored s obj.bucket obj.key).map ObjectMetadata.size).getD 0 := by
  unfold replaced
  cases on with
  | true =>
    cases found : s.db.versions.get (objectVersionKey obj.bucket obj.key obj.versionID) with
    | none => rfl
    | some old => exact unused rfl old found
  | false => rfl

def Settled (bucket : Bytes) (on : Bool) (s' : State) : Prop :=
  isBucketVersioningEnabled s' bucket = on ∧ Counters bucket s' ((keys (bucket ++ colon)).total s'.db) ((bytes (bucket ++ colon)).total s'.db)

theorem writeSettles (balanced : Balanced bucket on s) (named : bucket ≠ [])
    (regular : Regular (bucket ++ colon) (fun _ => on) s'.db) (home : obj.bucket = bucket)
    (version : on = true ↔ obj.versionID ≠ []) (clean : CleanOrigin bucket s obj) (written : Written on obj s s') : Settled bucket on s' := by
  subst home
  have unused : on = true → Unused s obj.bucket obj.key obj.versionID := fun enabled => clean.unused (balanced.mode.trans enabled)
  have keysAfter : (keys (obj.bucket ++ colon)).total s'.db = _ := written.records _ prefix_rfl
  have bytesAfter : (bytes (obj.bucket ++ colon)).total s'.db = _ := written.records _ prefix_rfl
  rw [keysGain,if_pos clean.visible,currentKeys balanced named clean.free] at keysAfter
  rw [bytesGain prefix_rfl balanced.filed named balanced.regular rfl version,unusedReplaces unused] at bytesAfter
  have many := keysNonneg (obj.bucket ++ colon) s'.db
  have heavy := bytesNonneg regular
  refine settled balanced written (chargesPut on) ?_ ?_
  · have count : (if on then (if visible (stored s obj.bucket obj.key) then 0 else 1)
      else (if stored s obj.bucket obj.key = none then 1 else 0) : Int) =
        1 - if visible (stored s obj.bucket obj.key) then 1 else 0 := by
      cases on with
      | true =>
        rw [if_pos rfl]
        split <;> rfl
      | false =>
        cases found : stored s obj.bucket obj.key with
        | none => rfl
        | some old =>
          have seen := plainVisible balanced named found
          rw [found] at seen
          simp [seen]
    rw [count]
    omega
  · cases on with
    | true =>
      rw [if_pos rfl] at bytesAfter ⊢
      omega
    | false =>
      rw [if_neg Bool.false_ne_true] at bytesAfter ⊢
      omega

theorem eraseSettles (balanced : Balanced bucket false s) (named : bucket ≠ []) (regular : Regular (bucket ++ colon) (fun _ => false) s'.db) {key}
    (careful : NoFolder s bucket key ∨ visibleKeys s.db bucket = 0) (found : stored s bucket key = some obj)
    (booked : Booked bucket (fun W => -W.current s.db bucket key) (charged bucket (-1) (-obj.size)) tenants s s') : Settled bucket false s' := by
  have keysAfter : (keys (bucket ++ colon)).total s'.db = _ := booked.records _ prefix_rfl
  have bytesAfter : (bytes (bucket ++ colon)).total s'.db = _ := booked.records _ prefix_rfl
  have size := currentBytes prefix_rfl balanced.filed named balanced.regular key
  rw [found,if_neg Bool.false_ne_true,Option.map_some,Option.getD_some] at size
  rw [size] at bytesAfter
  have many := keysNonneg (bucket ++ colon) s'.db
  have heavy := bytesNonneg regular
  refine settled balanced booked (chargesCharged _ _) ?_ (by omega)
  rcases careful with free | nothing
  · rw [currentKeys balanced named free,if_pos (plainVisible balanced named found)] at keysAfter
    omega
  rw [← keysTotal] at nothing
  have weight := currentNonneg (bucket ++ colon) s.db bucket key
  omega

theorem markerSettles (balanced : Balanced bucket true s) (named : bucket ≠ [])
    (regular : Regular (bucket ++ colon) (fun _ => true) s'.db) (home : obj.bucket = bucket)
    (marker : isMetadataDeleteMarker obj = true) (version : obj.versionID ≠ [])
    (careful : NoFolder s bucket obj.key ∨ visibleKeys s.db bucket = 0) (unused : Unused s bucket obj.key obj.versionID)
    (booked : Booked bucket (fun W => W.gain true s.db obj)
      (fun buckets => if visible (stored s bucket obj.key) then charged bucket (-1) 0 buckets else buckets) tenants s s') :
      Settled bucket true s' := by
  subst home
  have hidden : shown obj = false := by simp [shown,marker]
  have empty : obj.size = 0 := (of_decide_eq_true marker).1
  have keysAfter : (keys (obj.bucket ++ colon)).total s'.db = _ := booked.records _ prefix_rfl
  have bytesAfter : (bytes (obj.bucket ++ colon)).total s'.db = _ := booked.records _ prefix_rfl
  have gain : (bytes (obj.bucket ++ colon)).gain true s.db obj = obj.size - replaced s true obj :=
    bytesGain prefix_rfl balanced.filed named balanced.regular rfl (iff_of_true rfl version)
  rw [keysGain,hidden,if_neg Bool.false_ne_true] at keysAfter
  rw [gain,unusedReplaces fun _ => unused,if_pos rfl,empty] at bytesAfter
  have many := keysNonneg (obj.bucket ++ colon) s'.db
  have heavy := bytesNonneg regular
  have charges : Charges obj.bucket (fun buckets => if visible (stored s obj.bucket obj.key) then charged obj.bucket (-1) 0 buckets else buckets)
      (-if visible (stored s obj.bucket obj.key) then 1 else 0) 0 := by
    cases visible (stored s obj.bucket obj.key) with
    | true => exact chargesCharged _ _
    | false => exact chargesNothing
  refine settled balanced booked charges ?_ (by omega)
  rcases careful with free | nothing
  · rw [currentKeys balanced named free] at keysAfter
    omega
  rw [← keysTotal] at nothing
  have weight := currentNonneg (obj.bucket ++ colon) s.db obj.bucket obj.key
  omega

theorem versionShown (balanced : Balanced bucket on s) {key v}
    (found : (view bucket s.db key).versions v = some obj) : shown obj = !isMetadataDeleteMarker obj := by
  have spared : (disguised (bucket ++ colon)).version obj = 0 := Flaw.versionSpared balanced.undisguised prefix_rfl (versionsInIff.mp found).1
  cases folder : implicitFolder obj with
  | true => simp [disguised,folder] at spared
  | false => simp [shown,folder]

def toldNone (sorting : VersionSort) (bucket key v : Bytes) (db : Database) : Bool :=
  ((nextLatest v (db.getObjectVersions sorting bucket key)).map isVersionDeleteMarker).getD true

theorem toldNoneOf {sorting key v} (filed : Filed bucket s.db)
    (markers : ∀ a, Newest bucket key v s.db a → isMetadataDeleteMarker a = true) : toldNone sorting bucket key v s.db = true := by
  unfold toldNone
  cases chosen : nextLatest v (s.db.getObjectVersions sorting bucket key) with
  | none => rfl
  | some ver =>
    obtain ⟨obj,rfl,newest⟩ := nextNewest filed chosen
    exact markers obj newest

theorem toldPromoted {sorting key v mid old next}
    (balanced : Balanced bucket on s) (dropped : Dropped bucket key v s.db mid old) (promoted : Promoted sorting bucket key v mid next)
    (agree : ∀ a b, Newest bucket key v s.db a → Newest bucket key v s.db b → isMetadataDeleteMarker a = isMetadataDeleteMarker b) :
    (next.map fun obj => (keys (bucket ++ colon)).object (marked obj)).getD 0 = if toldNone sorting bucket key v s.db then 0 else 1 := by
  have newest := promotedNewest balanced.filed dropped promoted
  unfold toldNone
  cases chosen : nextLatest v (s.db.getObjectVersions sorting bucket key) with
  | none =>
    cases next with
    | none => rfl
    | some a => simp [chosen] at newest
  | some ver =>
    cases next with
    | none => simp [chosen] at newest
    | some a =>
      rw [chosen] at newest
      obtain ⟨first,b,rfl,second⟩ := newest
      have same : isVersionDeleteMarker (versionOf b) = isMetadataDeleteMarker a := agree b a second first
      change (if shown a then 1 else 0) = if isVersionDeleteMarker (versionOf b) then 0 else 1
      rw [same,versionShown balanced first.stored]
      cases isMetadataDeleteMarker a <;> rfl

theorem dropPays {sorting key v old} (filed : Filed bucket s.db) (size : 0 ≤ old.size)
    (emptied : 0 < old.size → removed (deleteVersionFile bucket key v old.size s).1 = true ∧
      ∀ a, Newest bucket key v s.db a → isMetadataDeleteMarker a = true) :
    (if isMetadataDeleteMarker old = false ∧ toldNone sorting bucket key v s.db = true then -freed bucket key v old s else 0) = -old.size := by
  by_cases bytes : 0 < old.size
  · obtain ⟨gone,markers⟩ := emptied bytes
    have object : isMetadataDeleteMarker old = false := decide_eq_false fun empty => by omega
    rw [if_pos ⟨object,toldNoneOf filed markers⟩,freed,if_pos gone]
  · have empty : old.size = 0 := by omega
    rw [freed,empty,ite_self,Int.neg_zero,ite_self]

theorem dropSettles (balanced : Balanced bucket on s) (regular : Regular (bucket ++ colon) (fun _ => on) s'.db) {key v now bypass mid target old}
    (able : Droppable node.sorting bucket key v now bypass s.db mid target old) (careful : CleanDrop s bucket key v old) (booked : Booked bucket
      (fun W => W.total (if target.isLatest then promotion node.sorting bucket key v mid else mid) - W.total s.db)
      (fun buckets => if target.isLatest then
        versionCharge bucket old (freed bucket key v old s) (nextLatest v (s.db.getObjectVersions node.sorting bucket key)) buckets else buckets)
      tenants s s') : Settled bucket on s' := by
  obtain ⟨rfl,dropped⟩ := droppedVersion balanced.filed able
  have enabled : on = true := (regularVersion prefix_rfl balanced.filed balanced.regular dropped.found).2
  have keysAfter : (keys (bucket ++ colon)).total s'.db = _ := booked.records _ prefix_rfl
  have bytesAfter : (bytes (bucket ++ colon)).total s'.db = _ := booked.records _ prefix_rfl
  have keysMid : (keys (bucket ++ colon)).total mid = _ - 0 := dropped.records _ prefix_rfl
  have bytesMid : (bytes (bucket ++ colon)).total mid = _ - old.size := dropped.records _ prefix_rfl
  have many := keysNonneg (bucket ++ colon) s'.db
  have heavy := bytesNonneg regular
  have mark : (versionOf old).isLatest = old.isLatest := rfl
  rw [mark] at keysAfter bytesAfter booked
  cases latest : old.isLatest with
  | false =>
    rw [CleanDrop,latest,if_neg Bool.false_ne_true] at careful
    simp only [latest,Bool.false_eq_true,if_false] at keysAfter bytesAfter booked
    exact settled balanced booked chargesNothing (by omega) (by omega)
  | true =>
    rw [CleanDrop,latest] at careful
    simp only [latest,if_true] at keysAfter bytesAfter booked
    obtain ⟨agree,emptied⟩ := careful
    have promotedBytes := bytesPromotion node.sorting prefix_rfl balanced.filed balanced.regular dropped
    obtain ⟨_,promoted,total⟩ := promotionTotal node.sorting dropped.filed dropped.home dropped.named (v := v)
      (by rw [dropped.removed]; simp [Ledger.History.remove])
    have promotedKeys := total (keys (bucket ++ colon)) prefix_rfl
    have current : (keys (bucket ++ colon)).current mid bucket key = if isMetadataDeleteMarker old then 0 else 1 := by
      have pointed : s.db.objects.get (objectKey bucket key) = some old :=
        ((balanced.sound enabled).consistent key).marked _ _ dropped.stored latest
      rw [current,dropped.objects,pointed]
      change (if shown old then 1 else 0) = _
      rw [versionShown balanced dropped.stored]
      cases isMetadataDeleteMarker old <;> rfl
    have told := toldPromoted balanced dropped promoted agree
    have size := (regularVersion prefix_rfl balanced.filed balanced.regular dropped.found).1
    rw [promotedKeys,told] at keysAfter
    rw [promotedBytes] at bytesAfter
    refine settled balanced booked (chargesDrop _ _ _) ?_ ?_
    · change _ = max 0 (_ + ((if toldNone node.sorting bucket key v s.db then 0 else 1) - _))
      omega
    change _ = max 0 (_ + if isMetadataDeleteMarker old = false ∧ toldNone node.sorting bucket key v s.db = true then _ else 0)
    rw [dropPays balanced.filed size emptied]
    omega

theorem writeUndisguised (version : on = true ↔ obj.versionID ≠ []) (visible : shown obj = true) (front : Bytes) :
    (disguised front).Spares on obj := by
  have plain : implicitFolder obj = false ∧ isMetadataDeleteMarker obj = false := by simpa [shown] using visible
  have folder : implicitFolder (marked obj) = false := plain.1
  have id : (marked obj).versionID = obj.versionID := rfl
  unfold Flaw.Spares disguised
  cases on with
  | true =>
    have named := version.mp rfl
    simp [folder,plain.1,id,named]
  | false =>
    have unnamed : obj.versionID = [] := by
      by_contra named
      exact Bool.false_ne_true (version.mpr named)
    simp [plain.2,unnamed]

theorem markerUndisguised {now key versionID} (named : versionID ≠ []) (front : Bytes) :
    (disguised front).Spares true (deleteMarkerObject now bucket key versionID) := by
  have folder : implicitFolder (marked (deleteMarkerObject now bucket key versionID)) = false :=
    decide_eq_false (by simp [marked,deleteMarkerObject])
  have folder' : implicitFolder (deleteMarkerObject now bucket key versionID) = false := folder
  have id : (marked (deleteMarkerObject now bucket key versionID)).versionID = versionID := rfl
  have id' : (deleteMarkerObject now bucket key versionID).versionID = versionID := rfl
  unfold Flaw.Spares disguised
  simp [folder,folder',id,id',named]

theorem carefulCounted (careful : Careful bucket s e) : Counted e.request := by
  obtain ⟨_,request⟩ := e
  cases request <;> first | trivial | exact careful.2

section
variable (digest : node.host.md5 [] ≠ []) (named : bucket ≠ []) (balanced : Balanced bucket on s) (careful : Careful bucket s e)
include digest named balanced careful

theorem bookingSettles (regular : Regular (bucket ++ colon) (fun _ => on) s'.db) (booking : Booking node bucket s e s') :
    Settled bucket on s' := by
  cases booking with
  | idle booked =>
    have keysAfter : (keys (bucket ++ colon)).total s'.db = _ + 0 := booked.records _ prefix_rfl
    have bytesAfter : (bytes (bucket ++ colon)).total s'.db = _ + 0 := booked.records _ prefix_rfl
    have many := keysNonneg (bucket ++ colon) s'.db
    have heavy := bytesNonneg regular
    exact settled balanced booked chargesNothing (by omega) (by omega)
  | @write obj origin written =>
    have version := originVersion origin
    rw [balanced.mode] at version written
    exact writeSettles balanced named regular (originShape origin).1 version (cleanOrigin digest careful origin) written
  | @erase key bypass obj asked off found booked =>
    cases balanced.mode.symm.trans off
    have condition := careful.2
    rw [asked] at condition
    dsimp only at condition
    rw [if_pos rfl] at condition
    exact eraseSettles balanced named regular condition.1 found booked
  | @marker key bypass versionID asked enabled chosen booked =>
    cases balanced.mode.symm.trans enabled
    have condition := careful.2
    rw [asked] at condition
    dsimp only at condition
    rw [if_pos rfl] at condition
    exact markerSettles balanced named regular rfl (decide_eq_true ⟨rfl,rfl⟩) (chosenSegment chosen).2 condition.1
      (condition.2 versionID chosen) booked
  | @drop key bypass v mid target old asked version able booked =>
    have condition := careful.2
    rw [asked] at condition
    dsimp only at condition
    rw [if_neg version] at condition
    exact dropSettles balanced regular able (condition old (droppedVersion balanced.filed able).2.stored able.unlocked) booked

theorem stepBalanced {next} (stepped : step node bucket s e = some next) : Balanced bucket on next := by
  have filed := stepFiled named balanced.filed careful.1 stepped
  have sound : on = true → Sound bucket next.db := fun enabled =>
    soundStep named (balanced.sound enabled) careful.1 stepped
  obtain ⟨own,rfl⟩ := stepPerforms stepped
  have booking : Booking node bucket s e (perform node bucket s e) := performBooks own (carefulCounted careful)
  have regular : Regular (bucket ++ colon) (fun _ => on) (perform node bucket s e).db :=
    regularBooking prefix_rfl balanced.mode.symm balanced.filed balanced.regular booking
  have undisguised : (disguised (bucket ++ colon)).total (perform node bucket s e).db = 0 := by
    have covers : (disguised (bucket ++ colon)).Covers bucket := prefix_rfl
    refine bookingFlawless covers balanced.filed balanced.undisguised booking (fun obj origin => ?_)
      (fun key versionID _ chosen => markerUndisguised (chosenSegment chosen).2 _)
    exact writeUndisguised (originVersion origin) (cleanOrigin digest careful origin).visible _
  obtain ⟨mode,counted⟩ := bookingSettles digest named balanced careful regular booking
  exact ⟨filed,mode,sound,regular,undisguised,counted⟩

end

end

theorem newBalanced {bucket s} (new : NewBucket bucket s) (fresh : Counters bucket s 0 0) :
    Balanced bucket (isBucketVersioningEnabled s bucket) s := by
  have empty (W : Weighing) (covers : W.front = bucket ++ colon) : W.total s.db = 0 := by
    have objects : Totals.total W.objectWeight s.db.objects = 0 := Totals.totalZero fun q obj found => by
      refine if_neg fun inside => new.objects q obj found ?_
      rw [objectSpace,append_assoc,← covers]
      exact inside
    have versions : Totals.total W.versionWeight s.db.versions = 0 := Totals.totalZero fun q obj found => by
      refine if_neg fun inside => new.versions q obj found ?_
      rw [versionSpace,append_assoc,← covers]
      exact inside
    rw [total,objects,versions]
    rfl
  refine ⟨new.filed,rfl,fun enabled => soundFresh ⟨new,enabled⟩,empty _ rfl,empty _ rfl,?_⟩
  rw [empty (keys _) rfl,empty (bytes _) rfl]
  exact fresh

/-- In every run of careful steps on a new bucket the counters are the visible keys and the bytes of all versions. -/
theorem countersAlongCarefulRuns {node : Node} {bucket : Bytes} {start final : State} {events : List Event} (digest : node.host.md5 [] ≠ [])
    (new : NewBucket bucket start) (fresh : Counters bucket start 0 0) (along : Along (step node bucket) (Careful bucket) start events)
    (done : run (step node bucket) start events = some final) :
    Counters bucket final (visibleKeys final.db bucket) (storedBytes final.db (bucket ++ colon)) := by
  have balanced : Balanced bucket (isBucketVersioningEnabled start bucket) final :=
    runKeeps (fun holds ok stepped => stepBalanced digest new.named holds ok stepped) (newBalanced new fresh) along done
  rw [← keysTotal,← bytesTotal]
  exact balanced.counted

def deleteKey (seconds : Int) (key versionID : Bytes) : Event := ⟨callAt seconds, .delete key false versionID⟩

theorem newCounters (versioning : Option Bytes) : Counters (ascii "b") (newBucket versioning) 0 0 := by
  have found : bucketOf (newBucket versioning) (ascii "b") = some _ := (bucketOfGet ..).trans (Store.getSetSame ..)
  exact ⟨_,found,rfl,rfl⟩

theorem noFolderOf {s bucket key}
    (plain : (s.db.objects.get (objectKey bucket key)).all (fun obj => !implicitFolder obj) = true) : NoFolder s bucket key := by
  intro obj found
  rw [found] at plain
  simpa using plain

theorem unusedWithout {s bucket key id} (none_ : s.db.versions.entries = []) : Unused s bucket key id := by
  intro old found
  rw [Store.get,none_] at found
  cases found

-- The folder that came with the object goes after it.
def objectThenFolder : List Event := [putKey 5 (ascii "a/x") [7, 8], deleteKey 6 (ascii "a/x") [], deleteKey 7 (ascii "a/") []]

theorem objectThenFolderCareful : Along (step smallNode (ascii "b")) (Careful (ascii "b")) (newBucket none) objectThenFolder := by
  refine ⟨⟨by decide,⟨by decide,noFolderOf rfl⟩,fun id _ => unusedWithout rfl⟩,fun s₁ first => ?_⟩
  obtain ⟨_,rfl⟩ := stepPerforms first
  refine ⟨⟨by decide,?_⟩,fun s₂ second => ?_⟩
  · refine ⟨.inl (noFolderOf (by decide +kernel)),fun id _ => unusedWithout (by decide +kernel)⟩
  · obtain ⟨_,rfl⟩ := stepPerforms second
    refine ⟨⟨by decide,.inr (by decide +kernel),fun id _ => unusedWithout (by decide +kernel)⟩,fun _ _ => trivial⟩

theorem countersAfterFolderDelete : ∃ final, run (step smallNode (ascii "b")) (newBucket none) objectThenFolder = some final ∧
    Counters (ascii "b") final (visibleKeys final.db (ascii "b")) (storedBytes final.db (ascii "b" ++ colon)) := by
  obtain ⟨final,done⟩ : ∃ final, run (step smallNode (ascii "b")) (newBucket none) objectThenFolder = some final := ⟨_,rfl⟩
  exact ⟨final,done,countersAlongCarefulRuns (by decide) (newBucketEmpty none) (newCounters none) objectThenFolderCareful done⟩

-- The bytes of an older version stay in the counter when it is deleted.
theorem olderVersionStillCounted : NewBucket (ascii "b") versionedBucket ∧ Counters (ascii "b") versionedBucket 0 0 ∧
    ∃ final, run (step smallNode (ascii "b")) versionedBucket [putKey 5 (ascii "k") [7], putKey 6 (ascii "k") [8],
      deleteKey 7 (ascii "k") (ByteString.formatInt 5000000000)] = some final ∧
      ¬ Counters (ascii "b") final (visibleKeys final.db (ascii "b")) (storedBytes final.db (ascii "b" ++ colon)) := by
  refine ⟨newBucketEmpty _,newCounters _,runShows (fun s => (bucketOf s (ascii "b")).map BucketMetadata.totalSize = some 2 ∧
    storedBytes s.db (ascii "b" ++ colon) = 1) (by decide +kernel) fun final ran ⟨counter,held⟩ right => ?_⟩
  obtain ⟨_,present,_,size⟩ := right
  rw [present,Option.map_some,size,held] at counter
  exact absurd counter (by decide)

end MaxIOFS.BucketCounters
