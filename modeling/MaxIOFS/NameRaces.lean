import MaxIOFS.BucketManager
import MaxIOFS.StoreCalls

/-! The names of buckets while buckets are created, updated, counted and deleted. A creation looks
for its name in all records under the lock of creations. An update and a count look for the
record and write it back without the lock of deletions, so they can bring back a deleted bucket. -/
namespace MaxIOFS.NameRaces
open OrderedStore ByteString MetadataStore Records Threads StoreCalls Runs BucketManager List

inductive OfBuckets : Operation → Prop where
  | create (bucket : BucketMetadata) : OfBuckets (.createBucket bucket)
  | update (bucket : BucketMetadata) : OfBuckets (.updateBucket bucket)
  | delete (tenantID name : Bytes) : OfBuckets (.deleteBucket tenantID name)
  | deleteIfEmpty (tenantID name : Bytes) : OfBuckets (.deleteBucketIfEmpty tenantID name)
  | metrics (tenantID name : Bytes) (countDelta sizeDelta : Int) : OfBuckets (.updateBucketMetrics tenantID name countDelta sizeDelta)

def Same (b b' : BucketMetadata) : Prop := b.tenantID = b'.tenantID ∧ b.name = b'.name
instance (b b' : BucketMetadata) : Decidable (Same b b') := by
  unfold Same
  infer_instance

inductive Creates (b : BucketMetadata) : Operation → Prop where
  | mk {bucket : BucketMetadata} (same : Same bucket b) : Creates b (.createBucket bucket)

inductive Deletes (tenantID name : Bytes) : Operation → Prop where
  | always : Deletes tenantID name (.deleteBucket tenantID name)
  | ifEmpty : Deletes tenantID name (.deleteBucketIfEmpty tenantID name)

def Careful (calls : Nat → Operation) (w : World) (i : Nat) : Prop :=
  match calls i, w.point i with
  | .updateBucket _, .changed b => ∃ b', w.shared.db.buckets.get (bucketKey b.tenantID b.name) = some b' ∧ Same b' b
  | .updateBucketMetrics tenantID name _ _, .changed b => ∃ b', w.shared.db.buckets.get (bucketKey tenantID name) = some b' ∧ Same b' b
  | _, _ => True

def writing (w : World) (i : Nat) : Bool :=
  match w.point i with
  | .scanned | .changed _ => true
  | _ => false

def committed : Point → Bool
  | .written | .leaving (.ok ()) | .returned (.ok ()) => true
  | _ => false

structure Sound (db : Database) : Prop where
  keyed : ∀ {k b}, db.buckets.get k = some b → k = bucketKey b.tenantID b.name
  unique : ∀ {k k' b b'}, db.buckets.get k = some b → db.buckets.get k' = some b' → b.name = b'.name → k = k'

section
variable {calls : Nat → Operation}
variable {i : Nat} {call : Operation} {p : Point} {s s' : Shared} {w : World}

def Known (s : Shared) (i : Nat) : Operation → Point → Prop
  | .createBucket _, .locked | .createBucket _, .checked | .createBucket _, .written | .createBucket _, .leaving _ => s.locks .creation = some i
  | .createBucket bucket, .scanned => s.locks .creation = some i ∧ ∀ k b, s.db.buckets.get k = some b → b.name ≠ bucket.name
  | _, _ => True

def Stems (s s' : Shared) (i : Nat) (call : Operation) : Prop :=
  ∀ k b, s'.db.buckets.get k = some b → (∃ b', s.db.buckets.get k = some b' ∧ Same b' b) ∨
    s.locks .creation = some i ∧ Creates b call ∧ k = bucketKey b.tenantID b.name ∧ ∀ k' b', s.db.buckets.get k' = some b' → b'.name ≠ b.name

structure Stepped (w : World) (i : Nat) (call : Operation) (p : Point) (s : Shared) : Prop where
  stems : Stems w.shared s i call
  quiet : writing w i = false → s.db.buckets = w.shared.db.buckets
  known : Known s i call p
  lock : ∀ j, j ≠ i → w.shared.locks .creation = some j → s.locks .creation = some j
  own : committed p = (writing w i || committed (w.point i))
  removed : ∀ {tenantID name}, Deletes tenantID name call → writing w i = true → s.db.buckets.get (bucketKey tenantID name) = none

theorem stemsSame (same : s'.db.buckets = s.db.buckets) : Stems s s' i call := fun _ b found => .inl ⟨b,same ▸ found,rfl,rfl⟩

theorem stemsReplace {key b b'}
    (there : s.db.buckets.get key = some b') (same : Same b' b) (set : s'.db.buckets = s.db.buckets.set key b) : Stems s s' i call := by
  intro k found stored
  rw [set] at stored
  by_cases here : key = k
  · subst here
    rw [Store.getSetSame] at stored
    cases stored
    exact .inl ⟨b',there,same⟩
  · rw [Store.getSetOther _ _ here] at stored
    exact .inl ⟨found,stored,rfl,rfl⟩

theorem stemsRemove {key} (deleted : s'.db.buckets = s.db.buckets.delete key) : Stems s s' i call := by
  intro k b stored
  rw [deleted,Store.getDelete] at stored
  split at stored
  · contradiction
  · exact .inl ⟨b,stored,rfl,rfl⟩

theorem createStepped {bucket}
    (known : Known w.shared i (.createBucket bucket) (w.point i)) (taken : createTurn i bucket w.shared (w.point i) = some (p, s)) :
    Stepped w i (.createBucket bucket) p s := by
  cases at_ : w.point i <;> rw [at_] at taken known <;> simp only [createTurn,reduceCtorEq] at taken
  case start =>
    obtain ⟨free,rfl,rfl⟩ := acquired taken
    have held : Function.update w.shared.locks .creation (some i) .creation = some i := Function.update_self ..
    exact ⟨stemsSame rfl,fun _ => rfl,held,fun j _ held => absurd (free.symm.trans held) nofun,by simp [committed,writing,at_],nofun⟩
  case locked =>
    cases taken
    refine ⟨stemsSame rfl,fun _ => rfl,?_,fun _ _ => id,?_,nofun⟩
    · split <;> exact known
    · split <;> simp [committed,writing,at_]
  case checked =>
    cases taken
    refine ⟨stemsSame rfl,fun _ => rfl,?_,fun _ _ => id,?_,nofun⟩
    · split
      case isTrue => exact known
      case isFalse unnamed =>
        refine ⟨known,fun k b found same => unnamed ?_⟩
        exact any_eq_true.mpr ⟨(k, b),Store.memEntries.mpr found,by simpa using same⟩
    · split <;> simp [committed,writing,at_]
  case scanned =>
    cases taken
    obtain ⟨lock,unnamed⟩ := known
    refine ⟨fun k b stored => ?_,by simp [writing,at_],lock,fun _ _ => id,by simp [committed,writing,at_],nofun⟩
    rw [Shared.write,setBucket] at stored
    by_cases here : bucketKey bucket.tenantID bucket.name = k
    · subst here
      rw [Store.getSetSame] at stored
      cases stored
      exact .inr ⟨lock,.mk ⟨rfl,rfl⟩,rfl,unnamed⟩
    · rw [Store.getSetOther _ _ here] at stored
      exact .inl ⟨b,stored,rfl,rfl⟩
  case written =>
    cases taken
    exact ⟨stemsSame rfl,fun _ => rfl,known,fun _ _ => id,by simp [committed,at_],nofun⟩
  case leaving result =>
    cases taken
    refine ⟨stemsSame rfl,fun _ => rfl,?_,fun j other held => absurd (Option.some.inj (held.symm.trans known)) other,?_,nofun⟩
    · trivial
    · cases result <;> simp [committed,writing,at_]

theorem updateStepped {bucket} (careful : ∀ b, w.point i = .changed b → ∃ b', w.shared.db.buckets.get (bucketKey b.tenantID b.name) = some b' ∧
    Same b' b)
    (taken : updateTurn bucket w.shared (w.point i) = some (p, s)) : Stepped w i (.updateBucket bucket) p s := by
  cases at_ : w.point i <;> rw [at_] at taken <;> simp only [updateTurn,reduceCtorEq] at taken
  case start =>
    cases taken
    refine ⟨stemsSame rfl,fun _ => rfl,trivial,fun _ _ => id,?_,nofun⟩
    split <;> simp [committed,writing,at_]
  case changed b =>
    cases taken
    obtain ⟨_,there,same⟩ := careful b at_
    exact ⟨stemsReplace there same rfl,by simp [writing,at_],trivial,fun _ _ => id,by simp [committed,writing,at_],nofun⟩
  case written =>
    cases taken
    exact ⟨stemsSame rfl,fun _ => rfl,trivial,fun _ _ => id,by simp [committed,at_],nofun⟩

theorem metricsStepped {tenantID name count size}
    (careful : ∀ b, w.point i = .changed b → ∃ b', w.shared.db.buckets.get (bucketKey tenantID name) = some b' ∧ Same b' b)
    (taken : metricsTurn i tenantID name count size w.shared (w.point i) = some (p, s)) :
    Stepped w i (.updateBucketMetrics tenantID name count size) p s := by
  cases at_ : w.point i <;> rw [at_] at taken <;> simp only [metricsTurn,reduceCtorEq] at taken
  case start =>
    have free : s.locks .creation = w.shared.locks .creation := acquireOther taken nofun
    obtain ⟨-,rfl,rfl⟩ := acquired taken
    exact ⟨stemsSame rfl,fun _ => rfl,trivial,fun j _ held => free.trans held,by simp [committed,writing,at_],nofun⟩
  case locked =>
    cases taken
    refine ⟨stemsSame rfl,fun _ => rfl,trivial,fun _ _ => id,?_,nofun⟩
    split <;> simp [committed,writing,at_]
  case changed b =>
    cases taken
    obtain ⟨_,there,same⟩ := careful b at_
    exact ⟨stemsReplace there same rfl,by simp [writing,at_],trivial,fun _ _ => id,by simp [committed,writing,at_],nofun⟩
  case leaving result =>
    cases taken
    have free : (release (.metrics (bucketKey tenantID name)) result w.shared).2.locks .creation = w.shared.locks .creation :=
      releaseOther _ (by simp) result
    refine ⟨stemsSame rfl,fun _ => rfl,trivial,fun j _ held => free.trans held,?_,nofun⟩
    cases result <;> simp [committed,writing,at_]

theorem deleteStepped {tenantID name ifEmpty}
    (deletes : Deletes tenantID name call) (taken : deleteTurn i tenantID name ifEmpty w.shared (w.point i) = some (p, s)) :
    Stepped w i call p s := by
  have idle (p : Point) (s : Shared) : Known s i call p := by cases deletes <;> trivial
  have quiet (at_ : writing w i = false) {tenantID' name' : Bytes} : Deletes tenantID' name' call → writing w i = true →
      s.db.buckets.get (bucketKey tenantID' name') = none := fun _ writes => absurd (at_.symm.trans writes) nofun
  cases at_ : w.point i <;> rw [at_] at taken <;> simp only [deleteTurn,reduceCtorEq] at taken
  case start =>
    have free : s.locks .creation = w.shared.locks .creation := acquireOther taken nofun
    obtain ⟨-,rfl,rfl⟩ := acquired taken
    exact ⟨stemsSame rfl,fun _ => rfl,idle _ _,fun j _ held => free.trans held,by simp [committed,writing,at_], quiet (by rw [writing,at_])⟩
  case locked =>
    cases taken
    refine ⟨stemsSame rfl,fun _ => rfl,idle _ _,fun _ _ => id,?_,quiet (by rw [writing,at_])⟩
    split
    · split <;> simp [committed,writing,at_]
    · simp [committed,writing,at_]
  case checked =>
    cases taken
    refine ⟨stemsSame rfl,fun _ => rfl,idle _ _,fun _ _ => id,?_,quiet (by rw [writing,at_])⟩
    split <;> simp [committed,writing,at_]
  case noObjects =>
    cases taken
    refine ⟨stemsSame rfl,fun _ => rfl,idle _ _,fun _ _ => id,?_,quiet (by rw [writing,at_])⟩
    split <;> simp [committed,writing,at_]
  case scanned =>
    cases taken
    refine ⟨stemsRemove rfl,by simp [writing,at_],idle _ _,fun _ _ => id,by simp [committed,writing,at_],fun deletes' _ => ?_⟩
    cases deletes <;> cases deletes' <;> exact Store.getDeleteSame _ _
  case written =>
    cases taken
    exact ⟨stemsSame rfl,fun _ => rfl,idle _ _,fun _ _ => id,by simp [committed,at_],quiet (by rw [writing,at_])⟩
  case leaving result =>
    cases taken
    have free : (release (.mutation (bucketPathForMutation tenantID name)) result w.shared).2.locks .creation = w.shared.locks .creation :=
      releaseOther _ (by simp) result
    refine ⟨stemsSame rfl,fun _ => rfl,idle _ _,fun j _ held => free.trans held,?_,quiet (by rw [writing,at_])⟩
    cases result <;> simp [committed,writing,at_]

theorem stepped (mine : OfBuckets (calls i)) (known : Known w.shared i (calls i) (w.point i))
    (careful : Careful calls w i) (taken : (calls i).turn i (w.point i) w.shared = some (p, s)) : Stepped w i (calls i) p s := by
  unfold Careful at careful
  cases call : calls i <;> rw [call] at mine known careful taken
  case createBucket bucket => exact createStepped known taken
  case updateBucket bucket =>
    refine updateStepped (fun b at_ => ?_) taken
    rw [at_] at careful
    exact careful
  case deleteBucket tenantID name => exact deleteStepped .always taken
  case deleteBucketIfEmpty tenantID name => exact deleteStepped .ifEmpty taken
  case updateBucketMetrics tenantID name count size =>
    refine metricsStepped (fun b at_ => ?_) taken
    rw [at_] at careful
    exact careful
  all_goals cases mine

structure Inv (calls : Nat → Operation) (w : World) (log : List Nat) : Prop where
  sound : Sound w.shared.db
  known : ∀ i, Known w.shared i (calls i) (w.point i)
  logged : ∀ i ∈ log, committed (w.point i) = true
  removed : ∀ {i tenantID name}, Deletes tenantID name (calls i) → committed (w.point i) = true →
    ∃ before after, log = before ++ i :: after ∧ ∀ b, w.shared.db.buckets.get (bucketKey tenantID name) = some b → ∃ j ∈ after, Creates b (calls j)

theorem createsSame {b b'} (creates : Creates b call) (same : Same b b') : Creates b' call := by
  obtain ⟨named⟩ := creates
  exact .mk ⟨named.1.trans same.1,named.2.trans same.2⟩

theorem soundKept (stems : Stems s s' i call) (sound : Sound s.db) : Sound s'.db where
  keyed {k b} found := by
    obtain ⟨b',there,home,named⟩ | ⟨-,-,key,-⟩ := stems k b found
    · rw [← home,← named]
      exact sound.keyed there
    · exact key
  unique {k k' b b'} found found' same := by
    obtain ⟨c,there,-,named⟩ | ⟨-,created,key,unnamed⟩ := stems k b found
    · obtain ⟨c',there',-,named'⟩ | ⟨-,-,-,unnamed'⟩ := stems k' b' found'
      · exact sound.unique there there' (named.trans (same.trans named'.symm))
      · exact absurd (named.trans same) (unnamed' k c there)
    obtain ⟨c',there',-,named'⟩ | ⟨-,created',key',-⟩ := stems k' b' found'
    · exact absurd (named'.trans same.symm) (unnamed k' c' there')
    obtain ⟨same₁⟩ := created
    obtain ⟨same₂⟩ := created'
    rw [key,key',← same₁.1,← same₁.2,← same₂.1,← same₂.2]

theorem knownKept {j call'} (stems : Stems s s' i call) (other : j ≠ i)
    (lock : s.locks .creation = some j → s'.locks .creation = some j) (known : Known s j call' p) : Known s' j call' p := by
  unfold Known at known ⊢
  split at known
  case h_5 bucket =>
    refine ⟨lock known.1,fun k b found => ?_⟩
    obtain ⟨b',there,-,named⟩ | ⟨held,-⟩ := stems k b found
    · exact named ▸ known.2 k b' there
    · exact absurd (Option.some.inj (known.1.symm.trans held)) other
  all_goals first | exact lock known | trivial

theorem stepKeeps {next log} (mine : ∀ i, OfBuckets (calls i)) (inv : Inv calls w log)
    (careful : Careful calls w i) (step_ : step (turnOf calls) w i = some next) : Inv calls next (if writing w i then log ++ [i] else log) := by
  obtain ⟨p,s,taken,rfl⟩ := stepTurn step_
  obtain ⟨stems,quiet,known,lock,own,removed⟩ := stepped (mine i) (inv.known i) careful taken
  have point j : committed ((move w i (p, s)).point j) = (decide (j = i) && writing w i || committed (w.point j)) := by
    by_cases same : j = i
    · subst same
      simp [own]
    · simp [pointOther w (p, s) same,same]
  refine ⟨soundKept stems inv.sound,?_,fun j mem => ?_,fun {j tenantID name} deletes done => ?_⟩
  · exact moveAll (P := fun s j p => Known s j (calls j) p) known (fun j other => knownKept stems other (lock j other)) inv.known
  · rw [point]
    split at mem
    case isTrue writes =>
      obtain earlier | now := mem_append.mp mem
      · simp [inv.logged j earlier]
      · simp [mem_singleton.mp now,writes]
    case isFalse => simp [inv.logged j mem]
  · rw [point] at done
    by_cases now : j = i ∧ writing w i = true
    · obtain ⟨rfl,writes⟩ := now
      refine ⟨log,[],by rw [if_pos writes],fun b found => ?_⟩
      exact absurd ((removed deletes writes).symm.trans found) nofun
    have earlier : committed (w.point j) = true := by
      simpa [now] using done
    obtain ⟨before,after,parts,stemmed⟩ := inv.removed deletes earlier
    cases writes : writing w i with
    | false => exact ⟨before,after,parts,fun b found => stemmed b (quiet writes ▸ found)⟩
    | true =>
      refine ⟨before,after ++ [i],by rw [if_pos rfl,parts,append_assoc,cons_append],fun b found => ?_⟩
      obtain ⟨b',there,same⟩ | ⟨-,creates,-⟩ := stems _ b found
      · obtain ⟨k,mem,creates⟩ := stemmed b' there
        exact ⟨k,mem_append_left _ mem,createsSame creates same⟩
      · exact ⟨i,mem_append_right _ (mem_singleton_self i),creates⟩

theorem beginInv {db} (sound : Sound db) : Inv calls (begin_ db) [] := ⟨sound,fun i => by cases calls i <;> trivial,nofun,nofun⟩

end

theorem namesUnique {calls : Nat → Operation} {db : Database} {events : List Nat} {last : World} (sound : Sound db)
    (mine : ∀ i, OfBuckets (calls i)) (ran : run (step (turnOf calls)) (begin_ db) events = some last)
    (careful : Along (step (turnOf calls)) (Careful calls) (begin_ db) events) :
    (∀ k k' b b', last.shared.db.buckets.get k = some b → last.shared.db.buckets.get k' = some b' →
      b.name = b'.name → k = k' ∧ b.tenantID = b'.tenantID) ∧
    ∀ i tenantID name, Deletes tenantID name (calls i) → last.point i = .returned (.ok ()) →
      ∀ b, last.shared.db.buckets.get (bucketKey tenantID name) = some b →
      ∃ before after j, marked (step (turnOf calls)) writing (begin_ db) events = before ++ i :: after ∧ j ∈ after ∧ Creates b (calls j) ∧
        committed (last.point j) = true := by
  have inv := markedKeeps (stepKeeps mine) careful ran (beginInv sound)
  refine ⟨fun k k' b b' found found' same => ?_,fun i tenantID name deletes returned b found => ?_⟩
  · have key := inv.sound.unique found found' same
    subst key
    exact ⟨rfl,congrArg BucketMetadata.tenantID (Option.some.inj (found.symm.trans found'))⟩
  obtain ⟨before,after,parts,stemmed⟩ := inv.removed deletes (by rw [returned]; rfl)
  obtain ⟨j,mem,creates⟩ := stemmed b found
  refine ⟨before,after,j,parts,mem,creates,inv.logged j ?_⟩
  rw [parts]
  exact mem_append_right _ (mem_cons_of_mem _ mem)

def owned (tenantID : Bytes) : BucketMetadata := freshBucket tenantID (ascii "b") (ascii "o") (ascii "user")

def one (m : BucketMetadata) : Database := { emptyDatabase with buckets := empty.set (bucketKey m.tenantID m.name) m }

theorem soundOne (m : BucketMetadata) : Sound (one m) := by
  have only {k b} (found : (one m).buckets.get k = some b) : k = bucketKey m.tenantID m.name ∧ b = m := by
    by_cases here : bucketKey m.tenantID m.name = k
    · subst here
      exact ⟨rfl,(Option.some.inj ((Store.getSetSame ..).symm.trans found)).symm⟩
    · exact absurd ((Store.getSetOther _ _ here).symm.trans found) nofun
  refine ⟨fun found => ?_,fun found found' _ => ?_⟩
  · obtain ⟨rfl,rfl⟩ := only found
    rfl
  · exact (only found).1.trans (only found').1.symm

def updateDeleteCreate : Nat → Operation
  | 0 => .updateBucket (owned (ascii "a"))
  | 1 => .deleteBucket (ascii "a") (ascii "b")
  | _ => .createBucket (owned (ascii "c"))

theorem updateDeleteCreateOf (i : Nat) : OfBuckets (updateDeleteCreate i) := by
  unfold updateDeleteCreate
  split
  · exact .update _
  · exact .delete _ _
  · exact .create _

def checkCareful (w : World) (i : Nat) : Bool :=
  match updateDeleteCreate i, w.point i with
  | .updateBucket _, .changed b =>
    (w.shared.db.buckets.get (bucketKey b.tenantID b.name)).any fun b' => decide (Same b' b)
  | .updateBucketMetrics _ _ _ _, .changed _ => false
  | _, _ => true

theorem checkSound {w i} (passed : checkCareful w i = true) : Careful updateDeleteCreate w i := by
  unfold checkCareful at passed
  unfold Careful
  split at passed
  case h_1 b call at_ =>
    obtain ⟨b',found,same⟩ := (Option.any_eq_true _ _).mp passed
    exact ⟨b',found,of_decide_eq_true same⟩
  case h_2 => contradiction
  case h_3 => trivial

def oneByOne : List Nat := [0, 0, 0, 1, 1, 1, 1, 1, 2, 2, 2, 2, 2, 2]

theorem nameTaken : ∃ last, run (step (turnOf updateDeleteCreate)) (begin_ (one (owned (ascii "a")))) oneByOne = some last ∧
    ∀ k k' b b', last.shared.db.buckets.get k = some b → last.shared.db.buckets.get k' = some b' → b.name = b'.name →
    k = k' ∧ b.tenantID = b'.tenantID := by
  have shown : (run (step (turnOf updateDeleteCreate)) (begin_ (one (owned (ascii "a")))) oneByOne).isSome = true := by decide +kernel
  obtain ⟨last,ran⟩ := Option.isSome_iff_exists.mp shown
  have careful : Along (step (turnOf updateDeleteCreate)) (Careful updateDeleteCreate) (begin_ (one (owned (ascii "a")))) oneByOne :=
    alongChecked (I := Idle 3 .start) (fun _ _ => checkSound) stepIdle (by decide) (fun _ _ => rfl) (by decide +kernel)
  exact ⟨last,ran,(namesUnique (soundOne _) updateDeleteCreateOf ran careful).1⟩

def between : List Nat := [0, 1, 1, 1, 1, 1, 2, 2, 2, 2, 2, 2, 0, 0]

-- The update found its bucket, writes it after the deletion, and two tenants have a bucket of one name.
theorem nameShared : ∃ last b b', run (step (turnOf updateDeleteCreate)) (begin_ (one (owned (ascii "a")))) between = some last ∧
    last.point 0 = .returned (.ok ()) ∧ last.point 1 = .returned (.ok ()) ∧ last.point 2 = .returned (.ok ()) ∧
    last.shared.db.buckets.get (bucketKey (ascii "a") (ascii "b")) = some b ∧
    last.shared.db.buckets.get (bucketKey (ascii "c") (ascii "b")) = some b' ∧ b.name = b'.name ∧ b.tenantID ≠ b'.tenantID := by
  obtain ⟨last,ran,each,⟨b,found,home,named⟩,b',found',home',named'⟩ : ∃ w,
      run (step (turnOf updateDeleteCreate)) (begin_ (one (owned (ascii "a")))) between = some w ∧
      (∀ j < 3, w.point j = .returned (.ok ())) ∧
      (∃ b, w.shared.db.buckets.get (bucketKey (ascii "a") (ascii "b")) = some b ∧ b.tenantID = ascii "a" ∧ b.name = ascii "b") ∧
      ∃ b, w.shared.db.buckets.get (bucketKey (ascii "c") (ascii "b")) = some b ∧ b.tenantID = ascii "c" ∧ b.name = ascii "b" := by
    decide +kernel
  refine ⟨last,b,b',ran,each 0 (by decide),each 1 (by decide),each 2 (by decide),found,found',named.trans named'.symm,?_⟩
  rw [home,home']
  decide

end MaxIOFS.NameRaces
