import MaxIOFS.BucketSettings
import MaxIOFS.StoreCalls

/-! Changes of a bucket's configuration beside updates of its counters. Both write the whole
record back. Updates of the counters exclude one another, but a setting takes no lock between
its read and its write, so it can write back a record that another call has changed since. -/
namespace MaxIOFS.SettingRaces
open ByteString MetadataStore Records Threads StoreCalls Runs BucketSettings BucketManager List
open OrderedStore.Store
variable {i : Nat} {w : World}

inductive Call where
  | setting (setting : Setting)
  | metrics (countDelta sizeDelta : Int)

def Call.operation (tenantID name : Bytes) : Call → Operation
  | setting s => .changeBucket tenantID name (fun m => s.change m)
  | metrics count size => .updateBucketMetrics tenantID name count size

def Call.isSetting : Call → Bool
  | setting _ => true
  | metrics _ _ => false

def Call.assigned : Call → List Assignment
  | setting s => s.assigned
  | metrics _ _ => []

def Call.count (n : Int) : Call → Int
  | setting _ => n
  | metrics countDelta _ => max 0 (n + countDelta)

def Call.size (n : Int) : Call → Int
  | setting _ => n
  | metrics _ sizeDelta => max 0 (n + sizeDelta)

structure Summary where
  (count size : Int)
  fields : (f : Field) → f.Value

def summary (m : BucketMetadata) : Summary := ⟨m.objectCount, m.totalSize, fun f => f.get m⟩

def Call.onSummary (v : Summary) (call : Call) : Summary := ⟨call.count v.count, call.size v.size, fun f => lastSet f call.assigned (v.fields f)⟩

theorem settingSummary {setting m} (converted : Converted m) (complete : setting.Complete m) :
    summary (setting.change m) = (Call.setting setting).onSummary (summary m) := by
  have ident := changeIdentity setting m
  simp only [identity,Prod.mk.injEq] at ident
  have fields : (fun f => f.get (setting.change m)) = fun f => lastSet f setting.assigned (f.get m) := by
    funext f
    rw [changeAssigns setting converted complete,getAssigned]
  simp only [summary,Call.onSummary,Call.count,Call.size,Call.assigned,ident,fields]

theorem metricsSummary (count size : Int) (m : BucketMetadata) : summary (counted count size m) =
    (Call.metrics count size).onSummary (summary m) := by
  have fields : (fun f => f.get (counted count size m)) = fun f => lastSet f [] (f.get m) := by
    funext f
    cases f <;> rfl
  simp only [summary,fields]
  rfl

theorem foldSummary (calls : Nat → Call) (order : List Nat) (v : Summary) :
    order.foldl (fun v i => (calls i).onSummary v) v = ⟨order.foldl (fun n i => (calls i).count n) v.count,
      order.foldl (fun n i => (calls i).size n) v.size,fun f => lastSet f (order.flatMap fun i => (calls i).assigned) (v.fields f)⟩ := by
  induction order generalizing v with
  | nil => rfl
  | cons i rest ih =>
    rw [foldl_cons,ih]
    simp only [flatMap_cons,lastSetAppend]
    rfl

section
variable (tenantID name : Bytes) (calls : Nat → Call)

def turn : Turn Shared Point := turnOf (fun i => (calls i).operation tenantID name)

def holding : Point → Bool
  | .read _ | .changed _ => true
  | _ => false

def writing (w : World) (i : Nat) : Bool :=
  match w.point i with
  | .changed _ => true
  | _ => false

def finished : Point → Bool
  | .written | .leaving _ | .returned _ => true
  | _ => false

structure Apart (w : World) (i : Nat) : Prop where
  alone : writing w i = true → ∀ j, j ≠ i → holding (w.point j) = true → (calls i).isSetting = false ∧ (calls j).isSetting = false
  complete : w.point i = .start → ∀ s, calls i = .setting s → ∀ m, w.shared.db.buckets.get (bucketKey tenantID name) = some m → s.Complete m

end

section
variable {tenantID name : Bytes} {calls : Nat → Call}
variable {m : BucketMetadata} {p : Point} {s : Shared}

def Current (tenantID name : Bytes) (call : Call) (s : Shared) (i : Nat) (p : Point) : Prop :=
  match call, p with
  | _, .start | _, .returned (.ok ()) => True
  | .setting _, .written => True
  | .setting setting, .read b | .setting setting, .changed b =>
    ∃ m, s.db.buckets.get (bucketKey tenantID name) = some m ∧ b = setting.change m ∧ setting.Complete m
  | .metrics _ _, .locked | .metrics _ _, .leaving (.ok ()) => s.locks (.metrics (bucketKey tenantID name)) = some i
  | .metrics count size, .changed b => s.locks (.metrics (bucketKey tenantID name)) = some i ∧
    ∃ m, s.db.buckets.get (bucketKey tenantID name) = some m ∧ b = counted count size m
  | _, _ => False

structure Inv (tenantID name : Bytes) (calls : Nat → Call) (w : World) : Prop where
  record : ∃ m, w.shared.db.buckets.get (bucketKey tenantID name) = some m ∧ m.tenantID = tenantID ∧ m.name = name ∧ Converted m
  current : ∀ i, Current tenantID name (calls i) w.shared i (w.point i)

theorem currentKept {call s' j} (record : holding p = true →
    s'.db.buckets.get (bucketKey tenantID name) = s.db.buckets.get (bucketKey tenantID name))
    (lock : s.locks (.metrics (bucketKey tenantID name)) = some j → s'.locks (.metrics (bucketKey tenantID name)) = some j)
    (current : Current tenantID name call s j p) : Current tenantID name call s' j p := by
  unfold Current at current ⊢
  split at current
  case h_4 | h_5 =>
    rw [record rfl]
    exact current
  case h_8 =>
    rw [record rfl]
    exact ⟨lock current.1,current.2⟩
  case h_6 | h_7 => exact lock current
  all_goals trivial

theorem quietKeeps {w i} (inv : Inv tenantID name calls w) (own : Current tenantID name (calls i) s i p)
    (same : s.db.buckets.get (bucketKey tenantID name) = w.shared.db.buckets.get (bucketKey tenantID name))
    (lock : ∀ j, j ≠ i → w.shared.locks (.metrics (bucketKey tenantID name)) = some j → s.locks (.metrics (bucketKey tenantID name)) = some j) :
    Inv tenantID name calls (move w i (p, s)) := by
  refine ⟨?_,moveAll (P := fun s j p => Current tenantID name (calls j) s j p) own (fun j other => ?_) inv.current⟩
  · obtain ⟨m,found,rest⟩ := inv.record
    exact ⟨m,same.trans found,rest⟩
  · exact currentKept (fun _ => same) (lock j other)

theorem writeKeeps {w i} (inv : Inv tenantID name calls w) (own : Current tenantID name (calls i) s i p)
    (alone : ∀ j, j ≠ i → holding (w.point j) = false)
    (stored : s.db.buckets.get (bucketKey tenantID name) = some m) (home : m.tenantID = tenantID ∧ m.name = name ∧ Converted m)
    (lock : s.locks = w.shared.locks) : Inv tenantID name calls (move w i (p, s)) := by
  refine ⟨⟨m,stored,home⟩,moveAll (P := fun s j p => Current tenantID name (calls j) s j p) own (fun j other => ?_) inv.current⟩
  refine currentKept (fun held => ?_) (lock ▸ id)
  exact absurd ((alone j other).symm.trans held) nofun

theorem writesAlone {w i j} (inv : Inv tenantID name calls w) (apart : Apart tenantID name calls w i)
    (writes : writing w i = true) (other : j ≠ i) : holding (w.point j) = false := by
  by_contra held
  obtain ⟨plain,plain'⟩ := apart.alone writes j other (Bool.of_not_eq_false held)
  have mine := inv.current i
  have theirs := inv.current j
  cases call : calls i with
  | setting s => simp [call,Call.isSetting] at plain
  | metrics count size =>
    cases call' : calls j with
    | setting s => simp [call',Call.isSetting] at plain'
    | metrics count' size' =>
      rw [call] at mine
      rw [call'] at theirs
      cases at_ : w.point i <;> simp only [writing,at_,reduceCtorEq] at writes
      cases at_' : w.point j <;> simp only [holding,at_',not_true_eq_false] at held
      · rw [at_'] at theirs
        exact theirs
      rw [at_] at mine
      rw [at_'] at theirs
      exact other (Option.some.inj (theirs.1.symm.trans mine.1))

theorem identityHome {m'} (same : identity m' = identity m) (home : m.tenantID = tenantID ∧ m.name = name) : m'.tenantID = tenantID ∧
    m'.name = name := by
  simp only [identity,Prod.mk.injEq] at same
  exact ⟨same.1.trans home.1,same.2.1.trans home.2⟩

structure Stepped (tenantID name : Bytes) (calls : Nat → Call) (w next : World) (i : Nat) : Prop where
  inv : Inv tenantID name calls next
  record : (next.shared.db.buckets.get (bucketKey tenantID name)).map summary = if writing w i = true
    then ((w.shared.db.buckets.get (bucketKey tenantID name)).map summary).map fun v => (calls i).onSummary v
    else (w.shared.db.buckets.get (bucketKey tenantID name)).map summary
  own : finished (next.point i) = (writing w i || finished (w.point i))

theorem settingStep {w i setting} (call : calls i = .setting setting) (inv : Inv tenantID name calls w) (apart : Apart tenantID name calls w i)
    (taken : changeTurn tenantID name (fun m => setting.change m) w.shared (w.point i) = some (p, s)) :
    Stepped tenantID name calls w (move w i (p, s)) i := by
  have mine := inv.current i
  obtain ⟨m,found,home,named,converted⟩ := inv.record
  have ident := changeIdentity setting m
  obtain ⟨home',named'⟩ := identityHome ident ⟨home,named⟩
  cases at_ : w.point i <;> rw [at_] at taken <;> simp only [changeTurn,reduceCtorEq] at taken
  case start =>
    rw [found] at taken
    cases taken
    refine ⟨quietKeeps inv ?_ rfl fun _ _ => id,by simp [writing,at_,move],by simp [writing,at_,finished]⟩
    rw [call]
    refine ⟨m,found,?_,apart.complete at_ setting call m found⟩
    rw [← home',← named']
  case read b =>
    rw [exists_,found] at taken
    cases taken
    rw [call,at_] at mine
    refine ⟨quietKeeps inv ?_ rfl fun _ _ => id,by simp [writing,at_,move],by simp [writing,at_,finished]⟩
    rw [call]
    exact mine
  case changed b =>
    cases taken
    rw [call,at_] at mine
    obtain ⟨_,found',rfl,complete⟩ := mine
    cases (found.symm.trans found')
    have writes : writing w i = true := by rw [writing,at_]
    have stored : (setBucket (setting.change m) w.shared.db).buckets.get (bucketKey tenantID name) = some (setting.change m) := by
      rw [setBucket,home',named',getSetSame]
    refine ⟨writeKeeps inv ?_ (fun j other => writesAlone inv apart writes other) stored ⟨home',named',changeConverted setting converted⟩ rfl,
      ?_,?_⟩
    · rw [call]
      trivial
    · rw [if_pos writes,found,call]
      exact (congrArg (Option.map summary) stored).trans (congrArg some (settingSummary converted complete))
    · simp [writing,at_,finished]
  case written =>
    cases taken
    refine ⟨quietKeeps inv ?_ rfl fun _ _ => id,by simp [writing,at_,move,Shared.write,clearDeleted],by simp [at_,finished]⟩
    trivial

theorem countedHome (count size : Int) (home : m.tenantID = tenantID ∧ m.name = name ∧ Converted m) :
    (counted count size m).tenantID = tenantID ∧ (counted count size m).name = name ∧ Converted (counted count size m) :=
  ⟨home.1,home.2.1,home.2.2.1,home.2.2.2,home.2.2.3,home.2.2.4⟩

theorem metricsStep {w i count size} (call : calls i = .metrics count size) (inv : Inv tenantID name calls w)
    (apart : Apart tenantID name calls w i)
    (taken : metricsTurn i tenantID name count size w.shared (w.point i) = some (p, s)) : Stepped tenantID name calls w (move w i (p, s)) i := by
  have mine := inv.current i
  obtain ⟨m,found,home⟩ := inv.record
  cases at_ : w.point i <;> rw [at_] at taken <;> simp only [metricsTurn,reduceCtorEq] at taken
  case start =>
    obtain ⟨free,rfl,rfl⟩ := acquired taken
    refine ⟨quietKeeps inv ?_ rfl fun j _ held => absurd (free.symm.trans held) nofun,by simp [writing,at_,move],by simp [writing,at_,finished]⟩
    rw [call]
    exact Function.update_self ..
  case locked =>
    rw [found] at taken
    cases taken
    rw [call,at_] at mine
    refine ⟨quietKeeps inv ?_ rfl fun _ _ => id,by simp [writing,at_,move],by simp [writing,at_,finished]⟩
    rw [call]
    exact ⟨mine,m,found,rfl⟩
  case changed b =>
    cases taken
    rw [call,at_] at mine
    obtain ⟨lock,_,found',rfl⟩ := mine
    cases (found.symm.trans found')
    have writes : writing w i = true := by rw [writing,at_]
    have stored : (w.shared.db.buckets.set (bucketKey tenantID name) (counted count size m)).get (bucketKey tenantID name) =
        some (counted count size m) := getSetSame ..
    refine ⟨writeKeeps inv ?_ (fun j other => writesAlone inv apart writes other) stored (countedHome count size home) rfl,?_,?_⟩
    · rw [call]
      exact lock
    · rw [if_pos writes,found,call]
      exact (congrArg (Option.map summary) stored).trans (congrArg some (metricsSummary count size m))
    · simp [writing,at_,finished]
  case leaving result =>
    cases taken
    rw [call,at_] at mine
    cases result with
    | error e => exact mine.elim
    | ok _ =>
      refine ⟨quietKeeps inv ?_ rfl fun j other held => absurd (Option.some.inj (held.symm.trans mine)) other,?_,?_⟩
      · trivial
      · simp [writing,at_,move]
      · simp [at_,finished]

theorem stepped {w next i} (inv : Inv tenantID name calls w) (apart : Apart tenantID name calls w i)
    (step_ : step (turn tenantID name calls) w i = some next) : Stepped tenantID name calls w next i := by
  obtain ⟨_,_,taken,rfl⟩ := stepTurn step_
  cases call : calls i with
  | setting setting =>
    simp only [turn,turnOf,call] at taken
    exact settingStep call inv apart taken
  | metrics count size =>
    simp only [turn,turnOf,call] at taken
    exact metricsStep call inv apart taken

theorem returnedOk {w i} (inv : Inv tenantID name calls w) (done : w.point i = .start ∨ ∃ result, w.point i = .returned result) :
    w.point i = .start ∨ w.point i = .returned (.ok ()) := by
  obtain start | ⟨result,returned⟩ := done
  · exact .inl start
  have current := inv.current i
  rw [returned] at current
  cases result with
  | ok _ => exact .inr returned
  | error e => cases call : calls i <;> rw [call] at current <;> exact current.elim

end

section
variable (tenantID name : Bytes) (calls : Nat → Call)

def writes (db : Database) (events : List Nat) : List Nat := marked (step (turn tenantID name calls)) writing (begin_ db) events

end

theorem writingOpen (writes : writing w i = true) : finished (w.point i) = false := by
  cases at_ : w.point i <;> simp_all [writing,finished]

theorem finishedOther {tenantID name calls next j}
    (step_ : step (turn tenantID name calls) w i = some next) (other : j ≠ i) : finished (next.point j) = finished (w.point j) := by
  obtain ⟨p,s,-,rfl⟩ := stepTurn step_
  rw [pointOther w (p, s) other]

theorem foldMapSome {α} (f : α → Nat → α) (order : List Nat) (v : α) : order.foldl (fun v i => v.map fun v => f v i) (some v) =
    some (order.foldl f v) := by
  induction order generalizing v with
  | nil => rfl
  | cons i rest ih => exact ih (f v i)

theorem updatesKept {tenantID name : Bytes} {calls : Nat → Call} {db : Database} {first : BucketMetadata} {events : List Nat} {last : World}
    (present : db.buckets.get (bucketKey tenantID name) = some first) (home : first.tenantID = tenantID) (named : first.name = name)
    (converted : Converted first) (apart : Along (step (turn tenantID name calls)) (Apart tenantID name calls) (begin_ db) events)
    (ran : run (step (turn tenantID name calls)) (begin_ db) events = some last)
    (done : ∀ i, last.point i = .start ∨ ∃ result, last.point i = .returned result) :
    (∀ i, last.point i = .start ∨ last.point i = .returned (.ok ())) ∧
    (writes tenantID name calls db events).Nodup ∧ (∀ i, i ∈ writes tenantID name calls db events ↔ last.point i = .returned (.ok ())) ∧
    ∃ final, last.shared.db.buckets.get (bucketKey tenantID name) = some final ∧
      final.objectCount = (writes tenantID name calls db events).foldl (fun n i => (calls i).count n) first.objectCount ∧
      final.totalSize = (writes tenantID name calls db events).foldl (fun n i => (calls i).size n) first.totalSize ∧
      ∀ f : Field, f.get final = lastSet f ((writes tenantID name calls db events).flatMap fun i => (calls i).assigned) (f.get first) := by
  have start : Inv tenantID name calls (begin_ db) := ⟨⟨first,present,home,named,converted⟩,fun i => by cases calls i <;> trivial⟩
  have keeps {w i next} inv apart (step_ : step (turn tenantID name calls) w i = some next) : Inv tenantID name calls next :=
    (stepped inv apart step_).inv
  have inv := runKeeps keeps start apart ran
  have returned i := returnedOk inv (done i)
  have once i : (writes tenantID name calls db events).count i = (finished (last.point i)).toNat :=
    markedCount (m := writing) keeps writingOpen (fun inv apart step_ => (stepped inv apart step_).own) finishedOther start apart ran
    (fun _ => rfl) i
  have folded : (last.shared.db.buckets.get (bucketKey tenantID name)).map summary = _ :=
    runFolds (v := fun w => (w.shared.db.buckets.get (bucketKey tenantID name)).map summary)
      (f := fun v i => v.map ((calls i).onSummary)) keeps (fun inv apart step_ => (stepped inv apart step_).record) start apart ran
  obtain ⟨final,found,-⟩ := inv.record
  have last_ : summary final = (writes tenantID name calls db events).foldl (fun v i => (calls i).onSummary v) (summary first) := by
    rw [found] at folded
    exact Option.some.inj (folded.trans ((congrArg (fun v => List.foldl _ (v.map summary) _) present).trans (foldMapSome _ _ _)))
  rw [foldSummary] at last_
  injection last_ with count size fields
  refine ⟨returned,?_,fun i => ?_,final,found,count,size,congrFun fields⟩
  · refine nodup_iff_count.mpr fun i => ?_
    rw [once]
    exact Bool.toNat_le _
  · rw [← count_pos_iff,once]
    obtain at_ | at_ := returned i <;> simp [at_,finished]

def bucket : BucketMetadata := freshBucket [] (ascii "b") (ascii "o") (ascii "user")
def stored (m : BucketMetadata) : Database := { emptyDatabase with buckets := OrderedStore.empty.set (bucketKey [] (ascii "b")) m }

def quotaAndCount (i : Nat) : Call := if i = 0 then .setting (setQuota (some ⟨100, 10⟩)) else .metrics 1 5

def quotaStep : World → Nat → Option World := step (turn [] (ascii "b") quotaAndCount)

def checkAlone (w : World) (i : Nat) : Bool := !writing w i || (List.range 2).all fun j => decide (j = i) || !holding (w.point j)

theorem checkSound (idle : Idle 2 .start w) (_ : i < 2) (passed : checkAlone w i = true) : Apart [] (ascii "b") quotaAndCount w i := by
  refine ⟨fun writes j other held => ?_,fun _ s call m _ => ?_⟩
  · unfold checkAlone at passed
    rw [writes] at passed
    have few : j < 2 := by
      by_contra many
      rw [idle j (by omega)] at held
      contradiction
    have clear := all_eq_true.mp passed j (mem_range.mpr few)
    simp [other,held] at clear
  · unfold quotaAndCount at call
    split at call
    · cases call
      trivial
    · cases call

theorem bucketStored : (stored bucket).buckets.get (bucketKey [] (ascii "b")) = some bucket := getSetSame ..
theorem bucketHome : bucket.tenantID = [] ∧ bucket.name = ascii "b" := ⟨rfl,rfl⟩
theorem bucketConverted : Converted bucket := ⟨rfl,⟨none,rfl⟩,⟨none,rfl⟩,⟨none,rfl⟩⟩

theorem bothReturned (idle : Idle 2 .start w) (each : ∀ j < 2, w.point j = .returned (.ok ())) :
    (∀ i, w.point i = .start ∨ w.point i = .returned (.ok ())) ∧ w.point 0 = .returned (.ok ()) ∧ w.point 1 = .returned (.ok ()) :=
  ⟨allPoints (Q := fun p => p = .start ∨ p = .returned (.ok ())) idle (.inl rfl) fun j few => .inr (each j few),
    each 0 (by decide),each 1 (by decide)⟩

theorem quotaThenCount : ∃ last final, run quotaStep (begin_ (stored bucket)) [0, 0, 0, 0, 1, 1, 1, 1] = some last ∧
    last.shared.db.buckets.get (bucketKey [] (ascii "b")) = some final ∧ final.objectCount = 1 ∧ final.quota = some ⟨100, 10⟩ := by
  obtain ⟨last,ran,returned⟩ : ∃ w, run quotaStep (begin_ (stored bucket)) [0,0,0,0,1,1,1,1] = some w ∧
    ∀ j < 2, w.point j = .returned (.ok ()) := by decide +kernel
  have apart : Along quotaStep (Apart [] (ascii "b") quotaAndCount) (begin_ (stored bucket)) [0,0,0,0,1,1,1,1] :=
    alongChecked checkSound stepIdle (by decide) (fun _ _ => rfl) (by decide +kernel)
  have idle : Idle 2 .start last := runIdle (fun _ _ => rfl) (by decide) ran
  obtain ⟨all,-,-⟩ := bothReturned idle returned
  have done i : last.point i = .start ∨ ∃ result, last.point i = .returned result := (all i).imp_right fun at_ => ⟨_,at_⟩
  have order : writes [] (ascii "b") quotaAndCount (stored bucket) [0,0,0,0,1,1,1,1] = [0,1] := by decide +kernel
  obtain ⟨-,-,-,final,found,count,-,fields⟩ := updatesKept bucketStored bucketHome.1 bucketHome.2 bucketConverted apart ran done
  rw [order] at count fields
  exact ⟨last,final,ran,found,count,fields .quota⟩

def ownershipAndRegion (i : Nat) : Call :=
  if i = 0 then .setting (.setOwnershipControls (ascii "BucketOwnerEnforced")) else .setting (.updateBucket [.region (ascii "eu-west-1")])

-- The quota's call read the record before the object was counted and wrote it back after; UpdateBucket
-- takes the ownership controls away even if it runs alone.
theorem updatesLost : (∃ last final, run quotaStep (begin_ (stored bucket)) [0, 0, 1, 1, 1, 1, 0, 0] = some last ∧
      (∀ i, last.point i = .start ∨ last.point i = .returned (.ok ())) ∧ last.point 0 = .returned (.ok ()) ∧ last.point 1 = .returned (.ok ()) ∧
      last.shared.db.buckets.get (bucketKey [] (ascii "b")) = some final ∧ final.objectCount = 0 ∧ final.totalSize = 0) ∧
    ∃ last final, run (step (turn [] (ascii "b") ownershipAndRegion)) (begin_ (stored bucket)) [0, 0, 0, 0, 1, 1, 1, 1] = some last ∧
      (∀ i, last.point i = .start ∨ last.point i = .returned (.ok ())) ∧ last.point 0 = .returned (.ok ()) ∧ last.point 1 = .returned (.ok ()) ∧
      last.shared.db.buckets.get (bucketKey [] (ascii "b")) = some final ∧ final.ownershipControls = [] := by
  constructor
  · obtain ⟨last,ran,returned,final,found,zero⟩ : ∃ w, run quotaStep (begin_ (stored bucket)) [0,0,1,1,1,1,0,0] = some w ∧
        (∀ j < 2, w.point j = .returned (.ok ())) ∧
        ∃ m, w.shared.db.buckets.get (bucketKey [] (ascii "b")) = some m ∧ m.objectCount = 0 ∧ m.totalSize = 0 := by decide +kernel
    obtain ⟨all,first,second⟩ := bothReturned (runIdle (fun _ _ => rfl) (by decide) ran) returned
    exact ⟨last,final,ran,all,first,second,found,zero⟩
  · obtain ⟨last,ran,returned,final,found,unset⟩ : ∃ w,
        run (step (turn [] (ascii "b") ownershipAndRegion)) (begin_ (stored bucket)) [0,0,0,0,1,1,1,1] = some w ∧
        (∀ j < 2, w.point j = .returned (.ok ())) ∧
        ∃ m, w.shared.db.buckets.get (bucketKey [] (ascii "b")) = some m ∧ m.ownershipControls = [] := by decide +kernel
    obtain ⟨all,first,second⟩ := bothReturned (runIdle (fun _ _ => rfl) (by decide) ran) returned
    exact ⟨last,final,ran,all,first,second,found,unset⟩

end MaxIOFS.SettingRaces
