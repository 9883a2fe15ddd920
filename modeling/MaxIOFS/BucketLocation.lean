import MaxIOFS.Runs

/-! Where a bucket is: the location in its metadata, and the copies of it that are cached. Every request to
migrate a bucket makes a location manager with a cache of its own, asks it for the location and may set it
afterwards; requests run at the same time. -/
namespace MaxIOFS.BucketLocation
open Function Runs List

/-- How far a request is with its `GetBucketLocation` and then with its `SetBucketLocation`. -/
inductive Phase (ν : Type) where
  | idle
  | missed
  | fetched (location : ν)
  | located (location : ν)
  | bucketRead
  | written
  | returned

/-- A cached location has the time at which it expires. -/
structure Request (ν : Type) where
  phase : Phase ν
  cache : Option (ν × Int)

/-- A location that is missing or empty in the metadata is none. -/
structure World (ν : Type) where
  clock : Int
  location : Option ν
  requests : Nat → Request ν

inductive Event (ν : Type) where
  | tick (d : Nat)
  | cleanupExpired (i : Nat)
  | cacheGet (i : Nat)
  | getBucketInfo (i : Nat)
  | cacheSet (i : Nat)
  | fetchBucket (i : Nat)
  | updateBucket (i : Nat) (nodeID : ν)
  | cacheDelete (i : Nat)

section
variable {ν : Type} (localNodeID : ν) (ttl : Int) (w : World ν)

def World.valid (entry : ν × Int) : Bool := decide (w.clock ≤ entry.2)

def World.cached (i : Nat) : Option ν := ((w.requests i).cache.filter w.valid).map Prod.fst

def World.set (i : Nat) (request : Request ν) : World ν := { w with requests := update w.requests i request }

def step : Event ν → Option (World ν)
  | .tick d => some { w with clock := w.clock + d }
  | .cleanupExpired i => some (w.set i { w.requests i with cache := (w.requests i).cache.filter w.valid })
  | .cacheGet i => match (w.requests i).phase with
    | .idle => some (w.set i { w.requests i with phase := match w.cached i with
      | some node => .located node
      | none => .missed })
    | _ => none
  | .getBucketInfo i => match (w.requests i).phase with
    | .missed => some (w.set i { w.requests i with phase := .fetched (w.location.getD localNodeID) })
    | _ => none
  | .cacheSet i => match (w.requests i).phase with
    | .fetched node => some (w.set i ⟨.located node, some (node, w.clock + ttl)⟩)
    | _ => none
  | .fetchBucket i => match (w.requests i).phase with
    | .located _ => some (w.set i { w.requests i with phase := .bucketRead })
    | _ => none
  | .updateBucket i nodeID => match (w.requests i).phase with
    | .bucketRead => some { w.set i { w.requests i with phase := .written } with location := some nodeID }
    | _ => none
  | .cacheDelete i => match (w.requests i).phase with
    | .written => some (w.set i ⟨.returned, none⟩)
    | _ => none

def moved (location : Option ν) : Event ν → Option ν
  | .updateBucket _ nodeID => some nodeID
  | _ => location

def Event.ofGet : Event ν → Prop
  | .fetchBucket _ | .updateBucket _ _ | .cacheDelete _ => False
  | _ => True

/-- A request that has not begun has nothing cached. -/
def New (request : Request ν) : Prop := request.phase = .idle → request.cache = none

/-- A request that is at its `GetBucketLocation` finds one node. -/
def Finds (node : ν) (request : Request ν) : Prop := match request.phase with
  | .idle => request.cache = none
  | .missed => True
  | .fetched found | .located found => found = node
  | _ => False

variable {localNodeID ttl w} {w' : World ν} {e : Event ν} {i : Nat}

theorem stepLocation (stepped : step localNodeID ttl w e = some w') : w'.location = moved w.location e := by
  cases e <;> simp only [step] at stepped <;> (try split at stepped) <;> cases stepped <;> rfl

-- A step changes one request at most; what it makes of that one is all there is to show.
theorem setKeeps {P : Request ν → Prop} {j request} (before : P (w.requests i)) (next : i = j → P request) : P ((w.set j request).requests i) := by
  change P (update w.requests j request i)
  rw [update_apply]
  split
  · exact next ‹_›
  · exact before

theorem stepNew (fresh : ∀ i, New (w.requests i)) (stepped : step localNodeID ttl w e = some w') : ∀ i, New (w'.requests i) := by
  intro i
  cases e with
  | tick d =>
    cases stepped
    exact fresh i
  | cleanupExpired j =>
    cases stepped
    refine setKeeps (fresh i) fun _ idle => ?_
    dsimp only at idle ⊢
    rw [fresh j idle,Option.filter_none]
  | cacheGet j =>
    simp only [step] at stepped
    split at stepped <;> cases stepped
    refine setKeeps (fresh i) fun _ idle => ?_
    dsimp only at idle
    split at idle <;> cases idle
  | getBucketInfo j | cacheSet j | fetchBucket j | updateBucket j | cacheDelete j =>
    simp only [step] at stepped
    split at stepped <;> cases stepped
    exact setKeeps (fresh i) fun _ idle => nomatch idle

theorem stepFinds {node} (finds : w.location.getD localNodeID = node ∧ Finds node (w.requests i)) (reading : e.ofGet)
    (stepped : step localNodeID ttl w e = some w') : w'.location.getD localNodeID = node ∧ Finds node (w'.requests i) := by
  obtain ⟨location,finds⟩ := finds
  cases e with
  | tick d =>
    cases stepped
    exact ⟨location,finds⟩
  | cleanupExpired j =>
    cases stepped
    refine ⟨location,setKeeps finds ?_⟩
    rintro rfl
    revert finds
    unfold Finds
    dsimp only
    split <;> intro finds
    · rw [finds,Option.filter_none]
    all_goals exact finds
  | cacheGet j =>
    simp only [step] at stepped
    split at stepped <;> cases stepped
    rename_i idle
    refine ⟨location,setKeeps finds ?_⟩
    rintro rfl
    rw [Finds,idle] at finds
    rw [World.cached,show (w.requests i).cache = none from finds]
    trivial
  | getBucketInfo j =>
    simp only [step] at stepped
    split at stepped <;> cases stepped
    exact ⟨location,setKeeps finds fun _ => location⟩
  | cacheSet j =>
    simp only [step] at stepped
    split at stepped <;> cases stepped
    rename_i found at_
    refine ⟨location,setKeeps finds ?_⟩
    rintro rfl
    rw [Finds,at_] at finds
    exact finds
  | fetchBucket | updateBucket | cacheDelete => exact reading.elim

theorem runLocation {events} (ran : run (step localNodeID ttl) w events = some w') : w'.location = events.foldl moved w.location := by
  induction events generalizing w with
  | nil =>
    cases ran
    rfl
  | cons e events ih =>
    obtain ⟨_,stepped,later⟩ := Option.bind_eq_some_iff.mp ran
    rw [foldl_cons,← stepLocation stepped]
    exact ih later

def reads (i : Nat) : List (Event ν) := [.cacheGet i, .getBucketInfo i, .cacheSet i]

theorem readsReturn (idle : (w.requests i).phase = .idle) (empty : (w.requests i).cache = none) :
    ∃ last, run (step localNodeID ttl) w (reads i) = some last ∧ ∃ node, (last.requests i).phase = .located node := by
  have missed : w.cached i = none := by rw [World.cached,empty]; rfl
  simp [reads,run,step,idle,missed,World.set]

end

def unmoved : World Nat := ⟨0, none, fun _ => ⟨.idle, none⟩⟩

-- Two requests read the location before either of them moves the bucket.
def movedTwice : List (Event Nat) :=
  [.cacheGet 0, .getBucketInfo 0, .cacheGet 1, .getBucketInfo 1, .cacheSet 0, .fetchBucket 0, .updateBucket 0 7, .cacheSet 1, .cacheDelete 0,
    .fetchBucket 1, .updateBucket 1 8, .cacheDelete 1]

end MaxIOFS.BucketLocation
