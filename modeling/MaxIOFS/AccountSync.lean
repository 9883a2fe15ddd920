import MaxIOFS.Runs

/-! One user and one of the user's access keys on the nodes of a cluster. The loops of a node list what it
has and send it to the others, unless its checksum was sent there before. A user is taken with all overrides
if it is newer by a second; a key is listed while it is active, and is always taken. -/
namespace MaxIOFS.AccountSync
open Function Runs

structure User (ρ κ γ : Type) where
  record : ρ
  overrides : κ → Option γ
  updatedAt : Int

structure World (ν ρ κ γ χ : Type) where
  clock : Int
  user : ν → User ρ κ γ
  listed : ν → Option (User ρ κ γ)
  synced : ν × ν → Option χ
  (active keyListed : ν → Bool)
  keySynced : ν × ν → Bool
  -- What the latest changes set, on whatever node.
  latest : User ρ κ γ
  latestActive : Bool

inductive Sync (ν : Type) where
  | listLocalUsers (source : ν)
  | syncUserToNode (source target : ν)
  | listLocalAccessKeys (source : ν)
  | syncAccessKeyToNode (source target : ν)
  deriving DecidableEq

inductive Event (ν ρ κ γ : Type) where
  | tick (seconds : Nat)
  | updateUser (n : ν) (record : ρ)
  | setCapabilityOverride (n : ν) (capability : κ) (granted : γ)
  | deleteCapabilityOverride (n : ν) (capability : κ)
  | disableAccessKey (n : ν)
  | sync (e : Sync ν)

section
variable {ν ρ κ γ χ : Type} [DecidableEq ν] [DecidableEq κ] [DecidableEq χ] (checksum : User ρ κ γ → χ) (w : World ν ρ κ γ χ)

def upsertUser (data here : User ρ κ γ) : User ρ κ γ := if data.updatedAt ≤ here.updatedAt then here else data

def sync : Sync ν → Option (World ν ρ κ γ χ)
  | .listLocalUsers n => some { w with listed := update w.listed n (some (w.user n)) }
  | .syncUserToNode n m => (w.listed n).map fun data =>
    if w.synced (n, m) = some (checksum data) then w
    else { w with
      user := update w.user m (upsertUser data (w.user m))
      synced := update w.synced (n, m) (some (checksum data)) }
  | .listLocalAccessKeys n => some { w with keyListed := update w.keyListed n (w.active n) }
  | .syncAccessKeyToNode n m =>
    if w.keyListed n && !w.keySynced (n, m) then
      some { w with active := update w.active m true, keySynced := update w.keySynced (n, m) true }
    else some w

-- The time of the user's record is not touched.
def override (n : ν) (capability : κ) (granted : Option γ) : World ν ρ κ γ χ :=
  let set (u : User ρ κ γ) : User ρ κ γ := { u with overrides := update u.overrides capability granted }
  { w with user := update w.user n (set (w.user n)), latest := set w.latest }

def step : Event ν ρ κ γ → Option (World ν ρ κ γ χ)
  | .tick seconds => some { w with clock := w.clock + seconds }
  | .updateUser n record => some { w with
    user := update w.user n { w.user n with record := record, updatedAt := w.clock }
    latest := { w.latest with record := record, updatedAt := w.clock } }
  | .setCapabilityOverride n capability granted => some (override w n capability (some granted))
  | .deleteCapabilityOverride n capability => some (override w n capability none)
  | .disableAccessKey n => some { w with active := update w.active n false, latestActive := false }
  | .sync e => sync checksum w e

/-- The rounds that were under way have ended. -/
def World.idle : World ν ρ κ γ χ := { w with listed := fun _ => none, keyListed := fun _ => false }

def Agreed : Prop := ∀ n, w.user n = w.latest ∧ w.active n = w.latestActive

def Newest (n : ν) : Prop := ∀ m, (w.user m).updatedAt ≤ (w.user n).updatedAt

/-- The newest rows are what the latest changes set, and every node has the key's latest status. -/
def Current : Prop := ∀ n, (Newest w n → w.user n = w.latest) ∧ w.active n = w.latestActive

structure Sound : Prop where
  past : ∀ n, (w.user n).updatedAt ≤ w.clock
  listed : ∀ n, ∀ u ∈ w.listed n, u.updatedAt ≤ w.clock
  received : ∀ p c, w.synced p = some c → ∃ u, c = checksum u ∧ u.updatedAt ≤ (w.user p.2).updatedAt
  active : w.latestActive = true → ∀ n, w.active n = true

def Came (n : ν) (u : User ρ κ γ) : Prop := (∃ k, u = w.user k) ∧ (Newest w n → u = w.user n)

structure Settling (s : World ν ρ κ γ χ) : Prop where
  sound : Sound checksum s
  user : ∀ n, Came w n (s.user n)
  listed : ∀ n, ∀ u ∈ s.listed n, Came w n u
  kept : ∀ n, w.active n = true → s.active n = true
  active : ∀ n, s.active n = true → ∃ k, w.active k = true
  keyListed : ∀ n, s.keyListed n = true → ∃ k, w.active k = true
  latest : s.latest = w.latest ∧ s.latestActive = w.latestActive

end

section
variable {ν ρ κ γ χ : Type} {checksum : User ρ κ γ → χ} {w w' s s' : World ν ρ κ γ χ}

theorem upsertNewer (data here : User ρ κ γ) : data.updatedAt ≤ (upsertUser data here).updatedAt ∧
    here.updatedAt ≤ (upsertUser data here).updatedAt := by
  unfold upsertUser
  split <;> omega

theorem upsertCases {P : User ρ κ γ → Prop} {data here} (older : P here) (newer : here.updatedAt < data.updatedAt → P data) :
    P (upsertUser data here) := by
  unfold upsertUser
  split
  · exact older
  · exact newer (by omega)

variable [DecidableEq ν]

theorem receivedLater {n u} (received : ∀ p c, w.synced p = some c → ∃ u, c = checksum u ∧ u.updatedAt ≤ (w.user p.2).updatedAt)
    (later : (w.user n).updatedAt ≤ u.updatedAt) (p : ν × ν) (c : χ) (there : w.synced p = some c) :
    ∃ v, c = checksum v ∧ v.updatedAt ≤ (update w.user n u p.2).updatedAt := by
  obtain ⟨v,same,le⟩ := received p c there
  refine ⟨v,same,le.trans ?_⟩
  by_cases here : p.2 = n
  · rw [here,Function.update_self]
    exact later
  · rw [Function.update_of_ne here]

variable [DecidableEq χ]

theorem syncSound {e} (sound : Sound checksum w) (stepped : sync checksum w e = some w') : Sound checksum w' := by
  cases e with
  | listLocalUsers n =>
    cases stepped
    refine ⟨sound.past,?_,sound.received,sound.active⟩
    refine (forall_update_iff w.listed fun _ o => ∀ u ∈ o, u.updatedAt ≤ w.clock).mpr ⟨?_,fun n _ => sound.listed n⟩
    rintro u ⟨⟩
    exact sound.past n
  | syncUserToNode n m =>
    obtain ⟨data,there,rfl⟩ := Option.map_eq_some_iff.mp stepped
    split
    · exact sound
    obtain ⟨_,held⟩ := upsertNewer data (w.user m)
    refine ⟨?_,sound.listed,?_,sound.active⟩
    · refine (forall_update_iff w.user fun _ u => u.updatedAt ≤ w.clock).mpr ⟨?_,fun n _ => sound.past n⟩
      exact upsertCases (P := fun u => u.updatedAt ≤ w.clock) (sound.past m) fun _ => sound.listed n data there
    refine (forall_update_iff w.synced fun p o => ∀ c, o = some c →
      ∃ u, c = checksum u ∧ u.updatedAt ≤ (update w.user m (upsertUser data (w.user m)) p.2).updatedAt).mpr
      ⟨?_,fun p _ => receivedLater sound.received held p⟩
    rintro c ⟨⟩
    exact ⟨data,rfl,by rwa [Function.update_self]⟩
  | listLocalAccessKeys n =>
    cases stepped
    exact { sound with }
  | syncAccessKeyToNode n m =>
    rw [sync] at stepped
    split at stepped <;> cases stepped
    · exact { sound with active := fun latest => (forall_update_iff w.active fun _ b => b = true).mpr ⟨rfl,fun n _ => sound.active latest n⟩ }
    · exact sound

omit [DecidableEq χ] in
theorem changedSound {n u latest} (sound : Sound checksum w) (later : (w.user n).updatedAt ≤ u.updatedAt) (past : u.updatedAt ≤ w.clock) :
    Sound checksum { w with user := update w.user n u, latest := latest } :=
  { sound with
    past := (forall_update_iff w.user fun _ u => u.updatedAt ≤ w.clock).mpr ⟨past,fun n _ => sound.past n⟩
    received := receivedLater sound.received later }

theorem stepSound [DecidableEq κ] {e} (sound : Sound checksum w) (stepped : step checksum w e = some w') : Sound checksum w' := by
  cases e with
  | tick seconds =>
    cases stepped
    have later {t} (past : t ≤ w.clock) : t ≤ w.clock + seconds := by omega
    exact { sound with past := fun n => later (sound.past n), listed := fun n u mem => later (sound.listed n u mem) }
  | updateUser n record =>
    cases stepped
    exact changedSound sound (sound.past n) le_rfl
  | setCapabilityOverride n | deleteCapabilityOverride n =>
    cases stepped
    exact changedSound sound le_rfl (sound.past n)
  | disableAccessKey n =>
    cases stepped
    exact { sound with active := nofun }
  | sync e => exact syncSound sound stepped

theorem syncLater {e} (stepped : sync checksum s e = some s') (n : ν) : (s.user n).updatedAt ≤ (s'.user n).updatedAt := by
  cases e with
  | listLocalUsers | listLocalAccessKeys =>
    cases stepped
    exact le_rfl
  | syncUserToNode k m =>
    obtain ⟨_,_,rfl⟩ := Option.map_eq_some_iff.mp stepped
    split
    · exact le_rfl
    · exact (forall_update_iff s.user fun n u => (s.user n).updatedAt ≤ u.updatedAt).mpr ⟨(upsertNewer _ _).2,fun _ _ => le_rfl⟩ n
  | syncAccessKeyToNode =>
    rw [sync] at stepped
    split at stepped <;> cases stepped <;> exact le_rfl

theorem settlingSync {e} (settling : Settling checksum w s) (stepped : sync checksum s e = some s') : Settling checksum w s' := by
  have sound := syncSound settling.sound stepped
  cases e with
  | listLocalUsers n =>
    cases stepped
    refine { settling with sound, listed := ?_ }
    refine (forall_update_iff s.listed fun n o => ∀ u ∈ o, Came w n u).mpr ⟨?_,fun n _ => settling.listed n⟩
    rintro u ⟨⟩
    exact settling.user n
  | syncUserToNode n m =>
    obtain ⟨data,there,rfl⟩ := Option.map_eq_some_iff.mp stepped
    split
    · exact settling
    rename_i fresh
    rw [if_neg fresh] at sound
    refine { settling with sound, user := ?_ }
    refine (forall_update_iff s.user (Came w)).mpr ⟨?_,fun n _ => settling.user n⟩
    refine upsertCases (settling.user m) fun newer => ?_
    -- A newest row is never replaced: nothing that is sent is newer.
    obtain ⟨k,rfl⟩ := (settling.listed n data there).1
    refine ⟨⟨k,rfl⟩,fun newest => ?_⟩
    rw [(settling.user m).2 newest] at newer
    exact absurd (newest k) (by omega)
  | listLocalAccessKeys n =>
    cases stepped
    refine { settling with sound, keyListed := ?_ }
    exact (forall_update_iff s.keyListed fun _ b => b = true → _).mpr ⟨settling.active n,fun n _ => settling.keyListed n⟩
  | syncAccessKeyToNode n m =>
    rw [sync] at stepped
    split at stepped <;> cases stepped
    · rename_i sent
      refine { settling with sound, kept := ?_, active := fun k active => ?_ }
      · exact (forall_update_iff s.active fun n b => w.active n = true → b = true).mpr ⟨fun _ => rfl,fun n _ => settling.kept n⟩
      · exact settling.keyListed n (Bool.and_eq_true_iff.mp sent).1
    · exact settling

/-- When the changes are over and every node has synced to every other, all nodes hold what the latest
changes set exactly if the newest rows and all keys did before. -/
theorem accountsConverge [DecidableEq κ] [Finite ν] {start final} {events} {rounds}
    (determines : ∀ u u', checksum u = checksum u' → u.updatedAt = u'.updatedAt) (sound : Sound checksum start)
    (ran : run (step checksum) start events = some w) (swept : ∀ n m, n ≠ m → .syncUserToNode n m ∈ rounds)
    (rested : run (sync checksum) w.idle rounds = some final) : Agreed final ↔ Current w := by
  have reached : Sound checksum w := runKeeps (fun sound _ stepped => stepSound sound stepped) sound (alongOf (fun _ _ => trivial) _) ran
  have begun : Settling checksum w w.idle :=
    ⟨{ reached with listed := nofun },fun n => ⟨⟨n,rfl⟩,fun _ => rfl⟩,nofun,fun _ => id,fun n active => ⟨n,active⟩,nofun,rfl,rfl⟩
  have settled : Settling checksum w final :=
    runKeeps (fun settling _ stepped => settlingSync settling stepped) begun (alongOf (fun _ _ => trivial) _) rested
  have keys : (∀ n, final.active n = w.latestActive) ↔ ∀ n, w.active n = w.latestActive := by
    cases latest : w.latestActive with
    | true => exact ⟨fun _ => reached.active latest,fun all n => settled.kept n (all n)⟩
    | false =>
      refine ⟨fun none n => ?_,fun none n => ?_⟩ <;> refine Bool.eq_false_iff.mpr fun active => ?_
      · exact Bool.eq_false_iff.mp (none n) (settled.kept n active)
      · obtain ⟨k,before⟩ := settled.active n active
        exact Bool.eq_false_iff.mp (none k) before
  have users : (∀ n, final.user n = w.latest) ↔ ∀ n, Newest w n → w.user n = w.latest := by
    refine ⟨fun all n newest => (settled.user n).2 newest ▸ all n,fun all n => ?_⟩
    have : Nonempty ν := ⟨n⟩
    obtain ⟨top,newest⟩ := Finite.exists_max fun n => (w.user n).updatedAt
    have arrived : (w.user top).updatedAt ≤ (final.user n).updatedAt := by
      by_cases same : top = n
      · exact same ▸ (settled.user top).2 newest ▸ le_rfl
      refine runReaches (J := fun s => (w.user top).updatedAt ≤ (s.user n).updatedAt) (fun settling _ stepped => settlingSync settling stepped)
        (fun before stepped => before.trans (syncLater stepped n)) (fun {s s'} settling _ stepped => ?_)
        (swept top n same) begun (alongOf (fun _ _ => trivial) _) rested
      obtain ⟨data,there,rfl⟩ := Option.map_eq_some_iff.mp stepped
      obtain rfl := (settling.listed top data there).2 newest
      split
      · rename_i sent
        obtain ⟨_,same,le⟩ := settling.sound.received (top,n) _ sent
        exact determines _ _ same ▸ le
      · exact (upsertNewer _ _).1.trans_eq (congrArg _ (Function.update_self n _ s.user).symm)
    obtain ⟨k,came⟩ := (settled.user n).1
    rw [came] at arrived ⊢
    exact all k fun m => (newest m).trans arrived
  unfold Agreed Current
  rw [settled.latest.1,settled.latest.2,forall_and,forall_and,users,keys]

end

def digest (u : User Nat Unit Bool) : Nat × Int × Option Bool := (u.record, u.updatedAt, u.overrides ())

def two : World Bool Nat Unit Bool (Nat × Int × Option Bool) where
  clock := 1
  user _ := ⟨0, fun _ => none, 0⟩
  listed _ := none
  synced _ := none
  active _ := true
  keyListed _ := false
  keySynced _ := false
  latest := ⟨0, fun _ => none, 0⟩
  latestActive := true

def round : List (Sync Bool) := [false, true].flatMap fun n => [.listLocalUsers n, .syncUserToNode n !n,
    .listLocalAccessKeys n, .syncAccessKeyToNode n !n]

def updates : List (Event Bool Nat Unit Bool) := [.updateUser false 5, .tick 1, .updateUser true 6]

theorem laterUpdateWins : ∃ w final, run (step digest) two updates = some w ∧ run (sync digest) w.idle round = some final ∧ Agreed final := by
  have sound : Sound digest two := ⟨by decide,fun _ _ mem => (nomatch mem),fun _ _ sent => (nomatch sent),fun _ _ => rfl⟩
  have swept : ∀ n m, n ≠ m → .syncUserToNode n m ∈ round := by decide
  refine ⟨_,_,rfl,rfl,(accountsConverge (fun _ _ same => congrArg (·.2.1) same) sound (rfl : run _ _ updates = some _) swept rfl).mpr ?_⟩
  rintro (_ | _)
  · exact ⟨fun newest => absurd (newest true) (by decide),rfl⟩
  · exact ⟨fun _ => rfl,rfl⟩

def Diverges (events : List (Event Bool Nat Unit Bool)) : Prop :=
  ∃ w final, run (step digest) two events = some w ∧ run (sync digest) w.idle (round ++ round) = some final ∧ ¬ Agreed final

-- An override does not make the row newer, two updates of one second tie, and a disabled key is not listed.
theorem accountsDiverge : Diverges [.setCapabilityOverride false () true] ∧ Diverges [.updateUser false 5, .updateUser true 6] ∧
    Diverges [.disableAccessKey false] := by
  refine ⟨⟨_,_,rfl,rfl,fun agreed => ?_⟩,⟨_,_,rfl,rfl,fun agreed => ?_⟩,⟨_,_,rfl,rfl,fun agreed => ?_⟩⟩
  · exact absurd (congrArg (·.overrides ()) (agreed true).1) (by decide)
  · exact absurd (congrArg (·.record) (agreed false).1) (by decide)
  · exact absurd (agreed true).2 (by decide)

end MaxIOFS.AccountSync
