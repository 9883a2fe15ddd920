import MaxIOFS.Runs

/-! The health column of a node's table of the cluster, one database statement at a time. A health check
reads a node, probes it and writes what it found; write fan-out and read proxy mark a node unavailable;
the reconciler marks nodes dead that were unavailable for long, or that an operator drains. -/
namespace MaxIOFS.NodeHealth
open Function Runs

inductive Status where
  | unknown | healthy | degraded | unavailable | storagePressure | dead
  deriving DecidableEq

structure Probe where
  healthy : Bool
  (latencyMs capacityTotal capacityUsed : Int)

structure World (ν : Type) where
  status : ν → Status
  unavailableSince : ν → Option Int
  -- The health checks under way, with the status each has read.
  checks : List (ν × Status)
  candidates : List ν

inductive Event (ν : Type) where
  | readNode (n : ν)
  | writeStatus (check : Nat) (r : Probe) (now : Int)
  | fanoutFailed (n : ν)
  | markNodeUnavailable (n : ν) (now : Int)
  | findDeadCandidates (cutoff : Int)
  | drain (n : ν)
  | markDeadIfSafe

-- The arithmetic of the host: a percentage of used and total capacity, and the release below a threshold.
-- Its results are rounded, so the model takes them as they come.
structure Host where
  usagePct : Int → Int → Rat
  below : Rat → Rat

section
variable {ν : Type} [DecidableEq ν] (nodes : List ν) (factor : Nat) (host : Host) (threshold release : Rat)

def Host.usage (r : Probe) : Rat := host.usagePct r.capacityUsed r.capacityTotal

def checkedStatus (seen : Status) (r : Probe) : Status :=
  if r.healthy = false then .unavailable
  else if 1000 < r.latencyMs then .degraded
  else if seen = .storagePressure ∧ 0 < r.capacityTotal ∧ release ≤ host.usage r then .storagePressure
  else if 0 < r.capacityTotal ∧ threshold ≤ host.usage r then .storagePressure
  else .healthy

def World.write (w : World ν) (n : ν) (s : Status) (since : Option Int) : World ν :=
  { w with status := update w.status n s, unavailableSince := update w.unavailableSince n since }

def healthyExcluding (w : World ν) (n : ν) : Nat := nodes.countP fun m => decide (w.status m = .healthy ∧ m ≠ n)

def markDeadIfSafe (w : World ν) (n : ν) : World ν :=
  if healthyExcluding nodes w n < factor then w
  else if w.status n = .dead then w
  else { w with status := update w.status n .dead }

def step (w : World ν) : Event ν → Option (World ν)
  | .readNode n => some { w with checks := w.checks ++ [(n, w.status n)] }
  | .writeStatus k r now => match w.checks[k]? with
    | none => none
    | some (n, seen) =>
      let rest := { w with checks := w.checks.eraseIdx k }
      if seen = .dead then some rest
      else some (rest.write n (checkedStatus host threshold release seen r) (if r.healthy then none else some ((w.unavailableSince n).getD now)))
  | .fanoutFailed n => some { w with status := update w.status n .unavailable }
  | .markNodeUnavailable n now => some (if w.status n = .dead then w else w.write n .unavailable (some ((w.unavailableSince n).getD now)))
  | .findDeadCandidates cutoff =>
    some { w with candidates := nodes.filter fun n => decide (w.status n = .unavailable) && (w.unavailableSince n).any (· ≤ cutoff) }
  | .drain n => if w.status n = .dead then none else some { w with candidates := n :: w.candidates }
  | .markDeadIfSafe => match w.candidates with
    | [] => none
    | n :: rest => some { markDeadIfSafe nodes factor w n with candidates := rest }

/-- Dead nodes stay dead, and a node is marked dead only beside enough healthy ones. -/
structure Final (w next : World ν) : Prop where
  stays : ∀ n, w.status n = .dead → next.status n = .dead
  safe : ∀ n, w.status n ≠ .dead → next.status n = .dead → factor ≤ healthyExcluding nodes w n

/-- No fan-out failure of a dead node, and no health check that read the node before it was dead. -/
def Guarded (w : World ν) : Event ν → Prop
  | .writeStatus k _ _ => ∀ n seen, w.checks[k]? = some (n, seen) → seen ≠ .dead → w.status n ≠ .dead
  | .fanoutFailed n => w.status n ≠ .dead
  | _ => True

variable {nodes factor host threshold release} {w next : World ν} {n : ν}

theorem checkedAlive (seen : Status) (r : Probe) : checkedStatus host threshold release seen r ≠ .dead := by
  unfold checkedStatus
  repeat' split
  all_goals exact nofun

theorem finalKept (same : next.status = w.status) : Final nodes factor w next :=
  ⟨fun _ dead => same ▸ dead,fun _ alive dead => absurd (same ▸ dead) alive⟩

theorem finalWritten {s} (alive : s ≠ .dead) (written : next.status = update w.status n s) : Final nodes factor w next ↔ w.status n ≠ .dead := by
  constructor
  · intro final dead
    have still := final.stays n dead
    rw [written,update_self] at still
    exact alive still
  · intro living
    refine ⟨fun m dead => ?_,fun m other dead => ?_⟩
    · have apart : m ≠ n := fun same => living (same ▸ dead)
      rw [written,update_of_ne apart]
      exact dead
    rw [written,update_apply] at dead
    split at dead
    · exact absurd dead alive
    · exact absurd dead other

theorem finalMarked (w : World ν) (n : ν) : Final nodes factor w (markDeadIfSafe nodes factor w n) := by
  unfold markDeadIfSafe
  split
  · exact finalKept rfl
  rename_i enough
  split
  · exact finalKept rfl
  refine ⟨fun m dead => ?_,fun m other dead => ?_⟩
  · dsimp only
    rw [update_apply]
    split
    · rfl
    · exact dead
  · dsimp only at dead
    rw [update_apply] at dead
    split at dead
    · rename_i here
      exact here ▸ Nat.not_lt.mp enough
    · exact absurd dead other

theorem stepFinal (e : Event ν) : (∀ next, step nodes factor host threshold release w e = some next → Final nodes factor w next) ↔
    Guarded w e := by
  cases e with
  | readNode n | findDeadCandidates cutoff =>
    simp only [step,Option.some.injEq,forall_eq']
    exact iff_true_intro (finalKept rfl)
  | drain n =>
    refine iff_true_intro fun next stepped => ?_
    rw [step] at stepped
    split at stepped <;> cases stepped
    exact finalKept rfl
  | writeStatus k r now =>
    simp only [step,Guarded]
    cases w.checks[k]? with
    | none => simp
    | some check =>
      obtain ⟨n,seen⟩ := check
      by_cases dead : seen = .dead
      · simp only [dead,if_true,Option.some.injEq,forall_eq']
        refine iff_of_true (finalKept rfl) ?_
        rintro _ _ ⟨⟩ alive
        exact absurd rfl alive
      · simp only [dead,if_false,Option.some.injEq,forall_eq']
        refine (finalWritten (checkedAlive seen r) rfl).trans ⟨fun alive => ?_,fun guarded => guarded n seen rfl dead⟩
        rintro _ _ ⟨⟩ _
        exact alive
  | fanoutFailed n =>
    simp only [step,Option.some.injEq,forall_eq']
    exact finalWritten (s := .unavailable) nofun rfl
  | markNodeUnavailable n now =>
    simp only [step,Option.some.injEq,forall_eq']
    refine iff_true_intro ?_
    split
    · exact finalKept rfl
    · rename_i alive
      exact (finalWritten (s := .unavailable) nofun rfl).mpr alive
  | markDeadIfSafe =>
    refine iff_true_intro fun next stepped => ?_
    rw [step] at stepped
    split at stepped <;> cases stepped
    exact ⟨(finalMarked w _).stays,(finalMarked w _).safe⟩

/-- A run keeps dead nodes dead exactly if no fan-out failure and no late health check writes to one. -/
theorem deadFinal {events : List (Event ν)} :
    Along (step nodes factor host threshold release) (fun w e => ∀ next, step nodes factor host threshold release w e = some next →
      Final nodes factor w next) w events ↔
      Along (step nodes factor host threshold release) Guarded w events :=
  Iff.of_eq (congrArg (Along _ · w events) (funext₂ fun _ e => propext (stepFinal e)))

end

/-! Storage pressure: a node that was found full is healthy again once it is below the release. -/

/-- The configured thresholds, where they are numbers. -/
def loadStoragePressureThresholds (host : Host) (configured : Option Rat × Option Rat) : Rat × Rat :=
  let threshold := (configured.1.filter fun f => 0 < f ∧ f ≤ 100).getD 90
  let release := (configured.2.filter fun f => 0 ≤ f ∧ f ≤ 100).getD 85
  (threshold, if threshold ≤ release then max (host.below threshold) 0 else release)

section
variable {ν : Type} [DecidableEq ν] (nodes : List ν) (factor : Nat) (host : Host) (limits : Rat × Rat) (n : ν)

abbrev Full (r : Probe) : Prop := 0 < r.capacityTotal ∧ limits.1 ≤ host.usage r

-- What a probe reports is compared without rounding.
abbrev Released (r : Probe) : Prop := r.healthy = true ∧ 0 < r.capacityTotal ∧ 100 * (r.capacityUsed : Rat) < limits.2 * r.capacityTotal

/-- The node was found full and marked so, and no probe since has reported it below the release. -/
def pressed (w : World ν) (before : Bool) : Event ν → Bool
  | .writeStatus k r _ => match w.checks[k]? with
    | none => before
    | some (m, seen) =>
      if m ≠ n then before
      else if seen ≠ .dead ∧ r.healthy = true ∧ r.latencyMs ≤ 1000 ∧ Full host limits r then true
      else before && !decide (Released limits r)
  | _ => before

def track (s : World ν × Bool) (e : Event ν) : Option (World ν × Bool) :=
  (step nodes factor host limits.1 limits.2 s.1 e).map (·, pressed host limits n s.1 s.2 e)

def Held (s : World ν × Bool) : Prop := s.2 = true → s.1.status n ≠ .healthy

/-- A reachable, fast probe that is not below the release is written by a check that read the pressure and computes that too,
or is at or above the threshold. -/
def Remembers (s : World ν × Bool) : Event ν → Prop
  | .writeStatus k r _ => s.2 = true → ∀ seen, s.1.checks[k]? = some (n, seen) → seen ≠ .dead → r.healthy = true → r.latencyMs ≤ 1000 →
      ¬ Released limits r → 0 < r.capacityTotal ∧ (seen = .storagePressure ∧ limits.2 ≤ host.usage r ∨ Full host limits r)
  | _ => True

variable {nodes factor host limits n} {s : World ν × Bool}

theorem checkedHealthy {seen r} : checkedStatus host limits.1 limits.2 seen r = .healthy ↔ r.healthy = true ∧ r.latencyMs ≤ 1000 ∧
    ¬ Full host limits r ∧ (seen = .storagePressure → 0 < r.capacityTotal → ¬ limits.2 ≤ host.usage r) := by
  unfold checkedStatus Full
  grind

theorem heldWritten {next m} (written : Status) (held : Held n s) (same : next.2 = s.2) (other : written ≠ .healthy)
    (overwritten : next.1.status = update s.1.status m written) : Held n next := by
  intro set healthy
  rw [overwritten,update_apply] at healthy
  split at healthy
  · exact other healthy
  · exact held (same ▸ set) healthy

/-- Whatever else is written to a node is not that it is healthy. -/
theorem othersHeld {e next} (held : Held n s) (other : ∀ k r now, e ≠ .writeStatus k r now)
    (stepped : track nodes factor host limits n s e = some next) :
    Held n next := by
  obtain ⟨w,after,rfl⟩ := Option.map_eq_some_iff.mp stepped
  cases e with
  | writeStatus k r now => exact absurd rfl (other k r now)
  | readNode m | findDeadCandidates cutoff =>
    cases after
    exact held
  | drain m =>
    rw [step] at after
    split at after <;> cases after
    exact held
  | fanoutFailed m =>
    cases after
    exact heldWritten .unavailable held rfl nofun rfl
  | markNodeUnavailable m now =>
    cases after
    split
    · exact held
    · exact heldWritten .unavailable held rfl nofun rfl
  | markDeadIfSafe =>
    rw [step] at after
    split at after <;> cases after
    unfold markDeadIfSafe
    split
    · exact held
    split
    · exact held
    · exact heldWritten .dead held rfl nofun rfl

theorem stepHeld {e} (held : Held n s) : (∀ next, track nodes factor host limits n s e = some next → Held n next) ↔
    Remembers host limits n s e := by
  cases e with
  | writeStatus k r now =>
    obtain ⟨w,before⟩ := s
    simp only [track,step,pressed,Remembers]
    cases w.checks[k]? with
    | none => simp
    | some check =>
      obtain ⟨m,seen⟩ := check
      by_cases here : m = n
      · by_cases dead : seen = .dead
        · simp [Held,here,dead] at held ⊢
          grind
        have measured : Full host limits r → 0 < r.capacityTotal := And.left
        simp only [here,dead,Held,World.write,ne_eq,not_true,not_false_eq_true,if_false,true_and,Option.map_some,
          Option.some.injEq,Prod.mk.injEq,forall_eq',
          update_self,checkedHealthy]
        by_cases full : Full host limits r <;> grind
      · simp only [here,ne_eq,not_false_eq_true,if_true,Option.some.injEq,Prod.mk.injEq,false_and,false_implies,implies_true,iff_true]
        split <;> rintro _ ⟨⟩
        · exact held
        · exact fun set healthy => held set ((update_of_ne (Ne.symm here) _ w.status).symm.trans healthy)
  | _ => exact iff_true_intro fun next stepped => othersHeld held (by simp) stepped

/-- A node that was found full turns healthy only below the release, exactly if every fast probe that is not below it
is written by a check that read the pressure and computes no less than the release, or is found full itself. -/
theorem pressureReleased {w events} : Throughout (track nodes factor host limits n) (Held n) (w, false) events ↔
    Along (track nodes factor host limits n) (Remembers host limits n) (w, false) events :=
  throughoutIff stepHeld nofun

end

def exactly : Host := ⟨fun used total => 100 * used / total, fun threshold => threshold - 5⟩

def outage : World (Fin 3) := ⟨fun n => if n = 2 then .unavailable else .healthy, fun n => if n = 2 then some 0 else none, [], []⟩

-- The probe succeeds while the node is being marked.
theorem lateCheck : ∃ w, run (step [0, 1, 2] 2 exactly 90 85) outage [.readNode 2, .findDeadCandidates 10, .markDeadIfSafe] = some w ∧
    w.status 2 = .dead ∧
    (∃ w', run (step [0, 1, 2] 2 exactly 90 85) w [.writeStatus 0 ⟨true, 5, 0, 0⟩ 11] = some w' ∧ w'.status 2 = .healthy) ∧
    ∃ w', run (step [0, 1, 2] 2 exactly 90 85) w [.fanoutFailed 2] = some w' ∧ w'.status 2 = .unavailable := by
  decide +kernel

-- A failed write in between makes the check forget the pressure.
theorem pressureForgotten : ∃ s, run (track [0, 1, 2] 2 exactly (loadStoragePressureThresholds exactly (none, none)) 0) (outage, false)
    [.readNode 0, .writeStatus 0 ⟨true, 5, 100, 95⟩ 1, .fanoutFailed 0, .readNode 0, .writeStatus 0 ⟨true, 5, 100, 87⟩ 2] = some s ∧
    s.2 = true ∧ s.1.status 0 = .healthy := by
  decide +kernel

end MaxIOFS.NodeHealth
