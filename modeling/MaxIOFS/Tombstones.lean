import MaxIOFS.DeletionLog
import MaxIOFS.Runs

/-! Tombstones on their way between the nodes of a cluster. A node sends its whole log, the
receiver records every tombstone anew; a node that was stale exchanges tombstones with a
peer; old ones are cleaned up. Requests in flight are handled in any order, entry by entry,
and may be lost. -/
namespace MaxIOFS.Tombstones
open OrderedStore ByteString DeletionLog Runs Option

structure Reconciliation where
  (localTombstones pending : List DeletionEntry)

structure Node where
  log : Log
  entities : Entities
  reconciliation : Option Reconciliation

structure Message (ν : Type) where
  target : ν
  entries : List DeletionEntry

structure World (ν : Type) where
  clock : Int
  nodes : ν → Node
  flight : List (Message ν)

inductive Event (ν : Type) where
  | tick (nanoseconds : Nat)
  | syncAllDeletions (source : ν) (healthy : List ν)
  | receive (request : Nat) (id : Bytes)
  | lose (request : Nat)
  | buildLocalSnapshot (node : ν)
  | reconcileWithPeer (node peer : ν)
  | applyRemoteTombstone (node : ν) (id : Bytes)
  | skipRemoteTombstone (node : ν)
  | cleanup (node : ν)
  | updateEntities (node : ν) (entities : Entities)

def receiveEntry (now : Int) (id : Bytes) (e : DeletionEntry) (n : Node) : Node :=
  if entityIsNewerThanTombstone n.entities e then n
  else { n with log := n.log.recordDeletion id e.key e.deletedByNodeID now }

section
variable {ν : Type} [DecidableEq ν] (maxAge : Nat) (w : World ν)

def World.put (i : ν) (n : Node) : World ν := { w with nodes := Function.update w.nodes i n }

def handled (request : Nat) : List (Message ν) := w.flight.modify request (fun m => { m with entries := m.entries.tail })

def step : Event ν → Option (World ν)
  | .tick nanoseconds => some { w with clock := w.clock + nanoseconds }
  | .syncAllDeletions source healthy =>
    let entries := (w.nodes source).log.rows
    some { w with flight := w.flight ++ (healthy.filter (· ≠ source)).map (⟨·, entries⟩) }
  | .receive request id => do
    let m ← w.flight[request]?
    let e ← m.entries.head?
    some { w.put m.target (receiveEntry w.clock id e (w.nodes m.target)) with flight := handled w request }
  | .lose request => some { w with flight := handled w request }
  | .buildLocalSnapshot i => some (w.put i { w.nodes i with reconciliation := some ⟨(w.nodes i).log.rows, []⟩ })
  | .reconcileWithPeer i peer => do
    let r ← (w.nodes i).reconciliation
    let remote := (w.nodes peer).log.rows
    let next := w.put i { w.nodes i with reconciliation := some { r with pending := remoteTombstones remote r.localTombstones } }
    some { next with flight := w.flight ++ [⟨peer, tombstonesToPeer r.localTombstones remote⟩] }
  | .applyRemoteTombstone i id => do
    let r ← (w.nodes i).reconciliation
    let e ← r.pending.head?
    some (w.put i { receiveEntry w.clock id e (w.nodes i) with reconciliation := some { r with pending := r.pending.tail } })
  | .skipRemoteTombstone i => do
    let r ← (w.nodes i).reconciliation
    some (w.put i { w.nodes i with reconciliation := some { r with pending := r.pending.tail } })
  | .cleanup i => some (w.put i { w.nodes i with log := (w.nodes i).log.cleanupOldDeletions w.clock maxAge })
  | .updateEntities i entities => some (w.put i { w.nodes i with entities := entities })

def World.find (i : ν) (key : Key) : Option DeletionEntry := (w.nodes i).log.find key

def admitted (i : ν) (e : DeletionEntry) : Option (ν × Key) :=
  if entityIsNewerThanTombstone (w.nodes i).entities e then none else some (i, e.key)

def recorded : Event ν → Option (ν × Key)
  | .receive request _ => do
    let m ← w.flight[request]?
    let e ← m.entries.head?
    admitted w m.target e
  | .applyRemoteTombstone i _ => do
    let r ← (w.nodes i).reconciliation
    let e ← r.pending.head?
    admitted w i e
  | _ => none

end

section
variable {ν : Type} [DecidableEq ν] {maxAge : Nat} {w w' : World ν} {event : Event ν} {i : ν} {key : Key}

inductive Change (maxAge : Nat) (w w' : World ν) (event : Event ν) (i : ν) (key : Key) : Prop
  | recorded (here : recorded w event = some (i, key)) (dated : ∃ e, w'.find i key = some e ∧ e.deletedAt = unix w.clock)
  | cleaned (own : event = .cleanup i)
      (left : ∀ e, w'.find i key = some e ↔ w.find i key = some e ∧ unix (w.clock - maxAge) ≤ e.deletedAt)
  | same (kept : w'.find i key = w.find i key) (unrecorded : recorded w event ≠ some (i, key)) (other : event ≠ .cleanup i)

theorem findPut {n} (j : ν) : (w.put j n).find i key = if i = j then n.log.find key else w.find i key := by
  change (Function.update w.nodes j n i).log.find key = _
  rw [Function.update_apply]
  split <;> rfl

theorem putSame {n j} (log : n.log = (w.nodes j).log) : (w.put j n).find i key = w.find i key := by
  rw [findPut]
  split
  · rename_i own
    rw [own,log]
    rfl
  · rfl

theorem receiveChange (i : ν) (key : Key) {e id j n} (log : n.log = (receiveEntry w.clock id e (w.nodes j)).log) :
    (admitted w j e = some (i, key) ∧ ∃ e', (w.put j n).find i key = some e' ∧ e'.deletedAt = unix w.clock) ∨
      (admitted w j e ≠ some (i, key) ∧ (w.put j n).find i key = w.find i key) := by
  unfold receiveEntry at log
  unfold admitted
  split at log
  · rename_i newer
    rw [if_pos newer]
    exact .inr ⟨nofun,putSame log⟩
  rename_i newer
  rw [if_neg newer,findPut]
  split
  · rename_i own
    subst own
    rw [log]
    by_cases same : e.key = key
    · subst same
      exact .inl ⟨rfl,Log.findRecorded id e.key e.deletedByNodeID w.clock _⟩
    · exact .inr ⟨fun here => same (Prod.mk.inj (some.inj here)).2,Log.findOther same⟩
  · rename_i other
    exact .inr ⟨fun here => other (Prod.mk.inj (some.inj here)).1.symm,rfl⟩

theorem stepChange (stepped : step maxAge w event = some w') (i : ν) (key : Key) : Change maxAge w w' event i key := by
  cases event with
  | tick n | syncAllDeletions source healthy | lose request =>
    cases stepped
    exact .same rfl nofun nofun
  | buildLocalSnapshot j | updateEntities j entities =>
    cases stepped
    exact .same (putSame rfl) nofun nofun
  | cleanup j =>
    cases stepped
    by_cases own : i = j
    · subst own
      refine .cleaned rfl fun e => ?_
      rw [findPut,if_pos rfl]
      exact Log.findCleaned
    · refine .same ?_ nofun fun same => own (Event.cleanup.inj same).symm
      rw [findPut,if_neg own]
  | receive request id =>
    obtain ⟨m,sent,e,head,rest⟩ : ∃ m, w.flight[request]? = some m ∧ ∃ e, m.entries.head? = some e ∧ _ := by
      simpa only [step,bind,bind_eq_some_iff] using stepped
    cases rest
    have log : (receiveEntry w.clock id e (w.nodes m.target)).log = (receiveEntry w.clock id e (w.nodes m.target)).log := rfl
    rcases receiveChange i key log with ⟨here,dated⟩ | ⟨unrecorded,same⟩
    · refine .recorded ?_ dated
      simp only [recorded,bind,sent,head,bind_some,here]
    · refine .same same ?_ nofun
      simpa only [recorded,bind,sent,head,bind_some] using unrecorded
  | applyRemoteTombstone j id =>
    obtain ⟨r,stale,e,head,rest⟩ : ∃ r, (w.nodes j).reconciliation = some r ∧ ∃ e, r.pending.head? = some e ∧ _ := by
      simpa only [step,bind,bind_eq_some_iff] using stepped
    cases rest
    have log : ({ receiveEntry w.clock id e (w.nodes j) with reconciliation := some { r with pending := r.pending.tail } } : Node).log =
      (receiveEntry w.clock id e (w.nodes j)).log := rfl
    rcases receiveChange i key log with ⟨here,dated⟩ | ⟨unrecorded,same⟩
    · refine .recorded ?_ dated
      simp only [recorded,bind,stale,head,bind_some,here]
    · refine .same same ?_ nofun
      simpa only [recorded,bind,stale,head,bind_some] using unrecorded
  | reconcileWithPeer j peer =>
    obtain ⟨r,stale,rest⟩ : ∃ r, (w.nodes j).reconciliation = some r ∧ _ := by
      simpa only [step,bind,bind_eq_some_iff] using stepped
    cases rest
    exact .same (putSame rfl) nofun nofun
  | skipRemoteTombstone j =>
    obtain ⟨r,stale,rest⟩ : ∃ r, (w.nodes j).reconciliation = some r ∧ _ := by
      simpa only [step,bind,bind_eq_some_iff] using stepped
    cases rest
    exact .same (putSame rfl) nofun nofun

theorem clockForward (stepped : step maxAge w event = some w') : w.clock ≤ w'.clock := by
  cases event with
  | tick n =>
    cases stepped
    exact Int.le_add_of_nonneg_right (Int.natCast_nonneg n)
  | syncAllDeletions _ _ | lose _ | buildLocalSnapshot _ | updateEntities _ _ | cleanup _ =>
    cases stepped
    exact Int.le_refl _
  | receive _ _ | applyRemoteTombstone _ _ | reconcileWithPeer _ _ | skipRemoteTombstone _ =>
    simp only [step,bind,bind_eq_some_iff] at stepped
    grind [World.put]

section
variable (maxAge : Nat) (key : Key) (d : Int)

def Dated (w : World ν) : Prop := ∀ i e, w.find i key = some e → e.deletedAt = d

def Passed (w : World ν) : Prop := d < unix (w.clock - maxAge)

def Prompt (w : World ν) (event : Event ν) : Prop := ∀ i, recorded w event = some (i, key) → unix w.clock = d

structure DiesOut (start : World ν) (events : List (Event ν)) : Prop where
  dated : Throughout (step maxAge) (Dated key d) start events
  gone : ∀ {first later : List (Event ν)}, first ++ later <+: events → ∀ {w w'}, run (step maxAge) start first = some w →
    Passed maxAge d w → run (step maxAge) w later = some w' → ∀ i, .cleanup i ∈ later → w'.find i key = none

end

variable {d : Int}

theorem datedStep (dated : Dated key d w) (prompt : Prompt key d w event) (stepped : step maxAge w event = some w') : Dated key d w' := by
  intro i e found
  rcases stepChange stepped i key with ⟨here,_,found',at_⟩ | ⟨_,left⟩ | ⟨kept,_⟩
  · cases (found.symm.trans found')
    exact at_.trans (prompt i here)
  · exact dated i e ((left e).mp found).1
  · exact dated i e (kept.symm.trans found)

theorem passedStep (passed : Passed maxAge d w) (stepped : step maxAge w event = some w') : Passed maxAge d w' := by
  have later := clockForward stepped
  unfold Passed unix at passed ⊢
  omega

omit [DecidableEq ν] in
theorem lateUnrecorded (passed : Passed maxAge d w) (prompt : Prompt key d w event) (i : ν) : recorded w event ≠ some (i, key) := by
  intro here
  have now := prompt i here
  unfold Passed at passed
  unfold unix at passed now
  omega

theorem cleanedStays (passed : Passed maxAge d w) (prompt : Prompt key d w event) (gone : w.find i key = none)
    (stepped : step maxAge w event = some w') : w'.find i key = none := by
  rcases stepChange stepped i key with ⟨here,_⟩ | ⟨_,left⟩ | ⟨kept,_⟩
  · exact absurd here (lateUnrecorded passed prompt i)
  · cases found : w'.find i key with
    | none => rfl
    | some e =>
      rw [gone] at left
      exact absurd ((left e).mp found).1 nofun
  · exact kept.trans gone

theorem cleanupRemoves (dated : Dated key d w) (passed : Passed maxAge d w) (stepped : step maxAge w (.cleanup i) = some w') :
    w'.find i key = none := by
  rcases stepChange stepped i key with ⟨_,_⟩ | ⟨_,left⟩ | ⟨_,_,other⟩
  · contradiction
  · cases found : w'.find i key with
    | none => rfl
    | some e =>
      obtain ⟨old,_⟩ := (left e).mp found
      have at_ := dated i e old
      unfold Passed at passed
      omega
  · exact absurd rfl other

theorem goneStays {later} (passed : Passed maxAge d w) (prompt : Along (step maxAge) (Prompt key d) w later)
    (gone : w.find i key = none) (ran : run (step maxAge) w later = some w') : w'.find i key = none := by
  have both : Passed maxAge d w' ∧ w'.find i key = none := Runs.runKeeps (I := fun w => Passed maxAge d w ∧ w.find i key = none)
      (fun held ok stepped => ⟨passedStep held.1 stepped,cleanedStays held.1 ok held.2 stepped⟩) ⟨passed,gone⟩ prompt ran
  exact both.2

theorem cleanedGone {later} (dated : Dated key d w) (passed : Passed maxAge d w)
    (prompt : Along (step maxAge) (Prompt key d) w later) (cleaned : .cleanup i ∈ later) (ran : run (step maxAge) w later = some w') :
    w'.find i key = none := by
  -- The induction is on the events up to the node's cleanup.
  induction later generalizing w with
  | nil => contradiction
  | cons event rest ih =>
    obtain ⟨next,stepped,onward⟩ := bind_eq_some_iff.mp ran
    have rest' := prompt.2 next stepped
    rcases List.mem_cons.mp cleaned with rfl | later
    · exact goneStays (passedStep passed stepped) rest' (cleanupRemoves dated passed stepped) onward
    · exact ih (datedStep dated prompt.1 stepped) (passedStep passed stepped) rest' later onward

theorem recordedSteps (here : recorded w event = some (i, key)) (maxAge : Nat) : ∃ w', step maxAge w event = some w' := by
  cases event with
  | receive request id =>
    simp only [recorded,bind,bind_eq_some_iff] at here
    obtain ⟨_,sent,e,head,_⟩ := here
    exact ⟨_,by simp only [step,bind,sent,head,bind_some]; rfl⟩
  | applyRemoteTombstone j id =>
    simp only [recorded,bind,bind_eq_some_iff] at here
    obtain ⟨_,stale,_,head,_⟩ := here
    exact ⟨_,by simp only [step,bind,stale,head,bind_some]; rfl⟩
  | _ => contradiction

theorem promptOfDated {events} (dated : Throughout (step maxAge) (Dated key d) w events) : Along (step maxAge) (Prompt key d) w events := by
  induction events generalizing w with
  | nil => trivial
  | cons event rest ih =>
    refine ⟨fun i here => ?_,fun next stepped => ih (dated.next stepped)⟩
    obtain ⟨_,stepped⟩ := recordedSteps here maxAge
    rcases stepChange stepped i key with ⟨_,e,found,at_⟩ | ⟨own,_⟩ | ⟨_,unrecorded,_⟩
    · exact at_.symm.trans ((dated.next stepped).here i e found)
    · subst own
      contradiction
    · exact absurd here unrecorded

/-- A tombstone keeps its time and dies out exactly in the runs in which no node records it in a later second. -/
theorem tombstoneDiesOut {start} (deleted : Dated key d start) (events : List (Event ν)) :
    DiesOut maxAge key d start events ↔ Along (step maxAge) (Prompt key d) start events := by
  refine ⟨fun dies => promptOfDated dies.dated,fun prompt => ⟨throughoutKeeps datedStep deleted prompt,?_⟩⟩
  rintro first later ⟨rest,rfl⟩ w w' ran passed onward i cleaned
  have front := alongFront prompt
  have dated : Dated key d w := Runs.runKeeps datedStep deleted (alongFront front) ran
  exact cleanedGone dated passed (alongBack front ran) cleaned onward

end

/-! Two nodes; a user is deleted on the first at the tenth second, and tombstones are kept for a week. -/

def week : Nat := 7 * 24 * 60 * 60 * 1000000000

def userKey : Key := (ascii "user", ascii "u")

def seconds (n : Nat) : Event Bool := .tick (n * 1000000000)

def noEntities : Entities := ⟨empty, empty, empty, empty, empty⟩

def deletedOnce : World Bool where
  clock := 10 * 1000000000
  nodes first := ⟨if first then Log.empty.recordDeletion (ascii "t") userKey (ascii "n") (10 * 1000000000) else Log.empty, noEntities, none⟩
  flight := []

theorem deletedOnceDated : Dated userKey 10 deletedOnce := by
  intro first e found
  cases first with
  | true =>
    have there : deletedOnce.find true userKey = some ⟨ascii "t",ascii "user",ascii "u",ascii "n",10⟩ := by decide +kernel
    cases (there.symm.trans found)
    rfl
  | false =>
    have none_ : deletedOnce.find false userKey = none := by decide +kernel
    rw [none_] at found
    contradiction

def toldAtOnce : List (Event Bool) := [.syncAllDeletions true [true, false], .receive 0 (ascii "s"), seconds 604801, .cleanup true, .cleanup false]

def promptly (w : World Bool) (event : Event Bool) : Bool := match recorded w event with
  | some (_, key) => decide (key = userKey → unix w.clock = 10)
  | none => true

theorem toldAtOnceDiesOut : DiesOut week userKey 10 deletedOnce toldAtOnce := by
  have passed : Runs.checked (step week) promptly deletedOnce toldAtOnce = true := by decide +kernel
  refine (tombstoneDiesOut deletedOnceDated toldAtOnce).mpr
    (Runs.alongChecked (fun {w event} _ _ ok i here => ?_) (fun _ _ _ => trivial) (fun _ _ => trivial) trivial passed)
  rw [promptly,here] at ok
  exact of_decide_eq_true ok rfl

-- The tombstone is received five seconds later; a week on, both nodes clean up and the second tells the first.
def toldLater : List (Event Bool) := [.syncAllDeletions true [true, false], seconds 5, .receive 0 (ascii "s"), seconds 604796]
def toldAgain : List (Event Bool) := [.cleanup true, .cleanup false, .syncAllDeletions false [true, false], .receive 1 (ascii "r")]

theorem tombstoneRefreshed : Dated userKey 10 deletedOnce ∧
    ∃ w w', run (step week) deletedOnce toldLater = some w ∧ ¬ Dated userKey 10 w ∧ Passed week 10 w ∧
      run (step week) w toldAgain = some w' ∧ w'.find true userKey ≠ none := by
  refine ⟨deletedOnceDated,?_⟩
  obtain ⟨w,first,late,cut,w',second,held⟩ : ∃ w, run (step week) deletedOnce toldLater = some w ∧
      (∃ e, w.find false userKey = some e ∧ e.deletedAt = 15) ∧ unix (w.clock - week) = 11 ∧
      ∃ w', run (step week) w toldAgain = some w' ∧ w'.find true userKey ≠ none := by
    decide +kernel
  refine ⟨w,w',first,fun dated => ?_,?_,second,held⟩
  · obtain ⟨e,found,_⟩ := late
    have ten := dated false e found
    omega
  · unfold Passed
    omega

end MaxIOFS.Tombstones
