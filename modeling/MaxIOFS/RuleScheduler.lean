import Mathlib

/-! The scheduler of replication rules. A tick starts the rules that are due; of the last starts it then
keeps only those of the rules it has just started, so that a rule that was not due counts as never started. -/
namespace MaxIOFS.RuleScheduler
open Function List

inductive Mode where
  | realtime | scheduled | batch
  deriving DecidableEq

structure Rule (ι : Type) where
  id : ι
  enabled : Bool
  mode : Mode
  scheduleInterval : Int

/-- The rules as a tick finds them, and the time it reads for each. -/
structure Tick (ι : Type) where
  rules : List (Rule ι)
  distinct : (rules.map Rule.id).Nodup
  now : ι → Int

def minute : Int := 60000000000

def minutes (n : Int) : Int := Int.bmod (n * minute) (2 ^ 64)

def Rule.selected {ι : Type} (rule : Rule ι) : Bool := rule.enabled && decide (rule.mode = .scheduled) && decide (0 < rule.scheduleInterval)

structure Pass (ι : Type) where
  lastSync : ι → Option Int
  activeRuleIDs : List ι

section
variable {ι : Type} [DecidableEq ι]

def visit (now : ι → Int) (s : Pass ι) (rule : Rule ι) : Pass ι :=
  if (s.lastSync rule.id).all fun last => decide (minutes rule.scheduleInterval ≤ now rule.id - last) then
    ⟨update s.lastSync rule.id (some (now rule.id)), rule.id :: s.activeRuleIDs⟩
  else s

def processScheduledRules (tick : Tick ι) (lastSync : ι → Option Int) : Pass ι :=
  let s := (tick.rules.filter Rule.selected).foldl (visit tick.now) ⟨lastSync, []⟩
  { s with lastSync := fun id => if id ∈ s.activeRuleIDs then s.lastSync id else none }

def ruleScheduler (ticks : List (Tick ι)) : ι → Option Int :=
  ticks.foldl (fun lastSync tick => (processScheduledRules tick lastSync).lastSync) (fun _ => none)

def started (before : List (Tick ι)) (tick : Tick ι) : List ι := (processScheduledRules tick (ruleScheduler before)).activeRuleIDs

def Tick.Has (tick : Tick ι) (id : ι) (n : Int) : Prop := ∃ rule ∈ tick.rules, rule.selected = true ∧ rule.id = id ∧ rule.scheduleInterval = n

/-- From a start on, while the rule stays as it is, it is started again at the first tick that is n minutes later. -/
def Punctual (ticks : List (Tick ι)) : Prop :=
  ∀ before a between c rest id n, ticks = before ++ a :: (between ++ c :: rest) → (∀ t ∈ a :: (between ++ [c]), t.Has id n) →
    id ∈ started before a →
    (∀ x b y, between = x ++ b :: y → id ∉ started (before ++ a :: x) b) →
    (id ∈ started (before ++ a :: between) c ↔ n * minute ≤ c.now id - a.now id)

structure Wide (ticks : List (Tick ι)) : Prop where
  fits : ∀ t ∈ ticks, ∀ id n, t.Has id n → n * minute < 2 ^ 63
  apart : ∀ before a b c rest id n, ticks = before ++ a :: b :: c :: rest → a.Has id n → b.Has id n → c.Has id n → n * minute ≤ c.now id - a.now id

variable {now : ι → Int} {s : Pass ι} {tick : Tick ι} {lastSync : ι → Option Int} {id : ι} {n : Int}

theorem visitOthers (now s) {rules : List (Rule ι)} (absent : ∀ rule ∈ rules, rule.id ≠ id) :
    (rules.foldl (visit now) s).lastSync id = s.lastSync id ∧ (id ∈ (rules.foldl (visit now) s).activeRuleIDs ↔ id ∈ s.activeRuleIDs) := by
  induction rules generalizing s with
  | nil => exact ⟨rfl,.rfl⟩
  | cons rule rules ih =>
    obtain ⟨other,absent⟩ := forall_mem_cons.mp absent
    obtain ⟨times,active⟩ := ih _ absent
    rw [foldl_cons,times,active,visit]
    split
    · exact ⟨update_of_ne other.symm ..,by simp [other.symm]⟩
    · exact ⟨rfl,.rfl⟩

def due (tick : Tick ι) (lastSync : ι → Option Int) (id : ι) (n : Int) : Prop := ∀ last, lastSync id = some last → minutes n ≤ tick.now id - last

theorem processed (lastSync) (has : tick.Has id n) : (id ∈ (processScheduledRules tick lastSync).activeRuleIDs ↔ due tick lastSync id n) ∧
    (processScheduledRules tick lastSync).lastSync id = if id ∈ (processScheduledRules tick lastSync).activeRuleIDs then some (tick.now id)
    else none := by
  obtain ⟨rule,mem,chosen,rfl,rfl⟩ := has
  obtain ⟨front,_,split⟩ := append_of_mem (mem_filter.mpr ⟨mem,chosen⟩)
  have distinct : ((tick.rules.filter Rule.selected).map Rule.id).Nodup := tick.distinct.sublist (filter_sublist.map _)
  rw [split,map_append,map_cons,nodup_middle,nodup_cons,mem_append,not_or] at distinct
  obtain ⟨times,active⟩ := visitOthers tick.now ⟨lastSync,[]⟩ fun r mem same => distinct.1.1 (mem_map.mpr ⟨r,mem,same⟩)
  simp only [processScheduledRules,split,foldl_append,foldl_cons]
  obtain ⟨times',active'⟩ := visitOthers tick.now (visit tick.now (front.foldl (visit tick.now) ⟨lastSync,[]⟩) rule)
    fun r mem same => distinct.1.2 (mem_map.mpr ⟨r,mem,same⟩)
  simp only [times',active']
  simp only [visit,times]
  split
  · rename_i passed
    rw [Option.all_eq_true] at passed
    simpa [due] using passed
  rename_i waits
  rw [Option.all_eq_true] at waits
  simpa [due,active] using waits

theorem rulesPunctual {ticks : List (Tick ι)} (wide : Wide ticks) : Punctual ticks := by
  rintro before a between c rest id n rfl has first quiet
  have fits : minutes n = n * minute := by
    obtain ⟨rule,-,chosen,-,rfl⟩ := has a mem_cons_self
    have positive : 0 < rule.scheduleInterval := by simp_all [Rule.selected]
    have small := wide.fits a (by simp) _ _ (has a mem_cons_self)
    exact Int.bmod_eq_of_le (by unfold minute; omega) (by simpa using small)
  have kept : (ruleScheduler (before ++ [a])) id = some (a.now id) := by
    rw [ruleScheduler,foldl_append]
    exact ((processed _ (has a mem_cons_self)).2).trans (if_pos first)
  have chosen := (processed (ruleScheduler (before ++ a :: between)) (has c (by simp))).1
  cases between with
  | nil =>
    rw [started,chosen,due,kept]
    simp [fits]
  | cons b between =>
    have forgotten : (ruleScheduler (before ++ [a,b])) id = none := by
      have waits := quiet [] b between rfl
      rw [append_cons,ruleScheduler,foldl_append]
      exact ((processed _ (has b (by simp))).2).trans (if_neg waits)
    cases between with
    | nil =>
      have apart := wide.apart before a b c rest id n rfl (has a (by simp)) (has b (by simp)) (has c (by simp))
      rw [started,chosen,due,forgotten]
      simp [apart]
    | cons d between =>
      refine absurd ((processed _ (has d (by simp))).1.mpr fun last stored => ?_) (quiet [b] d between rfl)
      exact absurd (forgotten.symm.trans stored) nofun

end

def ticksOf (n : Int) : List (Tick Unit) := [0, 1, 2].map fun i => ⟨[⟨(), true, .scheduled, n⟩], by simp, fun _ => i * minute⟩

theorem twoMinutesKept : Punctual (ticksOf 2) := by
  have same {t id n} (mem : t ∈ ticksOf 2) (has : t.Has id n) : n = 2 := by
    obtain ⟨_,here,-,-,rfl⟩ := has
    simp only [ticksOf,map_cons,map_nil,mem_cons,not_mem_nil,or_false] at mem
    rcases mem with rfl | rfl | rfl <;> cases mem_singleton.mp here <;> rfl
  refine rulesPunctual ⟨fun t mem id n has => ?_,fun before a b c rest id n split has _ _ => ?_⟩
  · rw [same mem has]
    decide
  rw [same (split ▸ by simp) has]
  cases before with
  | nil =>
    cases split
    simp
  | cons t before => exact absurd (congrArg length split) (by simp [ticksOf]; omega)

-- The rule of three minutes, started at the first tick and forgotten at the second, is started again at the third.
theorem threeMinutesCut : ¬ Punctual (ticksOf 3) := by
  intro punctual
  have late := punctual [] _ [_] _ [] () 3 rfl (by simp [Tick.Has,Rule.selected]) (by decide) fun x b y split => by
    cases x with
    | nil =>
      cases split
      decide
    | cons t x => exact absurd (congrArg length split) (by simp)
  exact absurd (late.mp (by decide)) (by decide)

end MaxIOFS.RuleScheduler
