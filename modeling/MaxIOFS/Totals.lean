import MaxIOFS.OrderedStore

/-! The weight of an ordered store: the sum of what its bindings weigh. A write or a removal
changes the sum by what stood at its key. -/
namespace MaxIOFS.Totals
open OrderedStore ByteString

variable {κ β : Type} [LinearOrder κ]

def sumOf (weight : κ → β → Int) (entries : List (κ × β)) : Int := (entries.map (fun e => weight e.1 e.2)).sum

def weightOf (weight : κ → β → Int) (k : κ) (found : Option β) : Int := (found.map (weight k)).getD 0

def total (weight : κ → β → Int) (m : Store κ β) : Int := sumOf weight m.entries

section
variable {weight : κ → β → Int} {entries : List (κ × β)}

theorem lookupBelow {k} (above : ∀ e ∈ entries, k < e.1) : lookup k entries = none := by
  induction entries with
  | nil => rfl
  | cons head rest ih =>
    rw [lookup,if_neg (above head List.mem_cons_self).ne',ih fun e mem => above e (List.mem_cons_of_mem _ mem)]

theorem sumInsert (weight : κ → β → Int) (k : κ) (v : β) (sorted : Sorted entries) :
    sumOf weight (insertEntry k v entries) + weightOf weight k (lookup k entries) = sumOf weight entries + weight k v := by
  induction entries with
  | nil => simp [insertEntry,sumOf,weightOf,lookup]
  | cons head rest ih =>
    obtain ⟨above,tail⟩ := List.pairwise_cons.mp sorted
    rw [insertEntry]
    split
    · rename_i less
      rw [lookupBelow]
      · simp [sumOf,weightOf,Int.add_comm]
      intro e mem
      rcases List.mem_cons.mp mem with rfl | inside
      · exact less
      · exact less.trans (above e inside)
    · split
      · rename_i greater
        have step := ih tail
        rw [lookup,if_neg greater.ne]
        simp only [sumOf,List.map_cons,List.sum_cons] at step ⊢
        omega
      · rename_i notLess notGreater
        have same : k = head.1 := le_antisymm (not_lt.mp notGreater) (not_lt.mp notLess)
        subst same
        rw [lookup,if_pos rfl]
        simp only [sumOf,weightOf,List.map_cons,List.sum_cons,Option.map_some,Option.getD_some]
        omega

theorem sumDelete (weight : κ → β → Int) (k : κ) (sorted : Sorted entries) :
    sumOf weight (entries.filter (fun e => decide (e.1 ≠ k))) + weightOf weight k (lookup k entries) = sumOf weight entries := by
  induction entries with
  | nil => simp [weightOf,lookup]
  | cons head rest ih =>
    obtain ⟨above,tail⟩ := List.pairwise_cons.mp sorted
    have step := ih tail
    by_cases here : head.1 = k
    · subst here
      rw [List.filter_cons_of_neg (by simp),lookup,if_pos rfl]
      rw [lookupBelow above] at step
      simp only [sumOf,weightOf,List.map_cons,List.sum_cons,Option.map_some,Option.map_none,Option.getD_some,Option.getD_none] at step ⊢
      omega
    · rw [List.filter_cons_of_pos (by simp [here]),lookup,if_neg here]
      simp only [sumOf,List.map_cons,List.sum_cons] at step ⊢
      omega

end

section
variable {weight : κ → β → Int} {m : Store κ β}

theorem totalSet (weight : κ → β → Int) (m : Store κ β) (k : κ) (v : β) :
    total weight (m.set k v) = total weight m - weightOf weight k (m.get k) + weight k v := by
  have balance := sumInsert weight k v m.sorted
  change sumOf weight (insertEntry k v m.entries) = sumOf weight m.entries - weightOf weight k (lookup k m.entries) + weight k v
  omega

theorem totalDelete (weight : κ → β → Int) (m : Store κ β) (k : κ) : total weight (m.delete k) = total weight m - weightOf weight k (m.get k) := by
  have balance := sumDelete weight k m.sorted
  change sumOf weight (m.entries.filter fun e => decide (e.1 ≠ k)) = sumOf weight m.entries - weightOf weight k (lookup k m.entries)
  omega

theorem totalZero (weightless : ∀ k v, m.get k = some v → weight k v = 0) : total weight m = 0 := by
  refine List.sum_eq_zero fun x mem => ?_
  obtain ⟨e,inside,rfl⟩ := List.mem_map.mp mem
  exact weightless e.1 e.2 (Store.memEntries.mp inside)

section
variable (heavy : ∀ k v, m.get k = some v → 0 ≤ weight k v)
include heavy

theorem totalNonneg : 0 ≤ total weight m := by
  refine List.sum_nonneg fun x mem => ?_
  obtain ⟨e,inside,rfl⟩ := List.mem_map.mp mem
  exact heavy e.1 e.2 (Store.memEntries.mp inside)

theorem weightLe (k : κ) : weightOf weight k (m.get k) ≤ total weight m := by
  have rest : 0 ≤ total weight (m.delete k) := totalNonneg fun q v found => by
    rw [Store.getDelete] at found
    split at found <;> try contradiction
    exact heavy q v found
  rw [totalDelete] at rest
  omega

end

theorem totalSetAll {bindings} (distinct : (bindings.map Prod.fst).Nodup)
    (same : ∀ e ∈ bindings, weightOf weight e.1 (m.get e.1) = weight e.1 e.2) : total weight (m.setAll bindings) = total weight m := by
  induction bindings generalizing m with
  | nil => rfl
  | cons e rest ih =>
    obtain ⟨fresh,distinct⟩ := List.nodup_cons.mp distinct
    have first := same e List.mem_cons_self
    refine (ih distinct fun f mem => ?_).trans ?_
    · have other : e.1 ≠ f.1 := fun equal => fresh (List.mem_map.mpr ⟨f,mem,equal.symm⟩)
      rw [Store.getSetOther m e.2 other]
      exact same f (List.mem_cons_of_mem _ mem)
    · rw [totalSet]
      omega

theorem weightSetAll {bindings} (distinct : (bindings.map Prod.fst).Nodup)
    (same : ∀ e ∈ bindings, weightOf weight e.1 (m.get e.1) = weight e.1 e.2) (k : κ) :
    weightOf weight k ((m.setAll bindings).get k) = weightOf weight k (m.get k) := by
  by_cases written : ∃ e ∈ bindings, e.1 = k
  · obtain ⟨e,mem,rfl⟩ := written
    rw [Store.getSetAll distinct mem,same e mem]
    rfl
  · rw [Store.getSetAllOther fun e mem here => written ⟨e,mem,here⟩]

end

theorem sumFilter {γ} (keep : γ → Bool) (f : γ → Int) (items : List γ) :
    (items.map (fun x => if keep x then f x else 0)).sum = ((items.filter keep).map f).sum := by
  induction items with
  | nil => rfl
  | cons x rest ih => cases kept : keep x <;> simp [kept,ih]

theorem totalScan (p : Bytes) (f : β → Int) (m : Store Bytes β) :
    total (fun q v => if p <+: q then f v else 0) m = ((m.scan p).map (fun e => f e.2)).sum := by
  unfold Store.scan Store.range
  rw [← sumFilter]
  refine congrArg List.sum (List.map_congr_left fun e _ => ?_)
  have inside := prefixRange p e.1
  refine if_congr ?_ rfl rfl
  rw [← inside]
  cases prefixEnd p <;> simp

end MaxIOFS.Totals
