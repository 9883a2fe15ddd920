import MaxIOFS.ByteString

/-! An ordered key-value store: a strictly increasing list of bindings, so each key
is bound at most once and iteration follows the key order. Point operations are
characterised by what they do to `get`; a range scan by the keys it visits. -/
namespace MaxIOFS.OrderedStore
open ByteString List

variable {κ β : Type} [LinearOrder κ]

def insertEntry (k : κ) (v : β) : List (κ × β) → List (κ × β)
  | [] => [(k, v)]
  | e :: rest =>
    if k < e.1 then (k, v) :: e :: rest
    else if e.1 < k then e :: insertEntry k v rest
    else (k, v) :: rest

def lookup (k : κ) : List (κ × β) → Option β
  | [] => none
  | e :: rest => if e.1 = k then some e.2 else lookup k rest

def Sorted (entries : List (κ × β)) : Prop := entries.Pairwise (fun a b => a.1 < b.1)

theorem memInsertEntry {k v entries} {e : κ × β} (mem : e ∈ insertEntry k v entries) : e = (k, v) ∨ e ∈ entries := by
  induction entries with
  | nil => simpa [insertEntry] using mem
  | cons head rest ih =>
    simp only [insertEntry] at mem
    split at mem
    · simpa using mem
    split at mem
    · rcases mem_cons.mp mem with same | inside
      · exact .inr (by simp [same])
      rcases ih inside with new | old
      · exact .inl new
      · exact .inr (mem_cons_of_mem _ old)
    · rcases mem_cons.mp mem with same | inside
      · exact .inl same
      · exact .inr (mem_cons_of_mem _ inside)

theorem insertSorted {entries} (k : κ) (v : β) (sorted : Sorted entries) : Sorted (insertEntry k v entries) := by
  induction entries with
  | nil => simp [insertEntry,Sorted]
  | cons head rest ih =>
    obtain ⟨above,tail⟩ := pairwise_cons.mp sorted
    simp only [insertEntry]
    split
    · rename_i less
      refine pairwise_cons.mpr ⟨?_,sorted⟩
      intro e mem
      rcases mem_cons.mp mem with rfl | inside
      · exact less
      · exact less.trans (above e inside)
    · split
      · rename_i greater
        refine pairwise_cons.mpr ⟨?_,ih tail⟩
        intro e mem
        rcases memInsertEntry mem with rfl | inside
        · exact greater
        · exact above e inside
      · rename_i notLess notGreater
        have same : k = head.1 := le_antisymm (not_lt.mp notGreater) (not_lt.mp notLess)
        exact pairwise_cons.mpr ⟨fun e mem => same ▸ above e mem,tail⟩

theorem lookupInsert (k q : κ) (v : β) (entries : List (κ × β)) : lookup q (insertEntry k v entries) =
    if k = q then some v else lookup q entries := by
  induction entries with
  | nil => simp [insertEntry,lookup]
  | cons head rest ih =>
    simp only [insertEntry]
    split
    · simp [lookup]
    split
    · rename_i _ greater
      simp only [lookup,ih]
      by_cases here : head.1 = q
      · have other : k ≠ q := fun same => absurd greater (by simp [here,same])
        simp [other]
      · simp [here]
    · rename_i notLess notGreater
      have same : k = head.1 := le_antisymm (not_lt.mp notGreater) (not_lt.mp notLess)
      subst same
      by_cases here : head.1 = q <;> simp [lookup,here]

theorem lookupFilter (keep : κ → Bool) (q : κ) (entries : List (κ × β)) :
    lookup q (entries.filter (fun e => keep e.1)) = if keep q then lookup q entries else none := by
  induction entries with
  | nil => simp [lookup]
  | cons head rest ih =>
    cases kept : keep head.1 <;> by_cases here : head.1 = q
    · subst here
      simp [kept,ih]
    · simp [kept,lookup,here,ih]
    · subst here
      simp [kept,lookup]
    · simp [kept,lookup,here,ih]

theorem lookupOfMem {entries} (sorted : Sorted entries) {e : κ × β} (mem : e ∈ entries) : lookup e.1 entries = some e.2 := by
  induction entries with
  | nil => simp at mem
  | cons head rest ih =>
    obtain ⟨above,tail⟩ := pairwise_cons.mp sorted
    rcases mem_cons.mp mem with rfl | inside
    · simp [lookup]
    · simp [lookup,(above e inside).ne,ih tail inside]

theorem memOfLookup {entries} {k : κ} {v : β} (found : lookup k entries = some v) : (k, v) ∈ entries := by
  induction entries with
  | nil => simp [lookup] at found
  | cons head rest ih =>
    simp only [lookup] at found
    split at found
    · rename_i same
      cases found
      simp [← same]
    · exact mem_cons_of_mem _ (ih found)

structure Store (κ β : Type) [LinearOrder κ] where
  entries : List (κ × β)
  sorted : Sorted entries

def empty : Store κ β := ⟨[], .nil⟩

instance [DecidableEq β] : DecidableEq (Store κ β) := fun a b =>
  decidable_of_iff (a.entries = b.entries) ⟨fun same => by cases a; cases b; cases same; rfl, fun same => by rw [same]⟩

namespace Store

def get (m : Store κ β) (k : κ) : Option β := lookup k m.entries

def set (m : Store κ β) (k : κ) (v : β) : Store κ β := ⟨insertEntry k v m.entries, insertSorted k v m.sorted⟩

def restrict (m : Store κ β) (keep : κ → Bool) : Store κ β := ⟨m.entries.filter (fun e => keep e.1), List.Pairwise.filter _ m.sorted⟩

def delete (m : Store κ β) (k : κ) : Store κ β := m.restrict (fun q => decide (q ≠ k))

def mapValues {γ : Type} (f : β → γ) (m : Store κ β) : Store κ γ where
  entries := m.entries.map fun e => (e.1, f e.2)
  sorted := List.pairwise_map.mpr (m.sorted.imp fun less => less)

/-- The bindings with a key in the half-open range, in key order; no upper bound is unbounded. -/
def range (m : Store κ β) (lower : κ) (upper : Option κ) : List (κ × β) :=
  m.entries.filter (fun e => decide (lower ≤ e.1) && upper.all (fun u => decide (e.1 < u)))

@[simp] theorem getEmpty (k : κ) : (empty : Store κ β).get k = none := rfl

theorem getSet (m : Store κ β) (k q : κ) (v : β) [Decidable (k = q)] : (m.set k v).get q = if k = q then some v else m.get q := by
  refine (lookupInsert k q v m.entries).trans ?_
  split <;> simp_all [get]

@[simp] theorem getSetSame (m : Store κ β) (k : κ) (v : β) : (m.set k v).get k = some v := by simp [getSet]

theorem getSetOther {k q} (m : Store κ β) (v : β) (different : k ≠ q) : (m.set k v).get q = m.get q := by
  simp [getSet,different]

theorem getRestrict (m : Store κ β) (keep : κ → Bool) (q : κ) : (m.restrict keep).get q = if keep q then m.get q else none :=
  lookupFilter keep q m.entries

theorem getDelete (m : Store κ β) (k q : κ) [Decidable (k = q)] : (m.delete k).get q = if k = q then none else m.get q := by
  rw [delete,getRestrict]
  by_cases same : k = q
  · simp [same]
  · simp [same,Ne.symm same]

@[simp] theorem getDeleteSame (m : Store κ β) (k : κ) : (m.delete k).get k = none := by simp [getDelete]

theorem getDeleteOther {k q} (m : Store κ β) (different : k ≠ q) : (m.delete k).get q = m.get q := by
  simp [getDelete,different]

theorem memEntries {m : Store κ β} {k v} : (k, v) ∈ m.entries ↔ m.get k = some v := ⟨fun mem => lookupOfMem m.sorted mem,memOfLookup⟩

theorem extGet {m m' : Store κ β} (same : ∀ k, m.get k = m'.get k) : m = m' := by
  have members e : e ∈ m.entries ↔ e ∈ m'.entries := by rw [memEntries,memEntries,same]
  have distinct (m : Store κ β) : m.entries.Nodup := m.sorted.imp fun less same => (same ▸ less).false
  have equal : m.entries = m'.entries := by
    refine List.Perm.eq_of_pairwise (fun a b _ _ less more => absurd (less.trans more) (lt_irrefl _)) m.sorted m'.sorted ?_
    exact (perm_ext_iff_of_nodup (distinct m) (distinct m')).mpr members
  cases m'
  cases equal
  rfl

theorem memRange {m : Store κ β} {lower upper k v} : (k, v) ∈ m.range lower upper ↔ m.get k = some v ∧ lower ≤ k ∧ ∀ u ∈ upper, k < u := by
  rw [range,mem_filter,memEntries]
  cases upper <;> simp

def setAll (m : Store κ β) (bindings : List (κ × β)) : Store κ β := bindings.foldl (fun m e => m.set e.1 e.2) m

def deleteAll (m : Store κ β) (keys : List κ) : Store κ β := keys.foldl delete m

theorem getSetAllOther {m : Store κ β} {bindings q} (absent : ∀ e ∈ bindings, e.1 ≠ q) : (m.setAll bindings).get q = m.get q := by
  induction bindings generalizing m with
  | nil => rfl
  | cons e rest ih =>
    have later := ih (m := m.set e.1 e.2) (fun f mem => absent f (mem_cons_of_mem _ mem))
    exact later.trans (getSetOther m e.2 (absent e (by simp)))

theorem getSetAll {m : Store κ β} {bindings} (distinct : (bindings.map Prod.fst).Nodup)
    {e} (mem : e ∈ bindings) : (m.setAll bindings).get e.1 = some e.2 := by
  induction bindings generalizing m with
  | nil => simp at mem
  | cons head rest ih =>
    simp only [map_cons,nodup_cons] at distinct
    rcases mem_cons.mp mem with rfl | inside
    · have absent : ∀ f ∈ rest, f.1 ≠ e.1 := fun f hf same =>
        distinct.1 (mem_map.mpr ⟨f,hf,same⟩)
      exact (getSetAllOther absent).trans (by simp)
    · exact ih distinct.2 inside

theorem getSetAllFrom {m : Store κ β} {bindings q v} (found : (m.setAll bindings).get q = some v) : (q, v) ∈ bindings ∨ m.get q = some v := by
  induction bindings generalizing m with
  | nil => exact .inr found
  | cons e rest ih =>
    rcases ih (m := m.set e.1 e.2) found with later | here
    · exact .inl (mem_cons_of_mem _ later)
    · rw [getSet] at here
      split at here
      · rename_i same
        cases here
        exact .inl (same ▸ mem_cons_self)
      · exact .inr here

theorem keysNodup (m : Store κ β) : (m.entries.map Prod.fst).Nodup := by
  refine pairwise_map.mpr (m.sorted.imp fun less same => ?_)
  exact absurd less (same ▸ lt_irrefl _)

theorem getSetEntries (m m' : Store κ β) (k : κ) : (m.setAll m'.entries).get k = (m'.get k).or (m.get k) := by
  cases found : m'.get k with
  | some v => exact getSetAll (keysNodup m') (memEntries.mpr found)
  | none =>
    refine getSetAllOther fun e mem same => ?_
    rw [← same,memEntries.mp mem] at found
    contradiction

theorem isSomeSetAll {m : Store κ β} {bindings q} : ((m.setAll bindings).get q).isSome = true ↔ q ∈ bindings.map Prod.fst ∨
    (m.get q).isSome = true := by
  induction bindings generalizing m with
  | nil => simp [setAll]
  | cons e rest ih =>
    refine (ih).trans ?_
    by_cases here : e.1 = q
    · subst here
      simp
    · rw [getSetOther m e.2 here,map_cons,mem_cons,eq_comm (a := q)]
      simp [here]

theorem getDeleteAll (m : Store κ β) (keys : List κ) (q : κ) : (m.deleteAll keys).get q = if q ∈ keys then none else m.get q := by
  induction keys generalizing m with
  | nil => simp [deleteAll]
  | cons k rest ih =>
    refine (ih (m := m.delete k)).trans ?_
    by_cases later : q ∈ rest
    · simp [later]
    by_cases here : k = q
    · simp [here]
    · simp [getDelete,here,Ne.symm here]

theorem rangeKeysNodup (m : Store κ β) (lower : κ) (upper : Option κ) : ((m.range lower upper).map Prod.fst).Nodup := by
  have sorted : Sorted (m.range lower upper) := List.Pairwise.filter _ m.sorted
  exact List.Pairwise.map _ (fun _ _ less => ne_of_lt less) sorted

end Store

def prefixEndReversed : Bytes → Option Bytes
  | [] => none
  | b :: rest => if b = 255 then prefixEndReversed rest else some ((b + 1) :: rest)

def prefixEnd (p : Bytes) : Option Bytes := (prefixEndReversed p.reverse).map List.reverse

theorem prefixEndReversedAppend (front : Bytes) (b : UInt8) :
    prefixEndReversed (front ++ [b]) = match prefixEndReversed front with
      | some e => some (e ++ [b])
      | none => if b = 255 then none else some [b + 1] := by
  induction front with
  | nil => simp [prefixEndReversed]
  | cons a rest ih =>
    simp only [cons_append,prefixEndReversed]
    split
    · exact ih
    · rfl

theorem prefixEndCons (b : UInt8) (rest : Bytes) :
    prefixEnd (b :: rest) = match prefixEnd rest with
      | some e => some (b :: e)
      | none => if b = 255 then none else some [b + 1] := by
  simp only [prefixEnd,reverse_cons,prefixEndReversedAppend]
  cases prefixEndReversed rest.reverse with
  | some e => simp
  | none => by_cases top : b = 255 <;> simp [top]

theorem ltSucc {b c : UInt8} (notTop : b ≠ 255) : c < b + 1 ↔ c ≤ b := by
  have different : b.toNat ≠ 255 := fun same => notTop (UInt8.toNat_inj.mp same)
  have bound := b.toNat_lt
  rw [UInt8.lt_iff_toNat_lt,UInt8.le_iff_toNat_le,UInt8.toNat_add]
  have one : (1 : UInt8).toNat = 1 := rfl
  omega

theorem consLt (b c : UInt8) (s t : Bytes) : b :: s < c :: t ↔ b < c ∨ b = c ∧ s < t := cons_lt_cons_iff

theorem consLe (b c : UInt8) (s t : Bytes) : b :: s ≤ c :: t ↔ b < c ∨ b = c ∧ s ≤ t := by
  rw [le_iff_lt_or_eq,consLt,le_iff_lt_or_eq,cons_eq_cons]
  tauto

theorem nilLe (s : Bytes) : [] ≤ s := by
  rw [← not_lt]
  exact not_lt_nil s

/-- The range from a prefix to its end holds exactly the strings with that prefix. -/
theorem prefixRange (p k : Bytes) : (p ≤ k ∧ ∀ u ∈ prefixEnd p, k < u) ↔ p <+: k := by
  induction p generalizing k with
  | nil => simp [prefixEnd,prefixEndReversed,nilLe]
  | cons b rest ih =>
    cases k with
    | nil =>
      have below : ¬ b :: rest ≤ [] := not_le.mpr (nil_lt_cons b rest)
      simp [below]
    | cons c tail =>
      have step := ih tail
      rw [prefixEndCons,cons_prefix_cons,consLe]
      cases ending : prefixEnd rest with
      | some e =>
        simp only [ending] at step
        simp only [Option.mem_some_iff,forall_eq',consLt,← step]
        constructor
        · rintro ⟨less | ⟨same,low⟩,high⟩
          · rcases high with greater | ⟨same,_⟩
            · exact absurd (less.trans greater) (lt_irrefl _)
            · exact absurd less (by simp [same])
          · subst same
            exact ⟨rfl,low,by simpa using high⟩
        · rintro ⟨rfl,low,high⟩
          exact ⟨.inr ⟨rfl,low⟩,.inr ⟨rfl,high⟩⟩
      | none =>
        simp only [ending,Option.not_mem_none,false_implies,implies_true,and_true] at step
        rw [← step]
        by_cases top : b = 255
        · have bound : ¬ b < c := by
            rw [top,UInt8.lt_iff_toNat_lt]
            have := c.toNat_lt
            have value : (255 : UInt8).toNat = 255 := rfl
            omega
          simp [top] at bound ⊢
          simp [bound]
        · simp only [if_neg top,Option.mem_some_iff,forall_eq',consLt,ltSucc top,not_lt_nil,and_false,or_false]
          constructor
          · rintro ⟨less | keep,bound⟩
            · exact absurd (less.trans_le bound) (lt_irrefl _)
            · exact keep
          · rintro ⟨rfl,low⟩
            exact ⟨.inr ⟨rfl,low⟩,le_refl _⟩

namespace Store
variable {β : Type}

def scan (m : Store Bytes β) (p : Bytes) : List (Bytes × β) := m.range p (prefixEnd p)

theorem memScan {m : Store Bytes β} {p k v} : (k, v) ∈ m.scan p ↔ m.get k = some v ∧ p <+: k := by
  rw [scan,memRange,prefixRange]

theorem scanMapValues {γ : Type} (f : β → γ) (m : Store Bytes β) (p : Bytes) :
    (m.mapValues f).scan p = (m.scan p).map fun e => (e.1, f e.2) := by
  rw [scan,range,mapValues,filter_map]
  rfl

/-- A prefix's end bounds exactly the strings with the prefix, so a scan visits them and no others. -/
theorem prefixBoundExact (p : Bytes) :
    (match prefixEnd p with
      | some e => ∀ k, p ≤ k ∧ k < e ↔ p <+: k
      | none => ∀ k, p ≤ k → p <+: k ∨ p = []) ∧
    ∀ m : Store Bytes β, (m.scan p).Sublist m.entries ∧ ∀ k v, (k, v) ∈ m.scan p ↔ m.get k = some v ∧ p <+: k := by
  refine ⟨?_,fun m => ⟨filter_sublist,fun k v => memScan⟩⟩
  cases ending : prefixEnd p with
  | some e =>
    intro k
    rw [← prefixRange,ending]
    simp
  | none =>
    refine fun k above => .inl ((prefixRange p k).mp ⟨above,?_⟩)
    simp [ending]

end Store

end MaxIOFS.OrderedStore
