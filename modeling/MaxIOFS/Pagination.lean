import Mathlib

/-! Reading a sequence page by page. A page is read at a marker and names the marker of the
next one, or none; a reader goes on until there is none. The pages together are what is left
at the first marker as soon as every page is the front of what is left at its own. -/
namespace MaxIOFS.Pagination
open List

variable {α μ κ : Type}

def gather (read : μ → List α × Option μ) : Nat → μ → Option (List α)
  | 0, _ => none
  | fuel + 1, marker => match (read marker).2 with
    | none => some (read marker).1
    | some next => (gather read fuel next).map ((read marker).1 ++ ·)

theorem gatherAll {read} (left : μ → List α) (size : μ → Nat) {I : μ → Prop} (last : ∀ m, I m → (read m).2 = none → (read m).1 = left m)
    (more : ∀ m next, I m → (read m).2 = some next → I next ∧ size next < size m ∧ (read m).1 ++ left next = left m)
    {fuel m} (valid : I m) (enough : size m < fuel) : gather read fuel m = some (left m) := by
  induction fuel generalizing m with
  | zero => omega
  | succ fuel ih =>
    rw [gather]
    cases answer : (read m).2 with
    | none => exact congrArg some (last m valid answer)
    | some next =>
      obtain ⟨valid',_,whole⟩ := more m next valid answer
      have rest := ih valid' (by omega)
      simp only [rest,Option.map_some,whole]

theorem gatherMore {read : μ → List α × Option μ} {fuel m total} (done : gather read fuel m = some total)
    (more : Nat) : gather read (fuel + more) m = some total := by
  induction fuel generalizing m total with
  | zero => cases done
  | succ fuel ih =>
    rw [Nat.add_right_comm,gather]
    rw [gather] at done
    cases answer : (read m).2 with
    | none =>
      rw [answer] at done
      exact done
    | some next =>
      rw [answer] at done
      obtain ⟨_,later,rfl⟩ := Option.map_eq_some_iff.mp done
      simp only [ih later,Option.map_some]

theorem gatherEach {read : μ → List α × Option μ} {P : α → Prop} (each : ∀ m, ∀ x ∈ (read m).1, P x) {fuel m total}
    (done : gather read fuel m = some total) : ∀ x ∈ total, P x := by
  induction fuel generalizing m total with
  | zero => cases done
  | succ fuel ih =>
    rw [gather] at done
    split at done
    · cases done
      exact each m
    · obtain ⟨_,later,rfl⟩ := Option.map_eq_some_iff.mp done
      exact forall_mem_append.mpr ⟨each m,ih later⟩

theorem gatherSubset {read : μ → List α × Option μ} {l} (inside : ∀ m, (read m).1 ⊆ l) {fuel m total}
    (done : gather read fuel m = some total) : total ⊆ l := gatherEach (P := (· ∈ l)) (fun m _ mem => inside m mem) done

theorem pairwiseCut {R} {l : List α} {i} {x} (pairwise : l.Pairwise R) (found : l[i]? = some x) :
    (∀ a ∈ l.take i, R a x) ∧ ∀ a ∈ l.drop i, a = x ∨ R x a := by
  obtain ⟨fits,here⟩ := List.getElem?_eq_some_iff.mp found
  rw [← take_append_drop i l,drop_eq_getElem_cons fits,here] at pairwise
  obtain ⟨_,tail,across⟩ := pairwise_append.mp pairwise
  rw [drop_eq_getElem_cons fits,here]
  exact ⟨fun a mem => across a mem x mem_cons_self,fun a mem => (mem_cons.mp mem).imp_right ((pairwise_cons.mp tail).1 a)⟩

theorem filterCut {l : List α} {p} {i} (front : ∀ a ∈ l.take i, p a = true) (back : ∀ a ∈ l.drop i, p a = false) : l.filter p = l.take i := by
  conv_lhs => rw [← take_append_drop i l,filter_append,filter_eq_self.mpr front,filter_eq_nil_iff.mpr (by simpa using back),append_nil]

theorem filterRest {l : List α} {p} {i} (front : ∀ a ∈ l.take i, p a = false) (back : ∀ a ∈ l.drop i, p a = true) : l.filter p = l.drop i := by
  conv_lhs => rw [← take_append_drop i l,filter_append,filter_eq_nil_iff.mpr (by simpa using front),filter_eq_self.mpr back,nil_append]

section
variable [LinearOrder κ] {key : α → κ}

def after (key : α → κ) (m : κ) (l : List α) : List α := l.filter (fun e => decide (m < key e))

theorem memAfter {m l e} : e ∈ after key m l ↔ e ∈ l ∧ m < key e := by
  rw [after,mem_filter,decide_eq_true_eq]

theorem afterSorted {l} (sorted : l.Pairwise (fun a b => key a < key b)) (m : κ) : (after key m l).Pairwise (fun a b => key a < key b) :=
  List.Pairwise.filter _ sorted

theorem afterSplit {front back e} (sorted : (front ++ e :: back).Pairwise (fun a b => key a < key b)) :
    after key (key e) (front ++ e :: back) = back := by
  obtain ⟨_,tail,across⟩ := pairwise_append.mp sorted
  have below : after key (key e) front = [] := by
    refine filter_eq_nil_iff.mpr fun a mem => ?_
    have less : key a < key e := across a mem e mem_cons_self
    simp [less.le]
  have above : after key (key e) back = back := by
    refine filter_eq_self.mpr fun a mem => ?_
    have less : key e < key a := (pairwise_cons.mp tail).1 a mem
    simp [less]
  unfold after at below above ⊢
  rw [filter_append,below,nil_append,filter_cons_of_neg (by simp),above]

theorem dropAfter {l i x} (sorted : l.Pairwise (fun a b => key a < key b)) (positive : 0 < i)
    (found : l[i - 1]? = some x) : l.drop i = after key (key x) l := by
  obtain ⟨fits,here⟩ := List.getElem?_eq_some_iff.mp found
  have split : l = l.take (i - 1) ++ x :: l.drop i := by
    have cons := drop_eq_getElem_cons fits
    rw [here,show i - 1 + 1 = i by omega] at cons
    rw [← cons,take_append_drop]
  have behind := afterSplit (split ▸ sorted)
  rw [← split] at behind
  exact behind.symm

theorem dropFrom {l : List α} {i} {x} (sorted : l.Pairwise (fun a b => key a < key b)) (found : l[i]? = some x) :
    l.drop i = l.filter (fun e => decide (key x ≤ key e)) ∧ (l.filter (fun e => decide (key e < key x))).length = i := by
  obtain ⟨below,above⟩ := pairwiseCut sorted found
  have above (a : α) (mem : a ∈ l.drop i) : key x ≤ key a := by
    rcases above a mem with rfl | less
    · exact le_rfl
    · exact less.le
  refine ⟨(filterRest (fun a mem => by simpa using below a mem) (fun a mem => by simpa using above a mem)).symm,?_⟩
  rw [filterCut (fun a mem => by simpa using below a mem) (fun a mem => by simpa using above a mem),length_take]
  have fits := (List.getElem?_eq_some_iff.mp found).1
  omega

theorem takeBelow {l : List α} {i} {x} (sorted : l.Pairwise (fun a b => key a ≤ key b)) (distinct : l.Nodup)
    (found : l[i]? = some x) (only : ∀ e ∈ l, key e = key x → e = x) : l.take i = l.filter (fun e => decide (key e < key x)) := by
  obtain ⟨below,above⟩ := pairwiseCut sorted found
  have others := (pairwiseCut distinct found).1
  refine (filterCut (fun a mem => ?_) (fun a mem => ?_)).symm
  · exact decide_eq_true (lt_of_le_of_ne (below a mem) fun same => others a mem (only a (mem_of_mem_take mem) same))
  rcases above a mem with rfl | more
  · simp
  · simpa using more

theorem cutUnique {l l' : List α} {i} {x} (sorted : l.Pairwise (fun a b => key a ≤ key b))
    (sorted' : l'.Pairwise (fun a b => key a ≤ key b)) (distinct : l.Nodup) (perm : l'.Perm l) (found : l[i]? = some x)
    (only : ∀ e ∈ l, key e = key x → e = x) : l'[i]? = some x ∧ (l'.take i).Perm (l.take i) := by
  have same : l'.map key = l.map key := (perm.map key).eq_of_pairwise (fun _ _ _ _ => le_antisymm) (pairwise_map.mpr sorted')
    (pairwise_map.mpr sorted)
  have keyed : l'[i]?.map key = some (key x) := by rw [← List.getElem?_map,same,List.getElem?_map,found,Option.map_some]
  obtain ⟨y,found',equal⟩ := Option.map_eq_some_iff.mp keyed
  cases only y (perm.subset (List.mem_of_getElem? found')) equal
  refine ⟨found',?_⟩
  rw [takeBelow sorted distinct found only,takeBelow sorted' (perm.symm.nodup distinct) found' fun e mem => only e (perm.subset mem)]
  exact perm.filter _

theorem afterAfter {l m next} (less : m ≤ next) : after key next (after key m l) = after key next l := by
  unfold after
  rw [filter_filter]
  refine filter_congr fun e _ => ?_
  by_cases above : next < key e
  · simp [less.trans_lt above]
  · simp [above]

theorem sortedUnique {l l' : List α} (sorted : l.Pairwise (fun a b => key a < key b)) (sorted' : l'.Pairwise (fun a b => key a < key b))
    (same : ∀ e, e ∈ l ↔ e ∈ l') : l = l' := by
  have : Std.Irrefl (fun a b => key a < key b) := ⟨fun _ => lt_irrefl _⟩
  have : Std.Antisymm (fun a b => key a < key b) := ⟨fun _ _ less more => absurd more (lt_asymm less)⟩
  exact List.Pairwise.eq_of_mem_iff sorted sorted' same

theorem takeLe {l : List α} {n} {last e} (sorted : l.Pairwise (fun a b => key a < key b)) (found : l[n - 1]? = some last)
    (mem : e ∈ l.take n) : key e ≤ key last := by
  obtain ⟨i,fits,rfl⟩ := mem_iff_getElem.mp mem
  obtain ⟨bound,rfl⟩ := List.getElem?_eq_some_iff.mp found
  rw [length_take] at fits
  rw [getElem_take]
  rcases Nat.lt_or_ge i (n - 1) with less | more
  · exact (pairwise_iff_getElem.mp sorted i (n - 1) _ bound less).le
  have same : i = n - 1 := by omega
  subst same
  exact le_rfl

theorem seekSorted {l : List α} (sorted : l.Pairwise (fun a b => key a < key b)) (target : κ) :
    l.dropWhile (fun e => decide (key e < target)) = l.filter (fun e => decide (target ≤ key e)) := by
  induction l with
  | nil => rfl
  | cons e rest ih =>
    obtain ⟨above,tail⟩ := pairwise_cons.mp sorted
    by_cases small : key e < target
    · rw [dropWhile_cons_of_pos (by simp [small]),ih tail,filter_cons_of_neg (by simp [small])]
    have here : target ≤ key e := not_lt.mp small
    rw [dropWhile_cons_of_neg (by simp [small])]
    refine (filter_eq_self.mpr fun a mem => ?_).symm
    rcases mem_cons.mp mem with rfl | inside
    · simpa using here
    · simpa using here.trans (above a inside).le

/-! Pages of a fixed size whose next marker may pass over more than the page. The number of
the page and its last item decide where the reader goes on: behind that item, but never at
what `skip` passes over. -/

def resumed (key : α → κ) (skip : α → α → Bool) (l : List α) (x : α) : List α := l.filter (fun e => decide (key x < key e) && !skip x e)

theorem memResumed {skip l x e} : e ∈ resumed key skip l x ↔ e ∈ l ∧ key x < key e ∧ skip x e = false := by
  simp [resumed]

def Cuts (n : Nat) (read : μ → List α × Option μ) (mark : α → Option μ) (m : μ) (r : List α) : Prop :=
  (r.length ≤ n ∧ (read m).2 = none ∧ (read m).1.Perm r) ∨
  ∃ last next, r[n - 1]? = some last ∧ mark last = some next ∧ (read m).2 = some next ∧ (read m).1.Perm (r.take n)

def Clean (n : Nat) (skip : Nat → α → α → Bool) (page : Nat) (l : List α) : Prop :=
  ∀ j x, l[(j + 1) * n - 1]? = some x → ∀ y ∈ l.drop ((j + 1) * n), skip (page + j) x y = false

def Complete (read : μ → List α × Option μ) (m : μ) (l : List α) : Prop :=
  ∃ total bound, (∀ fuel, bound ≤ fuel → gather read fuel m = some total) ∧ total.Perm l

variable {n : Nat} {read : μ → List α × Option μ} {mark : Nat → α → Option μ} {skip : Nat → α → α → Bool} {l : List α}

theorem completeStep {m follow s} (goes : (read m).2 = some follow) (whole : (read m).1.Perm (s.take n)) :
    Complete read m s ↔ Complete read follow (s.drop n) := by
  constructor
  · rintro ⟨total,bound,gathered,perm⟩
    have each (fuel : Nat) (enough : bound ≤ fuel) : ∃ t, gather read fuel follow = some t ∧ (read m).1 ++ t = total := by
      have step := gathered (fuel + 1) (by omega)
      rw [gather,goes] at step
      exact Option.map_eq_some_iff.mp step
    obtain ⟨t,_,joined⟩ := each bound le_rfl
    refine ⟨t,bound,fun fuel enough => ?_,?_⟩
    · obtain ⟨_,read',joined'⟩ := each fuel enough
      rw [read',append_cancel_left (joined'.trans joined.symm)]
    refine (perm_append_left_iff (s.take n)).mp ?_
    rw [take_append_drop]
    exact (whole.symm.append_right t).trans (joined ▸ perm)
  · rintro ⟨total,bound,gathered,perm⟩
    refine ⟨(read m).1 ++ total,bound + 1,fun fuel enough => ?_,?_⟩
    · obtain ⟨k,rfl⟩ : ∃ k, fuel = k + 1 := ⟨fuel - 1,by omega⟩
      rw [gather,goes]
      simp only [gathered k (by omega),Option.map_some]
    · have parts := whole.append perm
      rwa [take_append_drop] at parts

theorem completeLast {m s} (ends : (read m).2 = none) (whole : (read m).1.Perm s) : Complete read m s := by
  refine ⟨(read m).1,1,fun fuel enough => ?_,whole⟩
  obtain ⟨k,rfl⟩ : ∃ k, fuel = k + 1 := ⟨fuel - 1,by omega⟩
  rw [gather,ends]

theorem cleanShort {l} (page : Nat) (short : l.length ≤ n) : Clean n skip page l := by
  intro j x _ y mem
  rw [drop_eq_nil_iff.mpr (by rw [Nat.add_mul]; omega)] at mem
  cases mem

theorem further (n j : Nat) : n + (j + 1) * n = (j + 1 + 1) * n := by rw [Nat.add_mul (j + 1),Nat.one_mul,Nat.add_comm]

theorem cleanDrop {x page} (positive : 0 < n) (last : l[n - 1]? = some x) :
    Clean n skip page l ↔ (∀ y ∈ l.drop n, skip page x y = false) ∧ Clean n skip (page + 1) (l.drop n) := by
  have later (j : Nat) : n + ((j + 1) * n - 1) = (j + 1 + 1) * n - 1 := by
    rw [Nat.add_mul (j + 1),Nat.add_mul j]
    omega
  constructor
  · intro clean
    refine ⟨fun y mem => clean 0 x (by simpa using last) y (by simpa using mem),fun j z found y mem => ?_⟩
    rw [List.getElem?_drop,later j] at found
    rw [drop_drop,further] at mem
    rw [Nat.add_right_comm]
    exact clean (j + 1) z found y mem
  · rintro ⟨boundary,clean⟩ j z found y mem
    cases j with
    | zero =>
      rw [Nat.one_mul] at found mem
      cases (last.symm.trans found)
      exact boundary y mem
    | succ j =>
      rw [← Nat.add_assoc,Nat.add_right_comm]
      refine clean j z ?_ y ?_
      · rw [List.getElem?_drop,later j,found]
      · rwa [drop_drop,further]

section
variable {m₀ : μ} (sorted : l.Pairwise (fun a b => key a < key b)) (first : Cuts n read (mark 0) m₀ l)
  (next : ∀ i, ∀ x ∈ l, ∀ m, mark i x = some m → Cuts n read (mark (i + 1)) m (resumed key (skip i) l x))
  (convex : ∀ i x y z, x ∈ l → y ∈ l → z ∈ l → key x < key y → key y < key z → skip i x z = true → skip i x y = true)

include next convex in
theorem gatherBounded {fuel page m r total} (cut : Cuts n read (mark page) m r)
    (left : r = l ∨ ∃ i, ∃ x ∈ l, r = resumed key (skip i) l x) (done : gather read fuel m = some total) : total ⊆ r := by
  induction fuel generalizing page m r total with
  | zero => cases done
  | succ fuel ih =>
    rw [gather] at done
    rcases cut with ⟨_,ends,whole⟩ | ⟨last,follow,found,marked,goes,whole⟩
    · rw [ends] at done
      cases done
      exact whole.subset
    rw [goes] at done
    obtain ⟨_,later,rfl⟩ := Option.map_eq_some_iff.mp done
    have inside : last ∈ r := List.mem_of_getElem? found
    have member : last ∈ l := by
      rcases left with rfl | ⟨i,x,_,rfl⟩
      · exact inside
      · exact (memResumed.mp inside).1
    have further := ih (next page last member follow marked) (.inr ⟨page,last,member,rfl⟩) later
    refine append_subset.mpr ⟨fun e mem => mem_of_mem_take (whole.subset mem),fun e mem => ?_⟩
    obtain ⟨among,above,_⟩ := memResumed.mp (further mem)
    rcases left with rfl | ⟨i,x,here,rfl⟩
    · exact among
    obtain ⟨_,low,kept⟩ := memResumed.mp inside
    refine memResumed.mpr ⟨among,low.trans above,Bool.eq_false_iff.mpr fun skipped => ?_⟩
    rw [convex i x last e here member among low above skipped] at kept
    cases kept

include sorted next convex in
theorem completeSuffix (positive : 0 < n) {page front s m} (suffix : l = front ++ s)
    (cut : Cuts n read (mark page) m s) : Complete read m s ↔ Clean n skip page s := by
  induction length : s.length using Nat.strong_induction_on generalizing s front m page with
  | _ size ih =>
  rcases cut with ⟨short,ends,whole⟩ | ⟨last,follow,found,marked,goes,whole⟩
  · exact iff_of_true (completeLast ends whole) (cleanShort page short)
  obtain ⟨fits,here⟩ := List.getElem?_eq_some_iff.mp found
  have split : s = s.take (n - 1) ++ last :: s.drop n := by
    have cons := drop_eq_getElem_cons fits
    rw [here,show n - 1 + 1 = n by omega] at cons
    rw [← cons,take_append_drop]
  have place : l = (front ++ s.take (n - 1)) ++ last :: s.drop n := by rw [append_assoc,← split,suffix]
  have member : last ∈ l := place ▸ by simp
  have rest : resumed key (skip page) l last = (s.drop n).filter (fun e => !skip page last e) := by
    have behind := afterSplit (place ▸ sorted)
    rw [← place,after] at behind
    rw [← behind,filter_filter]
    exact filter_congr fun e _ => Bool.and_comm ..
  have cut' := next page last member follow marked
  rw [cleanDrop positive found]
  by_cases boundary : ∀ y ∈ s.drop n, skip page last y = false
  · have same : resumed key (skip page) l last = s.drop n := by
      rw [rest]
      exact filter_eq_self.mpr fun y mem => by simp [boundary y mem]
    have smaller : (s.drop n).length < size := by rw [length_drop]; omega
    rw [same] at cut'
    rw [← ih _ smaller (place.trans (append_cons ..)) cut' rfl,and_iff_right boundary]
    exact completeStep goes whole
  · refine iff_of_false (fun complete => boundary fun y mem => ?_) (fun clean => boundary clean.1)
    obtain ⟨_,bound,gathered,perm⟩ := complete
    have step := gathered (bound + 1) (by omega)
    rw [gather,goes] at step
    obtain ⟨t,later,rfl⟩ := Option.map_eq_some_iff.mp step
    have bounded := gatherBounded next convex cut' (.inr ⟨page,last,member,rfl⟩) later
    have among : y ∈ (read m).1 ++ t := perm.symm.subset (mem_of_mem_drop mem)
    rcases mem_append.mp among with early | late
    · have distinct : s.Pairwise (· ≠ ·) := (pairwise_append.mp (suffix ▸ sorted)).2.1.imp fun less same => by
        subst same
        exact lt_irrefl _ less
      rw [← take_append_drop n s] at distinct
      exact absurd rfl ((pairwise_append.mp distinct).2.2 y (whole.subset early) y mem)
    · exact (memResumed.mp (bounded late)).2.2

variable (mark skip) in
include sorted first next convex in
/-- A reader is complete exactly when nothing is passed over at the end of a full page. -/
theorem completeIff (positive : 0 < n) : Complete read m₀ l ↔ Clean n skip 0 l :=
  completeSuffix sorted next convex positive (nil_append l).symm first

include sorted next convex in
theorem gatherSorted (pages : ∀ m, (read m).1.Pairwise (fun a b => key a < key b)) {fuel page} {m} {r total}
    (cut : Cuts n read (mark page) m r) (left : r = l ∨ ∃ i, ∃ x ∈ l, r = resumed key (skip i) l x)
    (done : gather read fuel m = some total) : total.Pairwise (fun a b => key a < key b) := by
  induction fuel generalizing page m r total with
  | zero => cases done
  | succ fuel ih =>
    rw [gather] at done
    rcases cut with ⟨_,ends,whole⟩ | ⟨last,follow,found,marked,goes,whole⟩
    · rw [ends] at done
      cases done
      exact pages m
    rw [goes] at done
    obtain ⟨_,later,rfl⟩ := Option.map_eq_some_iff.mp done
    have inside : last ∈ r := List.mem_of_getElem? found
    have ordered : r.Pairwise (fun a b => key a < key b) ∧ last ∈ l := by
      rcases left with rfl | ⟨i,x,_,rfl⟩
      · exact ⟨sorted,inside⟩
      · exact ⟨List.Pairwise.filter _ sorted,(memResumed.mp inside).1⟩
    have cut' := next page last ordered.2 follow marked
    have bounded := gatherBounded next convex cut' (.inr ⟨page,last,ordered.2,rfl⟩) later
    refine pairwise_append.mpr ⟨pages m,ih cut' (.inr ⟨page,last,ordered.2,rfl⟩) later,fun a early b late => ?_⟩
    exact (takeLe ordered.1 found (whole.subset early)).trans_lt (memResumed.mp (bounded late)).2.1

variable (mark skip) in
include sorted first next convex in
theorem exactIff (positive : 0 < n) (pages : ∀ m, (read m).1.Pairwise (fun a b => key a < key b)) :
    (∃ bound, ∀ fuel, bound ≤ fuel → gather read fuel m₀ = some l) ↔ Clean n skip 0 l := by
  rw [← completeIff mark skip sorted first next convex positive]
  constructor
  · rintro ⟨bound,gathered⟩
    exact ⟨l,bound,gathered,.refl l⟩
  rintro ⟨total,bound,gathered,perm⟩
  have ordered := gatherSorted sorted next convex pages first (.inl rfl) (gathered bound le_rfl)
  have same : total = l := perm.eq_of_pairwise (fun a b _ _ less more => absurd more (lt_asymm less)) ordered sorted
  exact ⟨bound,fun fuel enough => same ▸ gathered fuel enough⟩

end

end

/-! Pages that name the item they stop before. A reader goes on at whatever its marker keeps,
which may leave out what it has not seen or take in again what it has. -/

section
variable {mark : α → μ} {keeps : α → α → Bool} {n : Nat} {read : μ → List α × Option μ} {l : List α}

def Stops (n : Nat) (read : μ → List α × Option μ) (mark : α → μ) (m : μ) (r : List α) : Prop :=
  (r.length ≤ n ∧ (read m).2 = none ∧ (read m).1.Perm r) ∨
  ∃ x, r[n]? = some x ∧ (read m).2 = some (mark x) ∧ (read m).1.Perm (r.take n)

def Sharp (n : Nat) (keeps : α → α → Bool) (l s : List α) : Prop := ∀ j x, s[(j + 1) * n]? = some x → l.filter (keeps x) = s.drop ((j + 1) * n)

theorem sharpDrop {s x} (found : s[n]? = some x) : Sharp n keeps l s ↔ l.filter (keeps x) = s.drop n ∧ Sharp n keeps l (s.drop n) := by
  constructor
  · intro sharp
    refine ⟨by simpa using sharp 0 x (by simpa using found),fun j y here => ?_⟩
    rw [List.getElem?_drop,further] at here
    rw [drop_drop,further]
    exact sharp (j + 1) y here
  · rintro ⟨boundary,sharp⟩ j y here
    cases j with
    | zero =>
      rw [Nat.one_mul] at here ⊢
      cases (found.symm.trans here)
      exact boundary
    | succ j =>
      rw [← further,← drop_drop]
      exact sharp j y (by rw [List.getElem?_drop,further,here])

theorem stopsComplete (positive : 0 < n) {s m} (first : Stops n read mark m s)
    (next : ∀ j x, s[(j + 1) * n]? = some x → Stops n read mark (mark x) (s.drop ((j + 1) * n))) : Complete read m s := by
  induction length : s.length using Nat.strong_induction_on generalizing s m with
  | _ size ih =>
  rcases first with ⟨_,ends,whole⟩ | ⟨x,found,goes,whole⟩
  · exact completeLast ends whole
  obtain ⟨_,_⟩ := List.getElem?_eq_some_iff.mp found
  have smaller : (s.drop n).length < size := by rw [length_drop]; omega
  refine (completeStep goes whole).mpr (ih _ smaller (by simpa using next 0 x (by simpa using found)) (fun j y here => ?_) rfl)
  rw [List.getElem?_drop,further] at here
  rw [drop_drop,further]
  exact next (j + 1) y here

section
variable (next : ∀ x ∈ l, Stops n read mark (mark x) (l.filter (keeps x)))
  (chain : ∀ x ∈ l, ∀ y ∈ l, ∀ e ∈ l, keeps x y = true → keeps y e = true → keeps x e = true)

include next chain in
theorem gatherKept {fuel x total} (member : x ∈ l) (done : gather read fuel (mark x) = some total) : total ⊆ l.filter (keeps x) := by
  induction fuel generalizing x total with
  | zero => cases done
  | succ fuel ih =>
    rw [gather] at done
    rcases next x member with ⟨_,ends,whole⟩ | ⟨y,found,goes,whole⟩
    · rw [ends] at done
      cases done
      exact whole.subset
    rw [goes] at done
    obtain ⟨_,later,rfl⟩ := Option.map_eq_some_iff.mp done
    obtain ⟨inside,kept⟩ := mem_filter.mp (List.mem_of_getElem? found)
    refine append_subset.mpr ⟨fun e mem => mem_of_mem_take (whole.subset mem),fun e mem => ?_⟩
    obtain ⟨among,further⟩ := mem_filter.mp (ih inside later mem)
    exact mem_filter.mpr ⟨among,chain x member y inside e among kept further⟩

theorem headRead {m z r} (positive : 0 < n) (cut : Stops n read mark m (z :: r)) {fuel total} (done : gather read fuel m = some total) :
    z ∈ total := by
  cases fuel with
  | zero => cases done
  | succ fuel =>
    rw [gather] at done
    rcases cut with ⟨_,ends,whole⟩ | ⟨_,_,goes,whole⟩
    · rw [ends] at done
      cases done
      exact whole.symm.subset mem_cons_self
    rw [goes] at done
    obtain ⟨_,_,rfl⟩ := Option.map_eq_some_iff.mp done
    obtain ⟨k,rfl⟩ : ∃ k, n = k + 1 := ⟨n - 1,by omega⟩
    exact mem_append_left _ (whole.symm.subset (by simp))

include next chain in
theorem sharpSuffix (positive : 0 < n) (distinct : l.Nodup) {front s m} (suffix : l = front ++ s)
    (cut : Stops n read mark m s) : Complete read m s ↔ Sharp n keeps l s := by
  induction length : s.length using Nat.strong_induction_on generalizing s front m with
  | _ size ih =>
  rcases cut with ⟨_,ends,whole⟩ | ⟨x,found,goes,whole⟩
  · refine iff_of_true (completeLast ends whole) fun j x here => ?_
    rw [List.getElem?_eq_none (by rw [Nat.add_mul]; omega)] at here
    cases here
  have place : l = (front ++ s.take n) ++ s.drop n := by rw [append_assoc,take_append_drop,suffix]
  have member : x ∈ l := suffix ▸ mem_append_right _ (List.mem_of_getElem? found)
  obtain ⟨_,_⟩ := List.getElem?_eq_some_iff.mp found
  rw [completeStep goes whole,sharpDrop found]
  by_cases boundary : l.filter (keeps x) = s.drop n
  · have smaller : (s.drop n).length < size := by rw [length_drop]; omega
    rw [and_iff_right boundary]
    exact ih _ smaller place (boundary ▸ next x member) rfl
  refine iff_of_false ?_ (fun sharp => boundary sharp.1)
  rintro ⟨_,bound,gathered,perm⟩
  have read' := gathered bound le_rfl
  have lost : (s.drop n).filter (keeps x) = s.drop n := filter_eq_self.mpr fun e mem =>
    (mem_filter.mp (gatherKept next chain member read' (perm.symm.subset mem))).2
  -- Were something kept that an earlier page holds, the first such item would be read again.
  have again : (front ++ s.take n).filter (keeps x) = [] := by
    rcases kept : (front ++ s.take n).filter (keeps x) with _ | ⟨z,rest⟩
    · rfl
    have early : z ∈ front ++ s.take n := (mem_filter.mp (kept ▸ mem_cons_self ..)).1
    have cut := next x member
    rw [place,filter_append,kept] at cut
    have late := perm.subset (headRead positive cut read')
    exact absurd late (disjoint_of_nodup_append (place ▸ distinct) early)
  exact boundary (by rw [place,filter_append,again,lost,nil_append])

include next chain in
/-- A reader is complete exactly when every item a page stops before keeps just what follows. -/
theorem sharpIff (positive : 0 < n) (distinct : l.Nodup) {m₀} (first : Stops n read mark m₀ l) : Complete read m₀ l ↔ Sharp n keeps l l :=
  sharpSuffix next chain positive distinct (nil_append l).symm first

end

end

section
variable {β : Type} {read : μ → List α × Option μ} {read' : μ → List β × Option μ} {f : α → β} {l : List α}

section
variable (same : ∀ m, (read' m).2 = (read m).2) (shown : ∀ m, (read' m).1.Perm ((read m).1.map f))
include same shown

theorem gatherShown (fuel : Nat) (m : μ) : Option.Rel (fun t' t => t'.Perm (t.map f)) (gather read' fuel m) (gather read fuel m) := by
  induction fuel generalizing m with
  | zero => exact .none
  | succ fuel ih =>
    rw [gather,gather,same m]
    cases (read m).2 with
    | none => exact .some (shown m)
    | some next =>
      have later := ih next
      dsimp only
      generalize gather read' fuel next = t', gather read fuel next = t at later ⊢
      cases later with
      | some perm =>
        refine .some ?_
        rw [map_append]
        exact (shown m).append perm
      | none => exact .none

theorem completeShown (pages : ∀ m, (read m).1 ⊆ l) (distinct : (l.map f).Nodup) (m : μ) : Complete read' m (l.map f) ↔ Complete read m l := by
  constructor
  · rintro ⟨total',bound,gathered,perm⟩
    have each := gatherShown same shown bound m
    rw [gathered bound le_rfl] at each
    rcases found : gather read bound m with _ | total
    · rw [found] at each
      cases each
    rw [found] at each
    cases each with | some relate =>
    have whole := relate.symm.trans perm
    refine ⟨total,bound,fun fuel enough => ?_,?_⟩
    · obtain ⟨more,rfl⟩ := Nat.exists_eq_add_of_le enough
      exact gatherMore found more
    have once : total.Nodup := (whole.symm.nodup distinct).of_map
    refine (subperm_of_subset once (gatherSubset pages found)).perm_of_length_le ?_
    simpa using whole.length_eq.ge
  · rintro ⟨_,bound,gathered,perm⟩
    have each := gatherShown same shown bound m
    rw [gathered bound le_rfl] at each
    rcases found : gather read' bound m with _ | total'
    · rw [found] at each
      cases each
    rw [found] at each
    cases each with | some relate =>
    refine ⟨total',bound,fun fuel enough => ?_,relate.trans (perm.map f)⟩
    obtain ⟨more,rfl⟩ := Nat.exists_eq_add_of_le enough
    exact gatherMore found more

end

end

end MaxIOFS.Pagination
