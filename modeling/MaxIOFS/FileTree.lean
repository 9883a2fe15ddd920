import MaxIOFS.OrderedStore

/-! A directory tree: nodes named by the list of path segments from the root. The root
itself is a directory and is not stored. A node exists only below a directory, so a
file has nothing below it. Operations fail where the system call would: no component
of a path may be a file. Disk faults, permissions and name lengths are not modelled. -/
namespace MaxIOFS.FileTree
open ByteString OrderedStore List Store

abbrev Path := List Bytes

inductive Node (α : Type) where
  | dir
  | file (content : α)
  deriving DecidableEq, Repr

-- A component that is a file is not a missing one: the two errors differ.
inductive Stat (α : Type) where
  | missing
  | notDirectory
  | dir
  | file (content : α)
  deriving DecidableEq, Repr

variable {α : Type}

def dirIn (nodes : Store Path (Node α)) (p : Path) : Bool :=
  match p with
  | [] => true
  | p => match nodes.get p with
    | some .dir => true
    | _ => false

theorem dirInIff {nodes : Store Path (Node α)} {p} : dirIn nodes p = true ↔ p = [] ∨ nodes.get p = some .dir := by
  unfold dirIn
  split
  · simp
  · split <;> simp_all

structure Tree (α : Type) where
  nodes : Store Path (Node α)
  rooted : nodes.get [] = none
  parents : ∀ p n, nodes.get p = some n → dirIn nodes p.dropLast = true

namespace Tree

def empty : Tree α := ⟨OrderedStore.empty, rfl, fun _ _ found => by simp at found⟩

def get (t : Tree α) (p : Path) : Option (Node α) := t.nodes.get p

theorem getRoot (t : Tree α) : t.get [] = none := t.rooted

def isDir (t : Tree α) (p : Path) : Bool := dirIn t.nodes p

def file (t : Tree α) (p : Path) : Option α :=
  match t.get p with
  | some (.file c) => some c
  | _ => none

theorem fileIff {t : Tree α} {p c} : t.file p = some c ↔ t.get p = some (.file c) := by
  unfold file
  split <;> simp_all

def ancestors (p : Path) : List Path := p.inits.tail

theorem memAncestors {p a} : a ∈ ancestors p ↔ a ≠ [] ∧ a <+: p := by
  cases p with
  | nil => simp [ancestors]
  | cons segment rest =>
    have split : (segment :: rest).inits = [] :: (segment :: rest).inits.tail := by simp
    have all : a ∈ (segment :: rest).inits ↔ a = [] ∨ a ∈ ancestors (segment :: rest) := by
      rw [split,mem_cons]
      rfl
    have proper : [] ∉ ancestors (segment :: rest) := by simp [ancestors]
    rw [mem_inits] at all
    constructor
    · intro mem
      exact ⟨fun empty => proper (empty ▸ mem),all.mpr (.inr mem)⟩
    · intro ⟨nonempty,inside⟩
      exact (all.mp inside).resolve_left nonempty

def stat (t : Tree α) (p : Path) : Stat α :=
  if t.isDir p then .dir else
    match t.file p with
    | some c => .file c
    | none => if (ancestors p).any (fun q => (t.file q).isSome) then .notDirectory else .missing

theorem statFile {t : Tree α} {p c} : t.stat p = .file c ↔ t.get p = some (.file c) := by
  unfold stat
  split
  · rename_i isdir
    simp only [isDir,dirInIff] at isdir
    rcases isdir with rfl | isdir
    · simp [get,t.rooted]
    · simp [get,isdir]
  · split
    · rename_i found
      rw [fileIff] at found
      simp [found]
    rename_i absent
    have other : t.get p ≠ some (.file c) := fun found => by simp [fileIff.mpr found] at absent
    split <;> simp [other]

theorem statDir {t : Tree α} {p} : t.stat p = .dir ↔ t.isDir p = true := by
  unfold stat
  split
  · simp_all
  split
  · simp_all
  · split <;> simp_all

theorem statMissing {t : Tree α} {p} (missing : t.stat p = .missing) : t.get p = none := by
  unfold stat at missing
  split at missing <;> try contradiction
  rename_i nodir
  split at missing <;> try contradiction
  rename_i nofile
  cases found : t.get p with
  | none => rfl
  | some node =>
    cases node with
    | dir => exact absurd (dirInIff.mpr (.inr found)) nodir
    | file c => simp [file,found] at nofile

theorem prefixDropLast {a p : Path} (inside : a <+: p) (other : a ≠ p) : a <+: p.dropLast := by
  have shorter : a.length ≠ p.length := fun eq => other (inside.eq_of_length eq)
  have bound := inside.length_le
  refine prefix_of_prefix_length_le inside ( dropLast_prefix p) ?_
  rw [length_dropLast]
  omega

theorem dirAbove {t : Tree α} {p a n} (found : t.get p = some n) (inside : a <+: p) (other : a ≠ p) : t.isDir a = true := by
  induction p using List.reverseRecOn generalizing n with
  | nil => exact absurd (prefix_nil.mp inside) other
  | append_singleton front last ih =>
    have parent := t.parents _ _ found
    rw [dropLast_concat] at parent
    have upper := prefixDropLast inside other
    rw [dropLast_concat] at upper
    by_cases here : a = front
    · exact here ▸ parent
    rcases dirInIff.mp parent with root | isdir
    · subst root
      exact absurd (prefix_nil.mp upper) here
    · exact ih isdir upper here

theorem statFree {t : Tree α} {p} (present : p ≠ []) (parent : t.isDir p.dropLast = true) (free : t.get p = none) : t.stat p = .missing := by
  have nodir : t.isDir p ≠ true := by
    intro isdir
    rcases dirInIff.mp isdir with root | found
    · exact present root
    · rw [show t.nodes.get p = none from free] at found
      contradiction
  have nofile a (inside : a <+: p) : t.file a = none := by
    by_cases here : a = p
    · rw [here,file,free]
    have upper := prefixDropLast inside here
    have isdir : t.isDir a = true := by
      by_cases edge : a = p.dropLast
      · exact edge ▸ parent
      rcases dirInIff.mp parent with root | found
      · rw [root] at upper edge
        exact absurd (prefix_nil.mp upper) edge
      · exact dirAbove found upper edge
    rcases dirInIff.mp isdir with root | found
    · rw [root,file,get,t.rooted]
    · rw [file,get,found]
  have none_ : (ancestors p).any (fun q => (t.file q).isSome) = false := by
    rw [any_eq_false]
    intro a mem
    rw [nofile a (memAncestors.mp mem).2]
    simp
  unfold stat
  rw [if_neg nodir,nofile p (prefix_refl p)]
  simp [none_]

/-! Each operation is described by what `get` answers afterwards, for every path. -/

theorem dirInSet {nodes : Store Path (Node α)} {p q n} (isdir : dirIn nodes q = true) (keeps : p = q → n = .dir) :
    dirIn (nodes.set p n) q = true := by
  rw [dirInIff] at isdir ⊢
  rcases isdir with root | isdir
  · exact .inl root
  right
  rw [getSet]
  split
  · rename_i same
    simp [keeps same]
  · exact isdir

def place (t : Tree α) (p : Path) (n : Node α) (new : p ≠ []) (isdir : t.isDir p.dropLast = true)
    (keeps : t.isDir p = true → n = .dir) : Tree α where
  nodes := t.nodes.set p n
  rooted := by rw [getSetOther _ _ new, t.rooted]
  parents := by
    intro q m found
    have below : dirIn t.nodes q.dropLast = true := by
      rw [getSet] at found
      split at found
      · rename_i same
        exact same ▸ isdir
      · exact t.parents q m found
    exact dirInSet below (fun same => keeps (same ▸ below))

theorem getPlace {t : Tree α} {p n new isdir keeps} (q : Path) : (t.place p n new isdir keeps).get q = if p = q then some n else t.get q := by
  simp only [get,place,getSet]

def write (t : Tree α) (p : Path) (c : α) : Option (Tree α) :=
  if h : p ≠ [] ∧ t.isDir p.dropLast = true ∧ t.isDir p = false then
    some (t.place p (.file c) h.1 h.2.1 (fun isdir => by simp [h.2.2] at isdir))
  else none

def mkdir (t : Tree α) (p : Path) : Option (Tree α) :=
  if h : p ≠ [] ∧ t.isDir p.dropLast = true ∧ (t.file p).isNone = true then
    some (t.place p .dir h.1 h.2.1 (fun _ => rfl))
  else none

def mkdirFrom (t : Tree α) (base : Path) : Path → Option (Tree α)
  | [] => some t
  | segment :: rest => do
    let made ← t.mkdir (base ++ [segment])
    mkdirFrom made (base ++ [segment]) rest

def mkdirAll (t : Tree α) (p : Path) : Option (Tree α) := mkdirFrom t [] p

def removable (t : Tree α) (p : Path) : Bool := (t.get p).isSome && t.nodes.entries.all (fun e => decide (e.1 = []) || !decide (e.1.dropLast = p))

def remove (t : Tree α) (p : Path) : Option (Tree α) :=
  if h : t.removable p = true then
    some {
      nodes := t.nodes.delete p
      rooted := by simp [getDelete, t.rooted]
      parents := by
        intro q n found
        rw [getDelete] at found
        split at found
        · simp at found
        have below := t.parents q n found
        rw [dirInIff] at below ⊢
        rcases below with root | below
        · exact .inl root
        right
        rw [getDelete]
        split
        · rename_i same
          have alone := (Bool.and_eq_true_iff.mp h).2
          rw [all_eq_true] at alone
          have here := alone (q, n) (memEntries.mpr found)
          have root : q = [] := by simpa [same] using here
          simp [root, t.rooted] at found
        · exact below }
  else none

def removeAll (t : Tree α) (p : Path) : Tree α where
  nodes := t.nodes.restrict (fun q => !(p.isPrefixOf q))
  rooted := by rw [getRestrict]; split <;> simp [t.rooted]
  parents := by
    intro q n found
    rw [getRestrict] at found
    split at found
    · rename_i outside
      have below := t.parents q n found
      rw [dirInIff] at below ⊢
      rcases below with root | below
      · exact .inl root
      right
      rw [getRestrict]
      have kept : p.isPrefixOf q.dropLast = false := by
        rw [← Bool.not_eq_true]
        intro inside
        have : p.isPrefixOf q = true := isPrefixOf_iff_prefix.mpr (( isPrefixOf_iff_prefix.mp inside).trans ( dropLast_prefix q))
        simp [this] at outside
      simp [kept, below]
    · simp at found

theorem getWrite {t t' : Tree α} {p c} (done : t.write p c = some t') (q : Path) : t'.get q = if p = q then some (.file c) else t.get q := by
  unfold write at done
  split at done <;> try contradiction
  cases done
  exact getPlace q

theorem writeDone {t : Tree α} {p} (c : α) (new : p ≠ []) (parent : t.isDir p.dropLast = true) (free : t.isDir p = false) :
    ∃ t', t.write p c = some t' := by
  unfold write
  rw [dif_pos ⟨new,parent,free⟩]
  exact ⟨_,rfl⟩

theorem writeParent {t t' : Tree α} {p c} (done : t.write p c = some t') : p ≠ [] ∧ t.isDir p.dropLast = true ∧ t.isDir p = false := by
  unfold write at done
  split at done <;> try contradiction
  assumption

theorem getMkdir {t t' : Tree α} {p} (done : t.mkdir p = some t') (q : Path) : t'.get q = if p = q then some .dir else t.get q := by
  unfold mkdir at done
  split at done <;> try contradiction
  cases done
  exact getPlace q

theorem getMkdirFrom {t t' : Tree α} {base rest} (done : mkdirFrom t base rest = some t') (q : Path) :
    t'.get q = if base <+: q ∧ base ≠ q ∧ q <+: base ++ rest then some .dir else t.get q := by
  induction rest generalizing t base with
  | nil =>
    cases done
    have none : ¬ (base <+: q ∧ base ≠ q ∧ q <+: base ++ []) := by
      rintro ⟨above,other,below⟩
      rw [append_nil] at below
      exact other (above.eq_of_length (Nat.le_antisymm above.length_le below.length_le))
    rw [if_neg none]
  | cons segment rest ih =>
    simp only [mkdirFrom,bind,Option.bind_eq_some_iff] at done
    obtain ⟨_,first,later⟩ := done
    rw [ih later,getMkdir first]
    have joined : base ++ [segment] ++ rest = base ++ segment :: rest := by simp
    rw [joined]
    by_cases here : base ++ [segment] = q
    · subst here
      simp
    rw [if_neg here]
    have same : (base ++ [segment] <+: q ∧ base ++ [segment] ≠ q ∧ q <+: base ++ segment :: rest) ↔
        (base <+: q ∧ base ≠ q ∧ q <+: base ++ segment :: rest) := by
      constructor
      · rintro ⟨above,_,below⟩
        refine ⟨(prefix_append base [segment]).trans above,?_,below⟩
        rintro rfl
        have longer := above.length_le
        simp only [length_append,length_singleton] at longer
        omega
      · rintro ⟨above,other,below⟩
        refine ⟨?_,here,below⟩
        have longer : (base ++ [segment]).length ≤ q.length := by
          have := above.length_le
          have : base.length ≠ q.length := fun eq => other (above.eq_of_length eq)
          simp
          omega
        exact prefix_of_prefix_length_le (by simp) below longer
    simp only [same]

theorem getMkdirAll {t t' : Tree α} {p} (done : t.mkdirAll p = some t') (q : Path) : t'.get q = if q ≠ [] ∧
    q <+: p then some .dir else t.get q := by
  rw [getMkdirFrom done q]
  simp

theorem mkdirFromDone {t : Tree α} {base rest} (isdir : t.isDir base = true)
    (clear : ∀ q, q <+: base ++ rest → t.file q = none) : ∃ t', mkdirFrom t base rest = some t' := by
  induction rest generalizing t base with
  | nil => exact ⟨t,rfl⟩
  | cons segment rest ih =>
    have joined : base ++ [segment] ++ rest = base ++ segment :: rest := by simp
    have free : t.file (base ++ [segment]) = none := clear _ (joined ▸ prefix_append _ _)
    have able : base ++ [segment] ≠ [] ∧ t.isDir (base ++ [segment]).dropLast = true ∧
        (t.file (base ++ [segment])).isNone = true := ⟨by simp,by simpa using isdir,by simp [free]⟩
    obtain ⟨made,first⟩ : ∃ made, t.mkdir (base ++ [segment]) = some made := ⟨_,dif_pos able⟩
    have down : made.isDir (base ++ [segment]) = true := by
      rw [isDir,dirInIff]
      exact .inr ((getMkdir first _).trans (by simp))
    have still : ∀ q, q <+: base ++ [segment] ++ rest → made.file q = none := by
      intro q inside
      have before := clear q (joined ▸ inside)
      unfold file at before ⊢
      rw [getMkdir first]
      split
      · rename_i found
        split at found
        · simp at found
        · simp [found] at before
      · rfl
    obtain ⟨t',later⟩ := ih down still
    exact ⟨t',by simp [mkdirFrom,first,later]⟩

theorem mkdirAllDone {t : Tree α} {p} (clear : ∀ q, q <+: p → t.file q = none) : ∃ t', t.mkdirAll p = some t' :=
  mkdirFromDone rfl (by simpa using clear)

theorem mkdirFromClear {t t' : Tree α} {base rest q} (done : mkdirFrom t base rest = some t') (above : base <+: q)
    (other : base ≠ q) (below : q <+: base ++ rest) : t.file q = none := by
  induction rest generalizing t base with
  | nil =>
    rw [append_nil] at below
    exact absurd (above.eq_of_length (Nat.le_antisymm above.length_le below.length_le)) other
  | cons segment rest ih =>
    simp only [mkdirFrom,bind,Option.bind_eq_some_iff] at done
    obtain ⟨_,first,later⟩ := done
    by_cases here : base ++ [segment] = q
    · subst here
      unfold mkdir at first
      split at first <;> try contradiction
      rename_i able
      exact Option.isNone_iff_eq_none.mp able.2.2
    · have longer : (base ++ [segment]).length ≤ q.length := by
        have := above.length_le
        have : base.length ≠ q.length := fun eq => other (above.eq_of_length eq)
        simp
        omega
      have joined : base ++ [segment] ++ rest = base ++ segment :: rest := by simp
      have free := ih later (prefix_of_prefix_length_le (by simp) below longer) here (joined ▸ below)
      unfold file at free ⊢
      rwa [getMkdir first,if_neg here] at free

theorem mkdirAllClear {t t' : Tree α} {p q} (done : t.mkdirAll p = some t') (inside : q <+: p) : t.file q = none := by
  cases q with
  | nil => simp [file,get,t.rooted]
  | cons segment rest => exact mkdirFromClear done nil_prefix (by simp) (by simpa using inside)

theorem mkdirAllDir {t t' : Tree α} {p} (done : t.mkdirAll p = some t') : t'.isDir p = true := by
  rw [isDir,dirInIff]
  by_cases root : p = []
  · exact .inl root
  · right
    exact (getMkdirAll done p).trans (by simp [root])

theorem getRemove {t t' : Tree α} {p} (done : t.remove p = some t') (q : Path) : t'.get q = if p = q then none else t.get q := by
  unfold remove at done
  split at done <;> try contradiction
  cases done
  simp only [get,getDelete]

theorem removeFile {t : Tree α} {p c} (found : t.get p = some (.file c)) : ∃ t', t.remove p = some t' := by
  have able : t.removable p = true := by
    rw [removable,Bool.and_eq_true_iff,all_eq_true]
    refine ⟨by simp [found],?_⟩
    intro e mem
    have below := t.parents e.1 e.2 (memEntries.mp mem)
    rw [dirInIff] at below
    by_cases root : e.1 = []
    · simp [root]
    have other : e.1.dropLast ≠ p := by
      intro same
      rcases below with top | isdir
      · rw [same] at top
        simp [top,get,t.rooted] at found
      · rw [same] at isdir
        simp [get,isdir] at found
    simp [other]
  exact ⟨_,dif_pos able⟩

theorem getRemoveAll (t : Tree α) (p q : Path) : (t.removeAll p).get q = if p <+: q then none else t.get q := by
  simp only [get,removeAll,getRestrict]
  by_cases inside : p <+: q
  · simp [inside]
  have outside : p.isPrefixOf q = false := by
    rw [← Bool.not_eq_true, isPrefixOf_iff_prefix]
    exact inside
  simp [inside,outside]

end Tree
end MaxIOFS.FileTree
