import MaxIOFS.ByteString

/-! Matching of a policy's wildcards. The walk compares byte by byte and goes back to the last star;
a star of the pattern that meets a star byte of the subject is compared like any other byte. -/
namespace MaxIOFS.WildcardMatch
open ByteString List

def star : UInt8 := 42

def mark : UInt8 := 63

def bound (s : Bytes) : Option (Bytes × Bytes) → Nat
  | none => s.length + 1
  | some (_, from_) => max from_.length s.length

/-- The pattern and the subject from `pi` and `si` on, and from behind the last star and `matchIdx` on. -/
def walk (pattern s : Bytes) (retry : Option (Bytes × Bytes)) : Bool :=
  match s with
  | [] => pattern.dropWhile (· = star) = []
  | b :: rest =>
    if pattern.head? = some mark ∨ pattern.head? = some b then walk pattern.tail rest retry
    else if pattern.head? = some star then walk pattern.tail (b :: rest) (some (pattern.tail, b :: rest))
    else match retry with
      | some (behind, _ :: from_) => walk behind from_ (some (behind, from_))
      | _ => false
termination_by (bound s retry, s.length + pattern.length)
decreasing_by
  · cases retry <;> (simp [Prod.lex_def,bound]; try omega)
  · cases pattern <;> cases retry <;> (simp_all [Prod.lex_def,bound]; try omega)
  refine Prod.Lex.left _ _ ?_
  simp only [bound,length_cons]
  omega

def wildcardMatch (pattern s : Bytes) : Bool :=
  if pattern = [star] then true else if pattern = s then true else walk pattern s none

def InLanguage : Bytes → Bytes → Prop
  | [], s => s = []
  | c :: p, s => if c = star then ∃ k, InLanguage p (s.drop k)
    else ∃ b rest, s = b :: rest ∧ (c = mark ∨ c = b) ∧ InLanguage p rest

/-- The subject is in the language, with every star before a star byte standing for just that byte. -/
def Literally : Bytes → Bytes → Prop
  | [], s => s = []
  | c :: p, s => if c = star ∧ s.head? ≠ some star then ∃ k, Literally p (s.drop k)
    else ∃ b rest, s = b :: rest ∧ (c = mark ∨ c = b) ∧ Literally p rest

theorem literallyInside {p s} (read : Literally p s) : InLanguage p s := by
  induction p generalizing s with
  | nil => exact read
  | cons c p ih =>
    rw [Literally] at read
    rw [InLanguage]
    split at read
    · rename_i wild
      obtain ⟨k,later⟩ := read
      rw [if_pos wild.1]
      exact ⟨k,ih later⟩
    · obtain ⟨b,rest,rfl,same,later⟩ := read
      split
      · exact ⟨1,ih later⟩
      · exact ⟨b,rest,rfl,same,ih later⟩

theorem literallySelf (p : Bytes) : Literally p p := by
  induction p with
  | nil => rfl
  | cons c p ih =>
    rw [Literally,if_neg fun wild => wild.2 (congrArg some wild.1)]
    exact ⟨c,p,rfl,.inr rfl,ih⟩

theorem literallyEnd (p : Bytes) : Literally p [] ↔ p.dropWhile (· = star) = [] := by
  induction p with
  | nil => exact ⟨fun _ => rfl,fun _ => rfl⟩
  | cons c p ih =>
    by_cases wild : c = star
    · simpa [Literally,wild] using ih
    · simp [Literally,wild]

theorem literallyStar {p s} (read : Literally (star :: p) s) : ∃ k, Literally p (s.drop k) := by
  rw [Literally] at read
  split at read
  · exact read
  · obtain ⟨_,_,rfl,_,later⟩ := read
    exact ⟨1,later⟩

theorem literallyByte {c p b rest} (same : c = mark ∨ c = b) : Literally (c :: p) (b :: rest) ↔ Literally p rest := by
  rw [Literally,if_neg]
  · simp [same]
  rintro ⟨rfl,other⟩
  rcases same with bad | same
  · exact absurd bad (by decide)
  · exact other (congrArg some same.symm)

theorem literallyLater {c p b rest j} (same : c = mark ∨ c = b) (read : Literally (c :: p) ((b :: rest).drop j)) :
    ∃ i, Literally p (rest.drop i) := by
  cases j with
  | zero => exact ⟨0,(literallyByte same).mp read⟩
  | succ j =>
    rw [drop_succ_cons,Literally] at read
    split at read
    · obtain ⟨k,later⟩ := read
      exact ⟨j + k,by rwa [← drop_drop]⟩
    · obtain ⟨_,_,shape,_,_⟩ := read
      exact ⟨j + 1,by rwa [← tail_drop,shape]⟩

theorem literallyAnywhere {q t} : (Literally q t ∨ ∃ q' t', some (q,t) = some (q',t') ∧ ∃ k, Literally q' (t'.drop (k + 1))) ↔
    ∃ k, Literally q (t.drop k) := by
  constructor
  · rintro (read | ⟨_,_,same,k,read⟩)
    · exact ⟨0,read⟩
    · cases same
      exact ⟨k + 1,read⟩
  · rintro ⟨k,read⟩
    cases k with
    | zero => exact .inl read
    | succ k => exact .inr ⟨q,t,rfl,k,read⟩

theorem noneLiterally {p b rest} (differs : ¬ (p.head? = some mark ∨ p.head? = some b)) (plain : p.head? ≠ some star) :
    ¬ Literally p (b :: rest) := by
  cases p with
  | nil => simp [Literally]
  | cons c p =>
    simp only [head?_cons,Option.some.injEq,ne_eq] at differs plain
    simp [Literally,plain,differs]

/-- A reading from the last star on, at any place, leads to one from here on. -/
theorem walkIff {p s retry} (led : ∀ q t, retry = some (q,t) → s.length ≤ t.length ∧ ∀ k, Literally q (t.drop k) → ∃ j, Literally p (s.drop j)) :
    walk p s retry = true ↔ Literally p s ∨ ∃ q t, retry = some (q,t) ∧ ∃ k, Literally q (t.drop (k + 1)) := by
  fun_induction walk p s retry with
  | case1 p retry =>
    rw [decide_eq_true_eq,← literallyEnd]
    refine ⟨.inl,?_⟩
    rintro (read | ⟨q,t,last,k,read⟩)
    · exact read
    · simpa using (led q t last).2 _ read
  | case2 p retry b rest same ih =>
    cases p with
    | nil => simp at same
    | cons c p =>
      simp only [head?_cons,Option.some.injEq] at same
      rw [literallyByte same]
      refine ih fun q t last => ⟨(Nat.le_succ _).trans (led q t last).1,fun k read => ?_⟩
      obtain ⟨j,later⟩ := (led q t last).2 k read
      exact literallyLater same later
  | case3 p retry b rest differs wild ih =>
    cases p with
    | nil => simp at wild
    | cons c p =>
      cases Option.some.inj wild
      rw [ih fun q t same => by cases same; exact ⟨le_rfl,fun k read => ⟨k,read⟩⟩,literallyAnywhere]
      constructor
      · intro read
        rw [Literally,if_pos ⟨rfl,fun same => differs (.inr same.symm)⟩]
        exact .inl read
      rintro (read | ⟨q,t,last,k,read⟩)
      · exact literallyStar read
      obtain ⟨j,later⟩ := (led q t last).2 _ read
      obtain ⟨i,later⟩ := literallyStar later
      exact ⟨j + i,by rwa [← drop_drop]⟩
  | case4 p b rest differs plain behind c from_ ih =>
    rw [ih fun q t same => by cases same; exact ⟨le_rfl,fun k read => ⟨k,read⟩⟩,literallyAnywhere]
    refine ⟨fun read => .inr ⟨behind,c :: from_,rfl,read⟩,?_⟩
    rintro (read | ⟨q,t,last,read⟩)
    · exact absurd read (noneLiterally differs plain)
    · cases last
      exact read
  | case5 p retry b rest differs plain stuck =>
    refine ⟨fun never => by contradiction,?_⟩
    rintro (read | ⟨q,t,last,k,read⟩)
    · exact absurd read (noneLiterally differs plain)
    have fits := (led q t last).1
    cases t with
    | nil => simp at fits
    | cons c from_ => exact absurd last (stuck q c from_)

theorem matchIff {pattern s} : wildcardMatch pattern s = true ↔ pattern = [star] ∨ Literally pattern s := by
  unfold wildcardMatch
  split
  · simp [*]
  rename_i other
  rw [or_iff_right other]
  split
  · rename_i same
    simp [same,literallySelf]
  · simp [walkIff]

theorem wildcardExact (pattern s : Bytes) : (wildcardMatch pattern s = true ↔ InLanguage pattern s) ↔
    pattern = [star] ∨ (InLanguage pattern s → Literally pattern s) := by
  have sound (found : pattern = [star] ∨ Literally pattern s) : InLanguage pattern s := by
    rcases found with rfl | read
    · exact ⟨s.length,drop_length⟩
    · exact literallyInside read
  rw [matchIff]
  constructor
  · intro exactly
    by_cases all : pattern = [star]
    · exact .inl all
    · exact .inr fun inside => (exactly.mpr inside).resolve_left all
  · rintro (all | literally)
    · exact ⟨sound,fun _ => .inl all⟩
    · exact ⟨sound,fun inside => .inr (literally inside)⟩

theorem starByteMissed : InLanguage (ascii "*a") (ascii "*ba") ∧ wildcardMatch (ascii "*a") (ascii "*ba") = false := by
  refine ⟨⟨2,_,_,rfl,.inr rfl,rfl⟩,?_⟩
  change wildcardMatch [42,97] [42,98,97] = false
  simp [wildcardMatch,walk,star]

end MaxIOFS.WildcardMatch
