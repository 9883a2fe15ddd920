import MaxIOFS.StoredFiles

/-! The calls a Put makes on the file system, one at a time. A call answers with the tree it
leaves and with the calls that follow from what it saw; the rest of a Put depends only on
the paths it names and on those above them. -/
namespace MaxIOFS.FileOps
open ByteString FileTree StagedCommit StoredFiles Filesystem Tree

structure Fault where
  error : StorageError
  undo : List Path
  deriving DecidableEq

inductive Op where
  | mkdirAll (dir : Path) (fault : Fault)
  | statMarker (dir : Path)
  | touchMarker (dir : Path)
  | createTemp (p : Path) (fault : Fault)
  | fill (p : Path) (content : Content)
  | readStaged (p : Path)
  | advance (p : Path)
  | move (source target : Path) (fault : Fault)
  | createMarker (p : Path) (fault : Fault)
  | statAbove (p : Path)
  | remove (p : Path)
  deriving DecidableEq

def Op.fault : Op → Option Fault
  | .mkdirAll _ fault | .createTemp _ fault | .move _ _ fault | .createMarker _ fault => some fault
  | _ => none

section
variable (host : Host) (now : Int)

def exec : Op → Files → Option (Files × List Op)
  | .mkdirAll dir _, t => (t.mkdirAll dir).map (·, [])
  | .statMarker dir, t => some (t, match t.stat (markerIn dir) with | .missing => [.touchMarker dir] | _ => [])
  | .touchMarker dir, t => some ((t.write (markerIn dir) ⟨.data [], now⟩).getD t, [])
  | .createTemp p _, t => if t.get p = none then (t.write p ⟨.data [], now⟩).map (·, []) else none
  -- The file is written through its handle: without its name the bytes are nowhere.
  | .fill p content, t => some (if (t.file p).isSome then (t.write p ⟨content, now⟩).getD t else t, [])
  | .readStaged p, t => some (t, match repairChoice host.md5 (slotAt host t p) with
      | .nothing => []
      | .discard => [.remove (stagingOf p)]
      | .rollForward => [.advance p])
  | .advance p, t => some ((rename t (stagingOf p) (metadataOf p)).getD t, [])
  | .move source target _, t => (rename t source target).map (·, [])
  | .createMarker p _, t => (t.write p ⟨.data [], now⟩).map (·, [])
  | .statAbove p, t => some (t, if (t.file p).isSome then [.remove p, .remove (metadataOf p)] else [])
  | .remove p, t => some ((t.remove p).getD t, [])

end

inductive Finishes (host : Host) (now : Int) (tame : Files → Op → Prop) : Nat → List Op → Files → Files → Prop
  | done (t : Files) : Finishes host now tame 0 [] t t
  | call {n : Nat} {op : Op} {extra todo : List Op} {t t' v : Files} (fits : tame t op) (made : exec host now op t = some (t', extra))
      (rest : Finishes host now tame n (extra ++ todo) t' v) : Finishes host now tame (n + 1) (op :: todo) t v

theorem goOn {host now tame} (extra : List Op) {n op todo t t' v}
    (fits : tame t op) (made : exec host now op t = some (t', extra)) (rest : Finishes host now tame n (extra ++ todo) t' v) :
    Finishes host now tame (n + 1) (op :: todo) t v := .call fits made rest

def Agree (S : Path → Prop) (t u : Files) : Prop := ∀ q, S q → u.get q = t.get q

structure Closed (S : Path → Prop) : Prop where
  above : ∀ {q r : Path}, q <+: r → S r → S q

def Names (S : Path → Prop) : Op → Prop
  | .mkdirAll dir _ | .statMarker dir | .touchMarker dir => S dir
  | .createTemp p _ | .fill p _ | .createMarker p _ | .statAbove p => S p
  | .readStaged p | .advance p => p ≠ [] ∧ S p ∧ S (metadataOf p) ∧ S (stagingOf p)
  | .move source target _ => S source ∧ S target ∧ source ≠ target
  | .remove _ => True

def Tame (S : Path → Prop) (t : Files) : Op → Prop
  | .remove p => S p → t.get p ≠ some .dir
  | op => Names S op

section
variable {S : Path → Prop} {t u t' : Files} {host : Host} {now : Int}
variable {Q : Files → Prop} {todo : List Op} {op : Op} {dir p q source target : Path}

theorem agreeDir (agree : Agree S t u) (named : S p) : u.isDir p = t.isDir p := by
  rw [Bool.eq_iff_iff,isDirIff,isDirIff,agree p named]

theorem agreeFile (agree : Agree S t u) (named : S p) : u.file p = t.file p := by
  unfold file
  rw [agree p named]

theorem agreeWrite (closed : Closed S) (agree : Agree S t u) (named : S p) (file : File) :
    match t.write p file, u.write p file with
    | some t', some u' => Agree S t' u'
    | none, none => True
    | _, _ => False := by
  have parent := agreeDir agree (closed.above (List.dropLast_prefix p) named)
  have here := agreeDir agree named
  cases first : t.write p file with
  | some t' =>
    obtain ⟨new,isdir,free⟩ := writeParent first
    obtain ⟨u',second⟩ := writeDone file new (parent.trans isdir) (here.trans free)
    rw [second]
    intro q inside
    rw [getWrite first,getWrite second,agree q inside]
  | none =>
    cases second : u.write p file with
    | none => trivial
    | some u' =>
      obtain ⟨new,isdir,free⟩ := writeParent second
      obtain ⟨_,done⟩ := writeDone file new (parent.symm.trans isdir) (here.symm.trans free)
      rw [first] at done
      contradiction

theorem Agree.symm (agree : Agree S t u) : Agree S u t := fun q named => (agree q named).symm

section
variable (closed : Closed S) (agree : Agree S t u)
include closed agree

theorem agreeMkdir (named : S dir) (made : t.mkdirAll dir = some t') : ∃ u', u.mkdirAll dir = some u' ∧ Agree S t' u' := by
  have clear : ∀ a, a <+: dir → u.file a = none := fun a inside =>
    (agreeFile agree (closed.above inside named)).trans (mkdirAllClear made inside)
  obtain ⟨u',done⟩ := mkdirAllDone clear
  refine ⟨u',done,fun q inside => ?_⟩
  rw [getMkdirAll made,getMkdirAll done,agree q inside]

theorem agreeMove (origin : S source) (goal : S target) (other : source ≠ target) (made : rename t source target = some t') :
    ∃ u', rename u source target = some u' ∧ Agree S t' u' := by
  have parts := made
  simp only [rename,bind,Option.bind_eq_some_iff] at parts
  obtain ⟨file,found,_,written,_⟩ := parts
  have both := agreeWrite closed agree goal file
  rw [written] at both
  cases second : u.write target file with
  | none => rw [second] at both; exact both.elim
  | some moved' =>
    have here : u.get source = some (.file file) := (agree source origin).trans (fileIff.mp found)
    have still : moved'.get source = some (.file file) := by
      rw [getWrite second,if_neg (Ne.symm other)]
      exact here
    obtain ⟨u',removed⟩ := removeFile still
    have done : rename u source target = some u' := by
      simp only [rename,fileIff.mpr here,bind,Option.bind_some,second,removed]
    refine ⟨u',done,fun q inside => ?_⟩
    rw [getRename (fileIff.mp found) made,getRename here done,agree q inside]

theorem agreeMoved (origin : S source) (goal : S target) (other : source ≠ target) : Agree S ((rename t source target).getD t)
    ((rename u source target).getD u) := by
  cases first : rename t source target with
  | some t' =>
    obtain ⟨u',second,same⟩ := agreeMove closed agree origin goal other first
    rw [second]
    exact same
  | none =>
    cases second : rename u source target with
    | none => exact agree
    | some u' =>
      obtain ⟨_,done,_⟩ := agreeMove closed agree.symm origin goal other second
      rw [first] at done
      contradiction

theorem agreeWritten (named : S p) (file : File) : Agree S ((t.write p file).getD t) ((u.write p file).getD u) := by
  have both := agreeWrite closed agree named file
  cases first : t.write p file <;> cases second : u.write p file <;> rw [first,second] at both
  · exact agree
  · exact both.elim
  · exact both.elim
  · exact both

end

theorem writtenOther (other : p ≠ q) (file : File) : ((t.write p file).getD t).get q = t.get q := by
  cases done : t.write p file with
  | none => rfl
  | some t' => exact (getWrite done q).trans (if_neg other)

theorem removedOther (other : p ≠ q) : ((t.remove p).getD t).get q = t.get q := by
  cases done : t.remove p with
  | none => rfl
  | some t' => exact (getRemove done q).trans (if_neg other)

theorem removedHere (plain : t.get p ≠ some .dir) : ((t.remove p).getD t).get p = none := by
  cases found : t.get p with
  | none =>
    cases done : t.remove p with
    | none => exact found
    | some t' => exact (getRemove done p).trans (if_pos rfl)
  | some node =>
    cases node with
    | dir => exact absurd found plain
    | file f =>
      obtain ⟨_,done⟩ := removeFile found
      rw [done]
      exact (getRemove done p).trans (if_pos rfl)

theorem agreeStat (closed : Closed S) (agree : Agree S t u) (named : S p) : u.stat p = t.stat p := by
  have above : (ancestors p).any (fun q => (u.file q).isSome) = (ancestors p).any (fun q => (t.file q).isSome) := by
    rw [Bool.eq_iff_iff,List.any_eq_true,List.any_eq_true]
    refine exists_congr fun q => and_congr_right fun mem => ?_
    rw [agreeFile agree (closed.above (memAncestors.mp mem).2 named)]
  unfold stat
  rw [agreeDir agree named,agreeFile agree named,above]

theorem agreeSlot (agree : Agree S t u) (data : S p) (sidecar : S (metadataOf p)) (staged : S (stagingOf p)) :
    slotAt host u p = slotAt host t p := by
  unfold slotAt
  rw [agreeFile agree data,agreeFile agree sidecar,agreeFile agree staged]

theorem execLocal (closed : Closed S) (agree : Agree S t u) {extra} (tame : Tame S t op) (made : exec host now op t = some (t', extra)) :
    (∃ u', exec host now op u = some (u', extra) ∧ Agree S t' u') ∨ ∃ dir, op = .statMarker dir ∧ ¬ S (markerIn dir) := by
  cases op with
  | mkdirAll dir fault =>
    obtain ⟨made',first,same⟩ := Option.map_eq_some_iff.mp made
    cases same
    obtain ⟨u',done,after⟩ := agreeMkdir closed agree tame first
    exact .inl ⟨u',by rw [exec,done]; rfl,after⟩
  | statMarker dir =>
    by_cases named : S (markerIn dir)
    · cases made
      exact .inl ⟨u,by rw [exec,agreeStat closed agree named],agree⟩
    · exact .inr ⟨dir,rfl,named⟩
  | touchMarker dir =>
    cases made
    refine .inl ⟨_,rfl,?_⟩
    by_cases named : S (markerIn dir)
    · exact agreeWritten closed agree named _
    intro q inside
    have other : markerIn dir ≠ q := fun same => named (same ▸ inside)
    rw [writtenOther other,writtenOther other]
    exact agree q inside
  | createTemp p fault =>
    change (if t.get p = none then (t.write p ⟨.data [],now⟩).map (·, []) else none) = _ at made
    split at made
    · rename_i free
      obtain ⟨made',first,same⟩ := Option.map_eq_some_iff.mp made
      cases same
      have both := agreeWrite closed agree tame ⟨.data [],now⟩
      rw [first] at both
      cases second : u.write p ⟨.data [],now⟩ with
      | none => rw [second] at both; exact both.elim
      | some u' =>
        rw [second] at both
        exact .inl ⟨u',by rw [exec,if_pos ((agree p tame).trans free),second]; rfl,both⟩
    · contradiction
  | fill p content =>
    cases made
    refine .inl ⟨_,rfl,?_⟩
    rw [agreeFile agree (p := p) tame]
    split
    · exact agreeWritten closed agree tame _
    · exact agree
  | readStaged p =>
    cases made
    exact .inl ⟨u,by rw [exec,agreeSlot agree tame.2.1 tame.2.2.1 tame.2.2.2],agree⟩
  | advance p =>
    cases made
    exact .inl ⟨_,rfl,agreeMoved closed agree tame.2.2.2 tame.2.2.1 (stagingMetadata tame.1)⟩
  | move source target fault =>
    obtain ⟨made',first,same⟩ := Option.map_eq_some_iff.mp made
    cases same
    obtain ⟨u',done,after⟩ := agreeMove closed agree tame.1 tame.2.1 tame.2.2 first
    exact .inl ⟨u',by rw [exec,done]; rfl,after⟩
  | createMarker p fault =>
    obtain ⟨_,first,same⟩ := Option.map_eq_some_iff.mp made
    cases same
    have both := agreeWrite closed agree (p := p) tame ⟨.data [],now⟩
    rw [first] at both
    cases second : u.write p ⟨.data [],now⟩ with
    | none => rw [second] at both; exact both.elim
    | some u' =>
      rw [second] at both
      exact .inl ⟨u',by rw [exec,second]; rfl,both⟩
  | statAbove p =>
    cases made
    exact .inl ⟨u,by rw [exec,agreeFile agree tame],agree⟩
  | remove p =>
    cases made
    refine .inl ⟨_,rfl,fun q inside => ?_⟩
    by_cases here : p = q
    · subst here
      have plain := tame inside
      rw [removedHere plain,removedHere (agree p inside ▸ plain)]
    · rw [removedOther here,removedOther here]
      exact agree q inside

theorem tameLocal (agree : Agree S t u) (tame : Tame S t op) : Tame S u op := by
  cases op <;> first | exact tame | skip
  intro named
  rw [agree _ named]
  exact tame named

theorem touchedAgree (agree : Agree S t u) (unnamed : ¬ S (markerIn dir)) (file : File) : Agree S t ((u.write (markerIn dir) file).getD u) := by
  intro q inside
  have other : markerIn dir ≠ q := fun same => unnamed (same ▸ inside)
  exact (writtenOther other file).trans (agree q inside)

/-- Calls that come through on one tree come through on every tree that agrees on what they name. -/
theorem finishesLocal (closed : Closed S) {n v} (agree : Agree S t u)
    (goes : Finishes host now (Tame S) n todo t v) : ∃ m w, Finishes host now (Tame S) m todo u w ∧ Agree S v w := by
  -- The induction is on the number of calls: a marker one of the trees lacks is one call more or less.
  induction n using Nat.strong_induction_on generalizing todo t u with
  | _ n ih =>
    cases goes with
    | done => exact ⟨0,u,.done u,agree⟩
    | @call k op extra todo _ t' _ tame made rest =>
      rcases execLocal closed agree tame made with ⟨_,made',after⟩ | ⟨dir,rfl,unnamed⟩
      · obtain ⟨m,w,goes',same⟩ := ih k (Nat.lt_succ_self k) after rest
        exact ⟨m + 1,w,.call (tameLocal agree tame) made' goes',same⟩
      cases made
      have plain : ∃ k' < k + 1, ∃ start, Finishes host now (Tame S) k' todo start v ∧ Agree S start u := by
        split at rest
        · cases rest with
          | @call k' _ _ _ _ _ _ _ touched rest =>
            cases touched
            exact ⟨k',by omega,_,rest,(touchedAgree agree.symm unnamed _).symm⟩
        · exact ⟨k,Nat.lt_succ_self k,t,rest,agree⟩
      obtain ⟨k',fewer,_,rest',near⟩ := plain
      have looked extra (same : extra = match u.stat (markerIn dir) with | .missing => [.touchMarker dir] | _ => []) :
          exec host now (.statMarker dir) u = some (u, extra) := same ▸ rfl
      cases seen : u.stat (markerIn dir) with
      | missing =>
        obtain ⟨m,w,goes',same⟩ := ih k' fewer (touchedAgree near unnamed ⟨.data [],now⟩) rest'
        have touch : Finishes host now (Tame S) (m + 1) (.touchMarker dir :: todo) u w := goOn [] tame rfl goes'
        exact ⟨m + 2,w,goOn [.touchMarker dir] tame (looked _ (by rw [seen])) touch,same⟩
      | file _ | dir | notDirectory =>
        obtain ⟨m,w,goes',same⟩ := ih k' fewer near rest'
        exact ⟨m + 1,w,goOn [] tame (looked _ (by rw [seen])) goes',same⟩

theorem writtenDirs (p : Path) (file : File) : SameDirs t ((t.write p file).getD t) := by
  cases done : t.write p file with
  | none => exact fun _ => rfl
  | some t' => exact writeDirs done

theorem removedDirs (plain : t.get p ≠ some .dir) : SameDirs t ((t.remove p).getD t) := by
  refine sameDirsOf fun q => ?_
  by_cases here : p = q
  · subst here
    rw [removedHere plain]
    exact ⟨nofun,fun isdir => absurd isdir plain⟩
  · rw [removedOther here]

theorem movedDirs (other : target ≠ source) : SameDirs t ((rename t source target).getD t) := by
  cases done : rename t source target with
  | none => exact fun _ => rfl
  | some t' => exact renameDirs done other

theorem movedOther (away : source ≠ q) (other : target ≠ q) : ((rename t source target).getD t).get q = t.get q := by
  cases done : rename t source target with
  | none => rfl
  | some t' => exact FileFrame.atRename away other rfl done

theorem moveDone {file} (found : t.get source = some (.file file)) (new : target ≠ [])
    (parent : t.isDir target.dropLast = true) (free : t.isDir target = false) (other : target ≠ source) :
    ∃ t', rename t source target = some t' := by
  obtain ⟨moved,written⟩ := writeDone file new parent free
  have still : moved.get source = some (.file file) := by
    rw [getWrite written,if_neg other]
    exact found
  obtain ⟨t',removed⟩ := removeFile still
  exact ⟨t',by simp only [rename,fileIff.mpr found,bind,Option.bind_some,written,removed]⟩

theorem dirsAbove {a} (isdir : t.isDir dir = true) (inside : a <+: dir) : t.isDir a = true := by
  by_cases same : a = dir
  · exact same ▸ isdir
  rcases isDirIff.mp isdir with root | found
  · subst root
    exact isDirIff.mpr (.inl (List.prefix_nil.mp inside))
  · exact dirAbove found inside same

theorem madeAgain (isdir : t.isDir dir = true) : ∃ t', t.mkdirAll dir = some t' ∧ ∀ q, t'.get q = t.get q := by
  have clear : ∀ a, a <+: dir → t.file a = none := fun a inside => by
    cases found : t.file a with
    | none => rfl
    | some f =>
      have here := dirsAbove isdir inside
      rw [fileNotDir (fileIff.mp found)] at here
      contradiction
  obtain ⟨t',done⟩ := mkdirAllDone clear
  refine ⟨t',done,fun q => ?_⟩
  rw [getMkdirAll done]
  split
  · rename_i below
    exact ((isDirIff.mp (dirsAbove isdir below.2)).resolve_left below.1).symm
  · rfl

variable (host now S) in
def Succeeds (todo : List Op) (t : Files) (Q : Files → Prop) : Prop := ∃ n v, Finishes host now (Tame S) n todo t v ∧ Q v

theorem succeedsNil (good : Q t) : Succeeds S host now [] t Q := ⟨0,t,.done t,good⟩

theorem succeedsCall (extra : List Op) (tame : Tame S t op)
    (made : exec host now op t = some (t', extra)) (rest : Succeeds S host now (extra ++ todo) t' Q) : Succeeds S host now (op :: todo) t Q := by
  obtain ⟨n,v,goes,good⟩ := rest
  exact ⟨n + 1,v,goOn extra tame made goes,good⟩

theorem succeedsStep (going : Succeeds S host now (op :: todo) t Q) :
    ∃ t' extra, exec host now op t = some (t', extra) ∧ Succeeds S host now (extra ++ todo) t' Q := by
  obtain ⟨_,v,goes,good⟩ := going
  cases goes with
  | call _ made rest => exact ⟨_,_,made,_,v,rest,good⟩

theorem succeedsLocal (closed : Closed S) (agree : Agree S t u)
    (seen : ∀ v w, Agree S v w → Q v → Q w) (going : Succeeds S host now todo t Q) : Succeeds S host now todo u Q := by
  obtain ⟨_,v,goes,good⟩ := going
  obtain ⟨m,w,goes',same⟩ := finishesLocal closed agree goes
  exact ⟨m,w,goes',seen v w same good⟩

end

end MaxIOFS.FileOps
