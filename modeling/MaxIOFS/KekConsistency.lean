import MaxIOFS.KekStore

/-! The keys in memory stay what a restart would load: each operation changes the table and its
copy together or not at all, as long as no two records of one request disagree on a new
version and no version is the last an integer can hold. -/
namespace MaxIOFS.KekConsistency
open ByteString Effects Runs KekStore Hex OrderedStore List Store Prod Option

structure Copies (t : Table) (m : Memory) : Prop where
  readable : ∀ v row, t.get v = some row → (decodeKeyHex row.keyHex).isSome = true
  keys : ∀ v, m.keys.get v = (t.get v).bind (fun row => decodeKeyHex row.keyHex)
  shared : ∀ v, m.clusterShared.get v = (t.get v).map Row.clusterShared

structure Mirrors (t : Table) (m : Memory) : Prop extends Copies t m where
  current : ∀ v, (∃ row, t.get v = some row ∧ row.isCurrent = true) ↔ v = m.current
  marked : m.current ≠ 0

section
variable {t u : Table} {m : Memory} {v : Int}

theorem decodedEncoded {key} (size : key.length = 32) : decodeKeyHex (encodeToString key) = some key := by
  unfold decodeKeyHex
  rw [if_pos (by rw [encodeLength,size]),decodeEncode]

theorem decodedSize {text key} (decoded : decodeKeyHex text = some key) : key.length = 32 := by
  unfold decodeKeyHex at decoded
  split at decoded <;> try contradiction
  have := decodeLength decoded
  omega

theorem Copies.known (copies : Copies t m) : (m.keys.get v).isSome = true ↔ (t.get v).isSome = true := by
  rw [copies.keys]
  cases found : t.get v with
  | none => simp
  | some row => simpa using copies.readable v row found

theorem Copies.free (copies : Copies t m) (unknown : m.keys.get v = none) : t.get v = none := by
  rw [← not_isSome_iff_eq_none,← copies.known,unknown]
  simp

theorem getMapped {γ} (base : Store Int γ) (f : Int → Row → γ) :
    (base.setAll (t.entries.map (fun e => (e.1, f e.1 e.2)))).get v = ((t.get v).map (f v)).or (base.get v) := by
  have keys : (t.entries.map (fun e => (e.1, f e.1 e.2))).map fst = t.entries.map fst := by simp
  cases found : t.get v with
  | some row =>
    have mem : (v, f v row) ∈ t.entries.map (fun e => (e.1, f e.1 e.2)) := mem_map.mpr ⟨(v, row),memEntries.mpr found,rfl⟩
    exact getSetAll (keys ▸ keysNodup t) mem
  | none =>
    refine getSetAllOther fun e mem same => ?_
    obtain ⟨_,mem',rfl⟩ := mem_map.mp mem
    rw [← same,memEntries.mp mem'] at found
    contradiction

theorem getUpdateAll (change : Int → Row → Row) : (updateAll change t).get v = (t.get v).map (change v) := by
  rw [updateAll,getMapped]
  cases t.get v <;> rfl

theorem getMarked (version : Int) : (setCurrent version (clearCurrent t)).get v =
    (t.get v).map (fun row => { row with isCurrent := decide (v = version) }) := by
  rw [setCurrent,clearCurrent,getUpdateAll,getUpdateAll,Option.map_map]
  congr 1
  funext row
  by_cases here : v = version
  · simp [here]
  · simp [here]

theorem Copies.mark {version} (copies : Copies t m) (present : (t.get version).isSome = true) (set : version ≠ 0) :
    Mirrors (setCurrent version (clearCurrent t)) { m with current := version } where
  readable := fun v row found => by
    rw [getMarked] at found
    obtain ⟨old,here,rfl⟩ := map_eq_some_iff.mp found
    exact copies.readable v old here
  keys := fun v => by
    rw [getMarked,copies.keys]
    cases t.get v <;> rfl
  shared := fun v => by
    rw [getMarked,copies.shared]
    cases t.get v <;> rfl
  current := fun v => by
    rw [getMarked]
    constructor
    · rintro ⟨row,found,marked⟩
      obtain ⟨_,_,rfl⟩ := map_eq_some_iff.mp found
      exact of_decide_eq_true marked
    rintro rfl
    obtain ⟨_,found⟩ := isSome_iff_exists.mp present
    exact ⟨_,by rw [found]; rfl,by simp⟩
  marked := set

end

section
variable {t : Table} {m : Memory}
variable {entries : List (Int × Row)}

def loaded (m : Memory) (e : Int × Row) : Memory where
  keys := m.keys.set e.1 ((decodeKeyHex e.2.keyHex).getD [])
  clusterShared := m.clusterShared.set e.1 e.2.clusterShared
  current := if e.2.isCurrent then e.1 else m.current

theorem loadRows (readable : ∀ e ∈ entries, (decodeKeyHex e.2.keyHex).isSome = true) :
    entries.foldlM loadRow m = .ok (entries.foldl loaded m) := by
  induction entries generalizing m with
  | nil => rfl
  | cons e rest ih =>
    obtain ⟨_,decoded⟩ := isSome_iff_exists.mp (readable e mem_cons_self)
    have first : loadRow m e = .ok (loaded m e) := by
      unfold loadRow loaded
      rw [decoded]
      rfl
    rw [foldlM_cons,first]
    exact ih fun e mem => readable e (mem_cons_of_mem _ mem)

theorem loadedKeys (entries : List (Int × Row)) :
    (entries.foldl loaded m).keys = m.keys.setAll (entries.map (fun e => (e.1, (decodeKeyHex e.2.keyHex).getD []))) := by
  induction entries generalizing m with
  | nil => rfl
  | cons e rest ih =>
    rw [foldl_cons,ih]
    rfl

theorem loadedShared (entries : List (Int × Row)) :
    (entries.foldl loaded m).clusterShared = m.clusterShared.setAll (entries.map (fun e => (e.1, e.2.clusterShared))) := by
  induction entries generalizing m with
  | nil => rfl
  | cons e rest ih =>
    rw [foldl_cons,ih]
    rfl

theorem loadedCurrent {version} (only : ∀ e ∈ entries, e.2.isCurrent = true → e.1 = version)
    (some_ : m.current = version ∨ ∃ e ∈ entries, e.2.isCurrent = true) : (entries.foldl loaded m).current = version := by
  induction entries generalizing m with
  | nil => simpa using some_
  | cons e rest ih =>
    refine ih (fun e mem => only e (mem_cons_of_mem _ mem)) ?_
    by_cases here : e.2.isCurrent = true
    · exact .inl ((if_pos here).trans (only e mem_cons_self here))
    rcases some_ with before | ⟨e',mem,marked⟩
    · exact .inl ((if_neg here).trans before)
    rcases mem_cons.mp mem with rfl | later
    · exact absurd marked here
    · exact .inr ⟨e',later,marked⟩

theorem loadReadable {m'} (done : entries.foldlM loadRow m = .ok m') : ∀ e ∈ entries, (decodeKeyHex e.2.keyHex).isSome = true := by
  induction entries generalizing m with
  | nil => simp
  | cons e rest ih =>
    rw [foldlM_cons] at done
    cases decoded : decodeKeyHex e.2.keyHex with
    | none =>
      simp only [loadRow,decoded] at done
      contradiction
    | some key =>
      simp only [loadRow,decoded] at done
      intro e' mem
      rcases mem_cons.mp mem with rfl | later
      · simp [decoded]
      · exact ih done e' later

theorem loadCopies (readable : ∀ v row, t.get v = some row → (decodeKeyHex row.keyHex).isSome = true) :
    ∃ m, t.entries.foldlM loadRow emptyMemory = .ok m ∧ Copies t m ∧ m = t.entries.foldl loaded emptyMemory := by
  refine ⟨_,loadRows fun e mem => readable e.1 e.2 (memEntries.mp mem),⟨readable,fun v => ?_,fun v => ?_⟩,rfl⟩
  · rw [loadedKeys,getMapped emptyMemory.keys (fun _ row => (decodeKeyHex row.keyHex).getD [])]
    cases found : t.get v with
    | none => rfl
    | some row =>
      obtain ⟨_,decoded⟩ := isSome_iff_exists.mp (readable v row found)
      simp [decoded]
  · rw [loadedShared,getMapped emptyMemory.clusterShared (fun _ row => row.clusterShared)]
    cases t.get v <;> rfl

theorem Copies.unique {m'} (copies : Copies t m) (copies' : Copies t m') (same : m.current = m'.current) : m = m' := by
  cases m
  have keys := extGet fun v => (copies.keys v).trans (copies'.keys v).symm
  have shared := extGet fun v => (copies.shared v).trans (copies'.shared v).symm
  simp only at keys shared same
  rw [keys,shared,same]

theorem Mirrors.load (mirrors : Mirrors t m) : loadAll t = .ok m := by
  obtain ⟨_,loads,copies,rfl⟩ := loadCopies mirrors.readable
  have current : (t.entries.foldl loaded emptyMemory).current = m.current := by
    obtain ⟨row,found,marked⟩ := (mirrors.current m.current).mpr rfl
    refine loadedCurrent (fun e mem marked => ?_) (.inr ⟨(m.current, row),memEntries.mpr found,marked⟩)
    exact (mirrors.current e.1).mp ⟨e.2,memEntries.mp mem,marked⟩
  have whole := copies.unique mirrors.toCopies current
  rw [whole] at loads
  unfold loadAll
  rw [loads]
  exact if_neg fun both => mirrors.marked both.2

theorem loadedFrom (entries : List (Int × Row)) : (entries.foldl loaded m).current = m.current ∨
    ∃ e ∈ entries, e.2.isCurrent = true ∧ e.1 = (entries.foldl loaded m).current := by
  induction entries generalizing m with
  | nil => exact .inl rfl
  | cons e rest ih =>
    rw [foldl_cons]
    rcases ih with same | ⟨e',mem,marked,here⟩
    · by_cases marked : e.2.isCurrent = true
      · exact .inr ⟨e,mem_cons_self,marked,by rw [same]; exact (if_pos marked).symm⟩
      · exact .inl (same.trans (if_neg marked))
    · exact .inr ⟨e',mem_cons_of_mem _ mem,marked,here⟩

def Single (t : Table) : Prop := ∀ v v' row row', t.get v = some row → row.isCurrent = true → t.get v' = some row' → row'.isCurrent = true → v = v'

theorem loadedCopies (loads : loadAll t = .ok m) : Copies t m ∧ m = t.entries.foldl loaded emptyMemory ∧ (m.keys = empty ∨ m.current ≠ 0) := by
  unfold loadAll at loads
  split at loads <;> try contradiction
  rename_i m' ran
  split at loads <;> try contradiction
  rename_i fits
  cases loads
  have readable v row (found : t.get v = some row) : (decodeKeyHex row.keyHex).isSome = true := loadReadable ran (v, row) (memEntries.mpr found)
  obtain ⟨_,ran',copies,whole⟩ := loadCopies readable
  cases (ran.symm.trans ran')
  refine ⟨copies,whole,?_⟩
  by_cases none_ : m.keys = empty
  · exact .inl none_
  · exact .inr fun zero => fits ⟨none_,zero⟩

theorem loadMirrors (single : Single t) (loads : loadAll t = .ok m) (set : m.current ≠ 0) : Mirrors t m := by
  obtain ⟨copies,whole,_⟩ := loadedCopies loads
  refine ⟨copies,fun v => ?_,set⟩
  rcases loadedFrom t.entries with zero | ⟨e,mem,marked,here⟩
  · exact absurd ((congrArg Memory.current whole).trans zero) set
  rw [← whole] at here
  have found := memEntries.mp mem
  constructor
  · rintro ⟨row,found',marked'⟩
    exact (single v e.1 row e.2 found' marked' found marked).trans here
  · rintro rfl
    exact ⟨e.2,here ▸ found,marked⟩

end

structure Kept (s s' : KeyStore) : Prop where
  mirrors : Mirrors s'.db s'.memory
  keys : ∀ v key, s.memory.keys.get v = some key → s'.memory.keys.get v = some key

section
variable {s s' : KeyStore} {faults : Faults} {version : Int} {key : Bytes} {shared : Bool}
variable {order : List Int}

theorem Kept.refl (mirrors : Mirrors s.db s.memory) : Kept s s := ⟨mirrors,fun _ _ found => found⟩

theorem Copies.insert {t m} (copies : Copies t m) (size : key.length = 32) (current : Bool) (now : Int) :
    Copies (t.set version ⟨encodeToString key,current,shared⟩) ⟨m.keys.set version key,m.clusterShared.set version shared,now⟩ := by
  refine ⟨fun v row found => ?_,fun v => ?_,fun v => ?_⟩
  · rw [getSet] at found
    split at found
    · cases found
      simp [decodedEncoded size]
    · exact copies.readable v row found
  · rw [getSet,getSet]
    split
    · exact (decodedEncoded size).symm
    · exact copies.keys v
  · rw [getSet,getSet]
    split
    · rfl
    · exact copies.shared v

theorem insertKept (mirrors : Mirrors s.db s.memory) (size : key.length = 32) (fails : Bool) :
    wp (insertKey fails version key false shared) (fun _ s' => Kept s s' ∧ (s'.db.get version).isSome = true ∧
      s'.memory.clusterShared.get version = some shared) (fun _ s' => s' = s) s := by
  rw [insertKey,wpBind,wpGets,wpBind,wpCheck]
  refine ⟨fun ok => ?_,fun _ => rfl⟩
  have free : s.db.get version = none := isNone_iff_eq_none.mp ((Bool.and_eq_true _ _).mp ok).2
  have unknown : s.memory.keys.get version = none := by rw [mirrors.keys,free]; rfl
  refine ⟨⟨⟨mirrors.toCopies.insert size false _,fun v => ?_,mirrors.marked⟩,fun v old found => ?_⟩,?_,?_⟩
  · dsimp only
    rw [if_neg Bool.false_ne_true,← mirrors.current v,getSet]
    split
    · rename_i here
      subst here
      simp [free]
    · rfl
  · rw [getSet,if_neg]
    · exact found
    rintro rfl
    rw [unknown] at found
    contradiction
  · simp
  · simp

theorem transactionOk {body} {t t'} (done : transaction faults body t = .ok t') : t' = body.foldl (fun t statement => statement t) t := by
  have whole n {t u} (ran : statements faults.statement n body t = some u) : u = body.foldl (fun t statement => statement t) t := by
    clear done
    induction body generalizing n t with
    | nil => exact (some.inj ran).symm
    | cons statement rest ih =>
      unfold statements at ran
      split at ran <;> try contradiction
      exact ih (n + 1) ran
  unfold transaction at done
  split at done <;> try contradiction
  split at done <;> try contradiction
  rename_i u ran
  split at done <;> try contradiction
  cases done
  exact whole 0 ran

theorem markKept (mirrors : Mirrors s.db s.memory) (present : (s.db.get version).isSome = true) (set : version ≠ 0) :
    wp (markCurrent faults version) (fun _ s' => Kept s s' ∧ s'.memory.current = version ∧ s'.memory.clusterShared = s.memory.clusterShared)
      (fun _ s' => s' = s) s := by
  rw [markCurrent,wpBind,wpObserve]
  cases done : transaction faults [clearCurrent,setCurrent version] s.db with
  | error e => rfl
  | ok t =>
    have moved := transactionOk done
    subst moved
    exact ⟨⟨mirrors.toCopies.mark present set,fun _ _ found => found⟩,rfl,rfl⟩

def top : Int := 2 ^ 63 - 1

def Counts (versions : List Int) : Prop := (∀ v ∈ versions, v < top) ∨ ∀ v ∈ versions, wrap (v + 1) ≠ 0

def raise (next version : Int) : Int := if next ≤ version then wrap (version + 1) else next

theorem raiseAbove {next} (start : 1 ≤ next) (below : ∀ v ∈ order, v < top) : 1 ≤ order.foldl raise next := by
  induction order generalizing next with
  | nil => exact start
  | cons v rest ih =>
    have small : v < top := below v mem_cons_self
    refine ih ?_ fun w mem => below w (mem_cons_of_mem _ mem)
    unfold raise wrap
    unfold top at small
    split <;> omega

theorem raiseNonzero {next} (start : next ≠ 0) (skips : ∀ v ∈ order, wrap (v + 1) ≠ 0) : order.foldl raise next ≠ 0 := by
  induction order generalizing next with
  | nil => exact start
  | cons v rest ih =>
    refine ih ?_ fun w mem => skips w (mem_cons_of_mem _ mem)
    unfold raise
    split
    · exact skips v mem_cons_self
    · exact start

theorem nextVersionSet {versions} (visited : order.Perm versions) (counts : Counts versions) : nextVersion order ≠ 0 := by
  rcases counts with below | skips
  · have positive : 1 ≤ nextVersion order := raiseAbove (Int.le_refl 1) fun v mem => below v (visited.mem_iff.mp mem)
    omega
  · exact raiseNonzero (by decide) fun v mem => skips v (visited.mem_iff.mp mem)

theorem addKept {key} (mirrors : Mirrors s.db s.memory) (visited : order.Perm (versions s)) (counts : Counts (versions s)) :
    wp (addCurrent faults order key shared) (fun _ s' => Kept s s' ∧ s'.memory.clusterShared.get s'.memory.current = some shared)
      (fun _ s' => Kept s s') s := by
  have unchanged s' (same : s' = s) : Kept s s' := by
    rw [same]
    exact Kept.refl mirrors
  unfold addCurrent
  cases key with
  | none => exact Kept.refl mirrors
  | some key =>
    rw [wpBind]
    refine wpMono (insertKept mirrors key.2 faults.insert) (fun _ s₁ inserted => ?_) (fun _ s₁ => unchanged s₁)
    obtain ⟨kept,present,flag⟩ := inserted
    rw [wpBind]
    refine wpMono (markKept kept.mirrors present (nextVersionSet visited counts)) (fun _ s₂ marked => ?_) (fun _ _ same => same ▸ kept)
    obtain ⟨kept',current,same⟩ := marked
    refine ⟨⟨kept'.mirrors,fun v old found => kept'.keys v old (kept.keys v old found)⟩,?_⟩
    rw [current,same]
    exact flag

end

section
variable {t : Table} {parsed : List (Int × Bytes)} {v : Int}

def upserts (t : Table) (parsed : List (Int × Bytes)) : Table := parsed.foldl (fun t p => upsert p.1 p.2 t) t

theorem getUpsertOther {version key} (other : version ≠ v) : (upsert version key t).get v = t.get v := by
  unfold upsert
  split <;> exact getSetOther _ _ other

theorem upsertsOld {row} (found : t.get v = some row) :
    (upserts t parsed).get v = some { row with clusterShared := row.clusterShared || decide (v ∈ parsed.map fst) } := by
  induction parsed generalizing t row with
  | nil => simpa [upserts] using found
  | cons p rest ih =>
    by_cases here : p.1 = v
    · have first : (upsert p.1 p.2 t).get v = some { row with clusterShared := true } := by
        unfold upsert
        rw [here,found]
        exact getSetSame _ _ _
      refine (ih first).trans ?_
      simp [here]
    · have same : v ∈ rest.map fst ↔ v ∈ (p :: rest).map fst := by
        rw [map_cons,mem_cons,or_iff_right (Ne.symm here)]
      rw [← decide_eq_decide.mpr same]
      exact ih ((getUpsertOther here).trans found)

theorem upsertsNew {key} (free : t.get v = none) (present : v ∈ parsed.map fst) (agree : ∀ p ∈ parsed, p.1 = v → p.2 = key) :
    (upserts t parsed).get v = some ⟨encodeToString key,false,true⟩ := by
  induction parsed generalizing t with
  | nil => simp at present
  | cons p rest ih =>
    by_cases here : p.1 = v
    · have first : (upsert p.1 p.2 t).get v = some ⟨encodeToString key,false,true⟩ := by
        unfold upsert
        rw [here,free,agree p mem_cons_self here]
        exact getSetSame _ _ _
      exact upsertsOld first
    · refine ih ((getUpsertOther here).trans free) ?_ fun q mem => agree q (mem_cons_of_mem _ mem)
      simpa [Ne.symm here] using present

theorem upsertsAbsent (absent : v ∉ parsed.map fst) : (upserts t parsed).get v = t.get v := by
  induction parsed generalizing t with
  | nil => rfl
  | cons p rest ih =>
    simp only [map_cons,mem_cons,not_or] at absent
    exact (ih absent.2).trans (getUpsertOther (Ne.symm absent.1))

theorem setAllAgree {β} {m : Store Int β} {bindings x} (present : v ∈ bindings.map fst)
    (agree : ∀ e ∈ bindings, e.1 = v → e.2 = x) : (m.setAll bindings).get v = some x := by
  induction bindings generalizing m with
  | nil => simp at present
  | cons e rest ih =>
    rw [setAll,foldl_cons]
    by_cases later : v ∈ rest.map fst
    · exact ih later fun e mem => agree e (mem_cons_of_mem _ mem)
    have here : v = e.1 := by simpa [later] using present
    have absent : ∀ f ∈ rest, f.1 ≠ v := fun f mem same => later (mem_map.mpr ⟨f,mem,same⟩)
    refine (getSetAllOther absent).trans ?_
    rw [← here,agree e mem_cons_self here.symm]
    exact getSetSame _ _ _

end

-- The records of one request that name the same new version carry the same key.
def Agree (m : Memory) (records : List KeyRecord) : Prop :=
  ∀ r ∈ records, ∀ r' ∈ records, r.version = r'.version → m.keys.get r.version = none → decodeKeyHex r.keyHex = decodeKeyHex r'.keyHex

section
variable {s : KeyStore} {m : Memory} {records : List KeyRecord} {parsed : List (Int × Bytes)}

def Admitted (m : Memory) (r : KeyRecord) (p : Int × Bytes) : Prop :=
  r.version = p.1 ∧ decodeKeyHex r.keyHex = some p.2 ∧ ∀ known, m.keys.get p.1 = some known → encodeToString known = r.keyHex

theorem parsedOne {r p} (done : parseRecord m r = .ok p) : Admitted m r p := by
  unfold parseRecord at done
  split at done <;> try contradiction
  rename_i key decoded
  split at done
  · rename_i known found
    split at done <;> try contradiction
    rename_i same
    cases done
    refine ⟨rfl,decoded,fun known' found' => ?_⟩
    cases (found.symm.trans found')
    exact Decidable.not_not.mp same
  · rename_i unknown
    cases done
    exact ⟨rfl,decoded,fun known found => by rw [unknown] at found; contradiction⟩

theorem parsedFrom (done : records.mapM (parseRecord m) = .ok parsed) : List.Forall₂ (Admitted m) records parsed := by
  induction records generalizing parsed with
  | nil =>
    cases done
    exact .nil
  | cons r rest ih =>
    rw [mapM_cons] at done
    cases first : parseRecord m r with
    | error e =>
      rw [first] at done
      contradiction
    | ok p =>
      cases later : rest.mapM (parseRecord m) with
      | error e =>
        rw [first,later] at done
        contradiction
      | ok ps =>
        rw [first,later] at done
        cases done
        exact .cons (parsedOne first) (ih later)

theorem parsedVersions (all : List.Forall₂ (Admitted m) records parsed) : parsed.map fst = records.map KeyRecord.version := by
  induction all with
  | nil => rfl
  | cons first _ ih => simp only [map_cons,ih,first.1]

theorem parsedRecord (all : List.Forall₂ (Admitted m) records parsed) {p} (mem : p ∈ parsed) : ∃ r ∈ records, Admitted m r p := by
  induction all with
  | nil => simp at mem
  | cons first _ ih =>
    rename_i r q _ _ _
    rcases mem_cons.mp mem with rfl | later
    · exact ⟨r,mem_cons_self,first⟩
    · obtain ⟨r',mem',admitted⟩ := ih later
      exact ⟨r',mem_cons_of_mem _ mem',admitted⟩

theorem currentNamed (set : currentVersion records ≠ 0) : currentVersion records ∈ records.map KeyRecord.version := by
  have fold current : records.foldl (fun current r => if r.isCurrent then r.version else current) current = current ∨
      records.foldl (fun current r => if r.isCurrent then r.version else current) current ∈ records.map KeyRecord.version := by
    clear set
    induction records generalizing current with
    | nil => exact .inl rfl
    | cons r rest ih =>
      rw [foldl_cons]
      rcases ih (if r.isCurrent then r.version else current) with same | later
      · by_cases marked : r.isCurrent = true
        · rw [if_pos marked] at same ⊢
          exact .inr (mem_cons.mpr (.inl same))
        · rw [if_neg marked] at same ⊢
          exact .inl same
      · exact .inr (mem_cons_of_mem _ later)
  exact (fold 0).resolve_left set

section
variable (copies : Copies s.db s.memory) (agree : Agree s.memory records) (all : List.Forall₂ (Admitted s.memory) records parsed)
  {p p' : Int × Bytes}
include copies all

theorem parsedKnown {known} (mem : p ∈ parsed) (found : s.memory.keys.get p.1 = some known) : p.2 = known := by
  obtain ⟨_,_,_,decoded,same⟩ := parsedRecord all mem
  obtain ⟨_,_,readable⟩ := bind_eq_some_iff.mp ((copies.keys p.1).symm.trans found)
  rw [← same known found,decodedEncoded (decodedSize readable)] at decoded
  exact (some.inj decoded).symm

omit copies in
include agree in
theorem parsedSame (mem : p ∈ parsed) (mem' : p' ∈ parsed) (same : p'.1 = p.1) (unknown : s.memory.keys.get p.1 = none) : p'.2 = p.2 := by
  obtain ⟨r,inside,version,decoded,_⟩ := parsedRecord all mem
  obtain ⟨r',inside',version',decoded',_⟩ := parsedRecord all mem'
  have both := agree r' inside' r inside (by rw [version',version,same]) (by rw [version',same]; exact unknown)
  rw [decoded,decoded'] at both
  exact some.inj both

include agree in
theorem adoptedRow (v : Int) : ((upserts s.db parsed).get v = s.db.get v ∧ (s.memory.keys.setAll parsed).get v = s.memory.keys.get v ∧
      v ∉ parsed.map fst) ∨ ∃ key row, (upserts s.db parsed).get v = some row ∧ decodeKeyHex row.keyHex = some key ∧ row.clusterShared = true ∧
      (s.memory.keys.setAll parsed).get v = some key ∧ v ∈ parsed.map fst ∧ ∀ known, s.memory.keys.get v = some known → key = known := by
  by_cases present : v ∈ parsed.map fst
  · refine .inr ?_
    obtain ⟨p,mem,rfl⟩ := mem_map.mp present
    obtain ⟨_,_,_,readable,_⟩ := parsedRecord all mem
    cases found : s.db.get p.1 with
    | none =>
      have unknown : s.memory.keys.get p.1 = none := by rw [copies.keys,found]; rfl
      have same : ∀ q ∈ parsed, q.1 = p.1 → q.2 = p.2 := fun q mem' here => parsedSame agree all mem mem' here unknown
      exact ⟨p.2,_,upsertsNew found present same,decodedEncoded (decodedSize readable),rfl,setAllAgree present same,present,
        fun known here => by rw [unknown] at here; contradiction⟩
    | some row =>
      obtain ⟨known,decoded⟩ := isSome_iff_exists.mp (copies.readable p.1 row found)
      have old : s.memory.keys.get p.1 = some known := by rw [copies.keys,found]; exact decoded
      have same : ∀ q ∈ parsed, q.1 = p.1 → q.2 = known := fun q mem' here => parsedKnown copies all mem' (here ▸ old)
      exact ⟨known,_,upsertsOld found,decoded,by simp [present],setAllAgree present same,present,
        fun known' here => some.inj (old.symm.trans here)⟩
  · refine .inl ⟨upsertsAbsent present,getSetAllOther fun e mem same => ?_,present⟩
    exact present (mem_map.mpr ⟨e,mem,same⟩)

include agree in
theorem adoptCopies (now : Int) : Copies (upserts s.db parsed)
    ⟨s.memory.keys.setAll parsed,s.memory.clusterShared.setAll (parsed.map (fun p => (p.1, true))),now⟩ := by
  have flags : (parsed.map (fun p => (p.1, true))).map fst = parsed.map fst := by simp
  refine ⟨fun v row found => ?_,fun v => ?_,fun v => ?_⟩
  · rcases adoptedRow copies agree all v with ⟨same,_⟩ | ⟨key,row',here,decoded,_⟩
    · exact copies.readable v row (same ▸ found)
    · cases (here.symm.trans found)
      simp [decoded]
  · rcases adoptedRow copies agree all v with ⟨same,kept,_⟩ | ⟨key,row',here,decoded,_,stored,_⟩
    · rw [same]
      exact kept.trans (copies.keys v)
    · rw [here]
      exact stored.trans decoded.symm
  · rcases adoptedRow copies agree all v with ⟨same,_,absent⟩ | ⟨_,_,here,_,shared,_,present,_⟩
    · rw [same,← copies.shared]
      exact getSetAllOther fun e mem here => absent (flags ▸ mem_map.mpr ⟨e,mem,here⟩)
    rw [here]
    refine (setAllAgree (flags ▸ present) fun e mem _ => ?_).trans (congrArg some shared.symm)
    obtain ⟨_,_,rfl⟩ := mem_map.mp mem
    rfl

end

theorem adoptKept {faults} (mirrors : Mirrors s.db s.memory) (agree : Agree s.memory records) :
    wp (adoptClusterKeys faults records) (fun _ s' => Kept s s') (fun _ s' => Kept s s') s := by
  have copies := mirrors.toCopies
  rw [adoptClusterKeys,wpIte]
  refine ⟨fun _ => Kept.refl mirrors,fun _ => ?_⟩
  rw [wpBind,wpObserve]
  cases done : records.mapM (parseRecord s.memory) with
  | error e => exact Kept.refl mirrors
  | ok parsed =>
    have all := parsedFrom done
    dsimp only
    rw [wpBind,wpCheck]
    refine ⟨fun named => ?_,fun _ => Kept.refl mirrors⟩
    have set : currentVersion records ≠ 0 := of_decide_eq_true named
    rw [wpBind,wpObserve]
    cases ran : transaction faults (parsed.map (fun p => upsert p.1 p.2) ++ [clearCurrent,setCurrent (currentVersion records)]) s.db with
    | error e => exact Kept.refl mirrors
    | ok t =>
      have moved : t = setCurrent (currentVersion records) (clearCurrent (upserts s.db parsed)) := by
        rw [transactionOk ran,foldl_append,foldl_map]
        rfl
      have present : currentVersion records ∈ parsed.map fst := parsedVersions all ▸ currentNamed set
      subst moved
      refine ⟨(adoptCopies copies agree all s.memory.current).mark ?_ set,fun v key found => ?_⟩
      · rcases adoptedRow copies agree all (currentVersion records) with ⟨_,_,absent⟩ | ⟨_,row,here,_⟩
        · exact absurd present absent
        · rw [here]
          rfl
      · rcases adoptedRow copies agree all v with ⟨_,kept,_⟩ | ⟨_,_,_,_,_,stored,_,old⟩
        · exact kept.trans found
        · exact stored.trans (congrArg some (old key found))

end

def Careful (s : KeyStore) : Event → Prop
  | .rotate _ _ _ _ => Counts (versions s)
  | .ensure _ _ _ => if clusterSharedKeys s.memory = [] then Counts (versions s)
      else s.memory.clusterShared.get s.memory.current = some true
  | .adopt _ records => Agree s.memory records

section
variable {s s' : KeyStore} {e : Event}

section
variable (mirrors : Mirrors s.db s.memory)
include mirrors

theorem ensureKept {faults order key} (visited : order.Perm (versions s)) (careful : Careful s (.ensure faults order key)) :
    wp (ensureClusterKey faults order key) (fun _ s' => Kept s s' ∧ s'.memory.clusterShared.get s'.memory.current = some true)
    (fun _ s' => Kept s s') s := by
  unfold Careful at careful
  rw [ensureClusterKey,wpBind,wpGets,wpIte]
  refine ⟨fun some_ => ?_,fun none_ => ?_⟩
  · rw [if_neg some_] at careful
    exact ⟨Kept.refl mirrors,careful⟩
  rw [if_pos (Decidable.not_not.mp none_)] at careful
  rw [wpBind]
  exact wpMono (addKept mirrors visited careful) (fun _ _ kept => kept) (fun _ _ kept => kept)

theorem performKept (careful : Careful s e) (visited : visits s e = true) :
    wp (perform e) (fun _ s' => Kept s s' ∧ (∀ faults order key, e = .ensure faults order key →
      s'.memory.clusterShared.get s'.memory.current = some true)) (fun _ s' => Kept s s') s := by
  cases e with
  | rotate faults order key shared =>
    rw [perform,wpBind]
    exact wpMono (addKept mirrors (of_decide_eq_true visited) careful) (fun _ _ kept => ⟨kept.1,by simp⟩) (fun _ _ kept => kept)
  | ensure faults order key =>
    rw [perform,wpBind]
    exact wpMono (ensureKept mirrors (of_decide_eq_true visited) careful) (fun _ _ kept => ⟨kept.1,fun _ _ _ _ => kept.2⟩) (fun _ _ kept => kept)
  | adopt faults records =>
    exact wpMono (adoptKept mirrors careful) (fun _ _ kept => ⟨kept,by simp⟩) (fun _ _ kept => kept)

theorem stepKept (careful : Careful s e) (stepped : step s e = some s') : Kept s s' := by
  unfold step at stepped
  split at stepped <;> try contradiction
  rename_i visited
  cases stepped
  exact wpState (wpMono (performKept mirrors careful visited) (fun _ _ kept => kept.1) (fun _ _ kept => kept))

end

theorem bootMirrors {t configKeyHex key fails} (single : Single t) (booted : bootstrap t configKeyHex key fails = .ok s) :
    Mirrors s.db s.memory := by
  unfold bootstrap at booted
  split at booted <;> try contradiction
  rename_i m loads
  split at booted
  · rename_i set
    cases booted
    exact loadMirrors single loads set
  rename_i zero
  obtain ⟨copies,_,none_ | set⟩ := loadedCopies loads
  · have empty v : t.get v = none := copies.free (by rw [none_]; rfl)
    dsimp only at booted
    split at booted <;> try contradiction
    rename_i seed given
    have size : seed.length = 32 := by
      split at given
      · cases given
        exact key.2
      · exact decodedSize given
    split at booted <;> try contradiction
    rename_i s' inserted
    cases booted
    have seeded : wp (insertKey fails 1 seed true false) (fun _ s' => Mirrors s'.db s'.memory) (fun _ _ => True) ⟨t,m⟩ := by
      rw [insertKey,wpBind,wpGets,wpBind,wpCheck]
      refine ⟨fun _ => ⟨copies.insert size true _,fun v => ?_,Int.one_ne_zero⟩,fun _ => trivial⟩
      rw [getSet]
      by_cases here : 1 = v
      · simp [here]
      · simp [here,empty v,Ne.symm here]
    exact wpOk (Q := fun _ s' => Mirrors s'.db s'.memory) seeded inserted
  · exact absurd set zero

end

/-- From a bootstrapped store, with careful calls whose statements may fail: memory is what a
restart would load, one version is current, no call changes a key, and a cluster key that was
ensured is current. -/
theorem keysConsistent {t} {configKeyHex} {key} {fails} {s w} {events}
    (single : Single t) (booted : bootstrap t configKeyHex key fails = .ok s) (careful : Along step Careful s events)
    (ran : run step s events = some w) :
    loadAll w.db = .ok w.memory ∧ (∃! v, ∃ row, w.db.get v = some row ∧ row.isCurrent = true) ∧ ∀ e next, Careful w e → step w e = some next →
      (∀ v key, w.memory.keys.get v = some key → next.memory.keys.get v = some key) ∧
      ∀ faults order key, e = .ensure faults order key → (perform e w).1 = .ok () →
      next.memory.clusterShared.get next.memory.current = some true := by
  have mirrors : Mirrors w.db w.memory := runKeeps (fun mirrors careful stepped => (stepKept mirrors careful stepped).mirrors)
      (bootMirrors single booted) careful ran
  refine ⟨mirrors.load,⟨w.memory.current,(mirrors.current _).mpr rfl,fun v marked => (mirrors.current v).mp marked⟩,
    fun e next careful stepped => ⟨(stepKept mirrors careful stepped).keys,fun faults order key shape succeeded => ?_⟩⟩
  unfold step at stepped
  split at stepped <;> try contradiction
  rename_i visited
  cases stepped
  exact (wpOk (performKept mirrors careful visited) (Prod.ext succeeded rfl)).2 faults order key shape

def noFaults : Faults := ⟨false, false, fun _ => false, false⟩

def keyOf (b : UInt8) : Key := ⟨List.replicate 32 b, length_replicate⟩

def fresh : KeyStore where
  db := empty.set 1 ⟨encodeToString (keyOf 1).1, true, false⟩
  memory := ⟨empty.set 1 (keyOf 1).1, empty.set 1 false, 1⟩

theorem freshBooted : bootstrap empty [] (keyOf 1) false = .ok fresh := by decide +kernel

theorem ensuredCurrent : ∃ w, step fresh (.ensure noFaults [1] (some (keyOf 2))) = some w ∧
    w.memory.keys.get 1 = some (keyOf 1).1 ∧ w.memory.clusterShared.get w.memory.current = some true := by
  have careful : Careful fresh (.ensure noFaults [1] (some (keyOf 2))) := by
    exact .inl (by decide +kernel)
  have stepped : step fresh (.ensure noFaults [1] (some (keyOf 2))) = some (perform (.ensure noFaults [1] (some (keyOf 2))) fresh).2 :=
    if_pos (by decide +kernel)
  have single : Single empty := fun _ _ _ _ found => by cases found
  have idle : Along step Careful fresh [] := trivial
  obtain ⟨keys,ensured⟩ := (keysConsistent single freshBooted idle rfl).2.2 _ _ careful stepped
  exact ⟨_,stepped,keys 1 _ (by decide +kernel),ensured noFaults [1] (some (keyOf 2)) rfl (by decide +kernel)⟩

def cluster (version : Int) (b : UInt8) (current : Bool) : KeyRecord := ⟨version, encodeToString (keyOf b).1, current⟩

-- A rotation that is not shared stays current when the cluster's key is asked for; two records of
-- one version leave one key in the table and the other in memory.
theorem keysDiverge : (∃ s w, run step fresh [.ensure noFaults [1] (some (keyOf 2)), .rotate noFaults [1, 2] (some (keyOf 3)) false] = some s ∧
      step s (.ensure noFaults [1, 2, 3] none) = some w ∧ (perform (.ensure noFaults [1, 2, 3] none) s).1 = .ok () ∧
      w.memory.clusterShared.get w.memory.current = some false) ∧
    ∃ w, step fresh (.adopt noFaults [cluster 2 5 true, cluster 2 6 false]) = some w ∧ loadAll w.db ≠ .ok w.memory ∧
      w.memory.keys.get 2 = some (keyOf 6).1 ∧ (w.db.get 2).map Row.keyHex = some (encodeToString (keyOf 5).1) := by
  constructor
  · obtain ⟨s,ran,w,stepped,answered,shared⟩ : ∃ s,
        run step fresh [.ensure noFaults [1] (some (keyOf 2)),.rotate noFaults [1,2] (some (keyOf 3)) false] = some s ∧
        ∃ w, step s (.ensure noFaults [1,2,3] none) = some w ∧
          (perform (.ensure noFaults [1,2,3] none) s).1.toOption = some () ∧ w.memory.clusterShared.get w.memory.current = some false := by
      decide +kernel
    exact ⟨s,w,ran,stepped,toOptionIff.mp answered,shared⟩
  · decide +kernel

end MaxIOFS.KekConsistency
