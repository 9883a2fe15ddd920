import MaxIOFS.VersionHistory

/-! Each change of the records moves one key's ledger and leaves the others. -/
namespace MaxIOFS.VersionMoves
open ByteString Ledger MetadataStore Records ObjectManager RecordChanges VersionHistory

abbrev KeyHistory := History Bytes ObjectMetadata

def marked (obj : ObjectMetadata) : ObjectMetadata := { obj with isLatest := true }

def Present (h : KeyHistory) (obj : ObjectMetadata) : Prop := h.current = some obj ∨ obj.versionID ≠ [] ∧ h.versions obj.versionID = some obj

theorem presentStored {h obj} (pointed : h.Pointed shape) (version : obj.versionID ≠ []) (present : Present h obj) :
    h.versions obj.versionID = some obj := by
  rcases present with current | stored
  · exact (pointed obj _ current (shapeId version)).1
  · exact stored.2

inductive Move (now : Int) : Change → Bytes → KeyHistory → KeyHistory → Prop
  | insert {obj h} : Move now (.insert obj) obj.key h (h.insert shape obj.versionID (marked obj))
  | plain {obj h} : Move now (.plain obj) obj.key h (h.put shape (stamped now obj))
  | adopt {obj h} (free : h.current = none) : Move now (.adopt obj) obj.key h (h.put shape (stamped now obj))
  | edit {key v old new h} (present : Present h old) (same : SameIdentity old new)
      (resolved : v = [] ∧ key = old.key ∧ h.current = some old ∨ v ≠ [] ∧ old.versionID ≠ [] ∧ h.versions old.versionID = some old) :
      Move now (.edit key v old new) old.key h (h.put shape (stamped now new))
  | dropOlder {key v bypass old h} (found : h.versions v = some old) (unlocked : lockError now bypass old = none)
      (older : old.isLatest = false) : Move now (.drop key v bypass) key h (h.remove v)
  | dropLast {key v bypass old h} (found : h.versions v = some old) (unlocked : lockError now bypass old = none)
      (latest : old.isLatest = true) (alone : ∀ w, (h.remove v).versions w = none) :
      Move now (.drop key v bypass) key h (h.remove v).clear
  | dropLatest {key v bypass old w next h} (found : h.versions v = some old) (unlocked : lockError now bypass old = none)
      (latest : old.isLatest = true) (promoted : (h.remove v).versions w = some next) :
      Move now (.drop key v bypass) key h ((h.remove v).insert shape w (marked next))
  | erase {key bypass old h} (found : h.current = some old) (unlocked : lockError now bypass old = none) :
      Move now (.erase key bypass) key h h.clear

def Tame (bucket : Bytes) : Change → Prop
  | .insert obj => Identified bucket obj ∧ obj.versionID ≠ []
  | .plain obj => obj.bucket = bucket ∧ obj.versionID = []
  | .adopt obj => obj.bucket = bucket ∧ obj.versionID = []
  | .edit .. => True
  | .drop .. => True
  | .erase .. => True

structure Moved (bucket : Bytes) (now : Int) (change : Change) (db db' : Database) : Prop where
  filed : Filed bucket db'
  moves : ∃ key, Move now change key (view bucket db key) (view bucket db' key) ∧ ∀ other, other ≠ key →
    view bucket db' other = view bucket db other

section
variable {sorting : VersionSort} {bucket : Bytes} {now : Int} {db db' : Database}
variable {key v : Bytes}

theorem viewQuiet (same : Quiet db db') (key : Bytes) : view bucket db' key = view bucket db key := by
  unfold view
  rw [same.objects,same.versions]

theorem movedAt {change} (op : KeyHistory → KeyHistory) (result : Filed bucket db' ∧ ∀ other, view bucket db' other =
      if other = key then op (view bucket db other) else view bucket db other)
    (move : Move now change key (view bucket db key) (op (view bucket db key))) : Moved bucket now change db db' := by
  refine ⟨result.1,key,?_,fun other different => ?_⟩
  · rw [result.2,if_pos rfl]
    exact move
  · rw [result.2,if_neg different]

theorem removedView {obj} (filed : Filed bucket db)
    (stored : (view bucket db key).versions v = some obj) (done : db.deleteObjectVersion bucket key v = .ok db') :
    view bucket db' key = (view bucket db key).remove v := by
  rw [(deleteObjectVersionView filed stored done).2,if_pos rfl]

theorem promotionView (sorting : VersionSort) (filed : Filed bucket db) (home : bucket ≠ []) (named : key ≠ [])
    (gone : (view bucket db key).versions v = none) : Filed bucket (promotion sorting bucket key v db) ∧
    ((∀ w, (view bucket db key).versions w = none) ∧
          (∀ other, view bucket (promotion sorting bucket key v db) other =
            if other = key then (view bucket db other).clear else view bucket db other) ∨
        ∃ w next, (view bucket db key).versions w = some next ∧ ∀ other, view bucket (promotion sorting bucket key v db) other =
            if other = key then (view bucket db other).insert shape w (marked next) else view bucket db other) := by
  unfold promotion
  by_cases empty : db.getObjectVersions sorting bucket key = []
  · rw [if_pos empty]
    have alone := noVersions filed empty
    cases done : db.deleteObject bucket key with
    | ok db' =>
      have result := deleteObjectView filed done
      exact ⟨result.1,.inl ⟨alone,result.2⟩⟩
    | error e =>
      refine ⟨filed,.inl ⟨alone,fun other => ?_⟩⟩
      dsimp only
      split
      · rename_i here
        subst here
        ext1
        · exact deleteObjectAbsent home named done
        · rfl
      · rfl
  · rw [if_neg empty]
    obtain ⟨obj,stored,chosen⟩ := nextLatestStored filed gone empty
    rw [chosen]
    have read : db.getObject bucket key (versionOf obj).versionID = .ok obj := readable filed home stored
    dsimp only
    rw [read]
    dsimp only
    obtain ⟨found,keyed⟩ := versionsInIff.mp stored
    obtain ⟨_,version,identified⟩ := filed.versions.at found keyed
    have record : versioned obj { versionOf obj with isLatest := true } = marked obj := rfl
    cases done : db.putObjectVersion obj { versionOf obj with isLatest := true } with
    | ok db' =>
      have result := putObjectVersionView filed (record ▸ ⟨identified.bucket,identified.key,identified.plain⟩) version rfl done
      refine ⟨result.1,.inr ⟨obj.versionID,obj,stored,?_⟩⟩
      rw [keyed] at result
      exact result.2
    | error e =>
      unfold Database.putObjectVersion Database.rejectsWrite at done
      rw [identified.bucket,if_neg (by simpa using filed.open_)] at done
      contradiction

theorem freeCurrent (home : bucket ≠ []) (named : key ≠ []) (free : ∀ old, db.getObject bucket key [] ≠ .ok old) :
    (view bucket db key).current = none := by
  cases found : (view bucket db key).current with
  | none => rfl
  | some obj =>
    have record : db.record bucket key [] = some obj := found
    refine absurd ?_ (free (filled bucket key obj))
    unfold Database.getObject
    rw [if_neg (by simp [home,named]),record]

theorem editMoves {old new} (filed : Filed bucket db)
    (read : db.getObject bucket key v = .ok old) (same : SameIdentity old new) (done : db.putObject now new = .ok db') :
    Moved bucket now (.edit key v old new) db db' := by
  have found : Identified bucket old ∧ Present (view bucket db old.key) old ∧
      (v = [] ∧ key = old.key ∧ (view bucket db old.key).current = some old ∨ v ≠ [] ∧ old.versionID ≠ [] ∧
        (view bucket db old.key).versions old.versionID = some old) := by
    by_cases version : v = []
    · subst version
      have current := readCurrent filed read
      obtain ⟨named,identified⟩ := filed.current current
      subst named
      exact ⟨identified,.inl current,.inl ⟨rfl,rfl,current⟩⟩
    · obtain ⟨stored,listed⟩ := readVersion filed version read
      obtain ⟨identified,id,_⟩ := filed.versions _ _ stored (inVersionSpace ..)
      exact ⟨identified,.inr ⟨id,listed⟩,.inr ⟨version,id,listed⟩⟩
  obtain ⟨identified,present,resolved⟩ := found
  have result := putObjectView filed (same.bucket.trans identified.bucket) (same.versionID ▸ identified.plain) done
  rw [same.key] at result
  exact movedAt (fun h => h.put shape (stamped now new)) result (.edit present same resolved)

theorem dropMoves {bypass target old} (filed : Filed bucket db)
    (listed : (db.getObjectVersions sorting bucket key).find? (fun ver => decide (ver.versionID = v)) = some target)
    (read : db.getObject bucket key v = .ok old) (unlocked : lockError now bypass old = none)
    (done : db.deleteObjectVersion bucket key v = .ok db') :
    Moved bucket now (.drop key v bypass) db (if target.isLatest then promotion sorting bucket key v db' else db') := by
  obtain ⟨home,named,_⟩ := readRecord read
  obtain ⟨obj,stored,rfl⟩ := (memVersions filed).mp (List.mem_of_find?_eq_some listed)
  have id : (versionOf obj).versionID = v := by simpa using List.find?_some listed
  change obj.versionID = v at id
  rw [id] at stored
  have same : obj = old := Except.ok.inj ((readable filed home stored).symm.trans read)
  subst same
  have result := deleteObjectVersionView filed stored done
  have removed := removedView filed stored done
  by_cases latest : obj.isLatest = true
  · rw [if_pos (show (versionOf obj).isLatest = true from latest)]
    have gone : (view bucket db' key).versions v = none := by
      rw [removed]
      simp [History.remove]
    obtain ⟨filed',promoted⟩ := promotionView sorting result.1 home named gone
    refine ⟨filed',key,?_,fun other different => ?_⟩
    · rcases promoted with ⟨alone,views⟩ | ⟨_,_,chosen,views⟩
      · rw [views,if_pos rfl,removed]
        exact .dropLast stored unlocked latest (by rw [← removed]; exact alone)
      · rw [views,if_pos rfl,removed]
        exact .dropLatest stored unlocked latest (by rw [← removed]; exact chosen)
    · rcases promoted with ⟨_,views⟩ | ⟨_,_,_,views⟩ <;>
        rw [views,if_neg different,result.2,if_neg different]
  · rw [if_neg (show ¬ (versionOf obj).isLatest = true from latest)]
    exact movedAt (fun h => h.remove v) result (.dropOlder stored unlocked (by simpa using latest))

theorem effectMoves {change} (filed : Filed bucket db) (home : bucket ≠ []) (tame : Tame bucket change)
    (effect : Effect sorting bucket now db change db') : Moved bucket now change db db' := by
  cases effect with
  | @insert obj _ done =>
    have record : versioned obj { versionOf obj with isLatest := true } = marked obj := rfl
    have result := putObjectVersionView filed (record ▸ ⟨tame.1.bucket,tame.1.key,tame.1.plain⟩) tame.2 rfl done
    exact movedAt (fun h => h.insert shape obj.versionID (marked obj)) result .insert
  | @plain obj _ done =>
    exact movedAt (fun h => h.put shape (stamped now obj)) (putObjectView filed tame.1 (by rw [tame.2]; simp) done) .plain
  | @adopt obj _ free done =>
    exact movedAt (fun h => h.put shape (stamped now obj)) (putObjectView filed tame.1 (by rw [tame.2]; simp) done)
      (.adopt (freeCurrent home (putObjectWrites done).2.2.1 free))
  | edit read same done => exact editMoves filed read same done
  | drop listed read unlocked done => exact dropMoves filed listed read unlocked done
  | erase read unlocked done =>
    exact movedAt (fun h => h.clear) (deleteObjectView filed done) (.erase (readCurrent filed read) unlocked)

end

end MaxIOFS.VersionMoves
