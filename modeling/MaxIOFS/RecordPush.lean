import MaxIOFS.ByteString

/-! The reconciler's senders of tenants, users and bucket permissions, and the handlers that receive
them. A row of the peer is found by its ID, or by a name another row of the peer already has. -/
namespace MaxIOFS.RecordPush
open ByteString

/-- A tenant's columns: the metadata is text in the database and a map on the wire. -/
@[ext] structure Tenant (μ : Type) where
  (id name displayName description status : Bytes)
  (maxAccessKeys maxStorageBytes maxBandwidthBytesPerSec currentStorageBytes maxBuckets currentBuckets : Int)
  metadata : μ
  (createdAt updatedAt : Int)
  deriving DecidableEq

/-- A user's columns: those of type `τ` may be NULL in the database, and are text on the wire. -/
@[ext] structure User (τ : Type) where
  (id username passwordHash displayName email status : Bytes)
  (tenantId roles policies metadata : τ)
  (failedLoginAttempts lockedUntil lastFailedLogin : Int)
  (themePreference languagePreference : Bytes)
  (authProvider externalId : τ)
  (createdAt updatedAt : Int)
  deriving DecidableEq

structure CapabilityOverride where
  capability : Bytes
  granted : Bool
  grantedBy : Bytes
  createdAt : Int

structure BucketPermission where
  (id bucketName bucketTenantId : Bytes)
  (userId tenantId : Option Bytes)
  (permissionLevel grantedBy : Bytes)
  grantedAt : Int
  expiresAt : Option Int

abbrev Account := User (Option Bytes) × List CapabilityOverride

def pushUser (u : Account) : User Bytes × List CapabilityOverride :=
  ({ u.1 with
    tenantId := u.1.tenantId.getD []
    roles := u.1.roles.getD []
    policies := u.1.policies.getD []
    metadata := u.1.metadata.getD []
    authProvider := u.1.authProvider.getD (ascii "local")
    externalId := u.1.externalId.getD [] }, [])

def pushBucketPermission (p : BucketPermission) : BucketPermission := { p with bucketTenantId := [] }

/-- The row with the record's ID once the record is received: `own` is the row there before, `conflict`
another row with the record's name, which is given the ID where the record has no row. -/
def upsert {ρ : Type} (stamp : ρ → Int) (updatedAt : Int) (update : ρ → ρ) (insert : ρ) (rekey : ρ → ρ) : Option ρ → Option ρ → Option ρ
  | some here, conflict => if updatedAt ≤ stamp here then some here else if conflict.isSome then none else some (update here)
  | none, some other => some (if updatedAt ≤ stamp (rekey other) then rekey other else update (rekey other))
  | none, none => some insert

def insertOverride (rows : List CapabilityOverride) (o : CapabilityOverride) : List CapabilityOverride :=
  if rows.any (·.capability = o.capability) then rows.map fun r => if r.capability = o.capability then o else r else rows ++ [o]

def nullString (text : Bytes) : Option Bytes := if text = [] then none else some text

def receivedUser (data : User Bytes) : User (Option Bytes) :=
  { data with
    tenantId := nullString data.tenantId
    roles := some data.roles
    policies := some data.policies
    metadata := some data.metadata
    authProvider := some data.authProvider
    externalId := some data.externalId }

def handleReceiveUserSync (hasDeletion : Bool) (own conflict : Option Account) (data : User Bytes × List CapabilityOverride) : Option Account :=
  let received := receivedUser data.1
  let overrides := data.2.foldl insertOverride []
  if hasDeletion then none
  else upsert (·.1.updatedAt) data.1.updatedAt (fun here => ({ received with createdAt := here.1.createdAt }, overrides))
    (received, overrides) (fun other => ({ other.1 with id := data.1.id }, other.2)) own conflict

def handleReceiveBucketPermissionSync (hasDeletion : Bool) (data : BucketPermission) : Option BucketPermission :=
  if hasDeletion then none else some data

section
variable {μ : Type} (marshal : μ → Bytes) (unmarshal : Bytes → Option μ) (empty : μ)

def pushTenant (t : Tenant Bytes) : Tenant μ :=
  { t with
    maxBandwidthBytesPerSec := 0
    metadata := if t.metadata ≠ [] then (unmarshal t.metadata).getD empty else empty }

def receivedTenant (data : Tenant μ) : Tenant Bytes := { data with metadata := marshal data.metadata }

def handleReceiveTenantSync (hasDeletion : Bool) (own conflict : Option (Tenant Bytes)) (data : Tenant μ) : Option (Tenant Bytes) :=
  let received := receivedTenant marshal data
  if hasDeletion then none
  else upsert (·.updatedAt) data.updatedAt (fun here => { received with createdAt := here.createdAt }) received
    (fun other => { other with id := data.id }) own conflict

end

section
variable {ρ : Type} (stamp created : ρ → Int) (same : ρ → ρ → Prop)

/-- The row equals the record in the columns the handler writes: an insertion also writes the creation time. -/
def Equals (own conflict : Option ρ) (row record : ρ) : Prop := same row record ∧ (own = none → conflict = none → created row = created record)

/-- Where the peer's own row of that name is as new it stays, and has to equal the record already. -/
def Carried (rekey : ρ → ρ) (record : ρ) (carries : Prop) : Option ρ → Option ρ → Prop
  | none, some other => if stamp record ≤ stamp (rekey other) then same (rekey other) record else carries
  | _, _ => carries

variable {stamp created same}

theorem upsertEquals {own conflict row insert} (record : ρ) {update rekey carries}
    (newer : ∀ here ∈ own, stamp here < stamp record) (updated : ∀ here, same (update here) record ↔ carries)
    (inserted : same insert record ↔ carries) (made : created insert = created record)
    (accepted : upsert stamp (stamp record) update insert rekey own conflict = some row) :
    Equals created same own conflict row record ↔ Carried stamp same rekey record carries own conflict := by
  unfold Equals
  cases own with
  | some here =>
    rw [upsert,if_neg (Int.not_le.mpr (newer here rfl))] at accepted
    split at accepted <;> cases accepted
    simp [Carried,updated]
  | none =>
    cases conflict with
    | none =>
      cases accepted
      simp [Carried,inserted,made]
    | some other =>
      cases accepted
      rw [Carried]
      split <;> simp [updated]

end

def SameTenant (row record : Tenant Bytes) : Prop := { row with createdAt := record.createdAt } = record

def SameUser (row record : Account) : Prop := ({ row.1 with createdAt := record.1.createdAt }, row.2) = record

def UserCarried (u : Account) : Prop :=
  u.2 = [] ∧ u.1.tenantId ≠ some [] ∧ ∀ text ∈ [u.1.roles, u.1.policies, u.1.metadata, u.1.authProvider, u.1.externalId], text ≠ none

def TenantCarried {μ : Type} (marshal : μ → Bytes) (unmarshal : Bytes → Option μ) (empty : μ) (t : Tenant Bytes) : Prop :=
  t.maxBandwidthBytesPerSec = 0 ∧ marshal (if t.metadata ≠ [] then (unmarshal t.metadata).getD empty else empty) = t.metadata

theorem storedText {text} {absent : Bytes} : some (text.getD absent) = text ↔ text ≠ none := by
  cases text <;> simp

theorem storedTenant {text} : nullString (text.getD []) = text ↔ text ≠ some [] := by
  cases text <;> simp [nullString]

section
variable {μ : Type} {marshal : μ → Bytes} {unmarshal : Bytes → Option μ} {empty : μ}

/-- What an accepted push leaves on the peer equals the record exactly if the record has no bandwidth limit,
no bucket scope and no overrides, none of its texts are NULL, and its metadata is as the encoder writes it. -/
theorem pushFaithful : (∀ hasDeletion own conflict row (t : Tenant Bytes), (∀ here ∈ own, here.updatedAt < t.updatedAt) →
      handleReceiveTenantSync marshal hasDeletion own conflict (pushTenant unmarshal empty t) = some row →
      (Equals (·.createdAt) SameTenant own conflict row t ↔ Carried (·.updatedAt) SameTenant ({ · with id := t.id }) t
        (TenantCarried marshal unmarshal empty t) own conflict)) ∧
    (∀ hasDeletion own conflict row u, (∀ here ∈ own, here.1.updatedAt < u.1.updatedAt) →
      handleReceiveUserSync hasDeletion own conflict (pushUser u) = some row →
      (Equals (·.1.createdAt) SameUser own conflict row u ↔ Carried (·.1.updatedAt) SameUser (fun o => ({ o.1 with id := u.1.id }, o.2)) u
        (UserCarried u) own conflict)) ∧
    ∀ hasDeletion row p, handleReceiveBucketPermissionSync hasDeletion (pushBucketPermission p) = some row →
    (row = p ↔ p.bucketTenantId = []) := by
  refine ⟨fun _ own conflict row t newer accepted => ?_,fun _ own conflict row u newer accepted => ?_,fun _ row p accepted => ?_⟩
  · rw [handleReceiveTenantSync] at accepted
    split at accepted
    · cases accepted
    have copied at_ : SameTenant { receivedTenant marshal (pushTenant unmarshal empty t) with createdAt := at_ } t ↔
        TenantCarried marshal unmarshal empty t := by
      simp [SameTenant,TenantCarried,receivedTenant,pushTenant,Tenant.ext_iff,eq_comm]
    exact upsertEquals t newer (fun here => copied _) (copied t.createdAt) rfl accepted
  · rw [handleReceiveUserSync] at accepted
    split at accepted
    · cases accepted
    have copied at_ : SameUser ({ receivedUser (pushUser u).1 with createdAt := at_ }, []) u ↔ UserCarried u := by
      simp [SameUser,UserCarried,receivedUser,pushUser,Prod.ext_iff,User.ext_iff,storedText,storedTenant,and_comm]
    exact upsertEquals u newer (fun here => copied _) (copied u.1.createdAt) rfl accepted
  · rw [handleReceiveBucketPermissionSync] at accepted
    split at accepted <;> cases accepted
    cases p
    simp [pushBucketPermission]

end

def tenant (limit : Int) : Tenant Bytes := ⟨ascii "t", ascii "acme", [], [], ascii "active", 10, 0, limit, 0, 100, 0, ascii "\x7b\x7d", 1, 2⟩

def user : User (Option Bytes) :=
  ⟨ascii "u", ascii "ann", ascii "hash", [], [], ascii "active", none, some (ascii "user"), some [],
    some [], 0, 0, 0, [], [], some (ascii "local"), some [], 1, 2⟩

def permission (scope : Bytes) : BucketPermission := ⟨ascii "p", ascii "logs", scope, some (ascii "u"), none, ascii "read", ascii "admin", 1, none⟩

def grant : CapabilityOverride := ⟨ascii "bucket:create", true, ascii "admin", 1⟩

def olderTenant : Tenant Bytes := { tenant 100 with name := ascii "acm", updatedAt := 1 }

def olderUser : Account := ({ user with roles := none, updatedAt := 1 }, [grant])

/-- The peer has an older row, or none. -/
theorem plainRecordsPushed :
    (∀ own ∈ [none, some olderTenant], ∃ row, handleReceiveTenantSync id false own none (pushTenant some [] (tenant 0)) = some row ∧
      Equals (·.createdAt) SameTenant own none row (tenant 0)) ∧
    (∀ own ∈ [none, some olderUser], ∃ row, handleReceiveUserSync false own none (pushUser (user, [])) = some row ∧
      Equals (·.1.createdAt) SameUser own none row (user, [])) ∧
    ∃ row, handleReceiveBucketPermissionSync false (pushBucketPermission (permission [])) = some row ∧ row = permission [] := by
  have pushed := @pushFaithful Bytes id some []
  refine ⟨fun own listed => ?_,fun own listed => ?_,_,rfl,(pushed.2.2 false _ _ rfl).mpr rfl⟩
  · have older : ∀ here ∈ own, here.updatedAt < (tenant 0).updatedAt := by
      revert own
      decide
    simp only [List.mem_cons,List.not_mem_nil,or_false] at listed
    rcases listed with rfl | rfl
    all_goals exact ⟨_,rfl,(pushed.1 false _ none _ _ older rfl).mpr ⟨rfl,rfl⟩⟩
  · have older : ∀ here ∈ own, here.1.updatedAt < user.updatedAt := by
      revert own
      decide
    simp only [List.mem_cons,List.not_mem_nil,or_false] at listed
    rcases listed with rfl | rfl
    all_goals exact ⟨_,rfl,(pushed.2.1 false _ none _ _ older rfl).mpr ⟨rfl,by simp [user],by decide⟩⟩

-- The peer had the limit, the grant and the scope; the push takes them away.
theorem columnsLost :
    (∃ row, handleReceiveTenantSync id false (some { tenant 100 with updatedAt := 1 }) none (pushTenant some [] (tenant 100)) = some row ∧
      row.maxBandwidthBytesPerSec = 0) ∧
    (∃ row, handleReceiveUserSync false (some ({ user with updatedAt := 1 }, [grant])) none (pushUser (user, [grant])) = some row ∧ row.2 = []) ∧
    ∃ row, handleReceiveBucketPermissionSync false (pushBucketPermission (permission (ascii "t"))) = some row ∧ row.bucketTenantId = [] :=
  ⟨⟨_,rfl,rfl⟩,⟨_,rfl,rfl⟩,⟨_,rfl,rfl⟩⟩

end MaxIOFS.RecordPush
