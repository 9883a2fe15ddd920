import MaxIOFS.Calendar
import MaxIOFS.BucketManager

/-! The S3 handler of PutObject. A request that passed the permission checks takes its steps
one call of a manager at a time: the precondition, the store, the record, and then, each
addressed to whatever is current, the lock, the hold, the access control list and the tags. -/
namespace MaxIOFS.S3Handler
open ByteString Effects Records ObjectManager BucketManager Calendar

structure Library where
  parseTime : Bytes → Option Int
  parseQuery : Bytes → Option (List (Bytes × List Bytes))

structure User where
  (id username : Bytes)
  deriving DecidableEq

structure Request where
  call : Call
  user : Option User
  data : Bytes
  headers : Headers

def Request.at (r : Request) (now : Int) : Call := { r.call with now := now }

inductive TagError where
  | notForm
  | tooMany
  | emptyKey
  | duplicate (key : Bytes)
  deriving DecidableEq, Repr

def tagOf : Bytes × List Bytes → Except TagError (Bytes × Bytes)
  | (key, values) =>
    if key = [] then .error .emptyKey
    else match values with
      | [] => .ok (key, [])
      | [value] => .ok (key, value)
      | _ => .error (.duplicate key)

def parseS3TaggingHeader (lib : Library) (raw : Bytes) : Except TagError (Option (List (Bytes × Bytes))) :=
  if raw = [] then .ok none
  else match lib.parseQuery raw with
    | none => .error .notForm
    | some values => if 10 < values.length then .error .tooMany else (values.mapM tagOf).map some

def ifNoneMatch (r : Request) : Bool := decide (header r.headers (ascii "if-none-match") = ascii "*")

def legalHoldStatus (r : Request) : Bytes := header r.headers (ascii "x-amz-object-lock-legal-hold")

def lockHeaders (lib : Library) (r : Request) : Option Retention :=
  let mode := header r.headers (ascii "x-amz-object-lock-mode")
  let raw := header r.headers (ascii "x-amz-object-lock-retain-until-date")
  if mode = [] ∨ raw = [] then none
  else (lib.parseTime raw).map (fun until_ => ⟨mode, until_⟩)

def group : Bytes := ascii "Group"
def groupAllUsers : Bytes := ascii "http://acs.amazonaws.com/groups/global/AllUsers"
def groupAuthenticatedUsers : Bytes := ascii "http://acs.amazonaws.com/groups/global/AuthenticatedUsers"
def groupLogDelivery : Bytes := ascii "http://acs.amazonaws.com/groups/s3/LogDelivery"

def toGroup (uri permission : Bytes) : Grant := ⟨⟨group, [], [], [], uri⟩, permission⟩

def cannedGroups (cannedACL : Bytes) : Option (List Grant) :=
  if cannedACL = ascii "private" then some []
  else if cannedACL = ascii "public-read" then some [toGroup groupAllUsers (ascii "READ")]
  else if cannedACL = ascii "public-read-write" then
    some [toGroup groupAllUsers (ascii "READ"), toGroup groupAllUsers (ascii "WRITE")]
  else if cannedACL = ascii "authenticated-read" then some [toGroup groupAuthenticatedUsers (ascii "READ")]
  else if cannedACL = ascii "bucket-owner-read" then some []
  else if cannedACL = ascii "bucket-owner-full-control" then some []
  else if cannedACL = ascii "log-delivery-write" then
    some [toGroup groupLogDelivery (ascii "WRITE"), toGroup groupLogDelivery (ascii "READ_ACP")]
  else none

def getCannedACLGrants (cannedACL ownerID ownerDisplayName : Bytes) : Option (List Grant) :=
  (cannedGroups cannedACL).map (fun groups =>
    ⟨⟨canonicalUser, ownerID, ownerDisplayName, [], []⟩, fullControl⟩ :: groups)

def cannedACL (r : Request) : Option ACL :=
  let owner := r.user.getD ⟨ascii "maxiofs", ascii "MaxIOFS"⟩
  (getCannedACLGrants (header r.headers (ascii "x-amz-acl")) owner.id owner.username).map (fun grants => ⟨⟨owner.id, owner.username⟩, grants⟩)

def ruleDate (now : Int) (lock : ObjectLock) : Option Int :=
  match lock.days, lock.years with
  | some days, _ => some (addDate now 0 days)
  | none, some years => some (addDate now years 0)
  | none, none => none

def bucketDefault (now : Int) (s : State) (bucket : Bytes) : Option Retention :=
  (bucketOf s bucket).bind fun found => found.objectLock.bind fun lock =>
    if lock.enabled then lock.defaultRetention.bind (fun rule =>
      ((ruleDate now lock).filter (fun date => decide (date ≠ zeroTime))).map (fun until_ => ⟨rule.mode, until_⟩))
    else none

section
variable (lib : Library) (node : Node) (bucket key : Bytes) (r : Request) (now : Int)

def applyObjectLockFromHeaders : Action State Empty Bool :=
  match lockHeaders lib r with
  | none => pure false
  | some retention => do
    let set ← attempt (setObjectRetention node (r.at now) bucket key (some retention) [])
    pure set.isOk

def applyDefaultBucketRetention : Action State Empty Unit := do
  let rule ← gets (fun s => bucketDefault now s bucket)
  match rule with
  | none => pure ()
  | some retention => ignore (setObjectRetention node (r.at now) bucket key (some retention) [])

def applyLegalHold : Action State Empty Unit :=
  if legalHoldStatus r = legalHoldOn then ignore (setObjectLegalHold node (r.at now) bucket key (some legalHoldOn) [])
  else pure ()

def applyObjectCannedACLHeader : Action State Empty Unit :=
  match cannedACL r with
  | none => pure ()
  | some acl => ignore (setObjectACL node (r.at now) bucket key (some acl) [])

end

inductive Answer where
  | ok (object : Object)
  | error (code : Bytes)

inductive Stage where
  | retention | defaultRetention | legalHold | acl | tagging
  deriving DecidableEq, Repr

inductive Phase where
  | waiting
  | checked (tags : Option (List (Bytes × Bytes)))
  | stored (tags : Option (List (Bytes × Bytes))) (pending : Pending)
  | recorded (tags : Option (List (Bytes × Bytes))) (object : Object) (stage : Stage)
  | answered (answer : Answer)

def preconditionFailed : Bytes := ascii "PreconditionFailed"
def noSuchBucket : Bytes := ascii "NoSuchBucket"
def invalidTag : Bytes := ascii "InvalidTag"
def internalError : Bytes := ascii "InternalError"

def putErrorCode : Error → Bytes
  | .bucketQuotaExceeded => ascii "QuotaExceeded"
  | .badDigest => ascii "BadDigest"
  | _ => internalError

section
variable (lib : Library) (node : Node) (bucket key : Bytes) (r : Request) (now : Int)

def precondition : Action State Empty Bool :=
  if ifNoneMatch r then do
    let existing ← attempt (getObjectMetadata node bucket key)
    pure (!existing.isOk)
  else pure true

def accept : Action State Empty Phase := do
  let found ← gets (fun s => bucketOf s bucket)
  if found = none then pure (.answered (.error noSuchBucket))
  else do
    let free ← precondition node bucket key r
    if free then
      match parseS3TaggingHeader lib (header r.headers (ascii "x-amz-tagging")) with
      | .ok tags => pure (.checked tags)
      | .error _ => pure (.answered (.error invalidTag))
    else pure (.answered (.error preconditionFailed))

def store (tags : Option (List (Bytes × Bytes))) : Action State Empty Phase := do
  let stored ← attempt (storeObject node (r.at now) bucket key r.data r.headers)
  match stored with
  | .ok pending => pure (.stored tags pending)
  | .error e => pure (.answered (.error (putErrorCode e)))

def record (tags : Option (List (Bytes × Bytes))) (pending : Pending) : Action State Empty Phase := do
  let recorded ← attempt (recordObject (r.at now) pending)
  match recorded with
  | .ok object => pure (.recorded tags object .retention)
  | .error e => pure (.answered (.error (putErrorCode e)))

def tag (tags : Option (List (Bytes × Bytes))) (object : Object) : Action State Empty Phase :=
  match tags with
  | none => pure (.answered (.ok object))
  | some tags => do
    let set ← attempt (setObjectTagging node (r.at now) bucket key (some tags) [])
    match set with
    | .ok _ => pure (.answered (.ok object))
    | .error _ => pure (.answered (.error internalError))

def finish (tags : Option (List (Bytes × Bytes))) (object : Object) : Stage → Action State Empty Phase
  | .retention => do
    let applied ← applyObjectLockFromHeaders lib node bucket key r now
    pure (.recorded tags object (if applied then .legalHold else .defaultRetention))
  | .defaultRetention => do
    applyDefaultBucketRetention node bucket key r now
    pure (.recorded tags object .legalHold)
  | .legalHold => do
    applyLegalHold node bucket key r now
    pure (.recorded tags object .acl)
  | .acl => do
    applyObjectCannedACLHeader node bucket key r now
    pure (.recorded tags object .tagging)
  | .tagging => tag node bucket key r now tags object

def advance : Phase → Action State Empty Phase
  | .waiting => accept lib node bucket key r
  | .checked tags => store node bucket key r now tags
  | .stored tags pending => record r now tags pending
  | .recorded tags object stage => finish lib node bucket key r now tags object stage
  | .answered answer => pure (.answered answer)

end

def Phase.done : Phase → Bool
  | .answered _ => true
  | _ => false

structure World where
  state : State
  phase : Nat → Phase

structure Event where
  caller : Nat
  now : Int

def begin_ (s : State) : World := ⟨s, fun _ => .waiting⟩

def step (lib : Library) (node : Node) (bucket key : Bytes) (requests : Nat → Request) (w : World) (e : Event) : Option World :=
  if (w.phase e.caller).done then none
  else match advance lib node bucket key (requests e.caller) e.now (w.phase e.caller) w.state with
    | (.ok phase, s) => some ⟨s, Function.update w.phase e.caller phase⟩
    | (.error never, _) => nomatch never

theorem stepAdvances {lib node bucket key requests w next e}
    (stepped : step lib node bucket key requests w e = some next) : (w.phase e.caller).done = false ∧ ∃ phase,
      advance lib node bucket key (requests e.caller) e.now (w.phase e.caller) w.state = (.ok phase, next.state) ∧
      next.phase = Function.update w.phase e.caller phase := by
  unfold step at stepped
  split at stepped <;> try contradiction
  rename_i running
  split at stepped
  · rename_i phase s advanced
    cases stepped
    exact ⟨by simpa using running,phase,advanced,rfl⟩
  · rename_i never _ _
    exact never.elim

def Few (n : Nat) (w : World) : Prop := ∀ j, n ≤ j → w.phase j = .waiting

theorem fewStep {lib node bucket key requests w next e n} (few : Few n w) (early : e.caller < n)
    (stepped : step lib node bucket key requests w e = some next) : Few n next := by
  obtain ⟨_,_,_,updated⟩ := stepAdvances stepped
  intro j late
  rw [updated,Function.update_of_ne (by omega)]
  exact few j late

theorem fewAll {n w} (few : Few n w) (test : Phase → Bool) (rest : test .waiting = true)
    (first : (List.range n).all (fun j => test (w.phase j)) = true) (j : Nat) : test (w.phase j) = true := by
  by_cases early : j < n
  · exact List.all_eq_true.mp first j (List.mem_range.mpr early)
  · rw [few j (by omega)]
    exact rest

end MaxIOFS.S3Handler
