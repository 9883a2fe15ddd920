import MaxIOFS.Completions
import MaxIOFS.Turns

/-! UploadPart and CompleteMultipartUpload cut at their storage and metadata calls. Uploads hold no
lock, and a completion only the one that keeps off other completions, so other calls may come
between any two. -/
namespace MaxIOFS.MultipartSteps
open Filesystem ByteString Effects Turns Records ObjectManager OrderedStore
open StagedCommit (entry etagKey sizeKey lastModifiedKey)

structure Source where
  call : Call
  partNumber : Int
  data : Bytes

inductive Phase where
  | waiting
  | placed
  | described (part : PartMetadata)
  | unrecorded (e : Error)
  | returned (answer : Except Error PartMetadata)

def describe (uploadID : Bytes) (partNumber : Int) (m : StagedCommit.Metadata) : PartMetadata :=
  { uploadID := uploadID, partNumber := partNumber, size := (parseInt (entry m sizeKey)).1
    etag := entry m etagKey, lastModified := fromSeconds (parseInt (entry m lastModifiedKey)).1 }

def place (node : Node) (uploadID : Bytes) (source : Source) : Action State Error Unit := do
  check (decide (1 ≤ source.partNumber ∧ source.partNumber ≤ 10000)) .invalidPartNumber
  let _ ← getUpload uploadID .uploadNotFound
  storage (put node.host source.call.seconds (getMultipartPartPath uploadID source.partNumber) source.data
    (partSidecar uploadID source.partNumber))

def uploading (node : Node) (uploadID : Bytes) (source : Source) : Cut State Error PartMetadata Phase where
  act
    | .waiting => do
      place node uploadID source
      pure .placed
    | .placed => do
      let m ← storage (getMetadata node.host (getMultipartPartPath uploadID source.partNumber))
      pure (.described (describe uploadID source.partNumber m))
    | .described part => do
      database (fun db => db.putPart part)
      pure (.returned (.ok part))
    | .unrecorded e => do
      ignore (storage (delete (getMultipartPartPath uploadID source.partNumber)))
      pure (.returned (.error (if e = .metadata .uploadNotFound then .uploadNotFound else e)))
    | .returned answer => pure (.returned answer)
  failed
    | .described _, e => .unrecorded e
    | .unrecorded e, _ => .returned (.error (if e = .metadata .uploadNotFound then .uploadNotFound else e))
    | _, e => .returned (.error e)
  answer
    | .returned answer => some answer
    | _ => none

structure Plan where
  upload : MultipartUpload
  enabled : Bool
  existing : Option ObjectMetadata
  etag : Bytes

def Plan.version (plan : Plan) (call : Call) : Bytes := if plan.enabled then generateVersionID call else []

def Plan.path (plan : Plan) (call : Call) : Bytes := objectPathOf plan.enabled plan.upload.bucket plan.upload.key (plan.version call)

def Plan.object (plan : Plan) (call : Call) (size modified : Int) : Object :=
  multipartObject plan.upload (plan.version call) plan.etag size modified

-- The parts are looked at three times: validated, hashed by their records, and read.
inductive Stage where
  | waiting
  | validating (upload : MultipartUpload) (enabled : Bool) (total : Int) (seen rest : List Part)
  | hashing (upload : MultipartUpload) (enabled : Bool) (existing : Option ObjectMetadata) (tags : List Bytes) (rest : List Part)
  | opening (plan : Plan)
  | combining (plan : Plan) (contentType data : Bytes) (rest : List Part)
  | combined (plan : Plan)
  | measured (plan : Plan) (size : Int) (originalETag : Bytes) (modified : Int)
  | staged (plan : Plan) (size : Int) (originalETag : Bytes) (modified : Int) (data : Bytes)
  | encrypted (plan : Plan) (size modified : Int)
  | saving (plan : Plan) (object : Object)
  | recorded (plan : Plan) (object : Object)
  | discarding (plan : Plan) (e : Error)
  | answered (result : Except Error Object)

def lastNumber (seen : List Part) : Int := (seen.getLast?.map Part.partNumber).getD 0

def partTag (s : State) (uploadID : Bytes) (part : Part) : Except Error Bytes :=
  match s.db.getPart uploadID part.partNumber with
  | .error _ => .error .multipartETag
  | .ok found => if (trimQuotes found.etag).length = 32 then .ok (trimQuotes found.etag) else .error .multipartETag

def completing (node : Node) (call : Call) (uploadID : Bytes) (parts : List Part) : Cut State Error Object Stage where
  act
    | .waiting => do
      let upload ← getUpload uploadID .invalidUploadID
      let enabled ← gets (fun s => isBucketVersioningEnabled s upload.bucket)
      check (decide (parts ≠ [])) .noParts
      pure (.validating upload enabled 0 [] parts)
    | .validating upload enabled total seen (part :: rest) => do
      check (decide (lastNumber seen < part.partNumber)) .invalidPartOrder
      let size ← observe (fun s => partAccepted s uploadID part)
      pure (.validating upload enabled (total + size) (seen ++ [part]) rest)
    | .validating upload enabled total _ [] => do
      let existing ← gets (fun s => stored s upload.bucket upload.key)
      let added := multipartGrowth enabled existing total
      withinQuota call upload.bucket added.1 added.2
      pure (.hashing upload enabled existing [] parts)
    | .hashing upload enabled existing tags (part :: rest) => do
      let tag ← observe (fun s => partTag s uploadID part)
      pure (.hashing upload enabled existing (tags ++ [tag]) rest)
    | .hashing upload enabled existing tags [] => match node.multipartDigest tags with
      | none => fail .multipartETag
      | some hex => pure (.opening ⟨upload, enabled, existing, hex ++ ascii "-" ++ formatNat parts.length⟩)
    | .opening plan => do
      let contentType ← partContentType node uploadID parts
      pure (.combining plan contentType [] parts)
    | .combining plan contentType data (part :: rest) => do
      let bytes ← readPart node (getMultipartPartPath uploadID part.partNumber)
      pure (.combining plan contentType (data ++ bytes) rest)
    | .combining plan contentType data [] => do
      storage (put node.host call.seconds (plan.path call) data (empty.set contentTypeKey contentType))
      pure (.combined plan)
    | .combined plan => do
      let m ← storage (getMetadata node.host (plan.path call))
      pure (.measured plan (parseInt (entry m sizeKey)).1 (entry m etagKey) (parseInt (entry m lastModifiedKey)).1)
    | .measured plan size originalETag modified => do
      let data ← readPart node (plan.path call)
      pure (.staged plan size originalETag modified data)
    | .staged plan size originalETag modified data => do
      storeEncryptedMultipartObject node call (plan.path call) data plan.upload size originalETag
      pure (.encrypted plan size modified)
    | .encrypted plan size _ => do
      let final ← storage (getMetadata node.host (plan.path call))
      pure (.saving plan (plan.object call size (parseInt (entry final lastModifiedKey)).1))
    | .saving plan object => do
      saveRecord call plan.enabled object
      pure (.recorded plan object)
    | .recorded plan object => do
      updateMetricsAndCleanupMultipart plan.upload.bucket uploadID object.size plan.existing parts plan.enabled
      pure (.answered (.ok object))
    | .discarding plan e => do
      ignore (storage (delete (plan.path call)))
      pure (.answered (.error e))
    | .answered result => pure (.answered result)
  failed
    | .opening plan, _ => .combining plan (ascii "application/octet-stream") [] parts
    | .encrypted plan size modified, _ => .saving plan (plan.object call size modified)
    | .combined plan, e | .measured plan .., e | .staged plan .., e | .saving plan _, e => .discarding plan e
    | .recorded _ object, _ => .answered (.ok object)
    | .discarding _ e, _ => .answered (.error e)
    | _, e => .answered (.error e)
  answer
    | .answered result => some result
    | _ => none

section
variable {α β γ : Type} {m : Action State Error α} {cleanup : Action State Error Unit}

theorem onErrorEq (next : α → Action State Error β) (s : State) : (onError m cleanup >>= next) s =
    match m s with
    | (.ok a, s') => next a s'
    | (.error e, s') => (cleanup >>= fun _ => fail e) s' := by
  unfold onError
  rw [thenAssoc,attemptThen]
  rcases m s with ⟨e | _,s'⟩
  · exact congrFun (thenAssoc cleanup (fun _ => fail e) next) s'
  · rfl

theorem onErrorThen (k : α → Action State Error β) (next : β → Action State Error γ) (s : State) :
    (onError (m >>= k) cleanup >>= next) s = match m s with
      | (.ok a, s') => (onError (k a) cleanup >>= next) s'
      | (.error e, s') => (cleanup >>= fun _ => fail e) s' := by
  rw [onErrorEq,thenEq]
  rcases m s with ⟨_ | _,s'⟩
  · rfl
  · exact (onErrorEq next s').symm

theorem onErrorSure {a s s'} (next : α → Action State Error β) (sure : m s = (.ok a, s')) : (onError m cleanup >>= next) s = (m >>= next) s := by
  rw [onErrorEq,thenEq,sure]

end

theorem cleanupSurely (bucket uploadID : Bytes) (size : Int) (existing : Option ObjectMetadata) (parts : List Part) (enabled : Bool) :
    Surely (fun _ => True) (updateMetricsAndCleanupMultipart bucket uploadID size existing parts enabled) := by
  have metrics path count size : Surely (fun _ => True) (bucketMetrics path count size) := .ignore fun _ _ => wpOfState trivial
  refine .bind ?_ fun _ => .bind ?_ fun _ => .bind (.ignore fun _ _ => wpOfState trivial) fun _ =>
    .each fun _ _ => .ignore fun _ _ => wpOfState trivial
  · exact RecordChanges.putMetricsBy (.pure _) (metrics _) _ _ _
  · exact .ite (fun _ => .pure _) fun _ => .update fun _ _ => trivial

def remainingUpload (node : Node) (uploadID : Bytes) (source : Source) : Phase → Action State Error PartMetadata
  | .waiting => uploadPart node source.call uploadID source.partNumber source.data
  | .placed => do
    let m ← storage (getMetadata node.host (getMultipartPartPath uploadID source.partNumber))
    recordPart (describe uploadID source.partNumber m)
  | .described part => recordPart part
  | .unrecorded e => unstore e
  | .returned answer => fun s => (answer, s)
where
  unstore (e : Error) : Action State Error PartMetadata := do
    ignore (storage (delete (getMultipartPartPath uploadID source.partNumber)))
    fail (if e = .metadata .uploadNotFound then .uploadNotFound else e)
  recordPart (part : PartMetadata) : Action State Error PartMetadata := do
    let recorded ← attempt (database (fun db => db.putPart part))
    match recorded with
    | .ok _ => pure part
    | .error e => unstore e

theorem uploadMeans (node : Node) (uploadID : Bytes) (source : Source) :
    (uploading node uploadID source).Means (remainingUpload node uploadID source) where
  answered := by
    intro p r answered s
    cases p <;> cases answered
    rfl
  turns := by
    intro p open_ s
    cases p with
    | waiting =>
      refine turnsThrough rfl ?_
      have split : uploadPart node source.call uploadID source.partNumber source.data =
          place node uploadID source >>= fun _ => remainingUpload node uploadID source .placed := by
        simp only [place,thenAssoc]
        rfl
      exact congrFun split s
    | placed => exact turnsThrough rfl rfl
    | described part =>
      refine turnsThrough rfl ?_
      refine (attemptThen (database (fun db => db.putPart part)) _ s).trans ?_
      rcases database (fun db => db.putPart part) s with ⟨_ | _,_⟩ <;> rfl
    | unrecorded e => exact turnsThrough rfl rfl
    | returned answer => contradiction

def remaining (node : Node) (call : Call) (uploadID : Bytes) (parts : List Part) : Stage → Action State Error Object
  | .waiting => doCompleteMultipartUpload node call uploadID parts
  | .validating upload enabled total seen rest => do
    let total ← observe (fun s => partsSize s uploadID (lastNumber seen) total rest)
    let existing ← gets (fun s => stored s upload.bucket upload.key)
    let added := multipartGrowth enabled existing total
    withinQuota call upload.bucket added.1 added.2
    hashRest upload enabled existing [] parts
  | .hashing upload enabled existing tags rest => hashRest upload enabled existing tags rest
  | .opening plan => joinAll plan
  | .combining plan contentType data rest => do
    let more ← readParts node uploadID rest
    storage (put node.host call.seconds (plan.path call) (data ++ more) (empty.set contentTypeKey contentType))
    assembleAs plan
  | .combined plan => assembleAs plan
  | .measured plan size originalETag modified => do
    let (size, modified) ← onError (do
      let data ← readPart node (plan.path call)
      encryptRest plan size originalETag modified data) (discard plan)
    recordAs plan (plan.object call size modified)
  | .staged plan size originalETag modified data => do
    let (size, modified) ← onError (encryptRest plan size originalETag modified data) (discard plan)
    recordAs plan (plan.object call size modified)
  | .encrypted plan size modified => do
    let (size, modified) ← finalTime plan size modified
    recordAs plan (plan.object call size modified)
  | .saving plan object => recordAs plan object
  | .recorded plan object => finish plan object
  | .discarding plan e => do
    discard plan
    fail e
  | .answered result => fun s => (result, s)
where
  assembleAs (plan : Plan) : Action State Error Object := do
    let (size, modified) ← onError (encryptCombined node call (plan.path call) plan.upload) (discard plan)
    recordAs plan (plan.object call size modified)
  joinAll (plan : Plan) : Action State Error Object := do
    combineMultipartParts node call uploadID parts (plan.path call)
    assembleAs plan
  hashRest (upload : MultipartUpload) (enabled : Bool) (existing : Option ObjectMetadata) (tags : List Bytes) (rest : List Part) :
      Action State Error Object := do
    let etag ← observe (fun s => match (partETags s uploadID rest).bind (fun more => node.multipartDigest (tags ++ more)) with
      | none => .error .multipartETag
      | some hex => .ok (hex ++ ascii "-" ++ formatNat parts.length))
    joinAll ⟨upload, enabled, existing, etag⟩
  discard (plan : Plan) : Action State Error Unit := ignore (storage (delete (plan.path call)))
  finalTime (plan : Plan) (size modified : Int) : Action State Error (Int × Int) := do
    let final ← attempt (storage (getMetadata node.host (plan.path call)))
    match final with
    | .ok final => pure (size, (parseInt (entry final lastModifiedKey)).1)
    | .error (_ : Error) => pure (size, modified)
  encryptRest (plan : Plan) (size : Int) (originalETag : Bytes) (modified : Int) (data : Bytes) : Action State Error (Int × Int) := do
    storeEncryptedMultipartObject node call (plan.path call) data plan.upload size originalETag
    finalTime plan size modified
  finish (plan : Plan) (object : Object) : Action State Error Object := do
    updateMetricsAndCleanupMultipart plan.upload.bucket uploadID object.size plan.existing parts plan.enabled
    pure object
  recordAs (plan : Plan) (object : Object) : Action State Error Object := do
    onError (saveRecord call plan.enabled object) (discard plan)
    finish plan object

section
variable {node : Node} {call : Call} {uploadID : Bytes} {parts : List Part}

theorem lastSeen (seen : List Part) (part : Part) : lastNumber (seen ++ [part]) = part.partNumber := by
  simp [lastNumber]

theorem tagsCons (s : State) (part : Part) (rest : List Part) : partETags s uploadID (part :: rest) =
    match partTag s uploadID part with
    | .ok tag => (partETags s uploadID rest).map (tag :: ·)
    | .error _ => none := by
  unfold partETags partTag
  rw [List.mapM_cons]
  cases s.db.getPart uploadID part.partNumber with
  | error e => rfl
  | ok found =>
    dsimp only
    split
    · exact Option.map_eq_bind.symm
    · rfl

theorem contentTypeSure (node : Node) (uploadID : Bytes) (parts : List Part) (s : State) :
    ∃ contentType s', partContentType node uploadID parts s = (.ok contentType, s') := by
  unfold partContentType
  split
  · exact ⟨_,_,rfl⟩
  rename_i part _
  rw [attemptThen]
  rcases storage (getMetadata node.host (getMultipartPartPath uploadID part.partNumber)) s with ⟨_ | _,_⟩
  · exact ⟨_,_,rfl⟩
  · exact ⟨_,_,rfl⟩

theorem tagError {s part e} (refused : partTag s uploadID part = .error e) : e = .multipartETag := by
  unfold partTag at refused
  split at refused
  · exact (Except.error.inj refused).symm
  split at refused
  · contradiction
  · exact (Except.error.inj refused).symm

end

theorem completionMeans (node : Node) (call : Call) (uploadID : Bytes) (parts : List Part) :
    (completing node call uploadID parts).Means (remaining node call uploadID parts) where
  answered := by
    intro p r answered s
    cases p <;> cases answered
    rfl
  turns := by
    intro p open_ s
    cases p with
    | waiting =>
      refine turnsOn (m := do
        let upload ← getUpload uploadID .invalidUploadID
        let enabled ← gets (fun s => isBucketVersioningEnabled s upload.bucket)
        check (decide (parts ≠ [])) .noParts
        pure (upload, enabled)) (k := fun r => .validating r.1 r.2 0 [] parts) (by simp only [thenAssoc]; rfl) ?_ fun _ _ => rfl
      by_cases none_ : parts = []
      · subst none_
        simp only [thenAssoc]
        rfl
      have allowed (s : State) : validateAndCalculatePartsSize s uploadID parts = partsSize s uploadID 0 0 parts := if_neg none_
      have passed : (check (decide (parts ≠ [])) .noParts : Action State Error Unit) = pure () := by simp [check,none_]
      simp only [remaining,doCompleteMultipartUpload,allowed,passed,thenAssoc]
      rfl
    | validating upload enabled total seen rest =>
      cases rest with
      | nil =>
        refine turnsOn (m := (do
          let existing ← gets (fun s => stored s upload.bucket upload.key)
          let added := multipartGrowth enabled existing total
          withinQuota call upload.bucket added.1 added.2
          pure existing)) (k := fun existing => .hashing upload enabled existing [] parts) (by simp only [thenAssoc]; rfl) ?_ fun _ _ => rfl
        simp only [thenAssoc]
        rfl
      | cons part rest =>
        refine turnsOn (m := do
          check (decide (lastNumber seen < part.partNumber)) .invalidPartOrder
          observe (fun s => partAccepted s uploadID part)) (by rw [thenAssoc]; rfl) ?_ fun _ _ => rfl
        by_cases ordered : lastNumber seen < part.partNumber
        · have passed : (check (decide (lastNumber seen < part.partNumber)) .invalidPartOrder : Action State Error Unit) = pure () := by
            simp [check,ordered]
          simp only [passed,remaining,lastSeen,partsSize,if_neg (not_le.mpr ordered)]
          change (observe (fun s => partAccepted s uploadID part >>= fun size => partsSize s uploadID part.partNumber (total + size) rest) >>= _)
            s = _
          rw [thenEq,observe]
          change _ = (observe (fun s => partAccepted s uploadID part) >>= _) s
          rw [thenEq,observe]
          cases accepted : partAccepted s uploadID part with
          | error e => rfl
          | ok size => rfl
        · have refused : (check (decide (lastNumber seen < part.partNumber)) .invalidPartOrder : Action State Error Unit) =
            fail .invalidPartOrder := by simp [check,ordered]
          simp only [refused,remaining,partsSize,if_pos (not_lt.mp ordered)]
          rfl
    | hashing upload enabled existing tags rest =>
      cases rest with
      | nil =>
        have acts : (completing node call uploadID parts).act (.hashing upload enabled existing tags []) =
            observe (fun _ => match node.multipartDigest tags with
              | none => .error .multipartETag
              | some hex => .ok (hex ++ ascii "-" ++ formatNat parts.length)) >>= fun etag =>
              pure (.opening ⟨upload,enabled,existing,etag⟩) := by
          simp only [completing]
          cases node.multipartDigest tags <;> rfl
        refine turnsOn acts ?_ fun _ _ => rfl
        have none_ (s : State) : partETags s uploadID [] = some [] := rfl
        simp only [remaining,remaining.hashRest,none_,Option.bind_some,List.append_nil]
      | cons part rest =>
        refine turnsOn rfl ?_ fun _ _ => rfl
        simp only [remaining,remaining.hashRest]
        rw [thenEq,thenEq,observe,observe,tagsCons]
        cases tagged : partTag s uploadID part with
        | error e =>
          cases tagError tagged
          rfl
        | ok tag =>
          simp only [Option.bind_map,Function.comp_def,List.append_assoc,List.singleton_append]
          rfl
    | opening plan =>
      refine turnsThrough rfl ?_
      change (combineMultipartParts node call uploadID parts (plan.path call) >>= _) s = _
      obtain ⟨contentType,s',sure⟩ := contentTypeSure node uploadID parts s
      simp only [combineMultipartParts,thenAssoc]
      rw [thenEq,sure]
      rfl
    | combining plan contentType data rest =>
      cases rest with
      | nil =>
        refine turnsThrough rfl ?_
        change (storage (put node.host call.seconds (plan.path call) (data ++ []) (empty.set contentTypeKey contentType)) >>= _) s = _
        rw [List.append_nil]
        rfl
      | cons part rest =>
        refine turnsThrough rfl ?_
        change ((readPart node (getMultipartPartPath uploadID part.partNumber) >>= fun first =>
          readParts node uploadID rest >>= fun later => pure (first ++ later)) >>= _) s = _
        simp only [thenAssoc]
        rw [thenEq]
        rcases readPart node (getMultipartPartPath uploadID part.partNumber) s with ⟨_ | _,s'⟩
        · rfl
        · simp only [remaining,List.append_assoc]
          rfl
    | combined plan =>
      refine turnsThrough rfl ((onErrorThen _ _ s).trans ?_)
      rcases storage (getMetadata node.host (plan.path call)) s with ⟨_ | _,_⟩ <;> rfl
    | measured plan size originalETag modified =>
      refine turnsThrough rfl ((onErrorThen _ _ s).trans ?_)
      rcases readPart node (plan.path call) s with ⟨_ | _,_⟩ <;> rfl
    | staged plan size originalETag modified data =>
      refine turnsThrough rfl ((onErrorThen _ _ s).trans ?_)
      rcases storeEncryptedMultipartObject node call (plan.path call) data plan.upload size originalETag s with ⟨_ | _,s'⟩
      · rfl
      obtain ⟨r,s'',sure⟩ : ∃ r s'', remaining.finalTime node call plan size modified s' = (.ok r, s'') := by
        unfold remaining.finalTime
        rw [attemptThen]
        rcases storage (getMetadata node.host (plan.path call)) s' with ⟨_ | _,_⟩
        · exact ⟨_,_,rfl⟩
        · exact ⟨_,_,rfl⟩
      exact onErrorSure _ sure
    | encrypted plan size modified =>
      refine turnsThrough rfl ?_
      change (remaining.finalTime node call plan size modified >>= _) s = _
      rw [remaining.finalTime,thenAssoc,attemptThen]
      rcases storage (getMetadata node.host (plan.path call)) s with ⟨_ | _,_⟩ <;> rfl
    | saving plan object =>
      refine turnsThrough rfl ((onErrorEq _ s).trans ?_)
      rcases saveRecord call plan.enabled object s with ⟨_ | _,_⟩ <;> rfl
    | recorded plan object =>
      refine turnsThrough rfl ?_
      have sure := cleanupSurely plan.upload.bucket uploadID object.size plan.existing parts plan.enabled s trivial
      change (updateMetricsAndCleanupMultipart plan.upload.bucket uploadID object.size plan.existing parts plan.enabled >>= _) s = _
      unfold wp at sure
      split at sure
      · rename_i done
        rw [thenEq,done]
        rfl
      · exact sure.elim
    | discarding plan e => exact turnsThrough rfl rfl
    | answered result => contradiction

end MaxIOFS.MultipartSteps
