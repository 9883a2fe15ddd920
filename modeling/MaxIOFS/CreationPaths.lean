import MaxIOFS.HandlerSteps

/-! The four requests that create an object: PutObject, CopyObject, the form upload and the
completion of a multipart upload. Each is taken after its permission and signature checks,
which can only refuse it, and none is interleaved with another. -/
namespace MaxIOFS.CreationPaths
open ByteString Effects Records ObjectManager S3Handler OrderedStore

def invalidArgument : Bytes := ascii "InvalidArgument"
def noSuchKey : Bytes := ascii "NoSuchKey"

/-! PutObject. -/

section
variable (lib : Library) (node : Node) (bucket key : Bytes) (r : Request) (clock : Nat → Int)

def steps : Nat → Nat → Phase → Action State Empty Phase
  | 0, _, phase => pure phase
  | left + 1, n, phase => do
    let phase ← advance lib node bucket key r (clock n) phase
    steps left (n + 1) phase

def putObjectRequest : Action State Empty Answer := do
  let phase ← steps lib node bucket key r clock 8 0 .waiting
  match phase with
  | .answered answer => pure answer
  | _ => pure (.error internalError)

end

/-! CopyObject. -/

structure CopyLibrary extends Library where
  parseHTTPTime : Bytes → Option Int
  pathUnescape : Bytes → Option Bytes

def firstValue (name : Bytes) (values : List (Bytes × List Bytes)) : Bytes := ((values.lookup name).bind List.head?).getD []

def parseCopySourceHeader (lib : CopyLibrary) (copySource : Bytes) : Option (Bytes × Bytes × Bytes) :=
  let source := if copySource.head? = some slash then copySource.tail else copySource
  let bucket := source.takeWhile (· ≠ slash)
  let keyAndQuery := (source.dropWhile (· ≠ slash)).tail
  if slash ∉ source ∨ bucket = [] ∨ keyAndQuery = [] then none
  else
    let query := keyAndQuery.dropWhile (· ≠ 63)
    let version := if query = [] then some [] else (lib.parseQuery query.tail).map (firstValue (ascii "versionId"))
    version.bind fun version => (lib.pathUnescape (keyAndQuery.takeWhile (· ≠ 63))).bind fun key =>
      if key = [] then none else some (bucket, key, version)

def validateCopySourceConditionals (lib : CopyLibrary) (headers : Headers) (source : Object) : Bool :=
  let get name := header headers (ascii "x-amz-copy-source-if-" ++ ascii name)
  let matches_ := decide (get "match" = [] ∨ trimQuotes (get "match") = trimQuotes source.etag)
  let differs := decide (get "none-match" = [] ∨ trimQuotes (get "none-match") ≠ trimQuotes source.etag)
  let modified := match lib.parseHTTPTime (get "modified-since") with
    | none => true
    | some t => decide (get "modified-since" = [] ∨ t < source.lastModified)
  let unmodified := match lib.parseHTTPTime (get "unmodified-since") with
    | none => true
    | some t => decide (get "unmodified-since" = [] ∨ source.lastModified ≤ t)
  matches_ && differs && modified && unmodified

def copyDirective : Bytes := ascii "COPY"
def replaceDirective : Bytes := ascii "REPLACE"

def directive (headers : Headers) (name : Bytes) : Bytes :=
  let given := upper (header headers name)
  if given = [] then copyDirective else given

def set (headers : Headers) (name value : Bytes) : Headers := if value = [] then headers else headers.set name value

def copyHeaders (metadataDirective : Bytes) (headers : Headers) (source : Object) : Headers :=
  if metadataDirective = replaceDirective then
    let contentType := header headers contentTypeKey
    let fresh := empty.set contentTypeKey (if contentType = [] then ascii "application/octet-stream" else contentType)
    systemHeaders.foldl (fun m name => copyHeader headers m name name) (fresh.setAll (headers.scan userPrefix))
  else
    let kept := empty.set contentTypeKey source.contentType
    let kept := set kept (ascii "content-disposition") source.contentDisposition
    let kept := set kept (ascii "content-encoding") source.contentEncoding
    let kept := set kept (ascii "cache-control") source.cacheControl
    let kept := set kept (ascii "content-language") source.contentLanguage
    kept.setAll (source.metadata.entries.map (fun e => (userPrefix ++ lower e.1, e.2)))

def getObjectTagging (node : Node) (bucket key versionID : Bytes) : Action State Error (List (Bytes × Bytes)) := do
  let obj ← getObjectMetadataForVersion node bucket key versionID
  pure (obj.tags.getD [])

section
variable (node : Node) (bucket key : Bytes) (r : Request) (clock : Nat → Int)

def copyTags (tags : Option (List (Bytes × Bytes))) (object : Object) (now : Int) : Action State Empty Answer :=
  match tags with
  | none => pure (.ok object)
  | some tags => do
    let tagged ← attempt (setObjectTagging node (r.at now) bucket key (some tags) [])
    match tagged with
    | .ok _ => pure (.ok object)
    | .error _ => pure (.error internalError)

def nonempty (tags : List (Bytes × Bytes)) : Option (List (Bytes × Bytes)) := if tags = [] then none else some tags

def sourceTags (sourceBucket sourceKey version : Bytes) : Action State Empty (Option (List (Bytes × Bytes))) := do
  let tags ← attempt (getObjectTagging node sourceBucket sourceKey version)
  match tags with
  | .ok tags => pure (nonempty tags)
  | .error _ => pure none

def copyFound (lib : CopyLibrary) (sourceBucket sourceKey version : Bytes) (source : Object) (data : Option Bytes) :
    Action State Empty Answer :=
  let metadataDirective := directive r.headers (ascii "x-amz-metadata-directive")
  let taggingDirective := directive r.headers (ascii "x-amz-tagging-directive")
  if validateCopySourceConditionals lib r.headers source = false then pure (.error preconditionFailed)
  else if metadataDirective ≠ copyDirective ∧ metadataDirective ≠ replaceDirective then pure (.error invalidArgument)
  else if taggingDirective ≠ copyDirective ∧ taggingDirective ≠ replaceDirective then pure (.error invalidArgument)
  else match parseS3TaggingHeader lib.toLibrary (header r.headers (ascii "x-amz-tagging")), data with
    | .error _, _ => pure (.error invalidTag)
    | .ok _, none => pure (.error internalError)
    | .ok replacement, some data => do
      let put ← attempt (putObject node (r.at (clock 0)) bucket key data (copyHeaders metadataDirective r.headers source))
      match put with
      | .error _ => pure (.error internalError)
      | .ok object => do
        applyObjectCannedACLHeader node bucket key r (clock 1)
        let tags ← if taggingDirective = copyDirective then sourceTags node sourceBucket sourceKey version else pure replacement
        copyTags node bucket key r tags object (clock 2)

def copyObject (lib : CopyLibrary) (bucketPath : Bytes → Bytes) : Action State Empty Answer :=
  match parseCopySourceHeader lib (header r.headers (ascii "x-amz-copy-source")) with
  | none => pure (.error invalidArgument)
  | some (sourceBucket, sourceKey, version) => do
    let found ← attempt (getObject node (bucketPath sourceBucket) sourceKey version)
    match found with
    | .ok (source, data) => copyFound node bucket key r clock lib (bucketPath sourceBucket) sourceKey version source data
    | .error .objectNotFound => pure (.error noSuchKey)
    | .error _ => pure (.error internalError)

end

/-! The form upload. -/

structure PostForm where
  fields : Headers
  content : Bytes

def syntheticHeaders (form : PostForm) : Headers :=
  let typed := set empty contentTypeKey (header form.fields contentTypeKey)
  (typed.set (ascii "content-length") (formatInt form.content.length)).setAll (form.fields.scan userPrefix)

def redirectable (redirect : Bytes) : Bool := (ascii "http://").isPrefixOf redirect || (ascii "https://").isPrefixOf redirect

-- A redirect to something else than the web is refused after the object is stored.
def handlePresignedPost (node : Node) (call : Call) (bucket key : Bytes) (form : PostForm) : Action State Empty Answer := do
  let put ← attempt (putObject node call bucket key form.content (syntheticHeaders form))
  match put with
  | .error _ => pure (.error internalError)
  | .ok object =>
    let redirect := header form.fields (ascii "success_action_redirect")
    if redirect ≠ [] ∧ redirectable redirect = false then pure (.error invalidArgument) else pure (.ok object)

/-! CompleteMultipartUpload. -/

def completeErrorCode : Error → Bytes
  | .invalidUploadID => ascii "NoSuchUpload"
  | .uploadNotFound => ascii "NoSuchUpload"
  | .invalidPart => ascii "InvalidPart"
  | .invalidPartOrder => ascii "InvalidPartOrder"
  | .storageQuotaExceeded => ascii "QuotaExceeded"
  | .bucketQuotaExceeded => ascii "QuotaExceeded"
  | _ => internalError

def withCannedACL (r : Request) (acl : Bytes) : Request := { r with headers := empty.set aclHeader acl }

def completeMultipartUpload (node : Node) (bucket key : Bytes) (r : Request) (clock : Nat → Int) (uploadID : Bytes) (parts : List Part) :
    Action State Empty Answer := do
  let upload ← gets (fun s => s.db.getMultipartUpload uploadID)
  let acl := match upload with
    | .ok upload => (upload.metadata.get aclHeader).getD []
    | .error _ => []
  if parts = [] then pure (.error (ascii "InvalidRequest"))
  else do
    let completed ← attempt (doCompleteMultipartUpload node (r.at (clock 0)) uploadID parts)
    match completed with
    | .error e => pure (.error (completeErrorCode e))
    | .ok object => do
      applyObjectCannedACLHeader node bucket key (withCannedACL r acl) (clock 1)
      pure (.ok object)

/-! Any of them. -/

inductive Creation where
  | put (r : Request)
  | copy (r : Request)
  | post (call : Call) (form : PostForm)
  | complete (r : Request) (uploadID : Bytes) (parts : List Part)

def Creation.serve (lib : CopyLibrary) (node : Node) (bucketPath : Bytes → Bytes) (bucket key : Bytes) (clock : Nat → Int) :
    Creation → Action State Empty Answer
  | .put r => putObjectRequest lib.toLibrary node bucket key r clock
  | .copy r => copyObject node bucket key r clock lib bucketPath
  | .post call form => handlePresignedPost node { call with now := clock 0 } bucket key form
  | .complete r uploadID parts => completeMultipartUpload node bucket key r clock uploadID parts

def Creation.created (clock : Nat → Int) : Creation → Int
  | .put _ => clock 2
  | _ => clock 0

end MaxIOFS.CreationPaths
