import MaxIOFS.ObjectManager

/-! Listing a bucket: the iterator of the store runs over the object records of a prefix in
byte order, a page is cut after its last item, and the manager filters what it shows. -/
namespace MaxIOFS.MetadataStore
open ByteString OrderedStore Records

abbrev Entry := Bytes × ObjectMetadata

def extractObjectKeyFromKey (key : Bytes) : Bytes :=
  match splitFirst ByteString.colon key with
  | (_, none) => []
  | (_, some rest) => ((splitFirst ByteString.colon rest).2).getD []

def pageSize (maxKeys : Int) : Nat := if maxKeys ≤ 0 then 1000 else maxKeys.toNat

def seekGE (target : Bytes) (entries : List Entry) : List Entry := entries.dropWhile (fun e => decide (e.1 < target))

/-! Flat listing. -/

def listLoop (marker : Bytes) (maxKeys : Nat) : Bool → Nat → Bytes → List Entry → List ObjectMetadata × Bytes
  | _, _, _, [] => ([], [])
  | started, count, lastKey, e :: rest =>
    if started = false ∧ extractObjectKeyFromKey e.1 = marker then listLoop marker maxKeys true count lastKey rest
    else if maxKeys ≤ count then ([], lastKey)
    else
      let page := listLoop marker maxKeys true (count + 1) (extractObjectKeyFromKey e.1) rest
      (e.2 :: page.1, page.2)

def Database.listObjects (db : Database) (bucket start marker : Bytes) (maxKeys : Int) :
    Except MetadataError (List ObjectMetadata × Bytes) :=
  let entries := db.objects.scan (objectKey bucket start)
  if bucket = [] then .error .invalidKey
  else .ok (listLoop marker (pageSize maxKeys) (decide (marker = [])) 0 []
    (if marker = [] then entries else seekGE (objectKey bucket marker) entries))

/-! Listing by delimiter. -/

structure DelimitedListResult where
  objects : List ObjectMetadata
  commonPrefixes : List Bytes
  nextMarker : Bytes
  isTruncated : Bool
  deriving DecidableEq

def indexOf (sub : Bytes) : Bytes → Option Nat
  | [] => if sub = [] then some 0 else none
  | b :: bs => if hasPrefix sub (b :: bs) then some 0 else (indexOf sub bs).map (· + 1)

def groupOf (start delimiter key : Bytes) : Option Bytes :=
  if delimiter ≠ [] ∧ start.length < key.length then
    let remaining := key.drop start.length
    (indexOf delimiter remaining).map (fun i => start ++ remaining.take (i + delimiter.length))
  else none

def past (bucket group : Bytes) : Bytes := (prefixEnd (objectKey bucket group)).getD []

def truncatedAt (lastItem : Bytes) : DelimitedListResult := ⟨[], [], lastItem, true⟩

def delimitedLoop (bucket start delimiter marker : Bytes) (maxKeys : Nat) :
    Bool → Bytes → List Bytes → Nat → Bytes → List Entry → DelimitedListResult
  | _, _, _, _, _, [] => ⟨[], [], [], false⟩
  | started, target, seen, count, lastItem, e :: rest =>
    let key := extractObjectKeyFromKey e.1
    let next := fun started target seen count lastItem =>
      delimitedLoop bucket start delimiter marker maxKeys started target seen count lastItem rest
    if e.1 < target then next started target seen count lastItem
    else if started = false ∧ key = marker then next true target seen count lastItem
    else match groupOf start delimiter key with
      | some group =>
        if group ∈ seen then next true (past bucket group) seen count lastItem
        else if maxKeys ≤ count then truncatedAt lastItem
        else
          let page := next true (past bucket group) (group :: seen) (count + 1) group
          { page with commonPrefixes := group :: page.commonPrefixes }
      | none =>
        if maxKeys ≤ count then truncatedAt lastItem
        else
          let page := next true target seen (count + 1) key
          { page with objects := e.2 :: page.objects }

-- A marker that ends in the delimiter is taken for a folder, and all of it is passed over.
def Database.listObjectsDelimited (db : Database) (bucket start delimiter marker : Bytes) (maxKeys : Int) :
    Except MetadataError DelimitedListResult :=
  let folder := delimiter ≠ [] ∧ hasSuffix delimiter marker = true ∧ marker ≠ []
  if bucket = [] then .error .invalidKey
  else .ok (delimitedLoop bucket start delimiter marker (pageSize maxKeys) (decide (marker = [] ∨ folder))
    (if folder then past bucket marker else if marker = [] then [] else objectKey bucket marker) [] 0 []
    (db.objects.scan (objectKey bucket start)))

/-! Search. -/

structure ObjectFilter where
  contentTypes : List Bytes
  (minSize maxSize modifiedAfter modifiedBefore : Option Int)
  tags : Store Bytes Bytes

def matchesTags (objectTags requiredTags : Store Bytes Bytes) : Bool :=
  requiredTags.entries.all (fun tag => decide (objectTags.get tag.1 = some tag.2))

def matchesFilter (obj : ObjectMetadata) : Option ObjectFilter → Bool
  | none => true
  | some filter =>
    (decide (filter.contentTypes = []) || filter.contentTypes.any (fun t => hasPrefix t obj.contentType)) &&
    filter.minSize.all (fun size => decide (size ≤ obj.size)) && filter.maxSize.all (fun size => decide (obj.size ≤ size)) &&
    filter.modifiedAfter.all (fun t => decide (t < obj.lastModified)) &&
    filter.modifiedBefore.all (fun t => decide (obj.lastModified < t)) && matchesTags obj.tags filter.tags

def scanLimit : Nat := 100000

def scanLoop (marker : Bytes) (maxKeys : Nat) (filter : Option ObjectFilter) :
    Bool → Nat → Nat → Bytes → List Entry → List ObjectMetadata × Bytes
  | _, _, _, _, [] => ([], [])
  | started, scanned, count, lastKey, e :: rest =>
    if scanLimit ≤ scanned then ([], lastKey)
    else if started = false ∧ extractObjectKeyFromKey e.1 = marker then
      scanLoop marker maxKeys filter true (scanned + 1) count lastKey rest
    else if maxKeys ≤ count then ([], lastKey)
    else if matchesFilter e.2 filter = true then
      let page := scanLoop marker maxKeys filter true (scanned + 1) (count + 1) (extractObjectKeyFromKey e.1) rest
      (e.2 :: page.1, page.2)
    else scanLoop marker maxKeys filter true (scanned + 1) count (extractObjectKeyFromKey e.1) rest

def Database.searchObjectsByScan (db : Database) (bucket start marker : Bytes) (maxKeys : Int) (filter : Option ObjectFilter) :
    List ObjectMetadata × Bytes :=
  let entries := db.objects.scan (objectKey bucket start)
  scanLoop marker (pageSize maxKeys) filter (decide (marker = [])) 0 0 []
    (if marker = [] then entries else seekGE (objectKey bucket marker) entries)

def Database.candidateKeys (db : Database) (bucket start marker : Bytes) (tag : Bytes × Bytes) : List Bytes :=
  let idxPrefix := tagIndexKey bucket tag.1 tag.2 []
  (((db.tagIndex.scan idxPrefix).map (fun e => e.1.drop idxPrefix.length)).filter
    (fun key => hasPrefix start key && !decide (marker ≠ [] ∧ key ≤ marker))).insertionSort (· ≤ ·)

def Database.tagLoop (db : Database) (bucket : Bytes) (maxKeys : Nat) (filter : ObjectFilter) :
    Nat → List Bytes → List ObjectMetadata × Bytes
  | _, [] => ([], [])
  | count, key :: rest =>
    if maxKeys ≤ count then ([], key)
    else match db.getObject bucket key [] with
      | .error _ => db.tagLoop bucket maxKeys filter count rest
      | .ok obj =>
        if matchesFilter obj (some filter) = true then
          let page := db.tagLoop bucket maxKeys filter (count + 1) rest
          (obj :: page.1, page.2)
        else db.tagLoop bucket maxKeys filter count rest

-- The order of a map is not fixed: `first` is the tag its iteration happens to start with.
def Database.searchObjectsWithTags (db : Database) (first : Bytes × Bytes) (bucket start marker : Bytes) (maxKeys : Int)
    (filter : ObjectFilter) : List ObjectMetadata × Bytes :=
  db.tagLoop bucket (pageSize maxKeys) filter 0 (db.candidateKeys bucket start marker first)

def Database.searchObjects (db : Database) (first : Bytes × Bytes) (bucket start marker : Bytes) (maxKeys : Int)
    (filter : Option ObjectFilter) : Except MetadataError (List ObjectMetadata × Bytes) :=
  if bucket = [] then .error .invalidKey
  else match filter with
    | none => .ok (db.searchObjectsByScan bucket start marker maxKeys none)
    | some f =>
      if f.tags.entries = [] then .ok (db.searchObjectsByScan bucket start marker maxKeys filter)
      else .ok (db.searchObjectsWithTags first bucket start marker maxKeys f)

/-! Versions. -/

-- Both sorts are by key and then by time, newest first; the order of equal ones is the host's.
structure ListingSort where
  sort : List ObjectVersion → List ObjectVersion
  perm : ∀ versions, (sort versions).Perm versions
  ordered : ∀ versions, (sort versions).Pairwise (fun a b => a.key < b.key ∨ a.key = b.key ∧ b.lastModified ≤ a.lastModified)

def plainVersion (obj : ObjectMetadata) : ObjectVersion := { versionOf obj with versionID := [], isLatest := true, storageClass := [] }

def Database.versionEntries (db : Database) (bucket start : Bytes) : List ObjectVersion :=
  ((db.versions.scan (ascii "version:" ++ bucket ++ colon)).filter (fun e => start <+: e.2.key)).map (fun e => versionOf e.2)

def Database.listAllObjectVersions (db : Database) (sorting : ListingSort) (bucket start : Bytes) (limit : Nat) : List ObjectVersion :=
  let versions := (db.versionEntries bucket start).take limit
  if versions.length < limit then
    let plain := (db.objects.scan (ascii "obj:" ++ bucket ++ colon)).filter (fun e => e.2.key ∉ versions.map ObjectVersion.key ∧ start <+: e.2.key)
    sorting.sort (versions ++ (plain.map (fun e => plainVersion e.2)).take (limit - versions.length))
  else sorting.sort versions

end MaxIOFS.MetadataStore

/-! The request for the versions of a bucket. -/

namespace MaxIOFS.Handler
open ByteString MetadataStore Records

structure ListVersionsResult where
  (versions deleteMarkers : List ObjectVersion)
  isTruncated : Bool
  (nextKeyMarker nextVersionIdMarker : Bytes)

def maxVersions (maxKeys : Option Int) : Nat :=
  match maxKeys with
  | some parsed => if parsed ≤ 0 then 1000 else if 1000 < parsed then 1000 else parsed.toNat
  | none => 1000

def nullVersion : Bytes := ascii "null"

def shownID (versionID : Bytes) : Bytes := if versionID = [] then nullVersion else versionID

def skipped (keyMarker versionIDMarker : Bytes) (ver : ObjectVersion) : Bool :=
  decide (keyMarker ≠ [] ∧ ver.key < keyMarker) || decide (keyMarker = ver.key ∧ versionIDMarker ≠ [] ∧ ver.versionID < versionIDMarker)

def versionItem (ver : ObjectVersion) : ObjectVersion := { ver with versionID := shownID ver.versionID }

def emptyVersion (ver : ObjectVersion) : Bool := decide (ver.size = 0 ∧ ver.etag = [])

def storageClassOrStandard (sc : Bytes) : Bytes := if sc = [] then ascii "STANDARD" else sc

def versionEntry (item : ObjectVersion) : ObjectVersion := { item with storageClass := storageClassOrStandard item.storageClass }

def listBucketVersions (db : Database) (sorting : ListingSort) (bucket start : Bytes) (maxKeys : Option Int)
    (keyMarker versionIDMarker : Bytes) : ListVersionsResult :=
  let size := maxVersions maxKeys
  let all := db.listAllObjectVersions sorting bucket start (size * 10)
  let unified := sorting.sort ((all.filter (fun ver => !skipped keyMarker versionIDMarker ver)).map versionItem)
  let page := unified.take size
  { versions := (page.filter (fun item => !emptyVersion item)).map versionEntry
    deleteMarkers := page.filter emptyVersion
    isTruncated := decide (size < unified.length)
    nextKeyMarker := (unified[size]?.map ObjectVersion.key).getD []
    nextVersionIdMarker := (unified[size]?.map ObjectVersion.versionID).getD [] }

end MaxIOFS.Handler

/-! The manager. -/

namespace MaxIOFS.ObjectManager
open ByteString MetadataStore Records

structure ListObjectsResult where
  objects : List Object
  commonPrefixes : List Bytes
  isTruncated : Bool
  nextMarker : Bytes
  maxKeys : Int
  (start delimiter marker : Bytes)
  deriving DecidableEq

def internalKey (key : Bytes) : Bool := hasPrefix (ascii ".maxiofs-") key || decide (ascii "/.maxiofs-" <:+: key)

def implicitFolder (obj : ObjectMetadata) : Bool := decide (obj.metadata.get (ascii "x-maxiofs-implicit-folder") = some (ascii "true"))

def listable (obj : ObjectMetadata) : Bool := !internalKey obj.key && !implicitFolder obj && !isMetadataDeleteMarker obj

def listableUnder (start : Bytes) (obj : ObjectMetadata) : Bool :=
  !internalKey obj.key && !(implicitFolder obj && decide (obj.key = start)) && !isMetadataDeleteMarker obj

def listFlat (s : State) (bucket start marker : Bytes) (maxKeys : Int) : Except Error ListObjectsResult :=
  match s.db.listObjects bucket start marker maxKeys with
  | .error e => .error (.metadata e)
  | .ok (objects, nextMarker) => .ok
      { objects := (objects.filter listable).map fromMetadataObject, commonPrefixes := [], isTruncated := decide (nextMarker ≠ [])
        nextMarker := nextMarker, maxKeys := maxKeys, start := start, delimiter := [], marker := marker }

def listObjectsDelimited (s : State) (bucket start delimiter marker : Bytes) (maxKeys : Int) : Except Error ListObjectsResult :=
  match s.db.listObjectsDelimited bucket start delimiter marker maxKeys with
  | .error e => .error (.metadata e)
  | .ok page => .ok
      { objects := (page.objects.filter (listableUnder start)).map fromMetadataObject, commonPrefixes := page.commonPrefixes
        isTruncated := page.isTruncated, nextMarker := page.nextMarker, maxKeys := maxKeys, start := start
        delimiter := delimiter, marker := marker }

def listObjects (s : State) (bucket start delimiter marker : Bytes) (maxKeys : Int) : Except Error ListObjectsResult :=
  let size := if maxKeys ≤ 0 then 1000 else maxKeys
  match bucketOf s bucket with
  | none => .error (.metadata .bucketNotFound)
  | some _ =>
    if delimiter = [] then listFlat s bucket start marker size else listObjectsDelimited s bucket start delimiter marker size

end MaxIOFS.ObjectManager
