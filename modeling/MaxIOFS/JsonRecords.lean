import MaxIOFS.MetadataStore
import MaxIOFS.Utf8

/-! Records as they are read back: the store keeps each as JSON, and marshalling puts U+FFFD for bytes
that are no UTF-8. The addresses and the tag index keep the bytes. -/
namespace MaxIOFS.JsonRecords
open ByteString OrderedStore Records MetadataStore Utf8

def unmarshalledMap (m : Store Bytes Bytes) : Store Bytes Bytes := empty.setAll (m.entries.map fun e => (coerced e.1, coerced e.2))

def unmarshalledACL (acl : ACL) : ACL where
  owner := ⟨coerced acl.owner.id, coerced acl.owner.displayName⟩
  grants := acl.grants.map fun grant =>
    ⟨⟨coerced grant.grantee.type, coerced grant.grantee.id, coerced grant.grantee.displayName, coerced grant.grantee.emailAddress,
      coerced grant.grantee.uri⟩, coerced grant.permission⟩

def unmarshalled (obj : ObjectMetadata) : ObjectMetadata :=
  { obj with
    bucket := coerced obj.bucket
    key := coerced obj.key
    versionID := coerced obj.versionID
    etag := coerced obj.etag
    contentType := coerced obj.contentType
    storageClass := coerced obj.storageClass
    contentDisposition := coerced obj.contentDisposition
    contentEncoding := coerced obj.contentEncoding
    cacheControl := coerced obj.cacheControl
    contentLanguage := coerced obj.contentLanguage
    metadata := unmarshalledMap obj.metadata
    tags := unmarshalledMap obj.tags
    retention := obj.retention.map fun retention => { retention with mode := coerced retention.mode }
    acl := obj.acl.map unmarshalledACL
    checksumAlgorithm := coerced obj.checksumAlgorithm
    checksumValue := coerced obj.checksumValue
    restoreStatus := coerced obj.restoreStatus
    sseAlgorithm := coerced obj.sseAlgorithm }

/-- What the store gives back of the records that were written. -/
def readBack (db : Database) : Database :=
  { db with versions := db.versions.mapValues unmarshalled, objects := db.objects.mapValues unmarshalled }

/-- `Database.putObject` as it is read back. -/
def putMarshalled (db : Database) (now : Int) (obj : ObjectMetadata) : Except MetadataError Database := do
  let written ← db.putObject now obj
  let record := unmarshalled (stamped now obj)
  .ok { written with
    versions := if obj.versionID = [] then written.versions else written.versions.set (objectVersionKey obj.bucket obj.key obj.versionID) record
    objects := if obj.versionID = [] ∨ obj.isLatest = true then written.objects.set (objectKey obj.bucket obj.key) record else written.objects }

theorem setTwice {κ β : Type} [LinearOrder κ] (m : Store κ β) (k : κ) (v : β) : (m.set k v).set k v = m.set k v := by
  refine Store.extGet fun q => ?_
  rw [Store.getSet,Store.getSet]
  split <;> rfl

/-- A record of nothing but UTF-8 is read back as it was written. -/
theorem putMarshalledText {db : Database} {now obj} (text : unmarshalled (stamped now obj) = stamped now obj) :
    putMarshalled db now obj = db.putObject now obj := by
  unfold putMarshalled
  cases done : db.putObject now obj with
  | error e => rfl
  | ok written =>
    obtain ⟨rfl,-⟩ := putObjectWrites done
    refine congrArg Except.ok ?_
    rw [text]
    simp only [writeObject,show (stamped now obj).versionID = obj.versionID from rfl,show (stamped now obj).isLatest = obj.isLatest from rfl,
      show (stamped now obj).bucket = obj.bucket from rfl,show (stamped now obj).key = obj.key from rfl]
    split_ifs <;> simp only [setTwice]

/-- Every record of the bucket has what JSON keeps of the key it is filed under. -/
def Encoded (bucket : Bytes) (db : Database) : Prop :=
  ∀ key obj, db.objects.get (objectKey bucket key) = some obj → key ≠ [] ∧ obj.key = coerced key

theorem encodedPut {bucket} {db db' : Database} {now obj} (encoded : Encoded bucket db) (home : obj.bucket = bucket)
    (done : putMarshalled db now obj = .ok db') : Encoded bucket db' := by
  unfold putMarshalled at done
  cases put : db.putObject now obj with
  | error e => rw [put] at done; cases done
  | ok written =>
    rw [put] at done
    cases done
    obtain ⟨rfl,-,named,-⟩ := putObjectWrites put
    intro key record found
    by_cases filed : obj.versionID = [] ∨ obj.isLatest = true
    · have others : (writeObject now obj db).objects = db.objects.set (objectKey obj.bucket obj.key) (stamped now obj) := if_pos filed
      simp only [if_pos filed,others,Store.getSet] at found
      split at found
      · rename_i own
        cases found
        have same : obj.key = key := List.append_cancel_left (home ▸ own)
        exact ⟨same ▸ named,same ▸ rfl⟩
      · exact encoded key record found
    · have others : (writeObject now obj db).objects = db.objects := if_neg filed
      simp only [if_neg filed,others] at found
      exact encoded key record found

end MaxIOFS.JsonRecords
