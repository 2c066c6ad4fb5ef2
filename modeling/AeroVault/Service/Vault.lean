import AeroVault.Access.Types
import AeroVault.Lib.GoText
import AeroVault.Repository.Statements

/-! The state that `FileService` works on, and what a call brings with it.

A vault is the repository's tables together with the blobs of the storage
backend. What the service does not compute itself comes with the call: the time,
the answers of the authorizer and of the bucket admission, the identifiers drawn
at random, and the backend's digests. Server-side encryption, events, chunk
cleanup and the audit rows are left out: they read and write none of this state. -/
namespace AeroVault.Service
open Lib Repository Access

abbrev Bytes := List UInt8

structure Blob where
  data : Bytes
  lastModified : Nat
  deriving DecidableEq

/-- The argument errors of the service, one for each text that `ErrInvalidArgs` is
wrapped with, and the values in the text. -/
inductive InvalidArgs
  | emptyKey
  | keyTooLong (length : Nat)
  | illegalKey (key : String)
  | reservedMetadata (key : String)
  | contentEncodingTooLong
  | invalidContentEncoding
  | invalidACL (acl : String)
  | base64ContentMD5
  | partNumber
  | noPartsUploaded
  | emptyManifest
  | partsNotAscending
  | partNotUploaded (number : Int)
  | versioningDisabled
  | retentionMode
  | retentionInThePast
  deriving DecidableEq

inductive ServiceError
  | invalidArgs (detail : InvalidArgs)
  | metadataKeyTooLong (key : String)
  | metadataValueTooLong (key : String) (length : Nat)
  | metadataTooLarge (total : Nat)
  | forbidden (reason : String)
  | notFound
  | uploadNotFound
  | preconditionFailed
  /-- The scope and unit, what the write would bring it to, the limit. -/
  | quotaExceeded (what : String) (would limit : Int)
  | retentionLocked (till : Nat)
  | legalHold
  | retentionShortened
  /-- The body does not have the declared digest. -/
  | badDigest
  /-- A part of a completion manifest does not have the recorded ETag. -/
  | partETagMismatch (number : Int)
  | sizeMismatch (expected read : Nat)
  | invalidStorageKey
  | storageComplete
  | repo (err : RepoError)
  deriving DecidableEq

/-- A completed multipart upload, as cached for retries under its idempotency key. -/
structure Completion where
  tenantID : String
  idemKey : String
  object : Object
  deriving DecidableEq

structure Vault where
  objects : Objects
  holds : List LegalHold
  uploads : List Upload
  parts : List PartRecord
  completions : List Completion
  buckets : String → String → BucketConfig
  quotas : String → TenantQuota
  blobs : String → Option Blob
  /-- The part files of the backend's multipart uploads. -/
  staged : String → Int → Option Bytes

namespace Vault

/-- No object, upload or blob; the bucket configurations and quota limits as given,
with nothing used. -/
def empty (buckets : String → String → BucketConfig := fun _ _ => ⟨false, 0, 0, 0, 0⟩)
    (maxBytes maxObjects : String → Int := fun _ => 0) : Vault where
  objects := .empty
  holds := []
  uploads := []
  parts := []
  completions := []
  buckets := buckets
  quotas := fun tenant => ⟨maxBytes tenant, maxObjects tenant, 0, 0⟩
  blobs := fun _ => none
  staged := fun _ _ => none

def config (s : Vault) (k : Path) : BucketConfig := s.buckets k.tenantID k.bucket

/-- `ObjectHasLegalHold`. -/
def held (s : Vault) (id : Nat) : Bool := s.holds.any fun h => h.objectID == id

/-- `PutLegalHold`: one hold for each row and version. -/
def putLegalHold (s : Vault) (hold : LegalHold) : Vault :=
  {s with holds := hold ::
    s.holds.filter fun h => !(h.objectID == hold.objectID && h.versionID == hold.versionID)}

/-- `ON DELETE CASCADE` of `legal_holds`: holds of rows that are gone go with them. -/
def withObjects (s : Vault) (t : Objects) : Vault :=
  {s with
    objects := t
    holds := s.holds.filter fun h => t.rows.any fun o => o.id == h.objectID}

/-- `AddTenantUsage`: each counter stops at zero. -/
def addTenantUsage (s : Vault) (tenant : String) (deltaBytes deltaObjects : Int) : Vault :=
  let q := s.quotas tenant
  let used := {q with
    usedBytes := max 0 (q.usedBytes + deltaBytes)
    usedObjects := max 0 (q.usedObjects + deltaObjects)}
  {s with quotas := Function.update s.quotas tenant used}

def putBlob (s : Vault) (key : String) (data : Bytes) (now : Nat) : Vault :=
  {s with blobs := Function.update s.blobs key (some ⟨data, now⟩)}

/-- `Storage.Delete`, of a key that the backend accepts; a missing blob is not an error. -/
def deleteBlob (s : Vault) (key : String) : Vault :=
  {s with blobs := Function.update s.blobs key none}

end Vault

/-- What a call brings with it. -/
structure Ctx where
  now : Nat
  principal : Principal
  caller : String
  /-- `FileService.authorize`. -/
  authorize : Action → Resource → Option ServiceError
  admitBucket : String → String → Option ServiceError
  /-- The action that `AdminDelete` asks for, by the service's configuration. -/
  adminDeleteAction : Action
  newVersionID : String
  newUploadID : String
  backend : String
  /-- The generation the backend assigns to a write; empty if it has none. -/
  generation : String
  md5 : Bytes → Bytes
  decodeBase64 : String → Option Bytes
  etag : Bytes → String
  multipartETag : List String → String

/-! ### Keys and paths -/

theorem defaultTenant_idem (tenant : String) : defaultTenant (defaultTenant tenant) = defaultTenant tenant := by
  unfold defaultTenant
  by_cases hem : tenant = ""
  · rw [if_pos hem]
    rfl
  · rw [if_neg hem, if_neg hem]

def defaultBucket (bucket : String) : String := if bucket = "" then "default" else bucket

def defaults (tenant bucket key : String) : Path := ⟨defaultTenant tenant, defaultBucket bucket, key⟩

def maxKeyLen : Nat := 200

def validateKey (key : String) : Except ServiceError Unit :=
  if key = "" then .error (.invalidArgs .emptyKey)
  else if key.utf8ByteSize > maxKeyLen then .error (.invalidArgs (.keyTooLong key.utf8ByteSize))
  else if GoText.contains key ".." || GoText.hasPrefix key "/" then
    .error (.invalidArgs (.illegalKey key))
  else .ok ()

/-- `checkedObjectDefaults`. -/
def checkedObjectDefaults (tenant bucket key : String) : Except ServiceError Path :=
  match validateKey key with
  | .error err => .error err
  | .ok () => .ok (defaults tenant bucket key)

/-- `storageKey`: keys with a leading slash were rejected before. -/
def storageKey (k : Path) : String := GoText.join [k.tenantID, k.bucket, k.key]

/-- The storage key of one version, where the bucket is versioned. -/
def versionedStorageKey (versioning : Bool) (k : Path) (versionID : String) : String :=
  if versioning then storageKey k ++ "@v" ++ versionID else storageKey k

/-- The backend's own check of a key. -/
def validObjectKey (key : String) : Bool :=
  !(key == "" || GoText.hasPrefix key "/" || GoText.contains key "..")

def objectResourceKind (key : String) : ResourceKind :=
  if key = "" then .bucket
  else if key.toList.getLast? = some '/' then .folder
  else .object

def ownerMetadataKey : String := "_aero_owner"

def pathResource (k : Path) (owner : String) : Resource :=
  ⟨k.tenantID, k.bucket, k.key, objectResourceKind k.key, owner⟩

def objectResource (o : Object) : Resource := pathResource o.path (o.metadata.get ownerMetadataKey)

end AeroVault.Service
