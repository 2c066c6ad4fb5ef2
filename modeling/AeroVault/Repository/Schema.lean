import AeroVault.Lib.GoMap
import AeroVault.Lib.Tables

/-! The rows of the repository's tables.

Timestamps are natural numbers, compared chronologically. A path is the (tenant,
bucket, key) triple with the empty tenant already read as the default one, as
every entry point of the service and of the repository does first. -/
namespace AeroVault.Repository
open Lib

/-- Where an object is. -/
structure Path where
  tenantID : String
  bucket : String
  key : String
  deriving DecidableEq

def defaultTenant (tenant : String) : String := if tenant = "" then "default" else tenant

/-- A row of `objects`: a live object, a historical version, a soft-deleted
object or a delete marker. -/
structure Object where
  id : Nat := 0
  path : Path
  versionID : String := ""
  backend : String := ""
  storageKey : String := ""
  size : Nat := 0
  etag : String := ""
  contentType : String := ""
  metadata : GoMap := []
  tags : GoMap := []
  storageClass : String := ""
  acl : String := ""
  createdAt : Nat := 0
  updatedAt : Nat := 0
  deletedAt : Option Nat := none
  lockedUntil : Option Nat := none
  versionTombstone : Bool := false
  deriving DecidableEq

instance : Row Object where
  id := Object.id
  withID o n := {o with id := n}
  id_withID _ _ := rfl
  withID_id _ := rfl

abbrev Objects := Table Object

namespace Object

def live (o : Object) : Bool := o.deletedAt.isNone

/-- `metadata["_aero_delete_marker"] == "true"`. -/
def isDeleteMarker (o : Object) : Bool := o.metadata.get "_aero_delete_marker" == "true"

/-- The rows that usage counts: live, or a historical version. -/
def counted (o : Object) : Bool := o.live || o.versionTombstone

end Object

/-- The columns of `buckets` that the modelled code reads. -/
structure BucketConfig where
  versioning : Bool
  objectLockSeconds : Nat
  noncurrentDays : Nat
  bucketMaxBytes : Int
  bucketMaxObjects : Int
  deriving DecidableEq

/-- A row of `legal_holds`. -/
structure LegalHold where
  objectID : Nat
  tenantID : String
  versionID : String
  holdReason : String
  createdBy : String
  deriving DecidableEq

/-- A multipart upload in progress. -/
structure Upload where
  id : String
  path : Path
  versionID : String
  backend : String
  backendUID : String
  storageKey : String
  contentType : String
  metadata : GoMap
  tags : GoMap
  storageClass : String
  deriving DecidableEq

structure PartRecord where
  uploadID : String
  partNumber : Int
  etag : String
  size : Nat
  deriving DecidableEq

structure TenantQuota where
  maxBytes : Int
  maxObjects : Int
  usedBytes : Int
  usedObjects : Int
  deriving DecidableEq

inductive RepoError
  | notFound
  | legalHoldActive
  | uploadNotFound
  deriving DecidableEq

end AeroVault.Repository
