import Mathlib

/-! The vocabulary of `internal/access`: principals, resources, actions, ACL entries.

The source's string types are open, so each enumeration ends in `other`, the
values that no constant names. Of an ACL entry only the columns that the
authorizer reads are kept. -/
namespace AeroVault.Access

inductive PrincipalKind
  | user | service | anonymous | share | publicAsset | system
  | other (name : String)
  deriving DecidableEq

inductive ResourceKind
  | bucket | folder | object
  | other (name : String)
  deriving DecidableEq

inductive Action
  | list | read | preview | download | create | write
  /-- `object:delete`. -/
  | delete
  /-- `vault.file.delete`, the privileged delete of administrative and WebDAV paths. -/
  | adminDelete
  | restore | share | manageACL | publish | exportObject
  /-- `*`. -/
  | all
  | other (name : String)
  deriving DecidableEq

inductive PrincipalType
  | user | department | group | role | authenticated | everyone
  | other (name : String)
  deriving DecidableEq

inductive Effect
  | allow | deny
  | other (name : String)
  deriving DecidableEq

structure Capability where
  id : String
  tenantID : String
  bucket : String
  key : String
  actions : List Action
  deriving DecidableEq

structure Principal where
  subjectID : String
  tenantID : String
  kind : PrincipalKind
  roles : List String
  groups : List String
  scopes : List String
  capability : Option Capability
  deriving DecidableEq

structure Resource where
  tenantID : String
  bucket : String
  key : String
  kind : ResourceKind
  ownerID : String
  deriving DecidableEq

structure ACLEntry where
  principalType : PrincipalType
  principalID : String
  action : Action
  effect : Effect
  deriving DecidableEq

structure Decision where
  allowed : Bool
  reason : String
  deriving DecidableEq

/-- What the resource boundary or a store read can fail with. -/
inductive Fault
  /-- The observation itself failed. -/
  | boundaryFault
  /-- The bucket is bound to a space. -/
  | spaceBound
  /-- The tenant is known and not active. -/
  | tenantUnavailable
  | storeError
  deriving DecidableEq

inductive DefaultPolicy
  | deny | tenant
  deriving DecidableEq

structure Config where
  enabled : Bool
  defaultPolicy : DefaultPolicy
  deleteFailOpen : Bool
  deriving DecidableEq

/-- A manager is its configuration together with what it reads: the boundary's
answer for a bucket, the ACL entries that apply to a resource and the
departments of a subject. -/
structure Manager where
  cfg : Config
  checkBucket : String → String → Option Fault
  listApplicableACL : String → String → String → Except Fault (List ACLEntry)
  listSubjectDepartments : String → String → Except Fault (List String)

end AeroVault.Access
