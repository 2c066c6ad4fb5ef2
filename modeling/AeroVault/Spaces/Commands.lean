import AeroVault.Lib.Attempt
import AeroVault.Lib.GoText
import AeroVault.Lib.Interleaving
import AeroVault.Lib.Keyed
import AeroVault.Lib.SqlLike

/-! Spaces and their members: the commands and the tables they write.

`CreateSpace` and `ChangeSpaceMember` validate a command and run one transaction each. A member change
starts with a compare-and-set of the space's revision, and ends with an entry in the history of the
space. The status of the tenant, the clock and the entry's random ID come with the command, and so
does the fate of the transaction: any statement may fail, and a commit may take effect although it is
reported as failed. Constraints of the schema beyond the unique ones are such failures. -/
namespace AeroVault.Spaces
open Lib Lib.SqlLike

inductive SubjectKind
  | user | service
  | other (name : String)
  deriving DecidableEq

structure SubjectRef where
  source : String
  kind : SubjectKind
  id : String
  deriving DecidableEq

inductive Kind
  | personal | team
  | other (name : String)
  deriving DecidableEq

inductive Role
  | viewer | editor | admin
  | other (name : String)
  deriving DecidableEq

inductive MemberState
  | active | revoked
  deriving DecidableEq

inductive MemberAction
  | addMember | changeRole | revokeMember | reactivateMember
  | other (name : String)
  deriving DecidableEq

def MemberAction.text : MemberAction → String
  | .addMember => "member.add"
  | .changeRole => "member.change_role"
  | .revokeMember => "member.revoke"
  | .reactivateMember => "member.reactivate"
  | .other name => name

/-- The tenant and the ID of a space. -/
abbrev SpaceKey := String × String

structure Space where
  tenantID : String
  id : String
  kind : Kind
  name : String
  backingBucket : String
  personalSubject : Option SubjectRef
  revision : Int
  createdBy : SubjectRef
  updatedBy : SubjectRef
  createdAt : Nat
  updatedAt : Nat
  deriving DecidableEq

def Space.key (v : Space) : SpaceKey := (v.tenantID, v.id)

structure Member where
  tenantID : String
  spaceID : String
  subject : SubjectRef
  role : Role
  state : MemberState
  changedRevision : Int
  changedBy : SubjectRef
  joinedAt : Nat
  updatedAt : Nat
  revokedAt : Option Nat
  deriving DecidableEq

def Member.key (m : Member) : SpaceKey × SubjectRef := ((m.tenantID, m.spaceID), m.subject)

structure History where
  tenantID : String
  id : String
  spaceID : String
  commandID : String
  commandType : String
  actor : SubjectRef
  target : SubjectRef
  beforeRevision : Int
  afterRevision : Int
  beforeRole : Option Role
  afterRole : Role
  beforeState : Option MemberState
  afterState : MemberState
  reason : String
  requestID : String
  occurredAt : Nat
  deriving DecidableEq

def History.space (h : History) : SpaceKey := (h.tenantID, h.spaceID)

structure CreateCommand where
  tenantID : String
  id : String
  kind : Kind
  name : String
  actor : SubjectRef
  commandID : String
  reason : String
  requestID : String
  deriving DecidableEq

def CreateCommand.key (c : CreateCommand) : SpaceKey := (c.tenantID, c.id)

structure MemberCommand where
  tenantID : String
  spaceID : String
  expectedRevision : Int
  actor : SubjectRef
  target : SubjectRef
  action : MemberAction
  role : Role
  commandID : String
  reason : String
  requestID : String
  deriving DecidableEq

def MemberCommand.key (c : MemberCommand) : SpaceKey := (c.tenantID, c.spaceID)

inductive SpaceError
  | invalidArgument (field : String)
  | notFound
  | tenantUnavailable
  | conflict
  | memberExists
  | memberRevoked
  | lastAdmin
  | persistence
  deriving DecidableEq

/-! ### Validation -/

/-- `unicode.IsControl`. -/
def isControl (c : Char) : Bool := c.toNat < 0x20 || (0x7f ≤ c.toNat && c.toNat < 0xa0)

def invalid {α : Type} (field : String) : Except SpaceError α := .error (.invalidArgument field)

def validateIdentifier (value : String) : Except SpaceError Unit :=
  if value = "" ∨ GoText.trimSpace value ≠ value then invalid "identifier"
  else if value.toList.any isControl then invalid "identifier control character"
  else .ok ()

def validateTenant (tenant : String) : Except SpaceError Unit :=
  if tenant = "*" then invalid "tenant wildcard" else validateIdentifier tenant

def lowerHex (c : Char) : Bool := ('0' ≤ c && c ≤ '9') || ('a' ≤ c && c ≤ 'f')

/-- The text of a UUID as `String` prints it, and not of the zero one. -/
def canonicalUUID (id : String) : Bool :=
  let parts := id.toList.splitOn '-'
  parts.map List.length == [8, 4, 4, 4, 12] && parts.all (·.all lowerHex) && parts.any (·.any (· != '0'))

def validateID (id : String) : Except SpaceError Unit :=
  if canonicalUUID id then .ok () else invalid "canonical nonzero UUID"

def validateSubject (subject : SubjectRef) : Except SpaceError Unit := do
  refuseIf (subject.kind ≠ .user ∧ subject.kind ≠ .service) (.invalidArgument "subject kind")
  validateIdentifier subject.source
  validateIdentifier subject.id

def validateSpaceRef (tenant id : String) : Except SpaceError Unit := do
  validateTenant tenant
  validateID id

def validateName (name : String) : Except SpaceError Unit :=
  if GoText.trimSpace name = "" ∨ name.length > 200 then invalid "name"
  else if name.toList.any isControl then invalid "name control character"
  else .ok ()

def validateCommand (tenant id command : String) (actor : SubjectRef) : Except SpaceError Unit := do
  validateSpaceRef tenant id
  validateID command
  validateSubject actor

def validateCreate (c : CreateCommand) : Except SpaceError Unit := do
  validateCommand c.tenantID c.id c.commandID c.actor
  refuseIf (c.kind ≠ .personal ∧ c.kind ≠ .team) (.invalidArgument "space kind")
  refuseIf (c.actor.kind ≠ .user) (.invalidArgument "initial user admin")
  validateName c.name

def validateMemberAction (action : MemberAction) (role : Role) : Except SpaceError Unit :=
  match action with
  | .revokeMember => if role ≠ .other "" then invalid "revoke role must be empty" else .ok ()
  | .addMember | .changeRole | .reactivateMember =>
    if role ≠ .viewer ∧ role ≠ .editor ∧ role ≠ .admin then invalid "member role" else .ok ()
  | .other _ => invalid "member action"

def maxInt64 : Int := 2 ^ 63 - 1

def validateMemberCommand (c : MemberCommand) : Except SpaceError Unit := do
  validateCommand c.tenantID c.spaceID c.commandID c.actor
  validateSubject c.target
  refuseIf (c.expectedRevision < 1 ∨ c.expectedRevision = maxInt64) (.invalidArgument "expected revision")
  validateMemberAction c.action c.role

/-! ### Tables and transactions -/

structure SpaceStore where
  /-- The tenants and names of `buckets`. -/
  buckets : List (String × String)
  spaces : Keyed Space.key
  members : Keyed Member.key
  /-- In insertion order. -/
  history : List History

/-- What a command does not control. -/
structure CommandEnv where
  now : Nat
  tenantStatus : Option String
  historyID : String
  reply : Reply

inductive Outcome (α : Type)
  | committed (a : α)
  /-- The transaction took effect, and its commit was reported as failed. -/
  | uncertain (a : α)
  | rejected (err : SpaceError)
  deriving DecidableEq

def Outcome.accepted {α : Type} : Outcome α → Bool
  | .committed _ | .uncertain _ => true
  | .rejected _ => false

/-- A transaction is rolled back when one of its statements fails. -/
def transact {α : Type} (reply : Reply) (db : SpaceStore) (body : Except SpaceError (α × SpaceStore)) :
    Outcome α × SpaceStore :=
  match body, reply with
  | .error err, _ => (.rejected err, db)
  | .ok _, .failed => (.rejected .persistence, db)
  | .ok (a, db'), .ok => (.committed a, db')
  | .ok (a, db'), .lost => (.uncertain a, db')

/-- A unique constraint that fails is a conflict. -/
def unique {α : Type} : Option α → Except SpaceError α
  | some a => .ok a
  | none => .error .conflict

def spaceTenant (env : CommandEnv) : Except SpaceError Unit :=
  refuseIf (env.tenantStatus ≠ some "active") .tenantUnavailable

def insertBucket (bucket : String × String) (buckets : List (String × String)) :
    Except SpaceError (List (String × String)) :=
  if bucket ∈ buckets then .error .conflict else .ok (buckets ++ [bucket])

/-- The primary key, and one space for each backing bucket and for each personal subject. -/
def spaceInsertRoot (v : Space) (t : Keyed Space.key) : Except SpaceError (Keyed Space.key) :=
  if t.rows.any fun w => w.tenantID == v.tenantID && (w.backingBucket == v.backingBucket ||
      (v.kind == .personal && w.kind == .personal && w.personalSubject == v.personalSubject)) then
    .error .conflict
  else unique (t.insert? v)

def spaceInsertMember (m : Member) (t : Keyed Member.key) : Except SpaceError (Keyed Member.key) :=
  unique (t.insert? m)

def spaceUpdateMember (m : Member) (t : Keyed Member.key) : Except SpaceError (Keyed Member.key) :=
  match t.update? m with
  | some t' => .ok t'
  | none => .error .persistence

/-- One entry for each ID and each command of a tenant, and for each revision of a space. -/
def spaceAppendHistory (h : History) (entries : List History) : Except SpaceError (List History) :=
  if entries.any fun g => g.tenantID == h.tenantID && (g.id == h.id || g.commandID == h.commandID ||
      (g.spaceID == h.spaceID && g.afterRevision == h.afterRevision)) then
    .error .conflict
  else .ok (entries ++ [h])

/-! ### CreateSpace -/

def CreateCommand.space (c : CreateCommand) (now : Nat) : Space where
  tenantID := c.tenantID
  id := c.id
  kind := c.kind
  name := c.name
  backingBucket := "spc-" ++ c.id
  personalSubject := if c.kind = .personal then some c.actor else none
  revision := 1
  createdBy := c.actor
  updatedBy := c.actor
  createdAt := now
  updatedAt := now

def CreateCommand.member (c : CreateCommand) (now : Nat) : Member where
  tenantID := c.tenantID
  spaceID := c.id
  subject := c.actor
  role := .admin
  state := .active
  changedRevision := 1
  changedBy := c.actor
  joinedAt := now
  updatedAt := now
  revokedAt := none

def CreateCommand.entry (c : CreateCommand) (env : CommandEnv) : History where
  tenantID := c.tenantID
  id := env.historyID
  spaceID := c.id
  commandID := c.commandID
  commandType := "create"
  actor := c.actor
  target := c.actor
  beforeRevision := 0
  afterRevision := 1
  beforeRole := none
  afterRole := .admin
  beforeState := none
  afterState := .active
  reason := c.reason
  requestID := c.requestID
  occurredAt := env.now

/-- PostgreSQL checks the tenant first, SQLite after its first write. -/
def spaceCreateRows (d : Dialect) (env : CommandEnv) (c : CreateCommand) (db : SpaceStore) :
    Except SpaceError (Space × SpaceStore) := do
  (if d = .postgres then spaceTenant env else .ok ())
  let v := c.space env.now
  let buckets ← insertBucket (v.tenantID, v.backingBucket) db.buckets
  (if d = .sqlite then spaceTenant env else .ok ())
  let spaces ← spaceInsertRoot v db.spaces
  let members ← spaceInsertMember (c.member env.now) db.members
  let history ← spaceAppendHistory (c.entry env) db.history
  return (v, ⟨buckets, spaces, members, history⟩)

def createSpace (d : Dialect) (env : CommandEnv) (c : CreateCommand) (db : SpaceStore) : Outcome Space × SpaceStore :=
  match validateCreate c with
  | .error err => (.rejected err, db)
  | .ok () => transact env.reply db (spaceCreateRows d env c db)

/-! ### ChangeSpaceMember -/

def MemberCommand.space (c : MemberCommand) (now : Nat) (v : Space) : Space :=
  {v with revision := v.revision + 1, updatedBy := c.actor, updatedAt := now}

/-- The space at the next revision, if it is at the expected one. The tenant is checked once the row is
written. -/
def spaceCAS (env : CommandEnv) (c : MemberCommand) (t : Keyed Space.key) : Except SpaceError (Keyed Space.key) := do
  spaceTenant env
  match t.get? c.key with
  | none => .error .notFound
  | some v =>
    if v.revision ≠ c.expectedRevision then .error .conflict
    else unique (t.update? (c.space env.now v))

def spaceMemberState (c : MemberCommand) (before : Option Member) : Except SpaceError Unit :=
  match c.action, before with
  | .addMember, none => .ok ()
  | .addMember, some m => .error (if m.state = .revoked then .memberRevoked else .memberExists)
  | _, none => .error .notFound
  | .reactivateMember, some m => if m.state = .active then .error .memberExists else .ok ()
  | action, some m =>
    if m.state = .revoked then .error .memberRevoked
    else if action = .changeRole ∧ m.role = c.role then .error .conflict
    else .ok ()

/-- The row of a member that is added. -/
def MemberCommand.added (c : MemberCommand) (now : Nat) : Member where
  tenantID := c.tenantID
  spaceID := c.spaceID
  subject := c.target
  role := c.role
  state := .active
  changedRevision := c.expectedRevision + 1
  changedBy := c.actor
  joinedAt := now
  updatedAt := now
  revokedAt := none

/-- The member after the change. A member that is not there is only added (`spaceMemberState`). -/
def spaceMemberAfter (c : MemberCommand) (before : Option Member) (now : Nat) : Member :=
  match before with
  | none => c.added now
  | some m =>
    if c.action = .addMember then c.added now
    else
      let revoked := c.action = .revokeMember
      {m with
        role := if revoked then m.role else c.role
        state := if revoked then .revoked else .active
        revokedAt := if revoked then some now else none
        changedRevision := c.expectedRevision + 1
        changedBy := c.actor
        updatedAt := now}

/-- An active user member with role admin. -/
def Member.administers (m : Member) : Bool :=
  m.subject.kind == .user && m.state == .active && m.role == .admin

def adminCount (t : Keyed Member.key) (space : SpaceKey) : Nat :=
  (t.rows.filter fun m => (m.tenantID, m.spaceID) == space && m.administers).length

def spaceProtectAdmin (t : Keyed Member.key) (before : Option Member) (after : Member) : Except SpaceError Unit :=
  match before with
  | none => .ok ()
  | some m =>
    if !m.administers then .ok ()
    else if after.state = .active ∧ after.role = .admin then .ok ()
    else if adminCount t (m.tenantID, m.spaceID) ≤ 1 then .error .lastAdmin
    else .ok ()

def MemberCommand.entry (c : MemberCommand) (env : CommandEnv) (before : Option Member) (after : Member) : History where
  tenantID := c.tenantID
  id := env.historyID
  spaceID := c.spaceID
  commandID := c.commandID
  commandType := c.action.text
  actor := c.actor
  target := c.target
  beforeRevision := c.expectedRevision
  afterRevision := c.expectedRevision + 1
  beforeRole := before.map Member.role
  afterRole := after.role
  beforeState := before.map Member.state
  afterState := after.state
  reason := c.reason
  requestID := c.requestID
  occurredAt := env.now

def spaceChangeMemberRows (env : CommandEnv) (c : MemberCommand) (db : SpaceStore) :
    Except SpaceError (Keyed Member.key × List History) := do
  let before := db.members.get? (c.key, c.target)
  spaceMemberState c before
  let after := spaceMemberAfter c before env.now
  spaceProtectAdmin db.members before after
  let members ←
    (if c.action = .addMember then spaceInsertMember after db.members else spaceUpdateMember after db.members)
  let history ← spaceAppendHistory (c.entry env before after) db.history
  return (members, history)

def changeSpaceMember (env : CommandEnv) (c : MemberCommand) (db : SpaceStore) : Outcome Int × SpaceStore :=
  match validateMemberCommand c with
  | .error err => (.rejected err, db)
  | .ok () => transact env.reply db do
    let spaces ← spaceCAS env c db.spaces
    let (members, history) ← spaceChangeMemberRows env c db
    return (c.expectedRevision + 1, {db with spaces, members, history})

end AeroVault.Spaces
