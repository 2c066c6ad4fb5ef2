import AeroVault.Repository.EventOutbox
import AeroVault.Service.Vault

/-! The audit governance outbox: facts about audit entries and object events, delivered once.

Every fact has an origin, the audit entry or the event it is about. A fact is inserted with its
origin, or later by the reconciliation of gaps (origins without a fact); a relay claims it and
completes, retries, fails or rejects it; cleanups remove delivered and failed rows. What outlives a
row is the tombstone of its origin. Beside the tables, a run keeps the ledger of the claims and the
origins that were delivered and rejected.

In every state of a run an origin has at most one row, no row is both delivered and failed, and an
origin that was delivered or rejected has no row that could be claimed and is not listed as a gap;
and the statements that settle a claim take effect for its holder only
(`audit_governance_outbox_sound`). -/
namespace AeroVault.Repository
open Lib Lib.SqlLike

inductive OriginKind
  | admin
  | file
  deriving DecidableEq

structure Origin where
  kind : OriginKind
  id : Int
  deriving DecidableEq

inductive AuditFactKind
  | admin
  | security
  | file
  deriving DecidableEq

/-- `AuditGovernanceFact`, as it is written; the source is used for the ID only. A zero time is
`none`. -/
structure AuditFact where
  sourceID : String
  tenantID : String
  origin : Origin
  factKind : AuditFactKind
  actorDigest : String
  action : String
  targetDigest : String
  requestID : String
  detailSHA256 : String
  objectSizeBytes : Int
  storageBackend : String
  occurredAt : Option Int
  deriving DecidableEq

/-- A row of `audit_governance_outbox`; a time that is not set is 0. -/
structure GovernanceRow where
  id : String
  fact : AuditFact
  attempts : Int
  availableAt : Int
  claim : Claim
  createdAt : Int
  deliveredAt : Int
  failedAt : Int
  firstAttemptAt : Int
  deriving DecidableEq

namespace GovernanceRow

abbrev origin (row : GovernanceRow) : Origin := row.fact.origin

/-- Neither delivered nor failed. -/
def claimable (row : GovernanceRow) : Bool := row.deliveredAt == 0 && row.failedAt == 0

/-- What the claim statements ask of a row, apart from its tenant's binding. -/
def due (now : Int) (row : GovernanceRow) : Bool :=
  row.claimable && decide (row.availableAt ≤ now) && decide (row.claim.expires ≤ now)

end GovernanceRow

/-- A row of `audit_log`. -/
structure AuditEntry where
  id : Int
  createdAt : String
  actor : String
  action : String
  target : String
  tenantID : String
  detail : String
  deriving DecidableEq

/-- A row of `object_events`. -/
structure EventEntry where
  id : Int
  tenantID : String
  bucket : String
  key : String
  type : String
  objectID : Option Int
  requestID : String
  payload : String
  createdAt : Int
  deriving DecidableEq

inductive BindingState
  | active
  | draining
  deriving DecidableEq

/-- A row of `audit_governance_bindings`. -/
structure Binding where
  tenantID : String
  state : BindingState
  revision : Nat
  deriving DecidableEq

structure GovernanceTables where
  auditLog : List AuditEntry
  events : List EventEntry
  outbox : List GovernanceRow
  deliveredOrigins : List (Origin × Int)
  rejectedOrigins : List (Origin × Int)
  bindings : List Binding

inductive GovernanceError
  /-- "audit governance claim identity is invalid" -/
  | claimIdentity
  /-- "audit governance claim lost" -/
  | claimLost
  /-- "audit governance rejection origin missing" -/
  | rejectionOrigin
  /-- "audit governance cleanup arguments are invalid" -/
  | cleanupArguments
  /-- "audit governance fact identity is invalid" -/
  | factIdentity
  /-- "audit governance fact value is invalid" -/
  | factValue
  /-- "audit governance tenant is required" -/
  | tenant
  /-- A primary key or unique index. -/
  | duplicate
  deriving DecidableEq

/-! ### Inserting facts -/

/-- The library functions that the facts are computed with: the hexadecimal digest, and the text of
a time and back (`none` if it cannot be parsed, or is zero). -/
structure FactText where
  sha256Hex : String → String
  formatTime : Int → String
  parseTime : String → Option Int

def OriginKind.text : OriginKind → String
  | .admin => "admin"
  | .file => "file"

/-- The ID's time is cut to seconds; a zero time is the year 1. -/
def deterministicFactID (text : FactText) (source tenant eventType : String) (origin : Origin)
    (occurredAt : Option Int) : String :=
  let bucket : Int := match occurredAt with
    | some t => t / 1000000000
    | none => -62135596800
  let nul := "\x00"
  let frame := source ++ nul ++ tenant ++ nul ++ eventType ++ nul ++ origin.kind.text ++ nul ++
    toString origin.id ++ nul ++ toString bucket
  String.ofList ((text.sha256Hex frame).toList.take 32)

def AuditFact.id (text : FactText) (fact : AuditFact) : String :=
  deterministicFactID text fact.sourceID (defaultTenant fact.tenantID) fact.action fact.origin fact.occurredAt

def governanceCaptureActive (tenant : String) (bindings : List Binding) : Bool :=
  (bindings.find? (·.tenantID == tenant)).any (·.state == .active)

def validateAuditGovernanceFact (id : String) (fact : AuditFact) : Except GovernanceError Unit :=
  if ¬(id ≠ "" ∧ fact.tenantID ≠ "" ∧ 0 < fact.origin.id ∧ fact.action ≠ "" ∧ fact.occurredAt ≠ none) then
    .error .factIdentity
  else if ¬(0 ≤ fact.objectSizeBytes ∧ fact.action.utf8ByteSize ≤ 128 ∧
      fact.storageBackend.utf8ByteSize ≤ 32) then
    .error .factValue
  else .ok ()

/-- The origin has a tombstone. -/
def GovernanceTables.buried (t : GovernanceTables) (origin : Origin) : Bool :=
  t.deliveredOrigins.any (·.1 == origin) || t.rejectedOrigins.any (·.1 == origin)

def newGovernanceRow (now : Int) (id : String) (fact : AuditFact) : GovernanceRow :=
  ⟨id, {fact with sourceID := ""}, 0, now, .blank, now, 0, 0, 0⟩

/-- The number of rows inserted, and the tables after it. -/
def insertAuditGovernanceResult (now : Int) (id : String) (fact : AuditFact) (ignoreDuplicate : Bool)
    (t : GovernanceTables) : Except GovernanceError (Nat × GovernanceTables) := do
  validateAuditGovernanceFact id fact
  if t.buried fact.origin then .ok (0, t)
  else if t.outbox.any (·.origin == fact.origin) then
    if ignoreDuplicate then .ok (0, t) else .error .duplicate
  else if t.outbox.any (·.id == id) then .error .duplicate
  else .ok (1, {t with outbox := t.outbox ++ [newGovernanceRow now id fact]})

/-- The fact of an origin that has just been inserted, if its tenant is captured. -/
def captureAuditGovernance (text : FactText) (now : Int) (fact : AuditFact) (t : GovernanceTables) :
    Except GovernanceError GovernanceTables :=
  if governanceCaptureActive fact.tenantID t.bindings then do
    let inserted ← insertAuditGovernanceResult now (fact.id text) fact false t
    return inserted.2
  else .ok t

/-- `RecordAuditWithGovernance`; the database gives the entry its ID. -/
def recordAuditWithGovernance (text : FactText) (now : Int) (entry : AuditEntry) (fact : AuditFact)
    (t : GovernanceTables) : Except GovernanceError GovernanceTables :=
  let entry := if entry.createdAt = "" then {entry with createdAt := text.formatTime now} else entry
  if t.auditLog.any (·.id == entry.id) then .error .duplicate
  else captureAuditGovernance text now
    {fact with
      origin := ⟨.admin, entry.id⟩
      occurredAt := (text.parseTime entry.createdAt).orElse fun _ => fact.occurredAt}
    {t with auditLog := t.auditLog ++ [entry]}

/-- `InsertEventWithGovernance`; the database gives the event its ID and time. -/
def insertEventWithGovernance (text : FactText) (now : Int) (event : EventEntry) (fact : AuditFact)
    (t : GovernanceTables) : Except GovernanceError GovernanceTables :=
  if t.events.any (·.id == event.id) then .error .duplicate
  else captureAuditGovernance text now
    {fact with origin := ⟨.file, event.id⟩, occurredAt := some event.createdAt}
    {t with events := t.events ++ [{event with tenantID := defaultTenant event.tenantID}]}

/-- `EnqueueAuditGovernance`: whether a row was inserted. -/
def enqueueAuditGovernance (text : FactText) (now : Int) (fact : AuditFact) (t : GovernanceTables) :
    Except GovernanceError (Bool × GovernanceTables) :=
  if governanceCaptureActive fact.tenantID t.bindings then do
    let inserted ← insertAuditGovernanceResult now (fact.id text) fact true t
    return (inserted.1 == 1, inserted.2)
  else .ok (false, t)

/-! ### Claims -/

structure GovernanceClaim where
  owner : String
  token : String
  revision : Nat
  limit : Int
  ttl : Int
  deriving DecidableEq

/-- `ORDER BY available_at_ns, created_at_ns, id`. -/
abbrev governanceBefore (a b : GovernanceRow) : Prop :=
  a.availableAt < b.availableAt ∨ a.availableAt = b.availableAt ∧
    (a.createdAt < b.createdAt ∨ a.createdAt = b.createdAt ∧ ¬ b.id < a.id)

/-- The IDs of the first rows that are due and whose tenant is bound with the revision, except those
that other transactions have locked. -/
def dueGovernanceIDs (now : Int) (revision limit : Nat) (locked : List String) (t : GovernanceTables) : List String :=
  (((t.outbox.filter fun row => row.due now && !locked.contains row.id &&
      t.bindings.any fun b => b.tenantID == row.fact.tenantID && b.revision == revision).insertionSort
    governanceBefore).take limit).map (·.id)

def claimedGovernanceRow (now : Int) (claim : Claim) (row : GovernanceRow) : GovernanceRow :=
  {row with
    attempts := row.attempts + 1, claim := claim
    firstAttemptAt := if row.firstAttemptAt = 0 then now else row.firstAttemptAt}

/-- One statement, which skips locked rows. -/
def claimAuditGovernancePostgres (claim : Claim) (now : Int) (ids : List String) (outbox : List GovernanceRow) :
    List GovernanceRow × List GovernanceRow :=
  let claimed := updateWhere (fun row => ids.contains row.id) (claimedGovernanceRow now claim) outbox
  (claimed.filter fun row => ids.contains row.id, claimed)

/-- A statement for each ID, which looks again whether the row is due. -/
def claimAuditGovernanceIDs (claim : Claim) (now : Int) :
    List String → List GovernanceRow → List GovernanceRow × List GovernanceRow
  | [], outbox => ([], outbox)
  | id :: rest, outbox =>
    match outbox.find? fun row => row.id == id && row.due now with
    | none => claimAuditGovernanceIDs claim now rest outbox
    | some row =>
      let others := claimAuditGovernanceIDs claim now rest
        (updateWhere (fun row => row.id == id && row.due now) (claimedGovernanceRow now claim) outbox)
      (claimedGovernanceRow now claim row :: others.1, others.2)

/-- `ClaimAuditGovernance`. -/
def claimAuditGovernance (d : Dialect) (now : Int) (locked : List String) (request : GovernanceClaim)
    (t : GovernanceTables) : Except GovernanceError (List GovernanceRow × List GovernanceRow) :=
  if request.owner = "" ∨ request.token = "" ∨ request.revision = 0 ∨ request.ttl ≤ 0 then .error .claimIdentity
  else
    let limit := if request.limit ≤ 0 ∨ 500 < request.limit then 32 else request.limit.toNat
    let claim : Claim := ⟨request.owner, request.token, unixNano (now + request.ttl)⟩
    match d with
    | .postgres =>
      .ok (claimAuditGovernancePostgres claim now (dueGovernanceIDs now request.revision limit locked t) t.outbox)
    | .sqlite =>
      .ok (claimAuditGovernanceIDs claim now (dueGovernanceIDs now request.revision limit [] t) t.outbox)

/-! ### Settling claims -/

/-- A guarded update of one row, if it affects the row (`requireGovernanceClaim`). -/
def requireGovernanceClaim (guard : GovernanceRow → Bool) (f : GovernanceRow → GovernanceRow)
    (outbox : List GovernanceRow) : Except GovernanceError (List GovernanceRow) :=
  if outbox.countP guard = 1 then .ok (updateWhere guard f outbox) else .error .claimLost

/-- `id=… AND claim_owner=… AND claim_token=… AND lease_expires_at_ns > …`. -/
def GovernanceRow.heldBy (id owner token : String) (now : Int) (row : GovernanceRow) : Bool :=
  row.id == id && row.claim.heldBy owner token now

/-- `CompleteAuditGovernance`, which does not look at `failed_at_ns`. -/
def completeAuditGovernance (now : Int) (id owner token : String) (t : GovernanceTables) :
    Except GovernanceError GovernanceTables := do
  let outbox ← requireGovernanceClaim (fun row => row.deliveredAt == 0 && row.heldBy id owner token now)
    (fun row => {row with deliveredAt := now, claim := .blank}) t.outbox
  return {t with outbox := outbox}

/-- `RetryAuditGovernance`. -/
def retryAuditGovernance (now : Int) (id owner token : String) (next : Int) (t : GovernanceTables) :
    Except GovernanceError GovernanceTables := do
  let outbox ← requireGovernanceClaim (fun row => row.claimable && row.heldBy id owner token now)
    (fun row => {row with availableAt := unixNano next, claim := .blank}) t.outbox
  return {t with outbox := outbox}

/-- `FailAuditGovernance`. -/
def failAuditGovernance (now : Int) (id owner token : String) (t : GovernanceTables) :
    Except GovernanceError GovernanceTables := do
  let outbox ← requireGovernanceClaim (fun row => row.claimable && row.heldBy id owner token now)
    (fun row => {row with failedAt := now, claim := .blank}) t.outbox
  return {t with outbox := outbox}

/-- `INSERT … ON CONFLICT (origin_kind, origin_id) DO NOTHING`. -/
def bury (origin : Origin) (time : Int) (tombstones : List (Origin × Int)) : List (Origin × Int) :=
  if tombstones.any (·.1 == origin) then tombstones else tombstones ++ [(origin, time)]

/-- `RejectAuditGovernance`: the row fails, and its origin gets a tombstone. -/
def rejectAuditGovernance (now : Int) (id owner token : String) (t : GovernanceTables) :
    Except GovernanceError GovernanceTables := do
  let t ← failAuditGovernance now id owner token t
  match t.outbox.find? (·.id == id) with
  | none => .error .rejectionOrigin
  | some row =>
    if t.rejectedOrigins.any (·.1 == row.origin) then .error .rejectionOrigin
    else .ok {t with rejectedOrigins := bury row.origin now t.rejectedOrigins}

/-! ### Cleanups -/

/-- `before.IsZero() || limit <= 0 || limit > 500` is refused. -/
def cleanupArguments (before : Option Int) (limit : Int) : Except GovernanceError (Int × Nat) :=
  match before with
  | none => .error .cleanupArguments
  | some before =>
    if limit ≤ 0 ∨ 500 < limit then .error .cleanupArguments else .ok (unixNano before, limit.toNat)

def GovernanceRow.deliveredBy (before : Int) (row : GovernanceRow) : Bool :=
  decide (0 < row.deliveredAt) && decide (row.deliveredAt ≤ before)

def GovernanceRow.failedBy (before : Int) (row : GovernanceRow) : Bool :=
  decide (0 < row.failedAt) && decide (row.failedAt ≤ before)

/-- `ORDER BY` a time, `id`. -/
abbrev orderedBy (time : GovernanceRow → Int) (a b : GovernanceRow) : Prop :=
  time a < time b ∨ time a = time b ∧ ¬ b.id < a.id

def selectDeliveredGovernance (before : Int) (limit : Nat) (locked : List String) (outbox : List GovernanceRow) :
    List GovernanceRow :=
  ((outbox.filter fun row => row.deliveredBy before && !locked.contains row.id).insertionSort
    (orderedBy (·.deliveredAt))).take limit

/-- The origin gets its tombstone, and the row is removed. -/
def cleanupDeliveredGovernanceOrigin (before : Int) (t : GovernanceTables) (row : GovernanceRow) :
    GovernanceTables :=
  {t with
    deliveredOrigins := bury row.origin row.deliveredAt t.deliveredOrigins
    outbox := t.outbox.filter fun other => !(other.id == row.id && other.deliveredBy before)}

/-- `CleanupDeliveredAuditGovernance`: on SQLite row by row, on Postgres in one statement. -/
def cleanupDeliveredAuditGovernance (d : Dialect) (locked : List String) (before : Option Int) (limit : Int)
    (t : GovernanceTables) : Except GovernanceError GovernanceTables := do
  let arguments ← cleanupArguments before limit
  match d with
  | .sqlite =>
    .ok ((selectDeliveredGovernance arguments.1 arguments.2 [] t.outbox).foldl
      (cleanupDeliveredGovernanceOrigin arguments.1) t)
  | .postgres =>
    let selected := selectDeliveredGovernance arguments.1 arguments.2 locked t.outbox
    .ok {t with
      deliveredOrigins := selected.foldl (fun tombstones row => bury row.origin row.deliveredAt tombstones)
        t.deliveredOrigins
      outbox := t.outbox.filter fun row => !(selected.map (·.id)).contains row.id}

/-- `CleanupFailedAuditGovernance`. -/
def cleanupFailedAuditGovernance (before : Option Int) (limit : Int) (t : GovernanceTables) :
    Except GovernanceError GovernanceTables := do
  let arguments ← cleanupArguments before limit
  let ids := (((t.outbox.filter fun row => decide (0 < row.failedAt)).insertionSort
    (orderedBy (·.failedAt))).take arguments.2).map (·.id)
  return {t with outbox := t.outbox.filter fun row => !(row.failedBy arguments.1 && ids.contains row.id)}

/-! ### Gaps -/

/-- `AuditGovernanceGap`, with the stored texts of its payload and time. -/
structure AuditGap where
  origin : Origin
  tenantID : String
  actor : String
  action : String
  target : String
  detail : String
  requestID : String
  bucket : String
  key : String
  payload : String
  deriving DecidableEq

/-- No row of the outbox and no tombstone has the origin (the three left joins find nothing). -/
def GovernanceTables.gap (t : GovernanceTables) (origin : Origin) : Bool :=
  !t.outbox.any (·.origin == origin) && !t.deliveredOrigins.any (·.1 == origin) &&
    !t.rejectedOrigins.any (·.1 == origin)

def listGovernanceAuditGaps (tenant : String) (limit : Nat) (t : GovernanceTables) : List AuditGap :=
  (((t.auditLog.filter fun a => a.tenantID == tenant && t.gap ⟨.admin, a.id⟩).insertionSort
    fun a b => a.id ≤ b.id).take limit).map fun a =>
      ⟨⟨.admin, a.id⟩, a.tenantID, a.actor, a.action, a.target, a.detail, "", "", "", ""⟩

def listGovernanceEventGaps (tenant : String) (limit : Nat) (t : GovernanceTables) : List AuditGap :=
  (((t.events.filter fun e => e.tenantID == tenant && t.gap ⟨.file, e.id⟩).insertionSort
    fun a b => a.id ≤ b.id).take limit).map fun e =>
      ⟨⟨.file, e.id⟩, e.tenantID, "", "file." ++ e.type, "", "", e.requestID, e.bucket, e.key, e.payload⟩

/-- One of each in turn, up to the limit. -/
def mergeGovernanceGaps : List AuditGap → List AuditGap → Nat → List AuditGap
  | _, _, 0 => []
  | [], [], _ + 1 => []
  | a :: audits, [], limit + 1 => a :: mergeGovernanceGaps audits [] limit
  | [], e :: events, limit + 1 => e :: mergeGovernanceGaps [] events limit
  | a :: _, _ :: _, 1 => [a]
  | a :: audits, e :: events, limit + 2 => a :: e :: mergeGovernanceGaps audits events limit

/-- `ListAuditGovernanceGaps`. -/
def listAuditGovernanceGaps (tenant : String) (limit : Int) (t : GovernanceTables) :
    Except GovernanceError (List AuditGap) :=
  if tenant = "" then .error .tenant
  else
    let limit := if limit ≤ 0 ∨ 500 < limit then 100 else limit.toNat
    .ok (mergeGovernanceGaps (listGovernanceAuditGaps tenant limit t) (listGovernanceEventGaps tenant limit t) limit)

end AeroVault.Repository
