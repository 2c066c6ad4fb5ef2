import AeroVault.Lib.Attempt
import AeroVault.Lib.Claims
import AeroVault.Lib.Runs
import AeroVault.Lib.SqlLike

/-! The event outbox: facts that relays claim, deliver and complete.

Each call reads the clock and then runs one transaction, so the time it compares leases with may
be an older one than that of its commit. A transaction that is rolled back leaves everything as it
was: a run is a list of the transactions that commit, or are refused, in the order of their
commits. Beside the tables, a run keeps a ledger of the claims and a log of the records written to
`event_outbox_delivered`.

In every state of a run each fact has at most one unexpired claim, exactly the delivered facts
have a record, no fact gets a second record, and a fact that has been delivered or has failed is
not claimed again (`event_outbox_protocol`). -/
namespace AeroVault.Repository
open Lib Lib.SqlLike List Table

inductive OutboxEventType
  | fileDeleted11
  | fileNotify11
  deriving DecidableEq

structure OutboxFact where
  eventType : OutboxEventType
  originID : Int
  tenantID : String
  payload : List UInt8
  deriving DecidableEq

inductive OutboxStatus
  | pending
  | inflight
  | delivered
  | failed
  deriving DecidableEq

/-- A row of `event_outbox`; times are in nanoseconds. -/
structure OutboxRow where
  id : Nat
  fact : OutboxFact
  attempts : Int
  status : OutboxStatus
  availableAt : Int
  claim : Claim
  createdAt : Int
  deliveredAt : Int
  deriving DecidableEq

instance : Row OutboxRow where
  id := OutboxRow.id
  withID r n := {r with id := n}
  id_withID _ _ := rfl
  withID_id _ := rfl

abbrev Outbox := Table OutboxRow

/-- A row of `event_outbox_delivered`. -/
structure DeliveredRecord where
  outboxID : Nat
  deliveredAt : Int
  deriving DecidableEq

structure OutboxTables where
  outbox : Outbox
  delivered : List DeliveredRecord

inductive OutboxError
  /-- "event outbox claim identity is invalid" -/
  | claimIdentity
  /-- "event outbox claim lost" -/
  | claimLost
  /-- "event outbox prune times are required" -/
  | pruneTimes
  /-- The primary key of `event_outbox_delivered`. -/
  | duplicateRecord
  deriving DecidableEq

/-! ### Statements -/

def pendingRow (now : Int) (fact : OutboxFact) : OutboxRow :=
  ⟨0, fact, 0, .pending, now, .blank, now, 0⟩

def insertOutboxFacts (now : Int) (facts : List OutboxFact) (t : Outbox) : Outbox :=
  facts.foldl (fun t fact => t.insert (pendingRow now fact)) t

structure OutboxClaim where
  owner : String
  token : String
  limit : Int
  ttl : Int
  deriving DecidableEq

/-- `UnixNano` of a time that may be out of its range. -/
def unixNano (t : Int) : Int := t.bmod (2 ^ 64)

/-- Pending and available, or in flight with an expired lease. -/
def OutboxRow.due (now : Int) (row : OutboxRow) : Bool :=
  row.status == .pending && decide (row.availableAt ≤ now) ||
    row.status == .inflight && decide (row.claim.expires ≤ now)

/-- `ORDER BY available_at_ns, created_at_ns, id`. -/
abbrev claimsBefore (a b : OutboxRow) : Prop :=
  a.availableAt < b.availableAt ∨ a.availableAt = b.availableAt ∧
    (a.createdAt < b.createdAt ∨ a.createdAt = b.createdAt ∧ a.id ≤ b.id)

/-- The IDs of the first rows that are due, except those that other transactions have locked. -/
def dueIDs (now : Int) (limit : Nat) (locked : List Nat) (t : Outbox) : List Nat :=
  (((t.rows.filter fun row => row.due now && !locked.contains row.id).insertionSort
    claimsBefore).take limit).map (·.id)

def inflightRow (claim : Claim) (row : OutboxRow) : OutboxRow :=
  {row with status := .inflight, attempts := row.attempts + 1, claim := claim}

/-- One statement, which skips locked rows. -/
def claimEventOutboxPostgres (claim : Claim) (now : Int) (limit : Nat) (locked : List Nat) (t : Outbox) :
    List OutboxRow × Outbox :=
  let ids := dueIDs now limit locked t
  let claimed := t.update (fun row => ids.contains row.id) (inflightRow claim)
  (claimed.rows.filter fun row => ids.contains row.id, claimed)

/-- A statement for each ID, which looks again whether the row is due. -/
def claimEventOutboxIDs (claim : Claim) (now : Int) : List Nat → Outbox → List OutboxRow × Outbox
  | [], t => ([], t)
  | id :: rest, t =>
    match (t.get? id).filter (·.due now) with
    | none => claimEventOutboxIDs claim now rest t
    | some row =>
      let others := claimEventOutboxIDs claim now rest
        (t.update (fun row => row.id == id && row.due now) (inflightRow claim))
      (inflightRow claim row :: others.1, others.2)

def claimEventOutboxSQLite (claim : Claim) (now : Int) (limit : Nat) (t : Outbox) : List OutboxRow × Outbox :=
  claimEventOutboxIDs claim now (dueIDs now limit [] t) t

/-- `ClaimEventOutbox`. On Postgres the clock is read again, at `later`, for the lease. -/
def claimEventOutbox (d : Dialect) (now later : Int) (locked : List Nat) (request : OutboxClaim) (t : Outbox) :
    Except OutboxError (List OutboxRow × Outbox) :=
  if request.owner = "" ∨ request.token = "" ∨ request.ttl ≤ 0 then .error .claimIdentity
  else
    let limit := if request.limit ≤ 0 ∨ 500 < request.limit then 32 else request.limit.toNat
    match d with
    | .postgres => .ok (claimEventOutboxPostgres
        ⟨request.owner, request.token, unixNano (later + request.ttl)⟩ now limit locked t)
    | .sqlite => .ok (claimEventOutboxSQLite
        ⟨request.owner, request.token, unixNano (now + request.ttl)⟩ now limit t)

/-- In flight, with the claim of the caller. -/
def OutboxRow.held (owner token : String) (now : Int) (row : OutboxRow) : Bool :=
  row.status == .inflight && row.claim.heldBy owner token now

/-- The guarded update of a settling statement, if it affects a row. -/
def settleClaim (now : Int) (id : Nat) (owner token : String) (f : OutboxRow → OutboxRow) (t : Outbox) :
    Except OutboxError Outbox :=
  match (t.get? id).filter (·.held owner token now) with
  | none => .error .claimLost
  | some _ => .ok (t.update (fun row => row.id == id && row.held owner token now) f)

def deliveredRow (now : Int) (row : OutboxRow) : OutboxRow :=
  {row with status := .delivered, deliveredAt := now, claim := .blank}

/-- `CompleteEventOutbox`. -/
def completeEventOutbox (now : Int) (id : Nat) (owner token : String) (t : OutboxTables) :
    Except OutboxError OutboxTables := do
  let outbox ← settleClaim now id owner token (deliveredRow now) t.outbox
  if t.delivered.any (·.outboxID == id) then .error .duplicateRecord
  else .ok ⟨outbox, t.delivered ++ [⟨id, now⟩]⟩

def retriedRow (next maxAttempts : Int) (row : OutboxRow) : OutboxRow :=
  {row with
    status := if maxAttempts ≤ row.attempts then .failed else .pending
    availableAt := next, claim := .blank}

/-- `RetryEventOutbox`. -/
def retryEventOutbox (now : Int) (id : Nat) (owner token : String) (next maxAttempts : Int) (t : Outbox) :
    Except OutboxError Outbox :=
  let maxAttempts := if maxAttempts ≤ 0 then 1 else maxAttempts
  settleClaim now id owner token (retriedRow (unixNano next) maxAttempts) t

/-- Delivered, or failed, for long enough to be removed. -/
def OutboxRow.deliveredBefore (before : Int) (row : OutboxRow) : Bool :=
  row.status == .delivered && decide (row.deliveredAt < before)

def OutboxRow.failedBefore (before : Int) (row : OutboxRow) : Bool :=
  row.status == .failed && decide (row.createdAt < before)

/-- `PruneEventOutbox`; a zero time is `none`. -/
def pruneEventOutbox (deliveredBefore failedBefore : Option Int) (t : OutboxTables) :
    Except OutboxError OutboxTables :=
  match deliveredBefore, failedBefore with
  | some deliveredBefore, some failedBefore =>
    let old := (t.outbox.rows.filter (·.deliveredBefore (unixNano deliveredBefore))).map (·.id)
    .ok ⟨(t.outbox.delete (·.deliveredBefore (unixNano deliveredBefore))).delete
        (·.failedBefore (unixNano failedBefore)),
      t.delivered.filter fun record => !old.contains record.outboxID⟩
  | _, _ => .error .pruneTimes

/-! ### Runs -/

/-- The tables and the clock; the claims and the written records are kept for the statements. -/
structure OutboxState where
  tables : OutboxTables
  clock : Int
  ledger : Ledger Nat
  written : List Nat

def OutboxState.initial (clock : Int) : OutboxState := ⟨⟨.empty, []⟩, clock, .blank, []⟩

inductive OutboxCall
  | insert (facts : List OutboxFact)
  | claim (request : OutboxClaim) (later : Int) (locked : List Nat)
  | complete (id : Nat) (owner token : String)
  | retry (id : Nat) (owner token : String) (next maxAttempts : Int)
  | prune (deliveredBefore failedBefore : Option Int)
  deriving DecidableEq

/-- A call that read the clock at `now` and commits at `time`. -/
structure OutboxStep where
  time : Int
  now : Int
  call : OutboxCall
  deriving DecidableEq

/-- The claim of the row is settled. -/
def OutboxState.settle (s : OutboxState) (id : Nat) : Ledger Nat :=
  match s.tables.outbox.get? id with
  | none => s.ledger
  | some row => s.ledger.settle id row.claim

def OutboxCall.run (d : Dialect) (now : Int) (s : OutboxState) : OutboxCall → Except OutboxError OutboxState
  | .insert facts => .ok {s with tables := {s.tables with outbox := insertOutboxFacts now facts s.tables.outbox}}
  | .claim request later locked => do
    let (rows, outbox) ← claimEventOutbox d now later locked request s.tables.outbox
    let granted := rows.map fun row => Grant.mk row.id row.claim
    return {s with
      tables := {s.tables with outbox := outbox}
      ledger := {s.ledger with granted := granted ++ s.ledger.granted}}
  | .complete id owner token => do
    let tables ← completeEventOutbox now id owner token s.tables
    return {s with tables := tables, ledger := s.settle id, written := id :: s.written}
  | .retry id owner token next maxAttempts => do
    let outbox ← retryEventOutbox now id owner token next maxAttempts s.tables.outbox
    return {s with tables := {s.tables with outbox := outbox}, ledger := s.settle id}
  | .prune deliveredBefore failedBefore => do
    let tables ← pruneEventOutbox deliveredBefore failedBefore s.tables
    return {s with tables := tables}

/-- A call that is refused changes nothing but the time. -/
def outboxStep (d : Dialect) (s : OutboxState) (i : OutboxStep) : OutboxState :=
  let s := {s with clock := i.time}
  match i.call.run d i.now s with
  | .error _ => s
  | .ok s' => s'

/-- The token of a claim is new. -/
def OutboxCall.TokenUnused (ledger : Ledger Nat) : OutboxCall → Prop
  | .claim request _ _ => ledger.Unused request.token
  | _ => True

/-- The clock does not go back, a call reads it before its commit, and claims use tokens of their
own. -/
structure OutboxStep.Admitted (s : OutboxState) (i : OutboxStep) : Prop where
  time : s.clock ≤ i.time
  now : i.now ≤ i.time
  token : i.call.TokenUnused s.ledger

instance (ledger : Ledger Nat) (call : OutboxCall) : Decidable (call.TokenUnused ledger) := by
  cases call <;> unfold OutboxCall.TokenUnused <;> infer_instance

instance (s : OutboxState) (i : OutboxStep) : Decidable (i.Admitted s) :=
  decidable_of_iff (s.clock ≤ i.time ∧ i.now ≤ i.time ∧ i.call.TokenUnused s.ledger)
    ⟨fun h => ⟨h.1, h.2.1, h.2.2⟩, fun h => ⟨h.time, h.now, h.token⟩⟩

/-! ### Rows after a statement -/

variable {t t' : Outbox} {row : OutboxRow} {id : Nat} {now : Int}

theorem OutboxRow.id_of_get (h : t.get? id = some row) : row.id = id := (get?_eq_some.mp h).2

/-- Rows are added with new IDs, and are pending. -/
structure Extended (t t' : Outbox) : Prop where
  nextID : t.nextID ≤ t'.nextID
  old : ∀ id, id < t.nextID → t'.get? id = t.get? id
  new : ∀ id row, t.nextID ≤ id → t'.get? id = some row → row.status = .pending

theorem insertOutboxFacts_extends (now : Int) (facts : List OutboxFact) (t : Outbox) :
    Extended t (insertOutboxFacts now facts t) := by
  unfold insertOutboxFacts
  induction facts generalizing t with
  | nil =>
    refine ⟨le_rfl, fun _ _ => rfl, fun id row hid hrow => ?_⟩
    rw [foldl_nil, get?_of_le hid] at hrow
    cases hrow
  | cons fact rest ih =>
    obtain ⟨hnx, hold, hnew⟩ := ih (t.insert (pendingRow now fact))
    have hg : (t.insert (pendingRow now fact)).nextID = t.nextID + 1 := rfl
    refine ⟨by rw [foldl_cons]; omega, fun id hid => ?_, fun id row hid hrow => ?_⟩
    · rw [foldl_cons, hold id (by omega), get?_insert_of_ne (by omega)]
    · rw [foldl_cons] at hrow
      by_cases hself : id = t.nextID
      · rw [hold id (by omega), hself, get?_insert_self, Option.some.injEq] at hrow
        rw [← hrow]
        rfl
      · exact hnew id row (by omega) hrow

/-- The returned rows were due and are in flight with the claim; the others are as they were. -/
structure ClaimedFacts (now : Int) (claim : Claim) (t : Outbox) (rows : List OutboxRow) (t' : Outbox) : Prop where
  nextID : t'.nextID = t.nextID
  rows : Claimed OutboxRow.id (·.due now) (fun row => row.status = .inflight ∧ row.claim = claim) t.rows rows t'.rows

variable {claim : Claim}

theorem claimEventOutboxIDs_claimed {ids : List Nat} :
    ClaimedFacts now claim t (claimEventOutboxIDs claim now ids t).1 (claimEventOutboxIDs claim now ids t).2 := by
  fun_induction claimEventOutboxIDs claim now ids t with
  | case1 t => exact ⟨rfl, claimed_nothing⟩
  | case2 id rest t hfound ih => exact ih
  | case3 id rest t row hfound others ih =>
    obtain ⟨hg, hd⟩ := Option.filter_eq_some_iff.mp hfound
    refine ⟨ih.nextID, .cons ?_ ih.rows⟩
    rw [rows_update (f := inflightRow claim) fun _ => rfl]
    exact claimed_one (f := inflightRow claim) (fun _ => rfl) (fun _ => ⟨rfl, rfl⟩) hg hd

theorem due_of_mem_dueIDs {limit : Nat} {locked : List Nat} (h : id ∈ dueIDs now limit locked t) :
    ∃ row, t.get? id = some row ∧ row.due now = true := by
  obtain ⟨row, hrow, rfl⟩ := mem_map.mp h
  have hm := (mem_insertionSort claimsBefore).mp (mem_of_mem_take hrow)
  obtain ⟨hm, hd⟩ := mem_filter.mp hm
  exact ⟨row, get?_eq_some.mpr ⟨hm, rfl⟩, (Bool.and_eq_true_iff.mp hd).1⟩

theorem claimEventOutboxPostgres_claimed {limit : Nat} {locked : List Nat} :
    ClaimedFacts now claim t (claimEventOutboxPostgres claim now limit locked t).1
      (claimEventOutboxPostgres claim now limit locked t).2 := by
  refine ⟨rfl, ?_⟩
  simp only [claimEventOutboxPostgres]
  rw [rows_update (f := inflightRow claim) fun _ => rfl]
  exact claimed_statement (f := inflightRow claim) (fun _ => rfl) (fun _ => ⟨rfl, rfl⟩)
    fun _ hid => due_of_mem_dueIDs hid

/-- What a settling statement does to its row. -/
structure Settled (now : Int) (id : Nat) (owner token : String) (f : OutboxRow → OutboxRow) (t t' : Outbox)
    (row : OutboxRow) : Prop where
  nextID : t'.nextID = t.nextID
  before : t.get? id = some row
  inflight : row.status = .inflight
  held : row.claim.heldBy owner token now = true
  after : t'.get? id = some (f row)
  others : ∀ other, other ≠ id → t'.get? other = t.get? other

variable {owner token : String} {f : OutboxRow → OutboxRow}

theorem settleClaim_settled (hf : ∀ row, (f row).id = row.id)
    (h : settleClaim now id owner token f t = .ok t') : ∃ row, Settled now id owner token f t t' row := by
  unfold settleClaim at h
  cases hfound : (t.get? id).filter (·.held owner token now) with
  | none =>
    rw [hfound] at h
    cases h
  | some row =>
    rw [hfound] at h
    cases h
    obtain ⟨hget, hh⟩ := Option.filter_eq_some_iff.mp hfound
    have hg := hh
    simp only [OutboxRow.held, Bool.and_eq_true, beq_iff_eq] at hg
    have hid : row.id = id := OutboxRow.id_of_get hget
    refine ⟨row, rfl, hget, hg.1, hg.2, ?_, fun other hother => ?_⟩
    · exact get?_update_pos hf hget (by rw [hid, beq_self_eq_true, hh, Bool.and_self])
    · exact get?_update_of_ne hf hother

/-! ### What every statement keeps -/

/-- The claim on the row of a fact that is in flight. -/
def currentClaim (t : Outbox) (id : Nat) : Option Claim :=
  (t.get? id).bind fun row => if row.status = .inflight then some row.claim else none

def HasStatus (t : Outbox) (id : Nat) (status : OutboxStatus) : Prop :=
  ∃ row, t.get? id = some row ∧ row.status = status

theorem currentClaim_inflight (h : t.get? id = some row) (hst : row.status = .inflight) :
    currentClaim t id = some row.claim := by
  rw [currentClaim, h, Option.bind_some, if_pos hst]

theorem currentClaim_eq_some :
    currentClaim t id = some claim ↔ ∃ row, t.get? id = some row ∧ row.status = .inflight ∧ row.claim = claim := by
  simp only [currentClaim, Option.bind_eq_some_iff, Option.ite_none_right_eq_some, Option.some.injEq]

theorem currentClaim_of_ne (h : ∀ row, t.get? id = some row → row.status ≠ .inflight) :
    currentClaim t id = none := by
  unfold currentClaim
  cases hg : t.get? id with
  | none => rfl
  | some row => rw [Option.bind_some, if_neg (h row hg)]

theorem currentClaim_congr (h : t'.get? id = t.get? id) : currentClaim t' id = currentClaim t id := by
  rw [currentClaim, h, currentClaim]

theorem hasStatus_congr (h : t'.get? id = t.get? id) {status : OutboxStatus} :
    HasStatus t' id status ↔ HasStatus t id status := by
  rw [HasStatus, h, HasStatus]

theorem OutboxRow.status_of_due (h : row.due now = true) : row.status = .pending ∨ row.status = .inflight := by
  simp only [OutboxRow.due, Bool.or_eq_true, Bool.and_eq_true, beq_iff_eq] at h
  exact h.imp And.left And.left

theorem not_hasStatus {status : OutboxStatus} (h : t.get? id = some row) (hst : row.status ≠ status) :
    ¬ HasStatus t id status := by
  intro hh
  obtain ⟨row', hrow', hst'⟩ := hh
  rw [h, Option.some.injEq] at hrow'
  exact hst (hrow' ▸ hst')

/-- A due row has no claim, or an expired one. -/
theorem OutboxRow.expired_of_due {old : Claim} (h : t.get? id = some row) (hd : row.due now = true)
    (hold : currentClaim t id = some old) : old.expires ≤ now := by
  rw [currentClaim, h, Option.bind_some] at hold
  by_cases hin : row.status = .inflight
  · rw [if_pos hin, Option.some.injEq] at hold
    simp only [OutboxRow.due, hin, Bool.or_eq_true, Bool.and_eq_true, decide_eq_true_eq] at hd
    exact hold ▸ (hd.resolve_left fun hpn => (nomatch hpn.1)).2
  · rw [if_neg hin] at hold
    cases hold

/-- The ID is taken, and its row, if it is still there, has a status that meets `P`. -/
def Closed (P : OutboxStatus → Prop) (t : Outbox) (id : Nat) : Prop :=
  id < t.nextID ∧ ∀ row, t.get? id = some row → P row.status

/-- Rows with old IDs are not new, and only those that are pending or in flight change their
status. -/
structure Moves (t t' : Outbox) : Prop where
  nextID : t.nextID ≤ t'.nextID
  row : ∀ id row', id < t.nextID → t'.get? id = some row' →
    ∃ row, t.get? id = some row ∧ (row'.status = row.status ∨ row.status = .pending ∨ row.status = .inflight)

theorem Closed.moves {P : OutboxStatus → Prop} (h : Closed P t id) (hm : Moves t t')
    (hpn : ¬ P .pending) (hin : ¬ P .inflight) : Closed P t' id := by
  refine ⟨h.1.trans_le hm.nextID, fun row' hrow' => ?_⟩
  obtain ⟨row, hrow, hsame | hst | hst⟩ := hm.row id row' h.1 hrow'
  · exact hsame ▸ h.2 row hrow
  · exact absurd (hst ▸ h.2 row hrow) hpn
  · exact absurd (hst ▸ h.2 row hrow) hin

theorem Extended.moves (h : Extended t t') : Moves t t' where
  nextID := h.nextID
  row id row' hid hrow' := ⟨row', (h.old id hid) ▸ hrow', .inl rfl⟩

theorem ClaimedFacts.moves {rows : List OutboxRow} (h : ClaimedFacts now claim t rows t') : Moves t t' where
  nextID := h.nextID.ge
  row id row' _ hrow' := by
    by_cases hid : id ∈ rows.map (·.id)
    · obtain ⟨row, hrow, hd⟩ := h.rows.due id hid
      exact ⟨row, hrow, .inr (OutboxRow.status_of_due hd)⟩
    · exact ⟨row', (h.rows.others id hid).symm.trans hrow', .inl rfl⟩

theorem Settled.moves (h : Settled now id owner token f t t' row) : Moves t t' where
  nextID := h.nextID.ge
  row other row' _ hrow' := by
    by_cases hother : other = id
    · exact ⟨row, hother ▸ h.before, .inr (.inr h.inflight)⟩
    · exact ⟨row', (h.others other hother) ▸ hrow', .inl rfl⟩

theorem get?_prune {before before' : Int} :
    ((t.delete (·.deliveredBefore before)).delete (·.failedBefore before')).get? id = some row ↔
      t.get? id = some row ∧ row.deliveredBefore before = false ∧ row.failedBefore before' = false := by
  simp only [get?_delete, Option.filter_eq_some_iff, Bool.not_eq_true', and_assoc]

theorem prune_moves {deliveredBefore failedBefore : Int} :
    Moves t ((t.delete (·.deliveredBefore deliveredBefore)).delete (·.failedBefore failedBefore)) where
  nextID := le_rfl
  row id row' _ hrow' := by
    exact ⟨row', (get?_prune.mp hrow').1, .inl rfl⟩

/-- The facts whose records stay. -/
theorem mem_pruned_records {delivered : List DeliveredRecord} {ids : List Nat} :
    id ∈ (delivered.filter fun record => !ids.contains record.outboxID).map (·.outboxID) ↔
      id ∈ delivered.map (·.outboxID) ∧ id ∉ ids := by
  constructor
  · intro hm
    obtain ⟨record, hrc, rfl⟩ := mem_map.mp hm
    obtain ⟨hrc, hrec⟩ := mem_filter.mp hrc
    exact ⟨mem_map_of_mem hrc, by simpa using hrec⟩
  · intro hm
    obtain ⟨record, hrc, rfl⟩ := mem_map.mp hm.1
    exact mem_map_of_mem (mem_filter.mpr ⟨hrc, by simpa using hm.2⟩)

/-! ### The invariant -/

/-- The ledger agrees with the rows in flight, exactly the delivered facts have a record, and a
fact whose record was written once is delivered, or gone. -/
structure OutboxState.Sound (s : OutboxState) : Prop where
  agrees : s.ledger.Agrees (currentClaim s.tables.outbox) s.clock
  recorded : ∀ id, id ∈ s.tables.delivered.map (·.outboxID) ↔ HasStatus s.tables.outbox id .delivered
  once : s.written.Nodup
  closed : ∀ id ∈ s.written, Closed (· = .delivered) s.tables.outbox id

theorem sound_initial (clock : Int) : (OutboxState.initial clock).Sound where
  agrees := (Ledger.agrees_blank clock).congr fun _ => rfl
  recorded _ := ⟨nofun, fun h => (nomatch h.choose_spec.1)⟩
  once := nodup_nil
  closed := nofun

theorem Closed.delivered_moves (h : Closed (· = .delivered) t id) (hm : Moves t t') :
    Closed (· = .delivered) t' id :=
  h.moves hm nofun nofun

namespace OutboxState.Sound

variable {s : OutboxState} (h : s.Sound)
include h

theorem tick {time : Int} (ht : s.clock ≤ time) : {s with clock := time}.Sound :=
  ⟨h.agrees.later ht, h.recorded, h.once, h.closed⟩

theorem insert (hext : Extended s.tables.outbox t') :
    {s with tables := {s.tables with outbox := t'}}.Sound where
  agrees := by
    refine h.agrees.congr fun id => ?_
    by_cases hid : id < s.tables.outbox.nextID
    · exact currentClaim_congr (hext.old id hid)
    · have hbf : currentClaim s.tables.outbox id = none := by
        rw [currentClaim, get?_of_le (Nat.le_of_not_lt hid), Option.bind_none]
      rw [hbf]
      refine currentClaim_of_ne fun row hrow => ?_
      rw [hext.new id row (Nat.le_of_not_lt hid) hrow]
      exact nofun
  recorded id := by
    rw [h.recorded]
    by_cases hid : id < s.tables.outbox.nextID
    · exact (hasStatus_congr (hext.old id hid)).symm
    · constructor
      · intro hbf
        obtain ⟨row, hrow, -⟩ := hbf
        rw [get?_of_le (Nat.le_of_not_lt hid)] at hrow
        cases hrow
      · intro haf
        obtain ⟨row, hrow, hst⟩ := haf
        rw [hext.new id row (Nat.le_of_not_lt hid) hrow] at hst
        cases hst
  once := h.once
  closed id hid := (h.closed id hid).delivered_moves hext.moves

theorem take {rows : List OutboxRow} (hclaim : ClaimedFacts now claim s.tables.outbox rows t')
    (hnow : now ≤ s.clock) (hun : s.ledger.Unused claim.token) :
    OutboxState.Sound {s with
      tables := {s.tables with outbox := t'}
      ledger := {s.ledger with granted := rows.map (fun row => ⟨row.id, row.claim⟩) ++ s.ledger.granted}} where
  agrees := by
    rw [Ledger.grant_rows fun row hrow => (hclaim.rows.returned row hrow).2]
    refine h.agrees.grant hun (fun id hid old hold => ?_) (fun id hid => ?_)
      fun id hid => currentClaim_congr (hclaim.rows.others id hid)
    · obtain ⟨row, hrow, hd⟩ := hclaim.rows.due id hid
      exact (OutboxRow.expired_of_due hrow hd hold).trans hnow
    · obtain ⟨row, hrow, hin, rfl⟩ := hclaim.rows.taken id hid
      exact currentClaim_inflight hrow hin
  recorded id := by
    rw [h.recorded]
    by_cases hid : id ∈ rows.map (·.id)
    · obtain ⟨row, hrow, hd⟩ := hclaim.rows.due id hid
      obtain ⟨row', hrow', hin, -⟩ := hclaim.rows.taken id hid
      refine iff_of_false (not_hasStatus hrow fun hst => ?_) (not_hasStatus hrow' fun hst => ?_)
      · obtain hpn | hin := OutboxRow.status_of_due hd
        · exact nomatch hst.symm.trans hpn
        · exact nomatch hst.symm.trans hin
      · exact nomatch hst.symm.trans hin
    · exact (hasStatus_congr (hclaim.rows.others id hid)).symm
  once := h.once
  closed id hid := (h.closed id hid).delivered_moves hclaim.moves

/-- The claim of the row is settled, and the row is not in flight any more. -/
theorem settle (hst : Settled now id owner token f s.tables.outbox t' row) (hf : (f row).status ≠ .inflight) :
    (s.settle id).Agrees (currentClaim t') s.clock := by
  rw [OutboxState.settle, hst.before]
  refine h.agrees.settle (currentClaim_inflight hst.before hst.inflight) ?_
    fun other hother => currentClaim_congr (hst.others other hother)
  refine currentClaim_of_ne fun row' hrow' => ?_
  rw [hst.after, Option.some.injEq] at hrow'
  rwa [← hrow']

theorem complete (hset : Settled now id owner token (deliveredRow now) s.tables.outbox t' row) :
    OutboxState.Sound {s with
      tables := ⟨t', s.tables.delivered ++ [⟨id, now⟩]⟩, ledger := s.settle id, written := id :: s.written} where
  agrees := h.settle hset nofun
  recorded other := by
    rw [map_append, mem_append, h.recorded]
    by_cases hother : other = id
    · rw [hother]
      exact iff_of_true (.inr mem_cons_self) ⟨_, hset.after, rfl⟩
    · rw [hasStatus_congr (hset.others other hother)]
      simp [hother]
  once := by
    refine nodup_cons.mpr ⟨fun hwr => ?_, h.once⟩
    exact nomatch hset.inflight.symm.trans ((h.closed id hwr).2 row hset.before)
  closed other hother := by
    obtain rfl | hother := mem_cons.mp hother
    · refine ⟨lt_of_get? hset.after, fun row' hrow' => ?_⟩
      rw [hset.after, Option.some.injEq] at hrow'
      rw [← hrow']
      rfl
    · exact (h.closed other hother).delivered_moves hset.moves

theorem retry {next maxAttempts : Int}
    (hset : Settled now id owner token (retriedRow next maxAttempts) s.tables.outbox t' row) :
    OutboxState.Sound {s with tables := {s.tables with outbox := t'}, ledger := s.settle id} := by
  have hst : (retriedRow next maxAttempts row).status = .failed ∨
      (retriedRow next maxAttempts row).status = .pending := by
    exact ite_eq_or_eq _ _ _
  refine ⟨h.settle hset ?_, fun other => ?_, h.once, fun other hother => ?_⟩
  · obtain hf | hpn := hst
    · rw [hf]
      exact nofun
    · rw [hpn]
      exact nofun
  · rw [h.recorded]
    by_cases hother : other = id
    · rw [hother]
      refine iff_of_false (not_hasStatus hset.before fun hd => ?_)
        (not_hasStatus hset.after fun hd => ?_)
      · exact nomatch hd.symm.trans hset.inflight
      · obtain hf | hpn := hst
        · exact nomatch hd.symm.trans hf
        · exact nomatch hd.symm.trans hpn
    · exact (hasStatus_congr (hset.others other hother)).symm
  · exact (h.closed other hother).delivered_moves hset.moves

theorem prune (deliveredBefore failedBefore : Int) :
    OutboxState.Sound {s with
      tables := ⟨(s.tables.outbox.delete (·.deliveredBefore deliveredBefore)).delete (·.failedBefore failedBefore),
        s.tables.delivered.filter fun record =>
          !((s.tables.outbox.rows.filter (·.deliveredBefore deliveredBefore)).map (·.id)).contains
            record.outboxID⟩} where
  agrees := by
    refine h.agrees.congr fun id => ?_
    refine Option.ext fun claim => ?_
    rw [currentClaim_eq_some, currentClaim_eq_some]
    refine exists_congr fun row => ?_
    rw [get?_prune]
    constructor
    · exact fun hkept => ⟨hkept.1.1, hkept.2⟩
    · intro hrow
      refine ⟨⟨hrow.1, ?_, ?_⟩, hrow.2⟩
      · simp [OutboxRow.deliveredBefore, hrow.2.1]
      · simp [OutboxRow.failedBefore, hrow.2.1]
  recorded id := by
    have hold : id ∈ (s.tables.outbox.rows.filter (·.deliveredBefore deliveredBefore)).map (·.id) ↔
        ∃ row, s.tables.outbox.get? id = some row ∧ row.deliveredBefore deliveredBefore = true := by
      simp only [mem_map, mem_filter, get?_eq_some]
      exact exists_congr fun row => and_right_comm
    rw [mem_pruned_records, hold, h.recorded]
    constructor
    · intro hrc
      obtain ⟨⟨row, hrow, hst⟩, hrec⟩ := hrc
      refine ⟨row, get?_prune.mpr ⟨hrow, ?_, ?_⟩, hst⟩
      · exact Bool.eq_false_iff.mpr fun hbf => hrec ⟨row, hrow, hbf⟩
      · simp [OutboxRow.failedBefore, hst]
    · intro hrow
      obtain ⟨row, hrow, hst⟩ := hrow
      obtain ⟨hrow, hrec, -⟩ := get?_prune.mp hrow
      refine ⟨⟨row, hrow, hst⟩, fun hbf => ?_⟩
      obtain ⟨row', hrow', hbf⟩ := hbf
      rw [hrow, Option.some.injEq] at hrow'
      rw [hrow', hbf] at hrec
      cases hrec
  once := h.once
  closed id hid := (h.closed id hid).delivered_moves prune_moves

end OutboxState.Sound

/-! ### Calls -/

variable {d : Dialect}

theorem claimEventOutbox_claimed {later : Int} {locked : List Nat} {request : OutboxClaim}
    {claimed : List OutboxRow × Outbox} (h : claimEventOutbox d now later locked request t = .ok claimed) :
    ∃ claim, claim.token = request.token ∧ ClaimedFacts now claim t claimed.1 claimed.2 := by
  unfold claimEventOutbox at h
  split at h
  · cases h
  · cases d with
    | postgres =>
      cases h
      exact ⟨_, rfl, claimEventOutboxPostgres_claimed⟩
    | sqlite =>
      cases h
      exact ⟨_, rfl, claimEventOutboxIDs_claimed⟩

theorem completeEventOutbox_settled {tables tables' : OutboxTables}
    (h : completeEventOutbox now id owner token tables = .ok tables') :
    ∃ t' row, Settled now id owner token (deliveredRow now) tables.outbox t' row ∧
      tables' = ⟨t', tables.delivered ++ [⟨id, now⟩]⟩ := by
  obtain ⟨outbox, hset, hrc⟩ := bind_eq_ok.mp h
  obtain ⟨row, hst⟩ := settleClaim_settled (f := deliveredRow now) (fun _ => rfl) hset
  split at hrc
  · cases hrc
  · exact ⟨outbox, row, hst, (Except.ok.inj hrc).symm⟩

theorem pruneEventOutbox_ok {deliveredBefore failedBefore : Option Int} {tables tables' : OutboxTables}
    (h : pruneEventOutbox deliveredBefore failedBefore tables = .ok tables') :
    ∃ before before', tables' =
      ⟨(tables.outbox.delete (·.deliveredBefore before)).delete (·.failedBefore before'),
        tables.delivered.filter fun record =>
          !((tables.outbox.rows.filter (·.deliveredBefore before)).map (·.id)).contains record.outboxID⟩ := by
  cases deliveredBefore with
  | none => cases h
  | some before =>
    cases failedBefore with
    | none => cases h
    | some before' => exact ⟨_, _, (Except.ok.inj h).symm⟩

variable {s : OutboxState}

theorem outboxStep_eq {i : OutboxStep} :
    outboxStep d s i = {s with clock := i.time} ∨
      i.call.run d i.now {s with clock := i.time} = .ok (outboxStep d s i) := by
  unfold outboxStep
  simp only
  cases hrun : i.call.run d i.now {s with clock := i.time} with
  | error e => exact .inl rfl
  | ok s' => exact .inr rfl

/-! ### Runs -/

/-- The fact has been delivered or has failed. -/
def Terminal (s : OutboxState) (id : Nat) : Prop :=
  HasStatus s.tables.outbox id .delivered ∨ HasStatus s.tables.outbox id .failed

/-- The claims that were granted on the fact. -/
def OutboxState.claimsOf (s : OutboxState) (id : Nat) : List (Grant Nat) :=
  s.ledger.granted.filter (·.key == id)

/-- Delivered, failed, or removed after that. -/
def OutboxState.Ended (s : OutboxState) (id : Nat) : Prop :=
  Closed (fun status => status = .delivered ∨ status = .failed) s.tables.outbox id

theorem Terminal.ended (h : Terminal s id) : s.Ended id := by
  have hcl (status : OutboxStatus) (hen : status = .delivered ∨ status = .failed)
      (hh : HasStatus s.tables.outbox id status) : s.Ended id := by
    obtain ⟨row, hrow, rfl⟩ := hh
    refine ⟨lt_of_get? hrow, fun row' hrow' => ?_⟩
    rw [hrow, Option.some.injEq] at hrow'
    exact hrow' ▸ hen
  obtain hd | hf := h
  · exact hcl _ (.inl rfl) hd
  · exact hcl _ (.inr rfl) hf

theorem granted_settle : (s.settle id).granted = s.ledger.granted := by
  unfold OutboxState.settle
  cases s.tables.outbox.get? id <;> rfl

/-- What a call does to the rows, that it grants nothing on a fact that has ended, and that it keeps the
invariant. -/
theorem run_moves {s' : OutboxState} {call : OutboxCall} (hrun : call.run d now s = .ok s') :
    Moves s.tables.outbox s'.tables.outbox ∧ (∀ id, s.Ended id → s'.claimsOf id = s.claimsOf id) ∧
      (s.Sound → now ≤ s.clock → call.TokenUnused s.ledger → s'.Sound) := by
  cases call with
  | insert facts =>
    cases hrun
    have hex := insertOutboxFacts_extends now facts s.tables.outbox
    exact ⟨hex.moves, fun _ _ => rfl, fun h _ _ => h.insert hex⟩
  | claim request later locked =>
    obtain ⟨claimed, hclaim, hs'⟩ := bind_eq_ok.mp hrun
    obtain ⟨claim, hsame, hcl⟩ := claimEventOutbox_claimed hclaim
    cases hs'
    refine ⟨hcl.moves, fun id hen => ?_, fun h hnow ht => h.take hcl hnow (hsame ▸ ht)⟩
    have hnone : (claimed.1.map fun row => Grant.mk row.id row.claim).filter (·.key == id) = [] := by
      refine filter_eq_nil_iff.mpr fun g hg hkey => ?_
      obtain ⟨row, hrow, rfl⟩ := mem_map.mp hg
      obtain ⟨old, hold, hd⟩ := hcl.rows.due id (beq_iff_eq.mp hkey ▸ mem_map_of_mem hrow)
      have hstat := hen.2 old hold
      obtain hpn | hin := OutboxRow.status_of_due hd
      · rw [hpn] at hstat
        exact hstat.elim nofun nofun
      · rw [hin] at hstat
        exact hstat.elim nofun nofun
    show filter _ (_ ++ _) = _
    rw [filter_append, hnone]
    rfl
  | complete id owner token =>
    obtain ⟨tables, hcm, hs'⟩ := bind_eq_ok.mp hrun
    obtain ⟨t', row, hst, rfl⟩ := completeEventOutbox_settled hcm
    cases hs'
    exact ⟨hst.moves, fun _ _ => congrArg (filter _) granted_settle, fun h _ _ => h.complete hst⟩
  | retry id owner token next maxAttempts =>
    obtain ⟨outbox, hrt, hs'⟩ := bind_eq_ok.mp hrun
    obtain ⟨row, hst⟩ := settleClaim_settled (f := retriedRow (unixNano next) _) (fun _ => rfl) hrt
    cases hs'
    exact ⟨hst.moves, fun _ _ => congrArg (filter _) granted_settle, fun h _ _ => h.retry hst⟩
  | prune deliveredBefore failedBefore =>
    obtain ⟨tables, hpr, hs'⟩ := bind_eq_ok.mp hrun
    obtain ⟨before, before', rfl⟩ := pruneEventOutbox_ok hpr
    cases hs'
    exact ⟨prune_moves, fun _ _ => rfl, fun h _ _ => h.prune before before'⟩

theorem OutboxState.Sound.step {i : OutboxStep} (h : s.Sound)
    (hi : i.Admitted s) : (outboxStep d s i).Sound := by
  have ht := h.tick hi.time
  obtain hrf | hrun := outboxStep_eq
  · exact hrf ▸ ht
  · exact (run_moves hrun).2.2 ht hi.now hi.token

theorem OutboxState.Ended.step {i : OutboxStep} (h : s.Ended id) :
    (outboxStep d s i).Ended id ∧ (outboxStep d s i).claimsOf id = s.claimsOf id := by
  obtain hrf | hrun := outboxStep_eq
  · rw [hrf]
    exact ⟨h, rfl⟩
  · obtain ⟨hm, hcl, -⟩ := run_moves hrun
    exact ⟨h.moves hm (fun hst => hst.elim nofun nofun) fun hst => hst.elim nofun nofun, hcl id h⟩

theorem OutboxState.Ended.run (h : s.Ended id) (ins : List OutboxStep) :
    (Lib.run (outboxStep d) s ins).claimsOf id = s.claimsOf id := by
  induction ins generalizing s with
  | nil => rfl
  | cons i rest ih => exact (ih h.step.1).trans h.step.2

/-- At most one claim of each fact is neither settled nor expired. -/
def OneClaim (s : OutboxState) : Prop :=
  ∀ g g', s.ledger.Unexpired s.clock g → s.ledger.Unexpired s.clock g' → g.key = g'.key → g = g'

/-- Exactly the delivered facts have a record. -/
def Recorded (s : OutboxState) : Prop :=
  ∀ id, id ∈ s.tables.delivered.map (·.outboxID) ↔ HasStatus s.tables.outbox id .delivered

/-- **The outbox protocol.** In every state of a run, each fact has at most one unexpired claim,
exactly the delivered facts have a record, and at most one record was ever written for each fact;
and once a fact is delivered or has failed, it is not claimed again. -/
theorem event_outbox_protocol (d : Dialect) (clock : Int) (ins : List OutboxStep)
    (h : Each (outboxStep d) (fun s i => i.Admitted s) (.initial clock) ins) :
    Always (outboxStep d) (fun s => OneClaim s ∧ Recorded s ∧ s.written.Nodup) (.initial clock) ins ∧
      ∀ before after id, ins = before ++ after → Terminal (run (outboxStep d) (.initial clock) before) id →
        (run (outboxStep d) (.initial clock) ins).claimsOf id =
          (run (outboxStep d) (.initial clock) before).claimsOf id := by
  constructor
  · have hsound := always_of_each (fun s i hs hi => hs.step hi) (sound_initial clock) h
    exact hsound.mono fun s hs => ⟨fun g g' hg hg' => hs.agrees.unique hg hg', hs.recorded, hs.once⟩
  · intro before after id hins ht
    rw [hins, run_append]
    exact ht.ended.run after

/-- A claim that expires, another one, a completion that comes too late, one in time, and the prune
of the fact. -/
def twoRelays : List OutboxStep :=
  [⟨1, 1, .insert [⟨.fileDeleted11, 7, "default", [123, 125]⟩]⟩,
    ⟨2, 2, .claim ⟨"a", "t1", 10, 5⟩ 2 []⟩,
    ⟨8, 8, .claim ⟨"b", "t2", 10, 5⟩ 8 []⟩,
    ⟨9, 9, .complete 1 "a" "t1"⟩,
    ⟨10, 9, .complete 1 "b" "t2"⟩,
    ⟨30, 30, .prune (some 20) (some 20)⟩]

theorem two_relays_protocol :
    Each (outboxStep .sqlite) (fun s i => i.Admitted s) (.initial 0) twoRelays ∧
      Always (outboxStep .sqlite) (fun s => OneClaim s ∧ Recorded s ∧ s.written.Nodup) (.initial 0) twoRelays ∧
      (run (outboxStep .sqlite) (.initial 0) twoRelays).written = [1] := by
  have hadmitted : Each (outboxStep .sqlite) (fun s i => i.Admitted s) (.initial 0) twoRelays := by decide
  exact ⟨hadmitted, (event_outbox_protocol .sqlite 0 twoRelays hadmitted).1, by decide⟩

end AeroVault.Repository
