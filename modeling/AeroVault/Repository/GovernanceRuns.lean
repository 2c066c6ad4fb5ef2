import AeroVault.Repository.AuditGovernance

/-! Runs of the audit governance outbox.

A run is a list of calls in the order of their transactions, each with the time of the clock. What
carries the result is one invariant over the rows and the two tables of tombstones together
(`GovernanceTables.Sound`): an origin has one row, a row that is delivered or failed has no claim,
the origin of a row has no tombstone of a delivery, and if it has one of a rejection the row has
failed. -/
namespace AeroVault.Repository
open Lib Lib.SqlLike List Prod

/-- The tables and the clock; the claims, and the origins that were delivered and rejected, are kept
for the statements. -/
structure GovernanceState where
  tables : GovernanceTables
  clock : Int
  ledger : Ledger String
  delivered : List Origin
  rejected : List Origin

def GovernanceState.initial (clock : Int) : GovernanceState := ⟨⟨[], [], [], [], [], []⟩, clock, .blank, [], []⟩

inductive GovernanceCall
  | record (entry : AuditEntry) (fact : AuditFact)
  | insertEvent (event : EventEntry) (fact : AuditFact)
  | enqueue (fact : AuditFact)
  | claim (request : GovernanceClaim) (locked : List String)
  | complete (id owner token : String)
  | retry (id owner token : String) (next : Int)
  | fail (id owner token : String)
  | reject (id owner token : String)
  | cleanupDelivered (locked : List String) (before : Option Int) (limit : Int)
  | cleanupFailed (before : Option Int) (limit : Int)
  /-- Any change of the bindings. -/
  | bind (bindings : List Binding)

structure GovernanceStep where
  now : Int
  call : GovernanceCall

namespace GovernanceState

def row? (s : GovernanceState) (id : String) : Option GovernanceRow := s.tables.outbox.find? (·.id == id)

/-- The claim of the row is settled. -/
def settle (s : GovernanceState) (id : String) : Ledger String :=
  match s.row? id with
  | none => s.ledger
  | some row => s.ledger.settle id row.claim

/-- The origin of the row, beside those before. -/
def withOrigin (s : GovernanceState) (id : String) (origins : List Origin) : List Origin :=
  match s.row? id with
  | none => origins
  | some row => row.origin :: origins

end GovernanceState

def GovernanceCall.run (d : Dialect) (text : FactText) (now : Int) (s : GovernanceState) :
    GovernanceCall → Except GovernanceError GovernanceState
  | .record entry fact => do
    let tables ← recordAuditWithGovernance text now entry fact s.tables
    return {s with tables := tables}
  | .insertEvent event fact => do
    let tables ← insertEventWithGovernance text now event fact s.tables
    return {s with tables := tables}
  | .enqueue fact => do
    let enqueued ← enqueueAuditGovernance text now fact s.tables
    return {s with tables := enqueued.2}
  | .claim request locked => do
    let claimed ← claimAuditGovernance d now locked request s.tables
    let granted := claimed.1.map fun row => Grant.mk row.id row.claim
    return {s with
      tables := {s.tables with outbox := claimed.2}
      ledger := {s.ledger with granted := granted ++ s.ledger.granted}}
  | .complete id owner token => do
    let tables ← completeAuditGovernance now id owner token s.tables
    return {s with tables := tables, ledger := s.settle id, delivered := s.withOrigin id s.delivered}
  | .retry id owner token next => do
    let tables ← retryAuditGovernance now id owner token next s.tables
    return {s with tables := tables, ledger := s.settle id}
  | .fail id owner token => do
    let tables ← failAuditGovernance now id owner token s.tables
    return {s with tables := tables, ledger := s.settle id}
  | .reject id owner token => do
    let tables ← rejectAuditGovernance now id owner token s.tables
    return {s with tables := tables, ledger := s.settle id, rejected := s.withOrigin id s.rejected}
  | .cleanupDelivered locked before limit => do
    let tables ← cleanupDeliveredAuditGovernance d locked before limit s.tables
    return {s with tables := tables}
  | .cleanupFailed before limit => do
    let tables ← cleanupFailedAuditGovernance before limit s.tables
    return {s with tables := tables}
  | .bind bindings => .ok {s with tables := {s.tables with bindings := bindings}}

/-- A call that is refused changes nothing but the time. -/
def governanceStep (d : Dialect) (text : FactText) (s : GovernanceState) (i : GovernanceStep) : GovernanceState :=
  match i.call.run d text i.now {s with clock := i.now} with
  | .error _ => {s with clock := i.now}
  | .ok s' => s'

/-- The token of a claim is new. -/
def GovernanceCall.TokenUnused (ledger : Ledger String) : GovernanceCall → Prop
  | .claim request _ => ledger.Unused request.token
  | _ => True

/-- The clock does not go back, and claims use tokens of their own. -/
structure GovernanceStep.Admitted (s : GovernanceState) (i : GovernanceStep) : Prop where
  time : s.clock ≤ i.now
  token : i.call.TokenUnused s.ledger

instance (ledger : Ledger String) (call : GovernanceCall) : Decidable (call.TokenUnused ledger) := by
  cases call <;> unfold GovernanceCall.TokenUnused <;> infer_instance

instance (s : GovernanceState) (i : GovernanceStep) : Decidable (i.Admitted s) :=
  decidable_of_iff (s.clock ≤ i.now ∧ i.call.TokenUnused s.ledger)
    ⟨fun h => ⟨h.1, h.2⟩, fun h => ⟨h.time, h.token⟩⟩

/-! ### Rows after a statement -/

variable {l l' : List GovernanceRow} {row row' : GovernanceRow} {key : String} {now : Int} {claim : Claim}

/-- The claim on a row. -/
def governanceClaim (outbox : List GovernanceRow) (key : String) : Option Claim :=
  (outbox.find? (·.id == key)).bind fun row => if row.claim.token = "" then none else some row.claim

theorem governanceClaim_eq_some (h : (l.map (·.id)).Nodup) : governanceClaim l key = some claim ↔
    ∃ row, (row ∈ l ∧ row.id = key) ∧ row.claim.token ≠ "" ∧ row.claim = claim := by
  simp only [governanceClaim, Option.bind_eq_some_iff, find?_key_eq_some h, Option.ite_none_left_eq_some,
    Option.some.injEq]

/-- Only the claimed rows of a key matter. -/
theorem governanceClaim_congr (hl : (l.map (·.id)).Nodup) (hl' : (l'.map (·.id)).Nodup)
    (h : ∀ row, row.id = key → row.claim.token ≠ "" → (row ∈ l' ↔ row ∈ l)) :
    governanceClaim l' key = governanceClaim l key := by
  refine Option.ext fun claim => ?_
  rw [governanceClaim_eq_some hl, governanceClaim_eq_some hl']
  refine exists_congr fun row => ?_
  constructor
  · exact fun hrow => ⟨⟨(h row hrow.1.2 hrow.2.1).mp hrow.1.1, hrow.1.2⟩, hrow.2⟩
  · exact fun hrow => ⟨⟨(h row hrow.1.2 hrow.2.1).mpr hrow.1.1, hrow.1.2⟩, hrow.2⟩

theorem governanceClaim_none (h : (l.map (·.id)).Nodup) (hrow : row ∈ l) (hbl : row.claim.token = "") :
    governanceClaim l row.id = none := by
  refine Option.eq_none_iff_forall_ne_some.mpr fun claim hcl => ?_
  obtain ⟨other, ⟨hother, hid⟩, ht, -⟩ := (governanceClaim_eq_some h).mp hcl
  rw [inj_on_of_nodup_map h hother hrow hid] at ht
  exact ht hbl

/-- One row changes, and keeps its ID and origin. -/
structure Replaced (l l' : List GovernanceRow) (row row' : GovernanceRow) : Prop where
  mem : row ∈ l
  rows : ∀ b, b ∈ l' ↔ b = row' ∨ (b ∈ l ∧ b ≠ row)
  id : row'.id = row.id
  origin : row'.origin = row.origin
  ids : l'.map (·.id) = l.map (·.id)
  origins : l'.map (·.origin) = l.map (·.origin)

theorem requireGovernanceClaim_ok {guard : GovernanceRow → Bool} {f : GovernanceRow → GovernanceRow}
    (h : requireGovernanceClaim guard f l = .ok l') (hnd : (l.map (·.id)).Nodup)
    (hg : ∀ row, guard row = true → row.id = key)
    (hf : ∀ row, (f row).id = row.id ∧ (f row).origin = row.origin) :
    ∃ row, guard row = true ∧ Replaced l l' row (f row) := by
  unfold requireGovernanceClaim at h
  split at h
  next ho =>
    cases h
    obtain ⟨row, hrow, hh⟩ := countP_pos_iff.mp (by rw [ho]; exact Nat.one_pos)
    have hun (b : GovernanceRow) (hb : b ∈ l) : guard b = true ↔ b = row := by
      constructor
      · exact fun hb' => inj_on_of_nodup_map hnd hb hrow ((hg b hb').trans (hg row hh).symm)
      · exact fun heq => heq ▸ hh
    refine ⟨row, hh, hrow, fun b => mem_updateWhere_one hrow hun, (hf row).1, (hf row).2, ?_, ?_⟩
    · exact map_updateWhere _ (fun a _ => (hf a).1) l
    · exact map_updateWhere _ (fun a _ => (hf a).2) l
  next => cases h

/-- What a claim leaves of a row. -/
def GovernanceRow.kept (row : GovernanceRow) : String × Origin × Int × Int :=
  (row.id, row.origin, row.deliveredAt, row.failedAt)

variable {p : GovernanceRow → Bool} {rows : List GovernanceRow}

/-- The returned rows were due and have the claim; the others are as they were. -/
structure ClaimedRows (now : Int) (claim : Claim) (l rows l' : List GovernanceRow) : Prop where
  kept : l'.map (·.kept) = l.map (·.kept)
  rows : Claimed GovernanceRow.id (·.due now) (·.claim = claim) l rows l'

theorem GovernanceRow.claimable_iff : row.claimable = true ↔ row.deliveredAt = 0 ∧ row.failedAt = 0 := by
  simp [claimable]

theorem GovernanceRow.claimable_of_due (h : row.due now = true) : row.claimable = true := by
  simp only [GovernanceRow.due, Bool.and_eq_true] at h
  exact h.1.1

theorem ClaimedRows.column {β : Type} (h : ClaimedRows now claim l rows l') (g : String × Origin × Int × Int → β) :
    l'.map (fun row => g row.kept) = l.map fun row => g row.kept := by
  have hg := congrArg (List.map g) h.kept
  rwa [List.map_map, List.map_map] at hg

theorem ClaimedRows.of_mem (h : ClaimedRows now claim l rows l') (hnd : (l.map (·.id)).Nodup) (hrow : row ∈ l') :
    ∃ a ∈ l, row.kept = a.kept ∧ (row.claim = a.claim ∨ a.claimable = true ∧ row.claim = claim) := by
  obtain ⟨a, ha, hsame⟩ := mem_map.mp (h.kept ▸ mem_map_of_mem hrow)
  refine ⟨a, ha, hsame.symm, ?_⟩
  have hbf := (find?_key_eq_some hnd).mpr ⟨ha, congrArg fst hsame⟩
  have haf := (find?_key_eq_some ((h.column fst).symm ▸ hnd : (l'.map (·.id)).Nodup)).mpr ⟨hrow, rfl⟩
  by_cases hkey : row.id ∈ rows.map (·.id)
  · obtain ⟨a', ha', hd⟩ := h.rows.due _ hkey
    obtain ⟨row', hrow', hclaim⟩ := h.rows.taken _ hkey
    cases hbf.symm.trans ha'
    cases haf.symm.trans hrow'
    exact .inr ⟨GovernanceRow.claimable_of_due hd, hclaim⟩
  · cases haf.symm.trans ((h.rows.others _ hkey).trans hbf)
    exact .inl rfl

theorem claimAuditGovernanceIDs_claimed {ids : List String}
    (hnd : (l.map (·.id)).Nodup) : ClaimedRows now claim l (claimAuditGovernanceIDs claim now ids l).1
      (claimAuditGovernanceIDs claim now ids l).2 := by
  fun_induction claimAuditGovernanceIDs claim now ids l with
  | case1 l => exact ⟨rfl, claimed_nothing⟩
  | case2 id rest l hfound ih => exact ih hnd
  | case3 id rest l row hfound others ih =>
    have hsame {β : Type} (g : String × Origin × Int × Int → β) :
        (updateWhere (fun row => row.id == id && row.due now) (claimedGovernanceRow now claim) l).map
          (fun row => g row.kept) = l.map fun row => g row.kept :=
      map_updateWhere (f := claimedGovernanceRow now claim) _ (fun _ _ => rfl) l
    have hg := find?_some hfound
    simp only [Bool.and_eq_true, beq_iff_eq] at hg
    have hrow := (find?_key_eq_some hnd).mpr ⟨mem_of_find?_eq_some hfound, hg.1⟩
    have hrest := ih ((hsame fst).symm ▸ hnd)
    exact ⟨hrest.kept.trans (hsame fun kept => kept),
      .cons (claimed_one (f := claimedGovernanceRow now claim) (fun _ => rfl) (fun _ => rfl) hrow hg.2) hrest.rows⟩

variable {limit : Nat} {locked : List String}

theorem due_of_mem_dueGovernanceIDs {revision : Nat} {t : GovernanceTables} (hnd : (t.outbox.map (·.id)).Nodup)
    (h : key ∈ dueGovernanceIDs now revision limit locked t) :
    ∃ row, t.outbox.find? (·.id == key) = some row ∧ row.due now = true := by
  obtain ⟨row, hrow, rfl⟩ := mem_map.mp h
  have hm := (mem_insertionSort governanceBefore).mp (mem_of_mem_take hrow)
  obtain ⟨hm, hd⟩ := mem_filter.mp hm
  simp only [Bool.and_eq_true] at hd
  exact ⟨row, (find?_key_eq_some hnd).mpr ⟨hm, rfl⟩, hd.1.1⟩

theorem claimAuditGovernancePostgres_claimed {revision : Nat} {t : GovernanceTables}
    (hnd : (t.outbox.map (·.id)).Nodup) :
    ClaimedRows now claim t.outbox
      (claimAuditGovernancePostgres claim now (dueGovernanceIDs now revision limit locked t) t.outbox).1
      (claimAuditGovernancePostgres claim now (dueGovernanceIDs now revision limit locked t) t.outbox).2 where
  kept := map_updateWhere (f := claimedGovernanceRow now claim) _ (fun _ _ => rfl) t.outbox
  rows := claimed_statement (f := claimedGovernanceRow now claim) (fun _ => rfl) (fun _ => rfl)
    fun _ hkey => due_of_mem_dueGovernanceIDs hnd hkey

variable {d : Dialect}

theorem claimAuditGovernance_claimed {request : GovernanceClaim}
    {t : GovernanceTables} {claimed : List GovernanceRow × List GovernanceRow}
    (h : claimAuditGovernance d now locked request t = .ok claimed) (hnod : (t.outbox.map (·.id)).Nodup) :
    ∃ claim, claim.token = request.token ∧ request.token ≠ "" ∧
      ClaimedRows now claim t.outbox claimed.1 claimed.2 := by
  unfold claimAuditGovernance at h
  split at h
  · cases h
  next hv =>
    have ht : request.token ≠ "" := fun ht => hv (.inr (.inl ht))
    cases d with
    | sqlite =>
      cases h
      exact ⟨_, rfl, ht, claimAuditGovernanceIDs_claimed hnod⟩
    | postgres =>
      cases h
      exact ⟨_, rfl, ht, claimAuditGovernancePostgres_claimed hnod⟩

/-! ### Tables after a statement -/

variable {t t' : GovernanceTables}

/-- At most one row is added: new, of an origin without a row or a tombstone. -/
structure Grown (t t' : GovernanceTables) : Prop where
  delivered : t'.deliveredOrigins = t.deliveredOrigins
  rejected : t'.rejectedOrigins = t.rejectedOrigins
  outbox : t'.outbox = t.outbox ∨ ∃ row, t'.outbox = t.outbox ++ [row] ∧ row.id ∉ t.outbox.map (·.id) ∧
    row.origin ∉ t.outbox.map (·.origin) ∧ t.buried row.origin = false ∧ row.claimable = true ∧ row.claim = .blank

theorem Grown.refl (t : GovernanceTables) : Grown t t := ⟨rfl, rfl, .inl rfl⟩

variable {fact : AuditFact}

theorem insertAuditGovernanceResult_grown {id : String} {ignoreDuplicate : Bool}
    {inserted : Nat × GovernanceTables}
    (h : insertAuditGovernanceResult now id fact ignoreDuplicate t = .ok inserted) : Grown t inserted.2 := by
  obtain ⟨-, -, h⟩ := bind_eq_ok.mp h
  by_cases hbur : t.buried fact.origin = true
  · rw [if_pos hbur] at h
    cases h
    exact .refl t
  rw [if_neg hbur] at h
  by_cases ho : t.outbox.any (·.origin == fact.origin) = true
  · rw [if_pos ho] at h
    split at h
    · cases h
      exact .refl t
    · cases h
  rw [if_neg ho] at h
  by_cases hid : t.outbox.any (·.id == id) = true
  · rw [if_pos hid] at h
    cases h
  rw [if_neg hid] at h
  cases h
  refine ⟨rfl, rfl, .inr ⟨newGovernanceRow now id fact, rfl, fun hm => hid ?_, fun hm => ho ?_,
    Bool.eq_false_iff.mpr hbur, rfl, rfl⟩⟩
  · obtain ⟨row, hrow, hsame⟩ := mem_map.mp hm
    exact any_eq_true.mpr ⟨row, hrow, beq_iff_eq.mpr hsame⟩
  · obtain ⟨row, hrow, hsame⟩ := mem_map.mp hm
    exact any_eq_true.mpr ⟨row, hrow, beq_iff_eq.mpr hsame⟩

variable {text : FactText}

theorem captureAuditGovernance_grown (h : captureAuditGovernance text now fact t = .ok t') : Grown t t' := by
  unfold captureAuditGovernance at h
  split at h
  · obtain ⟨inserted, hin, hsame⟩ := bind_eq_ok.mp h
    cases hsame
    exact insertAuditGovernanceResult_grown hin
  · cases h
    exact .refl t

theorem recordAuditWithGovernance_grown {entry : AuditEntry}
    (h : recordAuditWithGovernance text now entry fact t = .ok t') : Grown t t' := by
  unfold recordAuditWithGovernance at h
  simp only at h
  generalize (if entry.createdAt = "" then {entry with createdAt := text.formatTime now} else entry) = stored at h
  split at h
  · cases h
  · -- The rows and the tombstones are those of `t`: only the log has grown.
    obtain ⟨hd, hrj, ho⟩ := captureAuditGovernance_grown h
    exact ⟨hd, hrj, ho⟩

theorem insertEventWithGovernance_grown {event : EventEntry}
    (h : insertEventWithGovernance text now event fact t = .ok t') : Grown t t' := by
  unfold insertEventWithGovernance at h
  split at h
  · cases h
  · obtain ⟨hd, hrj, ho⟩ := captureAuditGovernance_grown h
    exact ⟨hd, hrj, ho⟩

theorem enqueueAuditGovernance_grown {enqueued : Bool × GovernanceTables}
    (h : enqueueAuditGovernance text now fact t = .ok enqueued) : Grown t enqueued.2 := by
  unfold enqueueAuditGovernance at h
  split at h
  · obtain ⟨inserted, hin, hsame⟩ := bind_eq_ok.mp h
    cases hsame
    exact insertAuditGovernanceResult_grown hin
  · cases h
    exact .refl t

theorem mem_bury {origin o : Origin} {time : Int} {tombstones : List (Origin × Int)} :
    o ∈ (bury origin time tombstones).map fst ↔ o ∈ tombstones.map fst ∨ o = origin := by
  unfold bury
  split
  next hany =>
    obtain ⟨entry, hen, hor⟩ := any_eq_true.mp hany
    refine ⟨.inl, fun ho => ho.elim (fun h => h) fun ho => ?_⟩
    exact ho ▸ beq_iff_eq.mp hor ▸ mem_map_of_mem hen
  next => simp

theorem mem_foldl_bury {o : Origin} {tombstones : List (Origin × Int)} :
    o ∈ (rows.foldl (fun tombstones row => bury row.origin row.deliveredAt tombstones) tombstones).map fst ↔
      o ∈ tombstones.map fst ∨ ∃ row ∈ rows, row.origin = o := by
  induction rows generalizing tombstones with
  | nil => simp
  | cons row rest ih =>
    rw [foldl_cons, ih, mem_bury]
    simp only [mem_cons, exists_eq_or_imp, or_assoc, eq_comm (a := o)]

/-- Rows are removed that could not be claimed; those that were delivered leave a tombstone. -/
structure Cleaned (t t' : GovernanceTables) : Prop where
  outbox : t'.outbox.Sublist t.outbox
  removed : ∀ row ∈ t.outbox, row ∉ t'.outbox →
    row.claimable = false ∧ (row.deliveredAt ≠ 0 → row.origin ∈ t'.deliveredOrigins.map fst)
  buried : ∀ o ∈ t'.deliveredOrigins.map fst,
    o ∈ t.deliveredOrigins.map fst ∨ ∃ row ∈ t.outbox, row ∉ t'.outbox ∧ row.origin = o
  kept : ∀ o ∈ t.deliveredOrigins.map fst, o ∈ t'.deliveredOrigins.map fst
  rejected : t'.rejectedOrigins = t.rejectedOrigins

/-! ### The invariant -/

/-- What holds of a row: it is not both delivered and failed, it has no claim if it is either, and
tombstones do not contradict it. -/
structure RowSound (t : GovernanceTables) (row : GovernanceRow) : Prop where
  exclusive : row.deliveredAt = 0 ∨ row.failedAt = 0
  settled : row.claimable = false → row.claim = .blank
  claimed : row.claim = .blank ∨ row.claim.token ≠ ""
  delivered : row.origin ∉ t.deliveredOrigins.map fst
  rejected : row.origin ∈ t.rejectedOrigins.map fst → row.failedAt ≠ 0

structure GovernanceTables.Sound (t : GovernanceTables) : Prop where
  ids : (t.outbox.map (·.id)).Nodup
  origins : (t.outbox.map (·.origin)).Nodup
  rows : ∀ row ∈ t.outbox, RowSound t row

structure GovernanceState.Sound (s : GovernanceState) : Prop where
  tables : s.tables.Sound
  agrees : s.ledger.Agrees (governanceClaim s.tables.outbox) s.clock
  clock : 0 < s.clock
  delivered : ∀ o ∈ s.delivered, o ∈ s.tables.deliveredOrigins.map fst ∨
    ∃ row ∈ s.tables.outbox, row.origin = o ∧ row.deliveredAt ≠ 0
  rejected : ∀ o ∈ s.rejected, o ∈ s.tables.rejectedOrigins.map fst

/-- What a call that settles a claim does: it replaces the row by another without a claim. -/
structure Settles (s : GovernanceState) (id owner token : String) (l' : List GovernanceRow)
    (row row' : GovernanceRow) : Prop where
  replaced : Replaced s.tables.outbox l' row row'
  id : row.id = id
  held : row.claim.heldBy owner token s.clock = true
  blank : row'.claim = .blank

theorem RowSound.congr (h : RowSound t row) (hd : t'.deliveredOrigins = t.deliveredOrigins)
    (hrj : t'.rejectedOrigins = t.rejectedOrigins) : RowSound t' row :=
  ⟨h.exclusive, h.settled, h.claimed, hd ▸ h.delivered, hrj ▸ h.rejected⟩

theorem not_buried_iff {origin : Origin} : t.buried origin = false ↔
    origin ∉ t.deliveredOrigins.map fst ∧ origin ∉ t.rejectedOrigins.map fst := by
  simp only [GovernanceTables.buried, Bool.or_eq_false_iff, any_eq_false, mem_map, not_exists, not_and,
    beq_iff_eq]

theorem GovernanceTables.Sound.grow (h : t.Sound) (hg : Grown t t') : t'.Sound := by
  obtain ⟨hd, hrej, hsame | ⟨row, hnew, hid, ho, hbr, hcl, hbl⟩⟩ := hg
  · refine ⟨hsame ▸ h.ids, hsame ▸ h.origins, fun row hrow => ?_⟩
    exact (h.rows row (hsame ▸ hrow)).congr hd hrej
  · have hnod {κ : Type} {f : GovernanceRow → κ} (hf : (t.outbox.map f).Nodup) (hrow : f row ∉ t.outbox.map f) :
        (t'.outbox.map f).Nodup := by
      rw [hnew, map_append]
      exact .append hf (nodup_singleton _) (by simpa using hrow)
    refine ⟨hnod h.ids hid, hnod h.origins ho, fun other hother => ?_⟩
    obtain hother | hother := mem_append.mp (hnew ▸ hother)
    · exact (h.rows other hother).congr hd hrej
    · rw [mem_singleton.mp hother]
      obtain ⟨hnd, hnr⟩ := not_buried_iff.mp hbr
      exact ⟨.inl (GovernanceRow.claimable_iff.mp hcl).1, fun _ => hbl, .inl hbl, hd ▸ hnd,
        fun hm => absurd (hrej ▸ hm) hnr⟩

namespace GovernanceState.Sound

variable {s : GovernanceState} (h : s.Sound)
include h

theorem tick {time : Int} (ht : s.clock ≤ time) : {s with clock := time}.Sound :=
  ⟨h.tables, h.agrees.later ht, h.clock.trans_le ht, h.delivered, h.rejected⟩

theorem grow (hg : Grown s.tables t') : {s with tables := t'}.Sound where
  tables := h.tables.grow hg
  agrees := by
    refine h.agrees.congr fun key => ?_
    refine governanceClaim_congr h.tables.ids (h.tables.grow hg).ids fun row _ ht => ?_
    obtain hsame | ⟨new, hnew, -, -, -, -, hbl⟩ := hg.outbox
    · rw [hsame]
    · rw [hnew, mem_append, mem_singleton]
      refine or_iff_left fun heq => ht ?_
      rw [heq, hbl]
      rfl
  clock := h.clock
  delivered o ho := by
    rw [hg.delivered]
    refine (h.delivered o ho).imp_right fun hrow => ?_
    obtain ⟨row, hrow, hd⟩ := hrow
    obtain hsame | ⟨new, hnew, -⟩ := hg.outbox
    · exact ⟨row, hsame ▸ hrow, hd⟩
    · exact ⟨row, hnew ▸ mem_append_left _ hrow, hd⟩
  rejected o ho := hg.rejected ▸ h.rejected o ho

theorem take
    (hclaimed : ClaimedRows s.clock claim s.tables.outbox rows l') (hunused : s.ledger.Unused claim.token)
    (htok : claim.token ≠ "") :
    GovernanceState.Sound {s with
      tables := {s.tables with outbox := l'}
      ledger := {s.ledger with granted := rows.map (fun row => ⟨row.id, row.claim⟩) ++ s.ledger.granted}} := by
  have hids : (l'.map (·.id)).Nodup := (hclaimed.column fst).symm ▸ h.tables.ids
  refine ⟨⟨hids, (hclaimed.column (·.2.1)).symm ▸ h.tables.origins, fun b hb => ?_⟩, ?_, h.clock, fun o ho => ?_,
    h.rejected⟩
  · obtain ⟨a, ha, hsame, hclaim⟩ := hclaimed.of_mem h.tables.ids hb
    simp only [GovernanceRow.kept, Prod.mk.injEq] at hsame
    obtain ⟨-, hor, hd, hfl⟩ := hsame
    have hrow := h.tables.rows a ha
    have hclaimable : b.claimable = a.claimable := by
      rw [GovernanceRow.claimable, hd, hfl, GovernanceRow.claimable]
    refine ⟨hd ▸ hfl ▸ hrow.exclusive, fun hst => ?_, ?_, hor ▸ hrow.delivered, hfl ▸ hor ▸ hrow.rejected⟩
    · rw [hclaimable] at hst
      obtain hclaim | ⟨hop, -⟩ := hclaim
      · rw [hclaim, hrow.settled hst]
      · rw [hop] at hst
        cases hst
    · obtain hclaim | ⟨-, hclaim⟩ := hclaim
      · exact hclaim ▸ hrow.claimed
      · exact .inr (hclaim ▸ htok)
  · rw [Ledger.grant_rows hclaimed.rows.returned]
    refine h.agrees.grant hunused (fun key hkey old hold => ?_) (fun key hkey => ?_) fun key hkey => ?_
    · obtain ⟨a, ha, hdue⟩ := hclaimed.rows.due key hkey
      obtain ⟨row, hrow, -, rfl⟩ := (governanceClaim_eq_some h.tables.ids).mp hold
      cases ((find?_key_eq_some h.tables.ids).mpr hrow).symm.trans ha
      simp only [GovernanceRow.due, Bool.and_eq_true, decide_eq_true_eq] at hdue
      exact hdue.2
    · obtain ⟨b, hb, hclaim⟩ := hclaimed.rows.taken key hkey
      exact (governanceClaim_eq_some hids).mpr ⟨b, (find?_key_eq_some hids).mp hb, hclaim ▸ htok, hclaim⟩
    · rw [governanceClaim, hclaimed.rows.others key hkey, governanceClaim]
  · refine (h.delivered o ho).imp_right fun hrow => ?_
    obtain ⟨row, hrow, hor, hd⟩ := hrow
    have hfound := (find?_key_eq_some h.tables.ids).mpr ⟨hrow, rfl⟩
    refine ⟨row, mem_of_find?_eq_some ((hclaimed.rows.others row.id fun hkey => hd ?_).trans hfound), hor, hd⟩
    obtain ⟨a, ha, hdue⟩ := hclaimed.rows.due row.id hkey
    cases hfound.symm.trans ha
    exact (GovernanceRow.claimable_iff.mp (GovernanceRow.claimable_of_due hdue)).1

variable {id owner token : String} (hst : Settles s id owner token l' row row')
include hst

/-- Only a row that can be claimed is held by anyone. -/
theorem held : row.claim.token ≠ "" ∧ row.deliveredAt = 0 ∧ row.failedAt = 0 := by
  obtain ⟨hrp, -, hh, -⟩ := hst
  have hrow := h.tables.rows row hrp.mem
  have hcl : row.claim ≠ .blank := by
    intro hbl
    rw [hbl, Claim.heldBy_iff] at hh
    exact absurd (h.clock.trans hh.2.2) (lt_irrefl 0)
  refine ⟨hrow.claimed.resolve_left hcl, GovernanceRow.claimable_iff.mp ?_⟩
  by_contra hst
  exact hcl (hrow.settled (Bool.eq_false_iff.mpr hst))

/-- The claim of the row is settled, and the row has none any more. -/
theorem settle : (s.settle id).Agrees (governanceClaim l') s.clock := by
  have ht := (h.held hst).1
  obtain ⟨hrp, rfl, -, hbl⟩ := hst
  have hids : (l'.map (·.id)).Nodup := hrp.ids ▸ h.tables.ids
  have hfound : s.row? row.id = some row := (find?_key_eq_some h.tables.ids).mpr ⟨hrp.mem, rfl⟩
  rw [GovernanceState.settle, hfound]
  refine h.agrees.settle ((governanceClaim_eq_some h.tables.ids).mpr ⟨row, ⟨hrp.mem, rfl⟩, ht, rfl⟩) ?_
    fun key hkey => ?_
  · rw [← hrp.id]
    exact governanceClaim_none hids ((hrp.rows row').mpr (.inl rfl)) (by rw [hbl]; rfl)
  · refine governanceClaim_congr h.tables.ids hids fun b hb _ => ?_
    rw [hrp.rows]
    constructor
    · intro hm
      obtain rfl | hm := hm
      · exact absurd (hb.symm.trans hrp.id) hkey
      · exact hm.1
    · exact fun hm => .inr ⟨hm, fun heq => hkey (hb.symm.trans (congrArg GovernanceRow.id heq))⟩

/-- A settled row, with the tombstones of rejected origins as they are then. -/
theorem replace {rejectedOrigins : List (Origin × Int)}
    (hnew : RowSound {s.tables with outbox := l', rejectedOrigins := rejectedOrigins} row')
    (hd : row.deliveredAt ≠ 0 → row'.deliveredAt ≠ 0)
    (hkp : ∀ o ∈ s.tables.rejectedOrigins.map fst, o ∈ rejectedOrigins.map fst)
    (hbr : ∀ o ∈ rejectedOrigins.map fst, o ∈ s.tables.rejectedOrigins.map fst ∨ o = row.origin) :
    GovernanceState.Sound {s with
      tables := {s.tables with outbox := l', rejectedOrigins := rejectedOrigins}
      ledger := s.settle id} := by
  have hrepl := hst.replaced
  refine ⟨⟨hrepl.ids ▸ h.tables.ids, hrepl.origins ▸ h.tables.origins, fun b hb => ?_⟩,
    h.settle hst, h.clock, fun o ho => ?_, fun o ho => hkp o (h.rejected o ho)⟩
  · obtain rfl | ⟨hb, hne⟩ := (hrepl.rows b).mp hb
    · exact hnew
    · have hrow := h.tables.rows b hb
      refine ⟨hrow.exclusive, hrow.settled, hrow.claimed, hrow.delivered, fun hm => ?_⟩
      obtain hm | hor := hbr _ hm
      · exact hrow.rejected hm
      · exact absurd (inj_on_of_nodup_map h.tables.origins hb hrepl.mem hor) hne
  · refine (h.delivered o ho).imp_right fun hrow => ?_
    obtain ⟨b, hb, hor, hb'⟩ := hrow
    by_cases heq : b = row
    · exact ⟨row', (hrepl.rows row').mpr (.inl rfl), hrepl.origin.trans (heq ▸ hor), hd (heq ▸ hb')⟩
    · exact ⟨b, (hrepl.rows b).mpr (.inr ⟨hb, heq⟩), hor, hb'⟩

end GovernanceState.Sound

theorem requireGovernanceClaim_settles {s : GovernanceState} {id owner token : String}
    {f : GovernanceRow → GovernanceRow} (h : s.Sound)
    (hok : requireGovernanceClaim (fun row => p row && row.heldBy id owner token s.clock) f s.tables.outbox = .ok l')
    (hf : ∀ row, (f row).id = row.id ∧ (f row).origin = row.origin) (hbl : ∀ row, (f row).claim = .blank) :
    ∃ row, Settles s id owner token l' row (f row) := by
  have hg (row : GovernanceRow) (hrow : (p row && row.heldBy id owner token s.clock) = true) :
      row.id = id ∧ row.claim.heldBy owner token s.clock = true := by
    simp only [GovernanceRow.heldBy, Bool.and_eq_true, beq_iff_eq] at hrow
    exact hrow.2
  obtain ⟨row, hh, hrp⟩ := requireGovernanceClaim_ok hok h.tables.ids (fun row hrow => (hg row hrow).1) hf
  exact ⟨row, hrp, (hg row hh).1, (hg row hh).2, hbl row⟩

namespace GovernanceState.Sound

variable {s : GovernanceState} (h : s.Sound) {id owner token : String}
include h

theorem complete (hok : completeAuditGovernance s.clock id owner token s.tables = .ok t') :
    (∃ l' row row', Settles s id owner token l' row row') ∧
      GovernanceState.Sound {s with
        tables := t', ledger := s.settle id, delivered := s.withOrigin id s.delivered} := by
  obtain ⟨l', hrq, hsame⟩ := bind_eq_ok.mp hok
  cases hsame
  obtain ⟨row, hst⟩ := requireGovernanceClaim_settles h hrq (fun _ => ⟨rfl, rfl⟩) fun _ => rfl
  refine ⟨⟨l', row, _, hst⟩, ?_⟩
  have hrow := h.tables.rows row hst.replaced.mem
  have haf := h.replace hst
    ⟨.inr (h.held hst).2.2, fun _ => rfl, .inl rfl, hrow.delivered, hrow.rejected⟩ (fun _ => h.clock.ne')
    (fun _ ho => ho) fun _ ho => .inl ho
  obtain ⟨hrp, rfl, -, -⟩ := hst
  refine ⟨haf.tables, haf.agrees, haf.clock, fun o ho => ?_, haf.rejected⟩
  have hfound : s.row? row.id = some row := (find?_key_eq_some h.tables.ids).mpr ⟨hrp.mem, rfl⟩
  rw [withOrigin, hfound] at ho
  obtain rfl | ho := mem_cons.mp ho
  · exact .inr ⟨_, (hrp.rows _).mpr (.inl rfl), rfl, h.clock.ne'⟩
  · exact haf.delivered o ho

theorem retry {next : Int} (hok : retryAuditGovernance s.clock id owner token next s.tables = .ok t') :
    (∃ l' row row', Settles s id owner token l' row row') ∧
      GovernanceState.Sound {s with tables := t', ledger := s.settle id} := by
  obtain ⟨l', hrq, hsame⟩ := bind_eq_ok.mp hok
  cases hsame
  obtain ⟨row, hst⟩ := requireGovernanceClaim_settles h hrq (fun _ => ⟨rfl, rfl⟩) fun _ => rfl
  refine ⟨⟨l', row, _, hst⟩, ?_⟩
  have hrow := h.tables.rows row hst.replaced.mem
  exact h.replace hst
    ⟨hrow.exclusive, fun _ => rfl, .inl rfl, hrow.delivered, hrow.rejected⟩ (fun hd => hd)
    (fun _ ho => ho) fun _ ho => .inl ho

/-- The row of a claim that fails, with any tombstone for its origin. -/
theorem fail_row (hok : failAuditGovernance s.clock id owner token s.tables = .ok t') :
    ∃ l' row row', Settles s id owner token l' row row' ∧ t' = {s.tables with outbox := l'} ∧
      ∀ rejectedOrigins : List (Origin × Int),
        (∀ o ∈ s.tables.rejectedOrigins.map fst, o ∈ rejectedOrigins.map fst) →
        (∀ o ∈ rejectedOrigins.map fst, o ∈ s.tables.rejectedOrigins.map fst ∨ o = row.origin) →
        GovernanceState.Sound {s with
          tables := {s.tables with outbox := l', rejectedOrigins := rejectedOrigins}, ledger := s.settle id} := by
  obtain ⟨l', hrq, hsame⟩ := bind_eq_ok.mp hok
  obtain ⟨row, hst⟩ := requireGovernanceClaim_settles h hrq (fun _ => ⟨rfl, rfl⟩) fun _ => rfl
  refine ⟨l', row, _, hst, (Except.ok.inj hsame).symm, fun rejectedOrigins hkp hbr => ?_⟩
  have hrow := h.tables.rows row hst.replaced.mem
  exact h.replace hst
    ⟨.inl (h.held hst).2.1, fun _ => rfl, .inl rfl, hrow.delivered, fun _ => h.clock.ne'⟩
    (fun hd => hd) hkp hbr

theorem fail (hok : failAuditGovernance s.clock id owner token s.tables = .ok t') :
    (∃ l' row row', Settles s id owner token l' row row') ∧
      GovernanceState.Sound {s with tables := t', ledger := s.settle id} := by
  obtain ⟨l', row, row', hst, rfl, hsound⟩ := h.fail_row hok
  exact ⟨⟨l', row, row', hst⟩, hsound _ (fun _ ho => ho) fun _ ho => .inl ho⟩

theorem reject (hok : rejectAuditGovernance s.clock id owner token s.tables = .ok t') :
    (∃ l' row row', Settles s id owner token l' row row') ∧
      GovernanceState.Sound {s with
        tables := t', ledger := s.settle id, rejected := s.withOrigin id s.rejected} := by
  obtain ⟨failed, hf, ht⟩ := bind_eq_ok.mp hok
  obtain ⟨l', row, row', hst, rfl, hsound⟩ := h.fail_row hf
  refine ⟨⟨l', row, row', hst⟩, ?_⟩
  obtain ⟨hrp, rfl, -, -⟩ := hst
  have hfound : l'.find? (·.id == row.id) = some row' :=
    (find?_key_eq_some (hrp.ids ▸ h.tables.ids)).mpr ⟨(hrp.rows row').mpr (.inl rfl), hrp.id⟩
  simp only [hfound, hrp.origin] at ht
  split at ht
  · cases ht
  cases ht
  have haf := hsound (bury row.origin s.clock s.tables.rejectedOrigins) (fun o ho => mem_bury.mpr (.inl ho))
    fun o ho => mem_bury.mp ho
  refine ⟨haf.tables, haf.agrees, haf.clock, haf.delivered, fun o ho => ?_⟩
  have hbf : s.row? row.id = some row := (find?_key_eq_some h.tables.ids).mpr ⟨hrp.mem, rfl⟩
  rw [withOrigin, hbf] at ho
  obtain rfl | ho := mem_cons.mp ho
  · exact mem_bury.mpr (.inr rfl)
  · exact mem_bury.mpr (.inl (h.rejected o ho))

theorem clean (hclean : Cleaned s.tables t') : {s with tables := t'}.Sound := by
  have hsub {κ : Type} {f : GovernanceRow → κ} (hf : (s.tables.outbox.map f).Nodup) : (t'.outbox.map f).Nodup :=
    hf.sublist (hclean.outbox.map f)
  refine ⟨⟨hsub h.tables.ids, hsub h.tables.origins, fun row hrow => ?_⟩, ?_, h.clock, fun o ho => ?_,
    fun o ho => hclean.rejected ▸ h.rejected o ho⟩
  · have hbf := hclean.outbox.subset hrow
    obtain ⟨hex, hst, hcl, hd, hrj⟩ := h.tables.rows row hbf
    refine ⟨hex, hst, hcl, fun hbr => ?_, hclean.rejected ▸ hrj⟩
    obtain hbr | ⟨other, hother, hg, hor⟩ := hclean.buried _ hbr
    · exact hd hbr
    · exact hg (inj_on_of_nodup_map h.tables.origins hother hbf hor ▸ hrow)
  · refine h.agrees.congr fun key => governanceClaim_congr h.tables.ids (hsub h.tables.ids) fun row _ ht => ?_
    refine ⟨fun hrow => hclean.outbox.subset hrow, fun hrow => ?_⟩
    by_contra hg
    refine ht ?_
    rw [(h.tables.rows row hrow).settled (hclean.removed row hrow hg).1]
    rfl
  · obtain hbr | ⟨row, hrow, rfl, hd⟩ := h.delivered o ho
    · exact .inl (hclean.kept o hbr)
    · by_cases hg : row ∈ t'.outbox
      · exact .inr ⟨row, hg, rfl, hd⟩
      · exact .inl ((hclean.removed row hrow hg).2 hd)

end GovernanceState.Sound

/-! ### Cleanups -/

theorem cleaned_of_selected {selected : List GovernanceRow}
    (hsel : ∀ row ∈ selected, row ∈ t.outbox ∧ row.deliveredAt ≠ 0)
    (hp : ∀ row ∈ t.outbox, p row = true ↔ row ∈ selected) :
    Cleaned t {t with
      deliveredOrigins := selected.foldl (fun tombstones row => bury row.origin row.deliveredAt tombstones)
        t.deliveredOrigins
      outbox := t.outbox.filter fun row => !p row} where
  outbox := filter_sublist
  removed row hrow hg := by
    have hm : row ∈ selected := by
      refine (hp row hrow).mp ?_
      by_contra hkp
      exact hg (mem_filter.mpr ⟨hrow, by simpa using hkp⟩)
    refine ⟨?_, fun _ => mem_foldl_bury.mpr (.inr ⟨row, hm, rfl⟩)⟩
    simp [GovernanceRow.claimable, (hsel row hm).2]
  buried o ho := by
    refine (mem_foldl_bury.mp ho).imp_right fun hm => ?_
    obtain ⟨row, hm, hor⟩ := hm
    have hrow := (hsel row hm).1
    refine ⟨row, hrow, fun hkp => ?_, hor⟩
    have hnot := (mem_filter.mp hkp).2
    rw [(hp row hrow).mpr hm] at hnot
    cases hnot
  kept o ho := mem_foldl_bury.mpr (.inl ho)
  rejected := rfl

/-- Row by row, the SQLite cleanup does what the statement of Postgres does. -/
theorem foldl_cleanupDeliveredGovernanceOrigin (before : Int) (rows : List GovernanceRow) (t : GovernanceTables) :
    rows.foldl (cleanupDeliveredGovernanceOrigin before) t = {t with
      deliveredOrigins := rows.foldl (fun tombstones row => bury row.origin row.deliveredAt tombstones)
        t.deliveredOrigins
      outbox := t.outbox.filter fun other =>
        !rows.any fun row => other.id == row.id && other.deliveredBy before} := by
  induction rows generalizing t with
  | nil => simp
  | cons row rest ih =>
    rw [foldl_cons, ih]
    simp only [cleanupDeliveredGovernanceOrigin, filter_filter, any_cons, Bool.not_or, foldl_cons]
    congr 2
    funext other
    rw [Bool.and_comm]

theorem mem_selectDeliveredGovernance {before : Int}
    (h : row ∈ selectDeliveredGovernance before limit locked l) : row ∈ l ∧ row.deliveredBy before = true := by
  have hm := (mem_insertionSort (orderedBy (·.deliveredAt))).mp (mem_of_mem_take h)
  obtain ⟨hm, hg⟩ := mem_filter.mp hm
  exact ⟨hm, (Bool.and_eq_true_iff.mp hg).1⟩

theorem GovernanceRow.ne_zero_of_deliveredBy {before : Int} (h : row.deliveredBy before = true) :
    row.deliveredAt ≠ 0 := by
  simp only [GovernanceRow.deliveredBy, Bool.and_eq_true, decide_eq_true_eq] at h
  exact h.1.ne'

theorem cleanupDeliveredAuditGovernance_cleaned (h : t.Sound) {before : Option Int} {limit : Int}
    (hok : cleanupDeliveredAuditGovernance d locked before limit t = .ok t') : Cleaned t t' := by
  obtain ⟨⟨before, limit⟩, -, hok⟩ := bind_eq_ok.mp hok
  have hsel (locked : List String) (row : GovernanceRow)
      (hrow : row ∈ selectDeliveredGovernance before limit locked t.outbox) : row ∈ t.outbox ∧ row.deliveredAt ≠ 0 := by
    obtain ⟨hmem, hd⟩ := mem_selectDeliveredGovernance hrow
    exact ⟨hmem, GovernanceRow.ne_zero_of_deliveredBy hd⟩
  have hun {a b : GovernanceRow} (ha : a ∈ t.outbox) (hb : b ∈ t.outbox) (hid : a.id = b.id) : a = b :=
    inj_on_of_nodup_map h.ids ha hb hid
  cases d with
  | sqlite =>
    cases hok
    rw [foldl_cleanupDeliveredGovernanceOrigin]
    refine cleaned_of_selected (hsel []) fun row hrow => ?_
    simp only [any_eq_true, Bool.and_eq_true, beq_iff_eq]
    constructor
    · intro hany
      obtain ⟨other, hother, hid, -⟩ := hany
      exact hun hrow (hsel [] other hother).1 hid ▸ hother
    · exact fun hmem => ⟨row, hmem, rfl, (mem_selectDeliveredGovernance hmem).2⟩
  | postgres =>
    cases hok
    refine cleaned_of_selected (hsel locked) fun row hrow => ?_
    rw [contains_iff_mem, mem_map]
    constructor
    · intro hany
      obtain ⟨other, hother, hid⟩ := hany
      exact hun (hsel locked other hother).1 hrow hid ▸ hother
    · exact fun hmem => ⟨row, hmem, rfl⟩

theorem cleanupFailedAuditGovernance_cleaned (h : t.Sound) {before : Option Int} {limit : Int}
    (hok : cleanupFailedAuditGovernance before limit t = .ok t') : Cleaned t t' := by
  obtain ⟨arguments, -, hok⟩ := bind_eq_ok.mp hok
  cases hok
  refine ⟨filter_sublist, fun row hrow hg => ?_, fun o ho => .inl ho, fun o ho => ho, rfl⟩
  have hf : row.failedAt ≠ 0 := by
    intro hz
    refine hg (mem_filter.mpr ⟨hrow, ?_⟩)
    simp [GovernanceRow.failedBy, hz]
  have hd : row.deliveredAt = 0 := (h.rows row hrow).exclusive.resolve_right hf
  exact ⟨by simp [GovernanceRow.claimable, hf], absurd hd⟩

/-! ### Gaps -/

theorem mem_mergeGovernanceGaps {audits events : List AuditGap} {gap : AuditGap}
    (h : gap ∈ mergeGovernanceGaps audits events limit) : gap ∈ audits ∨ gap ∈ events := by
  fun_induction mergeGovernanceGaps audits events limit with
  | case1 | case2 => cases h
  | case3 a audits limit ih =>
    obtain rfl | h := mem_cons.mp h
    · exact .inl mem_cons_self
    · exact (ih h).imp_left (mem_cons_of_mem _)
  | case4 e events limit ih =>
    obtain rfl | h := mem_cons.mp h
    · exact .inr mem_cons_self
    · exact (ih h).imp_right (mem_cons_of_mem _)
  | case5 a audits e events => exact .inl (mem_singleton.mp h ▸ mem_cons_self)
  | case6 a audits e events limit ih =>
    obtain rfl | h := mem_cons.mp h
    · exact .inl mem_cons_self
    obtain rfl | h := mem_cons.mp h
    · exact .inr mem_cons_self
    · exact (ih h).imp (mem_cons_of_mem _) (mem_cons_of_mem _)

theorem gap_of_mem_gaps {tenant : String} {limit : Int} {gaps : List AuditGap} {gap : AuditGap}
    (h : listAuditGovernanceGaps tenant limit t = .ok gaps) (hg : gap ∈ gaps) : t.gap gap.origin = true := by
  unfold listAuditGovernanceGaps at h
  split at h
  · cases h
  cases h
  obtain haud | hev := mem_mergeGovernanceGaps hg
  · obtain ⟨a, ha, rfl⟩ := mem_map.mp haud
    have hm := (mem_insertionSort _).mp (mem_of_mem_take ha)
    exact (Bool.and_eq_true_iff.mp (mem_filter.mp hm).2).2
  · obtain ⟨e, he, rfl⟩ := mem_map.mp hev
    have hm := (mem_insertionSort _).mp (mem_of_mem_take he)
    exact (Bool.and_eq_true_iff.mp (mem_filter.mp hm).2).2

/-! ### Runs -/

/-- The ID, the owner and the token of a call that settles a claim. -/
def GovernanceCall.settles : GovernanceCall → Option (String × String × String)
  | .complete id owner token | .retry id owner token _ | .fail id owner token | .reject id owner token =>
    some (id, owner, token)
  | _ => none

theorem GovernanceState.Sound.run {s' : GovernanceState} {call : GovernanceCall}
    (h : s.Sound) (ht : call.TokenUnused s.ledger) (hrun : call.run d text s.clock s = .ok s') :
    s'.Sound ∧ ∀ id owner token, call.settles = some (id, owner, token) →
      ∃ l' row row', Settles s id owner token l' row row' := by
  cases call
  case bind bindings =>
    cases hrun
    exact ⟨h.grow ⟨rfl, rfl, .inl rfl⟩, nofun⟩
  all_goals obtain ⟨tables, hok, hs'⟩ := bind_eq_ok.mp hrun
  case claim =>
    obtain ⟨claim, hsame, hset, hcl⟩ := claimAuditGovernance_claimed hok h.tables.ids
    cases hs'
    exact ⟨h.take hcl (hsame ▸ ht) (hsame ▸ hset), nofun⟩
  all_goals cases hs'
  case record => exact ⟨h.grow (recordAuditWithGovernance_grown hok), nofun⟩
  case insertEvent => exact ⟨h.grow (insertEventWithGovernance_grown hok), nofun⟩
  case enqueue => exact ⟨h.grow (enqueueAuditGovernance_grown hok), nofun⟩
  case complete => exact ⟨(h.complete hok).2, fun _ _ _ hst => by cases hst; exact (h.complete hok).1⟩
  case retry => exact ⟨(h.retry hok).2, fun _ _ _ hst => by cases hst; exact (h.retry hok).1⟩
  case fail => exact ⟨(h.fail hok).2, fun _ _ _ hst => by cases hst; exact (h.fail hok).1⟩
  case reject => exact ⟨(h.reject hok).2, fun _ _ _ hst => by cases hst; exact (h.reject hok).1⟩
  case cleanupDelivered => exact ⟨h.clean (cleanupDeliveredAuditGovernance_cleaned h.tables hok), nofun⟩
  case cleanupFailed => exact ⟨h.clean (cleanupFailedAuditGovernance_cleaned h.tables hok), nofun⟩

/-- A call that settles a claim changes the tables only if its caller has the claim on the row: one
that was granted, is not settled and has not expired. -/
def HolderOnly (d : Dialect) (text : FactText) (s : GovernanceState) (i : GovernanceStep) : Prop :=
  ∀ id owner token, i.call.settles = some (id, owner, token) → (governanceStep d text s i).tables ≠ s.tables →
    ∃ row ∈ s.tables.outbox, row.id = id ∧ row.claim.owner = owner ∧ row.claim.token = token ∧
      s.ledger.Unexpired i.now ⟨id, row.claim⟩

theorem governanceStep_eq {i : GovernanceStep} :
    governanceStep d text s i = {s with clock := i.now} ∨
      i.call.run d text i.now {s with clock := i.now} = .ok (governanceStep d text s i) := by
  unfold governanceStep
  cases hrun : i.call.run d text i.now {s with clock := i.now} with
  | error e => exact .inl rfl
  | ok s' => exact .inr rfl

theorem GovernanceState.Sound.step {i : GovernanceStep}
    (h : s.Sound) (hi : i.Admitted s) : (governanceStep d text s i).Sound ∧ HolderOnly d text s i := by
  have ht := h.tick hi.time
  obtain hrf | hrun := governanceStep_eq
  · rw [HolderOnly, hrf]
    exact ⟨ht, fun _ _ _ _ hch => absurd rfl hch⟩
  · obtain ⟨hsound, hst⟩ := ht.run hi.token hrun
    refine ⟨hsound, fun id owner token hcl _ => ?_⟩
    obtain ⟨l', row, row', hst⟩ := hst id owner token hcl
    obtain ⟨hset, -⟩ := ht.held hst
    obtain ⟨hrp, rfl, hh, -⟩ := hst
    obtain ⟨ho, htk, hex⟩ := Claim.heldBy_iff.mp hh
    obtain ⟨hg, hop⟩ := h.agrees.granted row.id row.claim
      ((governanceClaim_eq_some h.tables.ids).mpr ⟨row, ⟨hrp.mem, rfl⟩, hset, rfl⟩)
    exact ⟨row, hrp.mem, rfl, ho, htk, hg, hop, hex⟩

/-- An origin has one row, no row is both delivered and failed, and an origin that was delivered or
rejected has no row that could be claimed and is no gap. -/
structure GovernanceSafe (s : GovernanceState) : Prop where
  oneRow : (s.tables.outbox.map (·.origin)).Nodup
  exclusive : ∀ row ∈ s.tables.outbox, row.deliveredAt = 0 ∨ row.failedAt = 0
  ended : ∀ o, o ∈ s.delivered ∨ o ∈ s.rejected → ∀ row ∈ s.tables.outbox, row.origin = o → row.claimable = false
  noGap : ∀ o, o ∈ s.delivered ∨ o ∈ s.rejected → ∀ tenant limit gaps,
    listAuditGovernanceGaps tenant limit s.tables = .ok gaps → ∀ gap ∈ gaps, gap.origin ≠ o

theorem GovernanceState.Sound.safe (h : s.Sound) : GovernanceSafe s where
  oneRow := h.tables.origins
  exclusive row hrow := (h.tables.rows row hrow).exclusive
  ended o ho row hrow hor := by
    obtain hd | hrej := ho
    · obtain hbur | ⟨other, hother, hsame, hne⟩ := h.delivered o hd
      · exact absurd (hor ▸ hbur) (h.tables.rows row hrow).delivered
      · rw [inj_on_of_nodup_map h.tables.origins hrow hother (hor.trans hsame.symm)]
        simp [GovernanceRow.claimable, hne]
    · have hf := (h.tables.rows row hrow).rejected (hor ▸ h.rejected o hrej)
      simp [GovernanceRow.claimable, hf]
  noGap o ho tenant limit gaps hg gap hgap hor := by
    have hnone := gap_of_mem_gaps hg hgap
    simp only [GovernanceTables.gap, Bool.and_eq_true, Bool.not_eq_true', any_eq_false, beq_iff_eq, hor]
      at hnone
    obtain ⟨⟨hrw, hdo⟩, hro⟩ := hnone
    obtain hd | hrej := ho
    · obtain hbur | ⟨row, hrow, hsame, -⟩ := h.delivered o hd
      · obtain ⟨entry, hen, hsame⟩ := mem_map.mp hbur
        exact hdo entry hen hsame
      · exact hrw row hrow hsame
    · obtain ⟨entry, hen, hsame⟩ := mem_map.mp (h.rejected o hrej)
      exact hro entry hen hsame

theorem governance_sound_initial {clock : Int} (hcl : 0 < clock) : (GovernanceState.initial clock).Sound where
  tables := ⟨nodup_nil, nodup_nil, fun _ hrow => absurd hrow not_mem_nil⟩
  agrees := (Ledger.agrees_blank clock).congr fun _ => rfl
  clock := hcl
  delivered _ ho := absurd ho not_mem_nil
  rejected _ ho := absurd ho not_mem_nil

/-- **The governance outbox delivers or rejects an origin once.** In every state of a run, each
origin has at most one row, no row is both delivered and failed, and an origin that was ever
delivered or rejected has no row that could be claimed and is not listed as a gap; and each call
that settles a claim takes effect only for the holder of the row's current, unexpired claim. -/
theorem audit_governance_outbox_sound (d : Dialect) (text : FactText) {clock : Int} (hclock : 0 < clock)
    (ins : List GovernanceStep)
    (h : Each (governanceStep d text) (fun s i => i.Admitted s) (.initial clock) ins) :
    Always (governanceStep d text) GovernanceSafe (.initial clock) ins ∧
      Each (governanceStep d text) (HolderOnly d text) (.initial clock) ins := by
  have hsound : Always (governanceStep d text) GovernanceState.Sound (.initial clock) ins :=
    always_of_each (fun _ _ hs hi => (hs.step hi).1) (governance_sound_initial hclock) h
  exact ⟨hsound.mono fun _ hs => hs.safe, h.of_always (fun _ _ hs hi => (hs.step hi).2) hsound⟩

def auditFact : AuditFact :=
  ⟨"aero-vault", "t", ⟨.admin, 1⟩, .admin, "", "login", "", "", "", 0, "", some 1⟩

def plainText : FactText := ⟨fun frame => frame, fun _ => "now", fun _ => some 1⟩

def factID : String := auditFact.id plainText

/-- An audit entry of a captured tenant, delivered after its first claim expired; the cleanup; and the
attempt to enqueue its fact again. -/
def deliveredOnce : List GovernanceStep :=
  [⟨1, .bind [⟨"t", .active, 1⟩]⟩,
    ⟨2, .record ⟨1, "", "", "login", "", "t", ""⟩ auditFact⟩,
    ⟨3, .claim ⟨"a", "t1", 1, 10, 5⟩ []⟩,
    ⟨9, .claim ⟨"b", "t2", 1, 10, 5⟩ []⟩,
    ⟨10, .complete factID "a" "t1"⟩,
    ⟨11, .complete factID "b" "t2"⟩,
    ⟨20, .cleanupDelivered [] (some 15) 10⟩,
    ⟨21, .enqueue auditFact⟩]

theorem delivered_once_safe :
    Each (governanceStep .sqlite plainText) (fun s i => i.Admitted s) (.initial 1) deliveredOnce ∧
      Always (governanceStep .sqlite plainText) GovernanceSafe (.initial 1) deliveredOnce ∧
      (run (governanceStep .sqlite plainText) (.initial 1) deliveredOnce).delivered = [⟨.admin, 1⟩] := by
  have hadmitted : Each (governanceStep .sqlite plainText) (fun s i => i.Admitted s) (.initial 1) deliveredOnce := by
    decide
  exact ⟨hadmitted, (audit_governance_outbox_sound .sqlite plainText (by decide) deliveredOnce hadmitted).1, by decide⟩

end AeroVault.Repository
