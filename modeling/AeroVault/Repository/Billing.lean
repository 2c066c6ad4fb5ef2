import AeroVault.Lib.Attempt
import AeroVault.Lib.Interleaving
import AeroVault.Lib.Keyed
import AeroVault.Repository.Schema

/-! Usage and entitlements of tenants, for billing.

`ApplyBillingUsage` records a mutation under its operation ID, moves the tenant's counters and writes
the facts for the outbox, in one transaction. A call with an operation ID that is there already does
nothing but compare. So the counters are what the recorded operations make of them, each counted once,
and the facts of an operation add up to what it changed (`usage_applied_once`).

`ApplyBillingProjection` keeps one row for each tenant, which only a higher revision replaces, and
writes the tenant's limits along with it. In whatever order and however often the projections of a
tenant arrive, the highest revision stays (`projections_converge`).

A time is the number of its nanoseconds, or `none` for the zero time. Integers do not overflow. -/
namespace AeroVault.Repository
open Lib List Function Keyed

abbrev GoTime := Option Int

inductive BillingError
  | mutationIdentity
  | mutationDelta
  | operationConflict
  | projectionIdentity
  | projectionLimits
  | projectionUnlimited
  | projectionTimestamp
  /-- An error of the database. -/
  | storage
  deriving DecidableEq

/-! ### Tables -/

structure UsageMutation where
  operationID : String
  tenantID : String
  kind : String
  deltaBytes : Int
  deltaObjects : Int
  occurredAt : GoTime
  deriving DecidableEq

/-- A row of `billing_usage_operations`. -/
structure UsageOperation where
  mutation : UsageMutation
  createdAt : Int
  deriving DecidableEq

def UsageOperation.key (op : UsageOperation) : String := op.mutation.operationID

inductive Dimension
  | bytesAllocated | bytesReclaimed | objectsCreated | objectsDeleted
  deriving DecidableEq

/-- A row of `billing_usage_outbox`, as it is inserted. -/
structure UsageFact where
  id : String
  operationID : String
  tenantID : String
  dimension : Dimension
  quantity : Int
  occurredAt : GoTime
  /-- The operation in the metadata. -/
  kind : String
  deriving DecidableEq

structure BillingLimit where
  hard : Int
  unlimited : Bool
  deriving DecidableEq

structure Projection where
  tenantID : String
  revision : Nat
  active : Bool
  bytes : BillingLimit
  objects : BillingLimit
  effectiveAt : GoTime
  expiresAt : GoTime
  projectedAt : GoTime
  deriving DecidableEq

/-- A row of `billing_entitlements`. -/
structure Entitlement where
  revision : Nat
  active : Bool
  bytes : BillingLimit
  objects : BillingLimit
  effectiveAtNs : Int
  expiresAtNs : Int
  projectedAtNs : Int
  deriving DecidableEq

/-- The rows of `tenant_quotas`. -/
abbrev Quotas := String → Option TenantQuota

structure BillingStore where
  quotas : Quotas
  operations : Keyed UsageOperation.key
  outbox : Keyed UsageFact.id
  entitlements : String → Option Entitlement

/-- `INSERT … DO NOTHING`, of a row with the default columns. -/
def ensureQuota (tenant : String) (q : Quotas) : Quotas :=
  update q tenant (some ((q tenant).getD ⟨0, 0, 0, 0⟩))

/-! ### ApplyBillingUsage -/

def minInt64 : Int := -2 ^ 63

def validateBillingMutation (m : UsageMutation) : Except BillingError Unit := do
  refuseIf (m.operationID = "" ∨ m.tenantID = "" ∨ m.kind = "" ∨ m.kind.utf8ByteSize > 64 ∨ m.occurredAt = none)
    .mutationIdentity
  refuseIf (m.deltaBytes = minInt64 ∨ m.deltaObjects = minInt64) .mutationDelta

def newBillingFact (m : UsageMutation) (suffix : String) (dimension : Dimension) (quantity : Int) :
    UsageFact where
  id := m.operationID ++ "." ++ suffix
  operationID := m.operationID
  tenantID := m.tenantID
  dimension := dimension
  quantity := quantity
  occurredAt := m.occurredAt
  kind := m.kind

def factsForMutation (m : UsageMutation) : List UsageFact :=
  (if m.deltaBytes > 0 then [newBillingFact m "bytes-allocated" .bytesAllocated m.deltaBytes]
    else if m.deltaBytes < 0 then [newBillingFact m "bytes-reclaimed" .bytesReclaimed (-m.deltaBytes)]
    else []) ++
  (if m.deltaObjects > 0 then [newBillingFact m "objects-created" .objectsCreated m.deltaObjects]
    else if m.deltaObjects < 0 then [newBillingFact m "objects-deleted" .objectsDeleted (-m.deltaObjects)]
    else [])

/-- Facts have their IDs to themselves, and an operation has one of each dimension. -/
def insertBillingFact (outbox : Keyed UsageFact.id) (fact : UsageFact) :
    Except BillingError (Keyed UsageFact.id) :=
  if outbox.rows.any fun f => f.operationID == fact.operationID && f.dimension == fact.dimension then
    .error .storage
  else
    match outbox.insert? fact with
    | some outbox' => .ok outbox'
    | none => .error .storage

def insertBillingFacts (outbox : Keyed UsageFact.id) (m : UsageMutation) :
    Except BillingError (Keyed UsageFact.id) :=
  (factsForMutation m).foldlM insertBillingFact outbox

/-- The two counters; each stops at zero. -/
def addUsage (m : UsageMutation) (q : TenantQuota) : TenantQuota :=
  {q with
    usedBytes := if q.usedBytes + m.deltaBytes < 0 then 0 else q.usedBytes + m.deltaBytes
    usedObjects := if q.usedObjects + m.deltaObjects < 0 then 0 else q.usedObjects + m.deltaObjects}

def updateBillingUsage (m : UsageMutation) (q : Quotas) : Quotas :=
  let ensured := ensureQuota m.tenantID q
  update ensured m.tenantID ((ensured m.tenantID).map (addUsage m))

/-- What is compared of a mutation whose operation ID is there. -/
abbrev SameOperation (a b : UsageMutation) : Prop :=
  a.tenantID = b.tenantID ∧ a.deltaBytes = b.deltaBytes ∧ a.deltaObjects = b.deltaObjects ∧ a.kind = b.kind

/-- A missing row is an error of the scan. -/
def getTenantQuotaTx (tenant : String) (q : Quotas) : Except BillingError TenantQuota :=
  match q tenant with
  | some row => .ok row
  | none => .error .storage

def finishDuplicateBillingUsage (m : UsageMutation) (s : BillingStore) :
    Except BillingError (TenantQuota × Bool) := do
  match s.operations.get? m.operationID with
  | none => .error .storage
  | some op =>
    refuseIf (¬ SameOperation op.mutation m) .operationConflict
    return (← getTenantQuotaTx m.tenantID s.quotas, true)

/-- The transaction: the answer, with whether the call is a duplicate, and the tables. -/
def billingUsageRows (now : Int) (m : UsageMutation) (s : BillingStore) :
    Except BillingError ((TenantQuota × Bool) × BillingStore) :=
  match s.operations.insert? ⟨m, now⟩ with
  | none => do return (← finishDuplicateBillingUsage m s, s)
  | some operations => do
    let quotas := updateBillingUsage m s.quotas
    let quota ← getTenantQuotaTx m.tenantID quotas
    let outbox ← insertBillingFacts s.outbox m
    return ((quota, false), {s with quotas, operations, outbox})

/-- A call, with the clock and the fate of its transaction. -/
structure UsageCall where
  mutation : UsageMutation
  now : Int
  reply : Reply

def applyBillingUsage (call : UsageCall) (s : BillingStore) :
    Except BillingError (TenantQuota × Bool) × BillingStore :=
  match validateBillingMutation call.mutation with
  | .error err => (.error err, s)
  | .ok () =>
    match billingUsageRows call.now call.mutation s, call.reply with
    | .error err, _ => (.error err, s)
    | .ok _, .failed => (.error .storage, s)
    | .ok (answer, s'), .ok => (.ok answer, s')
    | .ok (_, s'), .lost => (.error .storage, s')

def usageStep (s : BillingStore) (call : UsageCall) : BillingStore := (applyBillingUsage call s).2

/-! ### What a usage call does -/

section Usage

variable {s s' : BillingStore} {m : UsageMutation} {now : Int}

/-- The call has recorded its operation. -/
structure UsageRecorded (m : UsageMutation) (now : Int) (s s' : BillingStore) : Prop where
  operations : s.operations.insert? ⟨m, now⟩ = some s'.operations
  quotas : s'.quotas = updateBillingUsage m s.quotas
  outbox : s'.outbox.rows = s.outbox.rows ++ factsForMutation m

theorem rows_insertBillingFact {outbox outbox' : Keyed UsageFact.id} {fact : UsageFact}
    (h : insertBillingFact outbox fact = .ok outbox') : outbox'.rows = outbox.rows ++ [fact] := by
  unfold insertBillingFact at h
  split_ifs at h
  split at h
  next hin =>
    cases h
    exact (insert?_eq_some hin).2
  · cases h

theorem rows_insertBillingFacts {outbox outbox' : Keyed UsageFact.id} {facts : List UsageFact}
    (h : facts.foldlM insertBillingFact outbox = .ok outbox') : outbox'.rows = outbox.rows ++ facts := by
  induction facts generalizing outbox with
  | nil =>
    cases h
    exact (append_nil _).symm
  | cons fact rest ih =>
    obtain ⟨first, hf, hrs⟩ := bind_eq_ok.mp h
    rw [ih hrs, rows_insertBillingFact hf, append_assoc]
    rfl

theorem billingUsageRows_ok {answer : TenantQuota × Bool} (h : billingUsageRows now m s = .ok (answer, s')) :
    s' = s ∨ UsageRecorded m now s s' := by
  unfold billingUsageRows at h
  split at h
  · obtain ⟨duplicate, -, h⟩ := bind_eq_ok.mp h
    cases h
    exact .inl rfl
  next operations hin =>
    obtain ⟨quota, -, h⟩ := bind_eq_ok.mp h
    obtain ⟨outbox, hf, h⟩ := bind_eq_ok.mp h
    cases h
    exact .inr ⟨hin, rfl, rows_insertBillingFacts hf⟩

/-- A call changes nothing, or records its operation. -/
theorem usageStep_cases {call : UsageCall} :
    usageStep s call = s ∨ UsageRecorded call.mutation call.now s (usageStep s call) := by
  unfold usageStep applyBillingUsage
  split
  · exact .inl rfl
  · split
    · exact .inl rfl
    · exact .inl rfl
    next hrw _ => exact billingUsageRows_ok hrw
    next hrw _ => exact billingUsageRows_ok hrw

/-- A call with an operation ID that is there changes nothing, and fails if it is another operation. -/
theorem applyBillingUsage_known {op : UsageOperation} {call : UsageCall}
    (h : s.operations.get? call.mutation.operationID = some op) :
    usageStep s call = s ∧
      (¬ SameOperation op.mutation call.mutation → ∃ err, (applyBillingUsage call s).1 = .error err) := by
  have hkn : s.operations.insert? ⟨call.mutation, call.now⟩ = none := by
    cases hin : s.operations.insert? ⟨call.mutation, call.now⟩ with
    | none => rfl
    | some operations => cases h.symm.trans (insert?_eq_some hin).1
  refine ⟨?_, fun hd => ?_⟩
  · obtain hsame | hrc := usageStep_cases
    · exact hsame
    · cases hkn.symm.trans hrc.operations
  · have hrw : billingUsageRows call.now call.mutation s = .error .operationConflict := by
      simp only [billingUsageRows, hkn, finishDuplicateBillingUsage, h, refuseIf, if_pos hd]
      rfl
    unfold applyBillingUsage
    cases validateBillingMutation call.mutation with
    | error err => exact ⟨err, rfl⟩
    | ok u => exact ⟨.operationConflict, by rw [hrw]⟩

end Usage

/-! ### What the operations come to -/

/-- An operation, counted once. -/
def countOperation (q : Quotas) (m : UsageMutation) : Quotas :=
  let row := (q m.tenantID).getD ⟨0, 0, 0, 0⟩
  update q m.tenantID (some {row with
    usedBytes := max 0 (row.usedBytes + m.deltaBytes)
    usedObjects := max 0 (row.usedObjects + m.deltaObjects)})

/-- The bytes allocated less the bytes reclaimed. -/
def netBytes (facts : List UsageFact) : Int :=
  (facts.map fun f =>
    match f.dimension with
    | .bytesAllocated => f.quantity
    | .bytesReclaimed => -f.quantity
    | _ => 0).sum

/-- The objects created less the objects deleted. -/
def netObjects (facts : List UsageFact) : Int :=
  (facts.map fun f =>
    match f.dimension with
    | .objectsCreated => f.quantity
    | .objectsDeleted => -f.quantity
    | _ => 0).sum

def BillingStore.factsOf (s : BillingStore) (operationID : String) : List UsageFact :=
  s.outbox.rows.filter fun f => f.operationID = operationID

theorem updateBillingUsage_eq {m : UsageMutation} {q : Quotas} :
    updateBillingUsage m q = countOperation q m := by
  have hcl (x : Int) : (if x < 0 then 0 else x) = max 0 x := by
    split <;> omega
  funext tenant
  by_cases ht : tenant = m.tenantID
  · simp [updateBillingUsage, countOperation, ensureQuota, addUsage, hcl]
  · simp [updateBillingUsage, countOperation, ensureQuota, ht]

theorem netBytes_factsForMutation {m : UsageMutation} : netBytes (factsForMutation m) = m.deltaBytes := by
  unfold factsForMutation
  split_ifs <;> simp [netBytes, newBillingFact] <;> omega

theorem netObjects_factsForMutation {m : UsageMutation} : netObjects (factsForMutation m) = m.deltaObjects := by
  unfold factsForMutation
  split_ifs <;> simp [netObjects, newBillingFact] <;> omega

/-- The counters and the facts are those of the recorded operations. -/
structure UsageSound (start : Quotas) (s : BillingStore) : Prop where
  quotas : s.quotas = (s.operations.rows.map UsageOperation.mutation).foldl countOperation start
  facts : ∀ id, s.factsOf id = ((s.operations.get? id).map fun op => factsForMutation op.mutation).getD []

theorem factsForMutation_operationID {m : UsageMutation} {f : UsageFact} (h : f ∈ factsForMutation m) :
    f.operationID = m.operationID := by
  have hnew (suffix : String) (dimension : Dimension) (quantity : Int)
      (h : f ∈ [newBillingFact m suffix dimension quantity]) : f.operationID = m.operationID := by
    rw [mem_singleton.mp h]
    rfl
  rcases mem_append.mp h with h | h
  all_goals
    split_ifs at h
    · exact hnew _ _ _ h
    · exact hnew _ _ _ h
    · cases h

theorem usageSound_step {start : Quotas} (s : BillingStore) (call : UsageCall) (h : UsageSound start s) :
    UsageSound start (usageStep s call) := by
  rcases usageStep_cases with hsame | hrc
  · rw [hsame]
    exact h
  · have hfr := (insert?_eq_some hrc.operations).1
    refine ⟨?_, fun id => ?_⟩
    · rw [hrc.quotas, updateBillingUsage_eq, (insert?_eq_some hrc.operations).2,
        map_append, foldl_append, h.quotas]
      rfl
    · rw [BillingStore.factsOf, hrc.outbox, filter_append,
        get?_of_insert? hrc.operations id]
      show s.factsOf id ++ (factsForMutation call.mutation).filter (fun f => f.operationID = id) = _
      by_cases hid : id = UsageOperation.key ⟨call.mutation, call.now⟩
      · have hnone : s.operations.get? id = none := hid ▸ hfr
        rw [h.facts, hnone, if_pos hid, filter_eq_self.mpr fun f hf => ?_]
        · rfl
        · rw [factsForMutation_operationID hf, hid]
          exact decide_eq_true rfl
      · rw [h.facts, if_neg hid, filter_eq_nil_iff.mpr fun f hf => ?_, append_nil]
        rw [factsForMutation_operationID hf, decide_eq_true_eq]
        exact Ne.symm hid

/-! ### A new operation is recorded -/

section NewOperation

variable {m : UsageMutation} {s : BillingStore} {start : Quotas}

/-- The outbox takes both facts. -/
def FactsApart (f g : UsageFact) : Prop :=
  ¬ (f.operationID = g.operationID ∧ f.dimension = g.dimension) ∧ f.id ≠ g.id

theorem exists_insertBillingFacts {outbox : Keyed UsageFact.id} {facts : List UsageFact}
    (hout : ∀ f ∈ outbox.rows, ∀ g ∈ facts, FactsApart f g) (hfc : facts.Pairwise FactsApart) :
    ∃ outbox', facts.foldlM insertBillingFact outbox = .ok outbox' := by
  induction facts generalizing outbox with
  | nil => exact ⟨outbox, rfl⟩
  | cons fact rest ih =>
    obtain ⟨hfact, hrs⟩ := pairwise_cons.mp hfc
    have hfree : outbox.get? fact.id = none := by
      refine get?_eq_none.mpr fun hm => ?_
      obtain ⟨f, hf, hid⟩ := mem_map.mp hm
      exact (hout f hf fact mem_cons_self).2 hid
    obtain ⟨outbox', hin⟩ := exists_insert? hfree
    have hok : insertBillingFact outbox fact = .ok outbox' := by
      unfold insertBillingFact
      rw [if_neg, hin]
      intro hany
      obtain ⟨f, hf, hsame⟩ := any_eq_true.mp hany
      rw [Bool.and_eq_true, beq_iff_eq, beq_iff_eq] at hsame
      exact (hout f hf fact mem_cons_self).1 hsame
    rw [foldlM_cons, hok]
    refine ih (fun f hf g hg => ?_) hrs
    rw [rows_insertBillingFact hok] at hf
    rcases mem_append.mp hf with hf | hf
    · exact hout f hf g (mem_cons_of_mem _ hg)
    · exact mem_singleton.mp hf ▸ hfact g hg

/-- The suffixes of the IDs have one length. -/
theorem id_of_mem_factsForMutation {f : UsageFact} (h : f ∈ factsForMutation m) :
    ∃ suffix : List Char, suffix.length = 16 ∧ f.id.toList = m.operationID.toList ++ suffix := by
  have hnew (suffix : String) (dimension : Dimension) (quantity : Int) (hl : suffix.toList.length = 15)
      (h : f ∈ [newBillingFact m suffix dimension quantity]) :
      ∃ suffix : List Char, suffix.length = 16 ∧ f.id.toList = m.operationID.toList ++ suffix := by
    refine ⟨'.' :: suffix.toList, by rw [length_cons, hl], ?_⟩
    rw [mem_singleton.mp h]
    show (m.operationID ++ "." ++ suffix).toList = _
    rw [String.toList_append, String.toList_append, append_assoc]
    rfl
  rcases mem_append.mp h with h | h
  all_goals
    split_ifs at h
    · exact hnew _ _ _ rfl h
    · exact hnew _ _ _ rfl h
    · cases h

theorem apart_of_operationID_ne {n : UsageMutation} {f g : UsageFact} (hf : f ∈ factsForMutation n)
    (hg : g ∈ factsForMutation m) (hne : n.operationID ≠ m.operationID) : FactsApart f g := by
  refine ⟨fun hsame => hne ?_, fun hid => hne ?_⟩
  · rw [← factsForMutation_operationID hf, ← factsForMutation_operationID hg, hsame.1]
  · obtain ⟨a, ha, hfid⟩ := id_of_mem_factsForMutation hf
    obtain ⟨b, hb, hgid⟩ := id_of_mem_factsForMutation hg
    rw [hid, hgid] at hfid
    exact (String.toList_inj.mp (append_inj_left' hfid (hb.trans ha.symm))).symm

theorem pairwise_factsForMutation : (factsForMutation m).Pairwise FactsApart := by
  unfold factsForMutation
  split_ifs <;> simp [FactsApart, newBillingFact]

/-- A valid call with a new operation ID is counted, if its transaction commits. -/
theorem applyBillingUsage_new (h : UsageSound start s) {call : UsageCall}
    (hval : validateBillingMutation call.mutation = .ok ()) (hreply : call.reply = .ok)
    (hnew : s.operations.get? call.mutation.operationID = none) :
    (∃ quota, (applyBillingUsage call s).1 = .ok (quota, false)) ∧
      UsageRecorded call.mutation call.now s (usageStep s call) := by
  have hout : ∀ f ∈ s.outbox.rows, ∀ g ∈ factsForMutation call.mutation, FactsApart f g := by
    intro f hf g hg
    have hm : f ∈ s.factsOf f.operationID := mem_filter.mpr ⟨hf, decide_eq_true rfl⟩
    rw [h.facts] at hm
    cases hop : s.operations.get? f.operationID with
    | none =>
      rw [hop] at hm
      cases hm
    | some op =>
      rw [hop] at hm
      refine apart_of_operationID_ne hm hg fun hsame => ?_
      rw [← hsame, ← factsForMutation_operationID hm, hop] at hnew
      cases hnew
  obtain ⟨outbox, ho⟩ := exists_insertBillingFacts hout pairwise_factsForMutation
  obtain ⟨operations, hins⟩ := exists_insert? (t := s.operations) (r := ⟨call.mutation, call.now⟩) hnew
  obtain ⟨quota, hqt⟩ : ∃ quota,
      getTenantQuotaTx call.mutation.tenantID (updateBillingUsage call.mutation s.quotas) = .ok quota := by
    rw [updateBillingUsage_eq, getTenantQuotaTx, countOperation, update_self]
    exact ⟨_, rfl⟩
  have hrw : billingUsageRows call.now call.mutation s = .ok ((quota, false),
      {s with quotas := updateBillingUsage call.mutation s.quotas, operations, outbox}) := by
    simp only [billingUsageRows, hins, hqt, insertBillingFacts, ho]
    rfl
  have hap : applyBillingUsage call s = (.ok (quota, false),
      {s with quotas := updateBillingUsage call.mutation s.quotas, operations, outbox}) := by
    unfold applyBillingUsage
    rw [hval, hrw, hreply]
  refine ⟨⟨quota, by rw [hap]⟩, ?_⟩
  rw [usageStep, hap]
  exact ⟨hins, rfl, rows_insertBillingFacts ho⟩

end NewOperation

/-- **However often operation IDs are repeated, the counters are what the recorded operations make of
them, each counted once, and the facts of an operation add up to its deltas. A valid call with a new
operation ID counts; one with a known operation ID changes nothing, and fails unless it is for the same
operation.** -/
theorem usage_applied_once (s₀ : BillingStore) (hoperations : s₀.operations.rows = [])
    (houtbox : s₀.outbox.rows = []) (calls : List UsageCall) :
    let s := run usageStep s₀ calls
    (s.operations.rows.map UsageOperation.key).Nodup ∧
      s.quotas = (s.operations.rows.map UsageOperation.mutation).foldl countOperation s₀.quotas ∧
      (∀ op ∈ s.operations.rows, netBytes (s.factsOf op.key) = op.mutation.deltaBytes ∧
        netObjects (s.factsOf op.key) = op.mutation.deltaObjects) ∧
      (∀ call, validateBillingMutation call.mutation = .ok () → call.reply = .ok →
        s.operations.get? call.mutation.operationID = none →
        (∃ quota, (applyBillingUsage call s).1 = .ok (quota, false)) ∧
          (usageStep s call).quotas = countOperation s.quotas call.mutation ∧
          (usageStep s call).operations.rows = s.operations.rows ++ [⟨call.mutation, call.now⟩]) ∧
      ∀ call op, s.operations.get? call.mutation.operationID = some op → usageStep s call = s ∧
        (¬ SameOperation op.mutation call.mutation → ∃ err, (applyBillingUsage call s).1 = .error err) := by
  have hst : UsageSound s₀.quotas s₀ := by
    refine ⟨by rw [hoperations]; rfl, fun id => ?_⟩
    rw [BillingStore.factsOf, houtbox, get?_eq_none.mpr (by rw [hoperations]; nofun)]
    rfl
  have h := run_keeps usageSound_step hst calls
  refine ⟨nodup _, h.quotas, fun op hop => ?_, fun call hv hrp hnew => ?_,
    fun call op hop => applyBillingUsage_known hop⟩
  · rw [h.facts, get?_key hop]
    exact ⟨netBytes_factsForMutation, netObjects_factsForMutation⟩
  · obtain ⟨han, hrc⟩ := applyBillingUsage_new h hv hrp hnew
    exact ⟨han, hrc.quotas.trans updateBillingUsage_eq, (insert?_eq_some hrc.operations).2⟩

/-! A retry, and a call that reuses the operation ID for something else. -/

private def tenBytes : UsageMutation := ⟨"op", "t", "object_write", 10, 1, some 1⟩

private def unbilled : BillingStore := ⟨fun _ => none, .empty, .empty, fun _ => none⟩

theorem retried_usage_counts_once :
    let s := run usageStep unbilled [⟨tenBytes, 1, .lost⟩, ⟨tenBytes, 2, .ok⟩]
    s.operations.rows.map UsageOperation.mutation = [tenBytes] ∧
      s.quotas = [tenBytes].foldl countOperation unbilled.quotas ∧
      ∃ err, (applyBillingUsage ⟨{tenBytes with deltaBytes := 20}, 3, .ok⟩ s).1 = .error err := by
  have hrw : (run usageStep unbilled [⟨tenBytes, 1, .lost⟩, ⟨tenBytes, 2, .ok⟩]).operations.rows =
      [⟨tenBytes, 1⟩] := rfl
  obtain ⟨-, hqt, -, -, hkn⟩ := usage_applied_once unbilled rfl rfl [⟨tenBytes, 1, .lost⟩, ⟨tenBytes, 2, .ok⟩]
  refine ⟨by rw [hrw]; rfl, by rw [hqt, hrw]; rfl, ?_⟩
  refine (hkn ⟨{tenBytes with deltaBytes := 20}, 3, .ok⟩ ⟨tenBytes, 1⟩ ?_).2 ?_
  · rfl
  · decide

/-! ### ApplyBillingProjection -/

def maxInt64 : Nat := 2 ^ 63 - 1

def validateBillingProjection (p : Projection) : Except BillingError Unit := do
  refuseIf (p.tenantID = "" ∨ p.revision = 0 ∨ p.revision > maxInt64) .projectionIdentity
  refuseIf (p.bytes.hard < 0 ∨ p.objects.hard < 0 ∨ p.effectiveAt = none) .projectionLimits
  refuseIf ((p.bytes.unlimited = true ∧ p.bytes.hard ≠ 0) ∨
    (p.objects.unlimited = true ∧ p.objects.hard ≠ 0)) .projectionUnlimited
  refuseIf (p.projectedAt = none) .projectionTimestamp

/-- The columns of a projection. The zero time is stored as 0. -/
def Projection.entitlement (p : Projection) : Entitlement where
  revision := p.revision
  active := p.active
  bytes := p.bytes
  objects := p.objects
  effectiveAtNs := p.effectiveAt.getD 0
  expiresAtNs := p.expiresAt.getD 0
  projectedAtNs := p.projectedAt.getD 0

/-- Only a higher revision replaces the row. -/
def upsertBillingProjection (p : Projection) (rows : String → Option Entitlement) :
    Bool × (String → Option Entitlement) :=
  if (rows p.tenantID).all fun e => e.revision < p.revision then
    (true, update rows p.tenantID (some p.entitlement))
  else (false, rows)

def localQuotaLimit (limit : BillingLimit) : Int := if limit.unlimited then 0 else limit.hard

def projectBillingQuota (p : Projection) (q : Quotas) : Quotas :=
  let ensured := ensureQuota p.tenantID q
  update ensured p.tenantID ((ensured p.tenantID).map fun row =>
    {row with maxBytes := localQuotaLimit p.bytes, maxObjects := localQuotaLimit p.objects})

def applyBillingProjection (p : Projection) (s : BillingStore) : Except BillingError Bool × BillingStore :=
  match validateBillingProjection p with
  | .error err => (.error err, s)
  | .ok () =>
    match upsertBillingProjection p s.entitlements with
    | (false, _) => (.ok false, s)
    | (true, rows) => (.ok true, {s with entitlements := rows, quotas := projectBillingQuota p s.quotas})

def projectionStep (s : BillingStore) (p : Projection) : BillingStore := (applyBillingProjection p s).2

/-- The limits of a tenant's row. -/
def BillingStore.limits (s : BillingStore) (tenant : String) : Option (Int × Int) :=
  (s.quotas tenant).map fun q => (q.maxBytes, q.maxObjects)

/-! ### What a projection does -/

section Projections

variable {tenant : String} {s : BillingStore} {p : Projection} {seen : List Projection}

/-- A store that holds the projection. -/
structure Projected (s : BillingStore) (tenant : String) (p : Projection) : Prop where
  entitlement : s.entitlements tenant = some p.entitlement
  limits : s.limits tenant = some (localQuotaLimit p.bytes, localQuotaLimit p.objects)

theorem limits_projectBillingQuota (p : Projection) (q : Quotas) :
    ((projectBillingQuota p q) p.tenantID).map (fun q => (q.maxBytes, q.maxObjects)) =
      some (localQuotaLimit p.bytes, localQuotaLimit p.objects) := by
  rw [projectBillingQuota, ensureQuota, update_self, update_self]
  rfl

theorem applyBillingProjection_higher (hv : validateBillingProjection p = .ok ())
    (h : ∀ e ∈ s.entitlements p.tenantID, e.revision < p.revision) :
    (applyBillingProjection p s).1 = .ok true ∧ Projected (projectionStep s p) p.tenantID p := by
  have hup : upsertBillingProjection p s.entitlements =
      (true, update s.entitlements p.tenantID (some p.entitlement)) := by
    refine if_pos ?_
    rw [Option.all_eq_true]
    exact fun e he => decide_eq_true (h e he)
  unfold projectionStep applyBillingProjection
  rw [hv, hup]
  exact ⟨rfl, update_self _ _ _, limits_projectBillingQuota p s.quotas⟩

theorem applyBillingProjection_stale {e : Entitlement} (hv : validateBillingProjection p = .ok ())
    (he : s.entitlements p.tenantID = some e) (h : p.revision ≤ e.revision) :
    (applyBillingProjection p s).1 = .ok false ∧ projectionStep s p = s := by
  have hup : upsertBillingProjection p s.entitlements = (false, s.entitlements) := by
    refine if_neg ?_
    rw [he, Option.all_some, decide_eq_true_eq]
    exact Nat.not_lt.mpr h
  unfold projectionStep applyBillingProjection
  rw [hv, hup]
  exact ⟨rfl, rfl⟩

/-- Of the projections that a tenant has got, one with the highest revision is stored. -/
inductive Latest (tenant : String) (s : BillingStore) : List Projection → Prop
  | none (entitlement : s.entitlements tenant = none) : Latest tenant s []
  | some {seen : List Projection} (p : Projection) (mem : p ∈ seen)
      (highest : ∀ q ∈ seen, q.revision ≤ p.revision) (projected : Projected s tenant p) : Latest tenant s seen

theorem latest_step (hv : validateBillingProjection p = .ok ()) (h : Latest p.tenantID s seen) :
    (applyBillingProjection p s).1 = .ok (decide (∀ q ∈ seen, q.revision < p.revision)) ∧
      Latest p.tenantID (projectionStep s p) (seen ++ [p]) := by
  cases h with
  | none hen =>
    obtain ⟨hans, hpr⟩ := applyBillingProjection_higher hv (by rw [hen]; nofun)
    exact ⟨hans, .some p mem_cons_self (by simp) hpr⟩
  | some r hm hh hst =>
    by_cases hr : r.revision < p.revision
    · have hall : ∀ q ∈ seen, q.revision < p.revision := fun q hq => (hh q hq).trans_lt hr
      obtain ⟨hans, hpr⟩ := applyBillingProjection_higher hv fun e he => by
        cases hst.entitlement.symm.trans he
        exact hr
      refine ⟨by rw [hans, decide_eq_true hall], ?_⟩
      refine .some p (mem_concat_self ..) (fun q hq => ?_) hpr
      rcases mem_append.mp hq with hq | hq
      · exact (hall q hq).le
      · rw [mem_singleton.mp hq]
    · obtain ⟨hans, hsame⟩ := applyBillingProjection_stale hv hst.entitlement (Nat.not_lt.mp hr)
      have hsome : ¬ ∀ q ∈ seen, q.revision < p.revision := fun hall => hr (hall r hm)
      refine ⟨by rw [hans, decide_eq_false hsome], ?_⟩
      rw [hsame]
      refine .some r (mem_append_left _ hm) (fun q hq => ?_) hst
      rcases mem_append.mp hq with hq | hq
      · exact hh q hq
      · exact mem_singleton.mp hq ▸ Nat.not_lt.mp hr

theorem latest_run {s₀ : BillingStore} (hnone : s₀.entitlements tenant = none) {ps : List Projection}
    (hps : ∀ p ∈ ps, p.tenantID = tenant ∧ validateBillingProjection p = .ok ()) :
    Latest tenant (run projectionStep s₀ ps) ps := by
  induction ps using reverseRecOn with
  | nil => exact .none hnone
  | append_singleton ps p ih =>
    obtain ⟨rfl, hv⟩ := hps p (mem_concat_self ..)
    rw [run_append]
    exact (latest_step hv (ih fun q hq => hps q (mem_append_left _ hq))).2

/-- **In whatever order and however often the valid projections of a tenant are applied, the store ends
with the one of the highest revision, and a call reports `true` just when its revision is above all
earlier ones.** -/
theorem projections_converge (tenant : String) (s₀ : BillingStore) (hnone : s₀.entitlements tenant = none)
    (ps : List Projection) (hps : ∀ p ∈ ps, p.tenantID = tenant ∧ validateBillingProjection p = .ok ())
    (hequal : ∀ p ∈ ps, ∀ q ∈ ps, p.revision = q.revision → p = q) :
    (∀ p ∈ ps, (∀ q ∈ ps, q.revision ≤ p.revision) → Projected (run projectionStep s₀ ps) tenant p) ∧
      ∀ before p after, ps = before ++ p :: after →
        (applyBillingProjection p (run projectionStep s₀ before)).1 =
          .ok (decide (∀ q ∈ before, q.revision < p.revision)) := by
  refine ⟨fun p hp hh => ?_, fun before p after hsp => ?_⟩
  · cases latest_run hnone hps with
    | none => cases hp
    | some r hr hrh hpr =>
      have hsame : r.revision = p.revision := (hh r hr).antisymm (hrh p hp)
      rw [← hequal r hr p hp hsame]
      exact hpr
  · subst hsp
    obtain ⟨rfl, hv⟩ := hps p (by simp)
    exact (latest_step hv (latest_run hnone fun q hq => hps q (mem_append_left _ hq))).1

end Projections

/-! The second revision arrives first, and twice. -/

private def subscription (revision : Nat) (hard : Int) : Projection :=
  ⟨"t", revision, true, ⟨hard, false⟩, ⟨0, true⟩, some 1, none, some 1⟩

theorem second_revision_stays :
    (run projectionStep unbilled [subscription 2 20, subscription 1 10, subscription 2 20]).limits "t" =
        some (20, 0) ∧
      (applyBillingProjection (subscription 1 10) (run projectionStep unbilled [subscription 2 20])).1 =
        .ok false := by
  have h := projections_converge "t" unbilled rfl [subscription 2 20, subscription 1 10, subscription 2 20]
    (by decide) (by decide)
  exact ⟨(h.1 (subscription 2 20) (by decide) (by decide)).limits,
    h.2 [subscription 2 20] (subscription 1 10) [subscription 2 20] rfl⟩

end AeroVault.Repository
