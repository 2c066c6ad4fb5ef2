import AeroVault.Lib.Paging
import AeroVault.Service.Writes

/-! Lifecycle documents and the objects they expire.

`PUT ?lifecycle` decodes a list of rules, folds them into one setting of the
bucket and stores it; the sweep later asks `ListExpired` for the objects whose
bucket has such a setting and whose time is up. What a rule says about the keys
it is for is not decoded, so `expired_after_days` speaks of the rules' days and
status alone. -/
namespace AeroVault.S3
open Lib Repository Service List

/-! ### The document -/

/-- The keys a rule is for: all of them, a `Prefix`, or a `Filter`. -/
inductive Selector
  | whole
  | startsWith (p : String)
  | filter (p : String → Bool)

def Selector.selects : Selector → String → Bool
  | .whole, _ => true
  | .startsWith p, key => GoText.hasPrefix key p
  | .filter p, key => p key

structure Transition where
  days : Int
  storageClass : String
  deriving DecidableEq

/-- A `Rule` element as it stands in the document. -/
structure RuleElement where
  status : String
  selector : Selector
  expiration : Option Int
  transition : Option Transition
  noncurrentVersionExpiration : Option Int
  noncurrentVersionTransition : Option Transition

/-- What the decoder's target declares of it. -/
structure LifecycleRule where
  status : String
  expiration : Option Int
  transition : Option Transition
  noncurrentVersionExpiration : Option Int
  noncurrentVersionTransition : Option Transition
  deriving DecidableEq

def isInt64 (n : Int) : Bool := -2 ^ 63 ≤ n && n < 2 ^ 63

/-- A number that is no 64-bit integer makes the document malformed. -/
def decodeRule (rule : RuleElement) : Option LifecycleRule :=
  if rule.expiration.all isInt64 && rule.transition.all (fun t => isInt64 t.days) &&
      rule.noncurrentVersionExpiration.all isInt64 &&
      rule.noncurrentVersionTransition.all (fun t => isInt64 t.days) then
    some ⟨rule.status, rule.expiration, rule.transition, rule.noncurrentVersionExpiration,
      rule.noncurrentVersionTransition⟩
  else none

/-! ### The setting of the bucket -/

structure LifecycleConfig where
  expireAfterDays : Int
  expireAction : String
  noncurrentDays : Int
  noncurrentCount : Int
  transitionRules : List Transition
  noncurrentTransitionDays : Int
  noncurrentTransitionStorageClass : String
  deriving DecidableEq

namespace LifecycleConfig

def empty : LifecycleConfig := ⟨0, "", 0, 0, [], 0, ""⟩

def addExpiration (lc : LifecycleConfig) : Option Int → LifecycleConfig
  | some days => if 0 < days then {lc with expireAfterDays := days, expireAction := "soft_delete"} else lc
  | none => lc

def addTransition (lc : LifecycleConfig) : Option Transition → LifecycleConfig
  | some t =>
    if 0 < t.days ∧ t.storageClass ≠ "" then {lc with transitionRules := lc.transitionRules ++ [t]} else lc
  | none => lc

def addNoncurrentExpiration (lc : LifecycleConfig) : Option Int → LifecycleConfig
  | some days => if 0 < days then {lc with noncurrentDays := days} else lc
  | none => lc

def addNoncurrentTransition (lc : LifecycleConfig) : Option Transition → LifecycleConfig
  | some t =>
    if 0 < t.days ∧ t.storageClass ≠ "" then
      {lc with noncurrentTransitionDays := t.days, noncurrentTransitionStorageClass := t.storageClass}
    else lc
  | none => lc

/-- One turn of the loop over the rules: only `Disabled` is passed over. -/
def addRule (lc : LifecycleConfig) (rule : LifecycleRule) : LifecycleConfig :=
  if rule.status = "Disabled" then lc
  else
    (((lc.addExpiration rule.expiration).addTransition rule.transition).addNoncurrentExpiration
      rule.noncurrentVersionExpiration).addNoncurrentTransition rule.noncurrentVersionTransition

end LifecycleConfig

/-- Rows of `buckets` by tenant and name, with the lifecycle columns. -/
abbrev Buckets := AList fun _ : String × String => LifecycleConfig

inductive LifecycleError
  | malformedXML
  | forbidden
  /-- `… must be >= 0`, with the name of the field. -/
  | invalidArgs (field : String)
  deriving DecidableEq

def validateLifecycleDays (name : String) (days : Int) : Except LifecycleError Unit :=
  if days < 0 then .error (.invalidArgs name) else .ok ()

def validateLifecycleConfig (lc : LifecycleConfig) : Except LifecycleError Unit := do
  validateLifecycleDays "days" lc.expireAfterDays
  validateLifecycleDays "noncurrent_days" lc.noncurrentDays
  validateLifecycleDays "noncurrent_count" lc.noncurrentCount
  validateLifecycleDays "noncurrent_transition_days" lc.noncurrentTransitionDays
  lc.transitionRules.zipIdx.forM fun (t, i) =>
    validateLifecycleDays s!"transition_rules[{i}].days" t.days

/-- The bucket is created if it is not there, and every lifecycle column is replaced. -/
def setBucketLifecycleFull (buckets : Buckets) (tenant bucket : String) (lc : LifecycleConfig) : Buckets :=
  buckets.insert (defaultTenant tenant, bucket)
    {lc with
      expireAction :=
        if lc.expireAction = "" ∧ 0 < lc.expireAfterDays then "soft_delete" else lc.expireAction}

/-- `authorized` is the answer of the authorizer to the management of the bucket. -/
def putBucketLifecycle (authorized : Bool) (buckets : Buckets) (tenant bucket : String)
    (document : List RuleElement) : Except LifecycleError Buckets :=
  match document.mapM decodeRule with
  | none => .error .malformedXML
  | some rules => do
    let lc := rules.foldl LifecycleConfig.addRule .empty
    if authorized then
      validateLifecycleConfig lc
      return setBucketLifecycleFull buckets (defaultTenant tenant) (defaultBucket bucket) lc
    else throw .forbidden

/-! ### The scan -/

section Scan
variable {α β : Type*} (scan : α → Option β) (limit batch : Nat)

/-- The rows of one batch, up to the limit. -/
def scanRows (out : List β) : List α → List β
  | [] => out
  | row :: rest =>
    match scan row with
    | none => scanRows out rest
    | some found => if limit ≤ out.length + 1 then out ++ [found] else scanRows (out ++ [found]) rest

/-- The query answers in the order of the ids, so that the rows after the cursor are
those that remain. -/
def scanBatches (out : List β) (rows : List α) : Nat → List β
  | 0 => out
  | fuel + 1 =>
    if out.length < limit then
      let found := scanRows scan limit out (rows.take batch)
      if (rows.take batch).length < batch then found else scanBatches found (rows.drop batch) fuel
    else out

def scanLifecycleBatches (rows : List α) : List β := scanBatches scan limit batch [] rows (rows.length + 1)

variable {scan limit batch}

theorem scanRows_eq {out : List β} (ho : out.length < limit) (rows : List α) :
    scanRows scan limit out rows = out ++ (rows.filterMap scan).take (limit - out.length) := by
  induction rows generalizing out with
  | nil => simp [scanRows]
  | cons row rest ih =>
    cases hrow : scan row with
    | none => simp [scanRows, hrow, ih ho]
    | some found =>
      have ht : limit - out.length = limit - (out.length + 1) + 1 := by omega
      by_cases hf : limit ≤ out.length + 1
      · simp [scanRows, hrow, hf, ht]
      · have hrm : (out ++ [found]).length < limit := by simpa using hf
        simp only [scanRows, hrow, if_neg hf, ih hrm]
        simp [hrow, ht]

/-- One batch and then the rest collect what the two together do. -/
theorem scanBatches_eq (hbt : 0 < batch) {out : List β} (ho : out.length ≤ limit) {rows : List α}
    {fuel : Nat} (hfl : rows.length < fuel) :
    scanBatches scan limit batch out rows fuel = out ++ (rows.filterMap scan).take (limit - out.length) := by
  induction fuel generalizing out rows with
  | zero => omega
  | succ fuel ih =>
    by_cases hrm : out.length < limit
    · simp only [scanBatches, if_pos hrm, scanRows_eq hrm]
      by_cases hsh : (rows.take batch).length < batch
      · have hall : rows.take batch = rows := take_of_length_le (by simp at hsh; omega)
        rw [if_pos hsh, hall]
      · have hl : batch ≤ rows.length := by simpa using hsh
        have hsp : rows.filterMap scan =
            (rows.take batch).filterMap scan ++ (rows.drop batch).filterMap scan := by
          rw [← filterMap_append, take_append_drop]
        rw [if_neg hsh, ih, hsp, take_append, append_assoc]
        · congr 3
          simp only [length_append, length_take]
          omega
        · simp only [length_append, length_take]
          omega
        · simp only [length_drop]
          omega
    · have hf : limit - out.length = 0 := by omega
      simp [scanBatches, hrm, hf]

/-- **The scan finds the first eligible rows**, however the batches fall. -/
theorem scanLifecycleBatches_eq (hbt : 0 < batch) (rows : List α) :
    scanLifecycleBatches scan limit batch rows = (rows.filterMap scan).take limit := by
  have h : scanBatches scan limit batch [] rows (rows.length + 1) =
      [] ++ (rows.filterMap scan).take (limit - [].length) :=
    scanBatches_eq hbt (Nat.zero_le limit) (Nat.lt_succ_self rows.length)
  simpa [scanLifecycleBatches] using h

variable (id : α → Int) (scan limit batch)

/-- The rows of a page, with the number of those that were scanned and the id of the last one. -/
def scanPage : List α → List β → Nat → Int → List β × Nat × Int
  | [], out, scanned, cursor => (out, scanned, cursor)
  | row :: rest, out, scanned, _ =>
    match scan row with
    | none => scanPage rest out (scanned + 1) (id row)
    | some found =>
      if limit ≤ out.length + 1 then (out ++ [found], scanned + 1, id row)
      else scanPage rest (out ++ [found]) (scanned + 1) (id row)

/-- The loop with its cursor: a query answers the first rows above it, in the order of the ids. -/
def scanAbove (table : List α) (out : List β) (cursor : Int) : Nat → Option (List β)
  | 0 => none
  | fuel + 1 =>
    if out.length < limit then
      let page := (after id (table.mergeSort (id · ≤ id ·)) cursor).take batch
      let (found, scanned, last) := scanPage scan limit id page out 0 cursor
      if scanned < batch then some found else scanAbove table found last fuel
    else some out

/-- A page that does not reach the limit is read to its end. -/
theorem scanPage_spec (rows : List α) (out : List β) (n : Nat) (c : Int) :
    ∃ m last, scanPage scan limit id rows out n c = (scanRows scan limit out rows, m, last) ∧
      (limit ≤ (scanRows scan limit out rows).length ∨
        m = n + rows.length ∧ last = (rows.map id).getLastD c) := by
  induction rows generalizing out n c with
  | nil => exact ⟨n, c, rfl, .inr ⟨rfl, rfl⟩⟩
  | cons row rest ih =>
    simp only [scanPage, scanRows, length_cons, map_cons, getLastD_cons, Nat.add_comm rest.length 1,
      ← Nat.add_assoc]
    cases scan row with
    | none => exact ih out (n + 1) (id row)
    | some found =>
      by_cases hf : limit ≤ out.length + 1
      · simp [hf]
      · simpa only [if_neg hf] using ih (out ++ [found]) (n + 1) (id row)

variable {id scan limit batch}

/-- The cursor stands between the rows that were scanned and those that remain. -/
theorem scanAbove_eq {table rest : List α} {out : List β} {c : Int} {fuel : Nat} (hbt : 0 < batch)
    (hs : InOrder id (table.mergeSort (id · ≤ id ·)))
    (hc : after id (table.mergeSort (id · ≤ id ·)) c = rest) (hfl : rest.length + 1 < fuel) :
    scanAbove scan limit batch id table out c fuel = some (scanBatches scan limit batch out rest fuel) := by
  induction fuel generalizing rest out c with
  | zero => omega
  | succ fuel ih =>
    simp only [scanAbove, scanBatches, hc]
    by_cases hrm : out.length < limit
    · obtain ⟨m, last, hpage, hend⟩ := scanPage_spec scan limit id (rest.take batch) out 0 c
      obtain ⟨fuel, rfl⟩ : ∃ k, fuel = k + 1 := Nat.exists_eq_succ_of_ne_zero (by omega)
      simp only [if_pos hrm, hpage]
      obtain hfull | ⟨rfl, rfl⟩ := hend
      · simp only [scanAbove, scanBatches, if_neg hfull.not_gt, ite_self]
      · rw [Nat.zero_add]
        split_ifs with hsh
        · rfl
        -- A full page ends with a row, and the cursor moves there.
        have hx := getLast?_eq_some_getLast (ne_nil_of_length_pos (hbt.trans_le (not_lt.mp hsh)))
        rw [length_take] at hsh
        rw [getLastD_eq_getLast?, getLast?_map, hx]
        refine ih (after_key_getLast hs (hc.trans (take_append_drop batch rest).symm) hx) ?_
        rw [length_drop]
        omega
    · simp only [if_neg hrm]

/-- **The scan is complete**: it ends with the first eligible rows by id, however the pages fall. -/
theorem scanAbove_complete {table : List α} (hpos : ∀ r ∈ table, 0 < id r) (hid : (table.map id).Nodup)
    (hbt : 1 ≤ batch) {fuel : Nat} (hfl : table.length + 1 < fuel) :
    scanAbove scan limit batch id table [] 0 fuel =
      some (((table.mergeSort (id · ≤ id ·)).filterMap scan).take limit) := by
  have hperm := mergeSort_perm table (id · ≤ id ·)
  have hlen := hperm.length_eq
  have hs : InOrder id (table.mergeSort (id · ≤ id ·)) := by
    have hne := pairwise_map.mp ((hperm.map id).nodup_iff.mpr hid)
    exact (pairwise_mergeSort (by grind) (by grind) table).imp₂ (by grind) hne
  have hall : after id (table.mergeSort (id · ≤ id ·)) 0 = table.mergeSort (id · ≤ id ·) :=
    filter_eq_self.mpr fun r hr => by simpa using hpos r (hperm.mem_iff.mp hr)
  rw [scanAbove_eq hbt hs hall (by omega), scanBatches_eq hbt (Nat.zero_le _) (by omega)]
  simp

theorem even_rows_scanned :
    scanAbove (fun n => if n % 2 = 0 then some n else none) 2 2 (·) [6, 1, 4, 3, 2] [] 0 7 = some [2, 4] := by
  rw [scanAbove_complete (by decide) (by decide) (by decide) (by decide)]
  simp [mergeSort]

end Scan

/-! ### Expiry -/

def lifecycleScanBatchSize : Nat := 200

/-- The limit and the size of a batch. -/
def lifecycleScanLimits (limit : Int) : Nat × Nat :=
  let limit := if limit ≤ 0 then lifecycleScanBatchSize else limit.toNat
  (limit, if limit > lifecycleScanBatchSize then lifecycleScanBatchSize else limit)

theorem lifecycleScanLimits_pos {limit : Int} : 0 < (lifecycleScanLimits limit).2 := by
  simp only [lifecycleScanLimits, lifecycleScanBatchSize]
  split_ifs <;> omega

def wrapInt64 (n : Int) : Int := n.bmod (2 ^ 64)

theorem wrapInt64_lt (n : Int) : wrapInt64 n < 2 ^ 63 := Int.bmod_lt (by decide)

/-- Nanoseconds. -/
def hour : Int := 3600000000000

def day : Int := 24 * hour

/-- `time.Duration(days) * 24 * time.Hour`, in 64 bits. -/
def daysDuration (days : Int) : Int := wrapInt64 (wrapInt64 (days * 24) * hour)

/-- The whole days that a duration can hold. -/
def maxDurationDays : Int := 106751

theorem daysDuration_eq {days : Int} (hpos : 0 ≤ days) (hm : days ≤ maxDurationDays) :
    daysDuration days = days * day := by
  simp only [maxDurationDays] at hm
  have hf : wrapInt64 (days * 24) = days * 24 := by
    apply Int.bmod_eq_of_le <;> omega
  have hsc : wrapInt64 (days * 24 * hour) = days * 24 * hour := by
    simp only [hour]
    apply Int.bmod_eq_of_le <;> omega
  rw [daysDuration, hf, hsc, day, Int.mul_assoc]

/-- One day more is a time in the past. -/
example : daysDuration (maxDurationDays + 1) < 0 := by decide

/-- The rows of the query, each with the columns of its bucket. A table keeps its rows in
the order of their ids. -/
def expiryCandidates (buckets : Buckets) (objects : Objects) : List (Object × LifecycleConfig) :=
  objects.rows.filterMap fun o =>
    match buckets.lookup (o.path.tenantID, o.path.bucket) with
    | none => none
    | some lc => if o.live ∧ 0 < lc.expireAfterDays ∧ 0 < o.id then some (o, lc) else none

def scanExpired (now : Int) (row : Object × LifecycleConfig) : Option Object :=
  if (row.1.updatedAt : Int) + daysDuration row.2.expireAfterDays < now then
    some
      (if row.2.expireAction = "" then row.1
      else {row.1 with metadata := row.1.metadata.set "__expire_action" row.2.expireAction})
  else none

def listExpired (buckets : Buckets) (objects : Objects) (now limit : Int) : List Object :=
  let limits := lifecycleScanLimits limit
  scanLifecycleBatches (scanExpired now) limits.1 limits.2 (expiryCandidates buckets objects)

/-! ### What the rules leave -/

section Rules
variable {lc : LifecycleConfig} {rule : LifecycleRule} {rules : List LifecycleRule}

/-- A rule that has a say in the expiry of the bucket. -/
def LifecycleRule.expires (rule : LifecycleRule) (days : Int) : Prop :=
  rule.status ≠ "Disabled" ∧ rule.expiration = some days ∧ 0 < days

@[simp] theorem addTransition_expireAfterDays (t : Option Transition) :
    (lc.addTransition t).expireAfterDays = lc.expireAfterDays := by
  unfold LifecycleConfig.addTransition
  split
  · split_ifs <;> rfl
  · rfl

@[simp] theorem addNoncurrentExpiration_expireAfterDays (days : Option Int) :
    (lc.addNoncurrentExpiration days).expireAfterDays = lc.expireAfterDays := by
  unfold LifecycleConfig.addNoncurrentExpiration
  split
  · split_ifs <;> rfl
  · rfl

@[simp] theorem addNoncurrentTransition_expireAfterDays (t : Option Transition) :
    (lc.addNoncurrentTransition t).expireAfterDays = lc.expireAfterDays := by
  unfold LifecycleConfig.addNoncurrentTransition
  split
  · split_ifs <;> rfl
  · rfl

/-- A rule sets the days of the bucket to its own, or leaves them. -/
theorem addRule_expireAfterDays :
    rule.expires (lc.addRule rule).expireAfterDays ∨
      (lc.addRule rule).expireAfterDays = lc.expireAfterDays := by
  by_cases hst : rule.status = "Disabled"
  · simp [LifecycleConfig.addRule, hst]
  · cases hexp : rule.expiration with
    | none => simp [LifecycleConfig.addRule, hst, hexp, LifecycleConfig.addExpiration]
    | some days =>
      by_cases hpos : 0 < days
      · left
        simp [LifecycleRule.expires, LifecycleConfig.addRule, LifecycleConfig.addExpiration, hst, hexp, hpos]
      · right
        simp [LifecycleConfig.addRule, LifecycleConfig.addExpiration, hst, hexp, hpos]

/-- So the days that the loop ends with are those of a rule, or those it began with. -/
theorem foldl_expireAfterDays :
    (∃ rule ∈ rules, rule.expires (rules.foldl LifecycleConfig.addRule lc).expireAfterDays) ∨
      (rules.foldl LifecycleConfig.addRule lc).expireAfterDays = lc.expireAfterDays := by
  induction rules generalizing lc with
  | nil => exact .inr rfl
  | cons rule rest ih =>
    simp only [foldl_cons, mem_cons]
    cases @ih (lc.addRule rule) with
    | inl hrs =>
      obtain ⟨later, hm, hexp⟩ := hrs
      exact .inl ⟨later, .inr hm, hexp⟩
    | inr hkp =>
      rw [hkp]
      cases @addRule_expireAfterDays lc rule with
      | inl hset => exact .inl ⟨rule, .inl rfl, hset⟩
      | inr hsame => exact .inr hsame

theorem decodeRule_eq_some {element : RuleElement} (h : decodeRule element = some rule) :
    rule.status = element.status ∧ rule.expiration = element.expiration := by
  unfold decodeRule at h
  split_ifs at h
  cases h
  exact ⟨rfl, rfl⟩

theorem mem_of_mapM_decodeRule {document : List RuleElement}
    (h : document.mapM decodeRule = some rules) (hm : rule ∈ rules) :
    ∃ element ∈ document, decodeRule element = some rule := by
  induction document generalizing rules with
  | nil =>
    simp only [mapM_nil, Option.pure_def, Option.some.injEq] at h
    rw [← h] at hm
    cases hm
  | cons element rest ih =>
    simp only [mapM_cons, Option.bind_eq_bind, Option.bind_eq_some_iff, Option.pure_def,
      Option.some.injEq] at h
    obtain ⟨first, hf, later, hl, rfl⟩ := h
    cases mem_cons.mp hm with
    | inl heq => exact ⟨element, mem_cons_self .., heq ▸ hf⟩
    | inr hin =>
      obtain ⟨e, he, hd⟩ := ih hl hin
      exact ⟨e, mem_cons_of_mem _ he, hd⟩

end Rules

/-- An accepted document leaves the bucket the days of one of its rules, or none. -/
theorem putBucketLifecycle_ok {authorized : Bool} {buckets buckets' : Buckets} {tenant bucket : String}
    {document : List RuleElement}
    (h : putBucketLifecycle authorized buckets tenant bucket document = .ok buckets') :
    ∃ lc, buckets'.lookup (defaultTenant tenant, defaultBucket bucket) = some lc ∧
      (0 < lc.expireAfterDays → ∃ element ∈ document, element.status ≠ "Disabled" ∧
        element.expiration = some lc.expireAfterDays) := by
  unfold putBucketLifecycle at h
  cases hdec : document.mapM decodeRule with
  | none => simp [hdec] at h
  | some rules =>
    cases authorized with
    | false => simp [hdec, throw, throwThe] at h
    | true =>
      cases hv : validateLifecycleConfig (rules.foldl LifecycleConfig.addRule .empty) with
      | error e => simp [hdec, hv, bind, Except.bind] at h
      | ok u =>
        simp only [hdec, hv, bind, Except.bind, pure, Except.pure, if_true, Except.ok.injEq] at h
        refine ⟨_, by rw [← h, setBucketLifecycleFull, defaultTenant_idem, AList.lookup_insert], ?_⟩
        intro hpos
        cases @foldl_expireAfterDays .empty rules with
        | inr hnone =>
          rw [hnone] at hpos
          exact absurd hpos (by decide)
        | inl hrl =>
          obtain ⟨rule, hm, hst, hexp, _⟩ := hrl
          obtain ⟨element, hin, hd⟩ := mem_of_mapM_decodeRule hdec hm
          obtain ⟨hs, he⟩ := decodeRule_eq_some hd
          exact ⟨element, hin, hs ▸ hst, he ▸ hexp⟩

theorem mem_listExpired {buckets : Buckets} {objects : Objects} {now limit : Int} {found : Object}
    (h : found ∈ listExpired buckets objects now limit) :
    ∃ o ∈ objects.rows, ∃ lc, buckets.lookup (o.path.tenantID, o.path.bucket) = some lc ∧
      found.id = o.id ∧ 0 < lc.expireAfterDays ∧
      (o.updatedAt : Int) + daysDuration lc.expireAfterDays < now := by
  rw [listExpired, scanLifecycleBatches_eq (lifecycleScanLimits_pos)] at h
  obtain ⟨⟨o, lc⟩, hcn, hsc⟩ := mem_filterMap.mp (mem_of_mem_take h)
  obtain ⟨o', hm, hj⟩ := mem_filterMap.mp hcn
  cases hlc : buckets.lookup (o'.path.tenantID, o'.path.bucket) with
  | none => simp [hlc] at hj
  | some lc' =>
    simp only [hlc] at hj
    split_ifs at hj with hl
    obtain ⟨rfl, rfl⟩ := Prod.mk.inj (Option.some.inj hj)
    unfold scanExpired at hsc
    split_ifs at hsc with hage hact
    all_goals
      cases hsc
      exact ⟨o', hm, lc', hlc, rfl, hl.2.1, hage⟩

/-- **Expiry follows the days of a rule.** After an accepted document, an object of the
bucket is listed as expired only if the days of a rule that is not disabled have passed
since its last update, as long as the days fit a duration. -/
theorem expired_after_days {authorized : Bool} {buckets buckets' : Buckets} {tenant bucket : String}
    {document : List RuleElement}
    (hput : putBucketLifecycle authorized buckets tenant bucket document = .ok buckets')
    (hfit : ∀ rule ∈ document, ∀ days, rule.expiration = some days → days ≤ maxDurationDays)
    (objects : Objects) (now limit : Int) {o : Object} (hmem : o ∈ objects.rows)
    (htenant : o.path.tenantID = defaultTenant tenant) (hbucket : o.path.bucket = defaultBucket bucket)
    (hlisted : ∃ found ∈ listExpired buckets' objects now limit, found.id = o.id) :
    ∃ rule ∈ document, rule.status ≠ "Disabled" ∧ ∃ days, rule.expiration = some days ∧ 0 < days ∧
      (o.updatedAt : Int) + days * day < now := by
  obtain ⟨found, hfound, hid⟩ := hlisted
  obtain ⟨o', hmem', lc', hl', hid', hpos, hage⟩ := mem_listExpired hfound
  obtain rfl : o' = o := Table.eq_of_id hmem' hmem (hid'.symm.trans hid)
  obtain ⟨lc, hl, hrl⟩ := putBucketLifecycle_ok hput
  rw [htenant, hbucket, hl] at hl'
  obtain rfl := Option.some.inj hl'
  obtain ⟨rule, hin, hst, hexp⟩ := hrl hpos
  rw [daysDuration_eq hpos.le (hfit rule hin _ hexp)] at hage
  exact ⟨rule, hin, hst, lc.expireAfterDays, hexp, hpos, hage⟩

/-- An image, last updated at the beginning of time. -/
def photo : Object where
  id := 1
  path := ⟨"t", "b", "photos/a.png"⟩
  backend := "local"
  storageKey := "t/b/photos/a.png"
  size := 3
  contentType := "image/png"
  storageClass := "STANDARD"
  acl := "private"

def photos : Objects := Table.empty.insert photo

def logsRule : RuleElement := ⟨"Enabled", .startsWith "logs/", some 1, none, none, none⟩

/-- What the rule leaves in a repository without buckets. -/
def logsBuckets : Buckets :=
  setBucketLifecycleFull ∅ "t" "b"
    {LifecycleConfig.empty with expireAfterDays := 1, expireAction := "soft_delete"}

theorem logsRule_accepted : putBucketLifecycle true ∅ "t" "b" [logsRule] = .ok logsBuckets := rfl

theorem photo_listed : ∃ found ∈ listExpired logsBuckets photos (2 * day) 10, found.id = photo.id := by
  decide +kernel

/-- The image is listed, and the day of the rule has passed. -/
theorem photo_expired_after_days :
    putBucketLifecycle true ∅ "t" "b" [logsRule] = .ok logsBuckets ∧
      (∃ found ∈ listExpired logsBuckets photos (2 * day) 10, found.id = photo.id) ∧
      ∃ rule ∈ [logsRule], rule.status ≠ "Disabled" ∧ ∃ days, rule.expiration = some days ∧ 0 < days ∧
        (photo.updatedAt : Int) + days * day < 2 * day :=
  ⟨logsRule_accepted, photo_listed,
    expired_after_days logsRule_accepted (by simp [logsRule, maxDurationDays]) photos (2 * day) 10
      (by decide +kernel) rfl rfl photo_listed⟩

/-- A rule for `logs/` expires an image that it is not for. -/
theorem photo_expired_by_logs_rule :
    putBucketLifecycle true ∅ "t" "b" [logsRule] = .ok logsBuckets ∧
      (∃ found ∈ listExpired logsBuckets photos (2 * day) 10, found.id = photo.id) ∧
      ¬ ∃ rule ∈ [logsRule], rule.status = "Enabled" ∧ rule.selector.selects photo.path.key = true ∧
        ∃ days, rule.expiration = some days ∧ (photo.updatedAt : Int) + days * day < 2 * day := by
  refine ⟨logsRule_accepted, photo_listed, ?_⟩
  intro h
  obtain ⟨rule, hm, _, hsel, _⟩ := h
  rw [mem_singleton.mp hm] at hsel
  revert hsel
  decide +kernel

/-! ### The default lock -/

/-- The seconds that `putBucketObjectLock` stores. -/
def putBucketObjectLock (days : Int) : Int := wrapInt64 (days * 86400)

/-- `LockedUntil` of `buildPutObject` and of `buildObjectFromUpload`, in the code's arithmetic. -/
def defaultLock (now objectLockSeconds : Int) : Option Int :=
  if 0 < objectLockSeconds then some (now + wrapInt64 (objectLockSeconds * 1000000000)) else none

/-- In the range of a duration it is the lock that `Service` gives to a row, in nanoseconds. -/
theorem defaultLock_eq_lockedUntil {seconds : Nat} (h : seconds ≤ 9223372036) (now : Nat) :
    defaultLock (now * 1000000000) seconds = (lockedUntil now seconds).map fun till : Nat => till * 1000000000 := by
  have hw : wrapInt64 (seconds * 1000000000) = seconds * 1000000000 := by
    apply Int.bmod_eq_of_le <;> omega
  unfold defaultLock lockedUntil
  rw [hw]
  split_ifs
  · simp [add_mul]
  · omega
  · omega
  · rfl

/-- **The default lock** is as long as configured exactly if a duration can hold the days. -/
theorem default_lock_iff {days : Int} (hd : 1 ≤ days) :
    (∀ now, ∃ till, defaultLock now (putBucketObjectLock days) = some till ∧ now + days * day ≤ till) ↔
      days ≤ maxDurationDays := by
  constructor
  · intro h
    obtain ⟨till, ht, hle⟩ := h 0
    unfold defaultLock at ht
    split_ifs at ht
    cases ht
    have hs := wrapInt64_lt (putBucketObjectLock days * 1000000000)
    simp only [day, hour, maxDurationDays] at hle ⊢
    omega
  · intro hm now
    simp only [maxDurationDays] at hm
    have hs : putBucketObjectLock days = days * 86400 := by
      apply Int.bmod_eq_of_le <;> omega
    have hn : wrapInt64 (days * 86400 * 1000000000) = days * 86400 * 1000000000 := by
      apply Int.bmod_eq_of_le <;> omega
    refine ⟨now + days * day, ?_, le_rfl⟩
    rw [defaultLock, hs, hn, if_pos (by omega)]
    simp only [day, hour]
    congr 2
    omega

theorem year_lock :
    (1 : Int) ≤ 365 ∧ ((∀ now, ∃ till, defaultLock now (putBucketObjectLock 365) = some till ∧
      now + 365 * day ≤ till) ↔ (365 : Int) ≤ maxDurationDays) := ⟨by decide, default_lock_iff (by decide)⟩

/-- The lock of 106752 days is over before the object is written. -/
theorem lock_in_the_past :
    ∃ till, defaultLock 0 (putBucketObjectLock (maxDurationDays + 1)) = some till ∧ till < 0 :=
  ⟨_, rfl, by decide⟩

/-! ### The other scans -/

/-- `time.Since`, cut to what a duration holds. -/
def since (now t : Int) : Int := max (-2 ^ 63) (min (2 ^ 63 - 1) (now - t))

/-- The rule that the loop of `ListTransitionable` takes. -/
def transitionTo (rules : List Transition) (now : Int) (o : Object) : Option Transition :=
  rules.find? fun rule =>
    daysDuration rule.days ≤ since now o.updatedAt ∧ o.storageClass ≠ rule.storageClass

/-- The row of `ListExpiredNonCurrentVersions`. -/
def scanNonCurrent (now : Int) (row : Object × LifecycleConfig) : Option Object :=
  if row.1.deletedAt.any fun d => d + daysDuration row.2.noncurrentDays < now then some row.1 else none

/-- No scan selects an object by `days` that are not over yet. -/
structure AgesExact (days : Int) : Prop where
  expired (now : Int) (o : Object) (lc : LifecycleConfig) : lc.expireAfterDays = days →
    (scanExpired now (o, lc)).isSome → days * day ≤ now - o.updatedAt
  nonCurrent (now : Int) (o : Object) (lc : LifecycleConfig) : lc.noncurrentDays = days →
    (scanNonCurrent now (o, lc)).isSome → ∃ d, o.deletedAt = some d ∧ days * day ≤ now - d
  transition (now : Int) (o : Object) (rules : List Transition) (rule : Transition) :
    transitionTo rules now o = some rule → rule.days = days → days * day ≤ now - o.updatedAt

theorem scanExpired_isSome {now : Int} {o : Object} {lc : LifecycleConfig} :
    (scanExpired now (o, lc)).isSome ↔ (o.updatedAt : Int) + daysDuration lc.expireAfterDays < now := by
  unfold scanExpired
  split_ifs with h <;> simp [h]

/-- **Lifecycle ages.** The scans wait for an accepted number of days exactly if a duration can hold
them. -/
theorem ages_exact_iff {name : String} {days : Int} (hv : validateLifecycleDays name days = .ok ()) :
    AgesExact days ↔ days ≤ maxDurationDays := by
  have hpos : 0 ≤ days := by
    by_contra hn
    simp [validateLifecycleDays, not_le.mp hn] at hv
  constructor
  · intro h
    have hyoung := h.expired (daysDuration days + 1) photo {LifecycleConfig.empty with expireAfterDays := days}
      rfl (scanExpired_isSome.mpr (by simp only [photo]; omega))
    have hlt : daysDuration days < 2 ^ 63 := wrapInt64_lt _
    simp only [day, hour, maxDurationDays] at hyoung ⊢
    omega
  · intro hm
    have hdays := daysDuration_eq hpos hm
    have hday : 0 ≤ days * day := Int.mul_nonneg hpos (by decide)
    refine ⟨fun now o lc hlc hs => ?_, fun now o lc hlc hs => ?_, fun now o rules rule hr hd => ?_⟩
    · rw [scanExpired_isSome, hlc, hdays] at hs
      omega
    · cases hd : o.deletedAt with
      | none => simp [scanNonCurrent, hd] at hs
      | some d =>
        have hlt : (d : Int) + days * day < now := by simpa [scanNonCurrent, hd, hlc, hdays] using hs
        exact ⟨d, rfl, by omega⟩
    · have hdue := find?_some hr
      simp only [hd, since, decide_eq_true_eq] at hdue
      omega

/-- A rule of 30 days. -/
theorem thirty_days_exact :
    validateLifecycleDays "days" 30 = .ok () ∧ (AgesExact 30 ↔ (30 : Int) ≤ maxDurationDays) :=
  have hv : validateLifecycleDays "days" 30 = .ok () := rfl
  ⟨hv, ages_exact_iff hv⟩

/-- A rule of 106752 days lists an image that is one nanosecond old. -/
theorem young_photo_expired :
    putBucketLifecycle true ∅ "t" "b" [⟨"Enabled", .whole, some (maxDurationDays + 1), none, none, none⟩] =
        .ok (setBucketLifecycleFull ∅ "t" "b"
          {LifecycleConfig.empty with expireAfterDays := maxDurationDays + 1, expireAction := "soft_delete"}) ∧
      ∃ found ∈ listExpired (setBucketLifecycleFull ∅ "t" "b"
          {LifecycleConfig.empty with expireAfterDays := maxDurationDays + 1, expireAction := "soft_delete"})
        photos 1 10, found.id = photo.id := ⟨rfl, by decide +kernel⟩

end AeroVault.S3
