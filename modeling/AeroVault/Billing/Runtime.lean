import AeroVault.Repository.Billing
import AeroVault.Service.Checks

/-! The subscription guard before a write.

`CheckQuota` holds a write against the tenant's projection. After it the service holds the write
against the local quota, whose limits the projection has set and in which 0 stands for no limit. When
the projection cannot be read the guard lets the write pass, and the local quota is all that is left.

The local quota is no weaker than the subscription, but for a hard limit of zero: the projection stores
it as 0 (`local_quota_no_weaker_iff`). Sums do not overflow. -/
namespace AeroVault.Billing
open Lib Repository Service

inductive GuardError
  /-- `ErrEntitlementUnavailable`: the tenant is not bound by the server. -/
  | notBound
  /-- `ErrEntitlementUnavailable`: the tenant has no projection yet. -/
  | notInitialized
  /-- `ErrQuotaExceeded`: the subscription is inactive. -/
  | inactive
  /-- `ErrQuotaExceeded`: the hard limit of the subscription. -/
  | hardLimit
  /-- The local quota. -/
  | quota (err : ServiceError)
  deriving DecidableEq

/-! ### CheckQuota -/

/-- No clock is before the zero time. -/
def before (now : Int) (t : GoTime) : Bool := t.any fun t => now < t

def projectionEffective (p : Projection) (now : Int) : Bool :=
  if !p.active || before now p.effectiveAt then false
  else p.expiresAt.isNone || before now p.expiresAt

def exceedsBillingLimit (limit : BillingLimit) (used delta : Int) : Bool :=
  delta > 0 && !limit.unlimited && (used > limit.hard || delta > limit.hard - used)

/-- The columns of a row. An expiry of 0 is the zero time again, the other times are read as they are. -/
def scanBillingProjection (tenant : String) (e : Entitlement) : Projection where
  tenantID := tenant
  revision := e.revision
  active := e.active
  bytes := e.bytes
  objects := e.objects
  effectiveAt := some e.effectiveAtNs
  expiresAt := if e.expiresAtNs = 0 then none else some e.expiresAtNs
  projectedAt := some e.projectedAtNs

/-- `GetBillingProjection`. The query can fail. -/
def getBillingProjection (s : BillingStore) (failed : Bool) (tenant : String) :
    Except BillingError (Option Projection) :=
  let tenant := defaultTenant tenant
  if failed then .error .storage else .ok ((s.entitlements tenant).map (scanBillingProjection tenant))

def checkQuota (bound : Bool) (lookup : Except BillingError (Option Projection)) (now : Int)
    (current : TenantQuota) (deltaBytes deltaObjects : Int) : Except GuardError Unit := do
  refuseIf (bound = false) .notBound
  match lookup with
  | .error _ => return ()
  | .ok none => .error .notInitialized
  | .ok (some p) =>
    (if deltaBytes ≤ 0 ∧ deltaObjects ≤ 0 then return ()
    else do
      refuseIf (projectionEffective p now = false) .inactive
      refuseIf (exceedsBillingLimit p.bytes current.usedBytes deltaBytes ∨
        exceedsBillingLimit p.objects current.usedObjects deltaObjects) .hardLimit)

/-- The service's check before a write, given what the guard says. -/
def preflightQuota (guard : Except GuardError Unit) (q : TenantQuota) (deltaBytes deltaObjects : Int) :
    Except GuardError Unit := do
  guard
  (checkBytesQuota q deltaBytes).mapError .quota
  (checkObjectsQuota q deltaObjects).mapError .quota

/-! ### The two checks of a limit -/

section Limit

variable {limit : BillingLimit} {used delta : Int}

/-- The local quota can say what the limit says of the write. -/
abbrev Expressible (limit : BillingLimit) (delta : Int) : Prop :=
  limit.unlimited = true ∨ 0 < limit.hard ∨ delta = 0

theorem exceedsBillingLimit_eq_false :
    exceedsBillingLimit limit used delta = false ↔
      limit.unlimited = true ∨ delta ≤ 0 ∨ used + delta ≤ limit.hard := by
  cases hun : limit.unlimited with
  | true => simp [exceedsBillingLimit, hun]
  | false =>
    simp only [exceedsBillingLimit, hun, Bool.not_false, Bool.and_true, Bool.and_eq_false_iff,
      Bool.or_eq_false_iff, decide_eq_false_iff_not, Bool.false_eq_true, false_or]
    omega

theorem checkLimit_ok {what : String} {max : Int} :
    checkLimit what used delta max = .ok () ↔ delta ≤ 0 ∨ max ≤ 0 ∨ used + delta ≤ max := by
  unfold checkLimit
  split_ifs with h
  · exact ⟨nofun, fun hm => by omega⟩
  · exact ⟨fun _ => by omega, fun _ => rfl⟩

theorem checkLimit_no_weaker_iff {what : String} (hh : 0 ≤ limit.hard) (hus : 0 ≤ used) (hd : 0 ≤ delta) :
    (checkLimit what used delta (localQuotaLimit limit) = .ok () →
      exceedsBillingLimit limit used delta = false) ↔ Expressible limit delta := by
  rw [checkLimit_ok, exceedsBillingLimit_eq_false, Expressible, localQuotaLimit]
  cases limit.unlimited with
  | true => simp
  | false =>
    simp only [Bool.false_eq_true, if_false, false_or]
    omega

end Limit

/-! ### What the stored limits allow -/

theorem hard_nonneg_of_valid {p : Projection} (h : validateBillingProjection p = .ok ()) :
    0 ≤ p.bytes.hard ∧ 0 ≤ p.objects.hard := by
  obtain ⟨-, -, h⟩ := bind_eq_ok.mp h
  obtain ⟨_, hl, -⟩ := bind_eq_ok.mp h
  have hl := refuseIf_ok.mp hl
  omega

theorem valid_of_accepted {p : Projection} {s : BillingStore} {answer : Bool}
    (h : (applyBillingProjection p s).1 = .ok answer) : validateBillingProjection p = .ok () := by
  unfold applyBillingProjection at h
  split at h
  · cases h
  next hv => exact hv

theorem limits_of_accepted {p : Projection} {s : BillingStore} (h : (applyBillingProjection p s).1 = .ok true) :
    (projectionStep s p).limits p.tenantID = some (localQuotaLimit p.bytes, localQuotaLimit p.objects) := by
  have hv := valid_of_accepted h
  unfold projectionStep
  unfold applyBillingProjection at h ⊢
  rw [hv] at h ⊢
  dsimp only at h ⊢
  split at h
  · cases h
  · exact limits_projectBillingQuota p s.quotas

/-- **The local quota of an accepted projection is no weaker than the subscription on a write, just when
each limit is unlimited or above zero, or the write adds nothing to what it limits.** -/
theorem local_quota_no_weaker_iff {p : Projection} {s : BillingStore}
    (haccepted : (applyBillingProjection p s).1 = .ok true) {q : TenantQuota}
    (hstored : (projectionStep s p).limits p.tenantID = some (q.maxBytes, q.maxObjects))
    (hbytes : 0 ≤ q.usedBytes) (hobjects : 0 ≤ q.usedObjects)
    {deltaBytes deltaObjects : Int} (hdeltaBytes : 0 ≤ deltaBytes) (hdeltaObjects : 0 ≤ deltaObjects) :
    ((checkBytesQuota q deltaBytes = .ok () → exceedsBillingLimit p.bytes q.usedBytes deltaBytes = false) ∧
      (checkObjectsQuota q deltaObjects = .ok () →
        exceedsBillingLimit p.objects q.usedObjects deltaObjects = false)) ↔
      Expressible p.bytes deltaBytes ∧ Expressible p.objects deltaObjects := by
  obtain ⟨hhb, hho⟩ := hard_nonneg_of_valid (valid_of_accepted haccepted)
  rw [limits_of_accepted haccepted] at hstored
  obtain ⟨hmb, hmo⟩ := Prod.mk.inj (Option.some.inj hstored)
  unfold checkBytesQuota checkObjectsQuota
  rw [← hmb, ← hmo, checkLimit_no_weaker_iff hhb hbytes hdeltaBytes,
    checkLimit_no_weaker_iff hho hobjects hdeltaObjects]

/-! A limit of ten bytes is kept, one of zero is not. -/

private def noBilling : BillingStore := ⟨fun _ => none, .empty, .empty, fun _ => none⟩

private def limited (hard : Int) : Projection := ⟨"t", 1, true, ⟨hard, false⟩, ⟨0, true⟩, some 1, none, some 1⟩

theorem ten_bytes_no_weaker :
    exceedsBillingLimit (limited 10).bytes 4 6 = false ∧ checkBytesQuota ⟨10, 0, 4, 0⟩ 7 ≠ .ok () := by
  have h := (local_quota_no_weaker_iff (p := limited 10) (s := noBilling) (q := ⟨10, 0, 4, 0⟩) (by decide)
    (by decide) (by decide) (by decide) (show (0 : Int) ≤ 6 by decide) (show (0 : Int) ≤ 1 by decide)).mpr
    (by decide)
  exact ⟨h.1 (by decide), by decide⟩

/-- The projection cannot be read, and a write passes that the subscription does not allow. -/
theorem zero_limit_admits :
    (applyBillingProjection (limited 0) noBilling).1 = .ok true ∧
      (projectionStep noBilling (limited 0)).quotas "t" = some ⟨0, 0, 0, 0⟩ ∧
      preflightQuota (checkQuota true (getBillingProjection (projectionStep noBilling (limited 0)) true "t") 2
        ⟨0, 0, 0, 0⟩ 1 0) ⟨0, 0, 0, 0⟩ 1 0 = .ok () ∧
      exceedsBillingLimit (limited 0).bytes 0 1 = true := by
  decide

/-! ### When the projection is read -/

/-- A write that the guard lets pass is within the subscription, if the projection has been read. -/
theorem within_subscription_of_read {bound : Bool} {p : Projection} {now : Int} {current : TenantQuota}
    {deltaBytes deltaObjects : Int}
    (h : checkQuota bound (.ok (some p)) now current deltaBytes deltaObjects = .ok ()) :
    exceedsBillingLimit p.bytes current.usedBytes deltaBytes = false ∧
      exceedsBillingLimit p.objects current.usedObjects deltaObjects = false := by
  obtain ⟨-, -, h⟩ := bind_eq_ok.mp h
  split_ifs at h with hnt
  · exact ⟨exceedsBillingLimit_eq_false.mpr (.inr (.inl hnt.1)),
      exceedsBillingLimit_eq_false.mpr (.inr (.inl hnt.2))⟩
  · obtain ⟨-, -, h⟩ := bind_eq_ok.mp h
    simpa using refuseIf_ok.mp h

end AeroVault.Billing
