import AeroVault.Service.Checks

/-! The quota checks in 64 bits.

The other modules take the sums of the quota checks as integers. The code adds `int64`s, and
a sum past the largest of them is negative, so that it is under every cap.
`admitWrite64_within_iff` says when an accepted write is within the caps. -/
namespace AeroVault.Service
open Lib Repository

/-- The value of an `int64` that was computed as `n`. -/
def int64 (n : Int) : Int := n.bmod (2 ^ 64)

theorem int64_eq {n : Int} (hl : -2 ^ 63 ≤ n) (hh : n < 2 ^ 63) : int64 n = n := by
  apply Int.bmod_eq_of_le <;> omega

/-- The comparison of all four checks. -/
def checkLimit64 (what : String) (used delta limit : Int) : Except ServiceError Unit :=
  if delta > 0 ∧ limit > 0 ∧ int64 (used + delta) > limit then
    .error (.quotaExceeded what (int64 (used + delta)) limit)
  else .ok ()

/-- `preflightQuota`, given the answer of the usage accountant. -/
def preflightQuota64 (accountant : Except ServiceError Unit) (q : TenantQuota) (deltaBytes deltaObjects : Int) :
    Except ServiceError Unit := do
  accountant
  checkLimit64 "bytes" q.usedBytes deltaBytes q.maxBytes
  checkLimit64 "objects" q.usedObjects deltaObjects q.maxObjects

/-- `preflightBucketQuota`, given the usage of the bucket. -/
def preflightBucketQuota64 (cfg : BucketConfig) (usedBytes usedObjects deltaBytes deltaObjects : Int) :
    Except ServiceError Unit := do
  if cfg.bucketMaxBytes ≤ 0 ∧ cfg.bucketMaxObjects ≤ 0 then return
  checkLimit64 "bucket bytes" usedBytes deltaBytes cfg.bucketMaxBytes
  checkLimit64 "bucket objects" usedObjects deltaObjects cfg.bucketMaxObjects

def ObjectWriteUsage.deltas64 (u : ObjectWriteUsage) (newSize : Int) : Int × Int :=
  if u.newObject then (newSize, 1) else (int64 (newSize - u.previousSize), 0)

/-- What a write is checked against. -/
structure WriteQuota where
  accountant : Except ServiceError Unit
  tenant : TenantQuota
  config : BucketConfig
  bucketBytes : Int
  bucketObjects : Int
  usage : ObjectWriteUsage
  size : Int

def admitWrite64 (w : WriteQuota) : Except ServiceError Unit := do
  let (deltaBytes, deltaObjects) := w.usage.deltas64 w.size
  preflightQuota64 w.accountant w.tenant deltaBytes deltaObjects
  preflightBucketQuota64 w.config w.bucketBytes w.bucketObjects deltaBytes deltaObjects

/-- What is used, what is added and the cap, for each of the four checks. -/
def WriteQuota.checks (w : WriteQuota) : List (Int × Int × Int) :=
  let (deltaBytes, deltaObjects) := w.usage.deltas w.size
  [(w.tenant.usedBytes, deltaBytes, w.tenant.maxBytes), (w.tenant.usedObjects, deltaObjects, w.tenant.maxObjects),
    (w.bucketBytes, deltaBytes, w.config.bucketMaxBytes), (w.bucketObjects, deltaObjects, w.config.bucketMaxObjects)]

/-- Non-negative numbers that are stored in 64 bits. -/
abbrev Stored (n : Int) : Prop := 0 ≤ n ∧ n < 2 ^ 63

structure WriteQuota.InRange (w : WriteQuota) : Prop where
  size : Stored w.size
  previous : Stored w.usage.previousSize
  checks : ∀ c ∈ w.checks, Stored c.1 ∧ c.2.2 < 2 ^ 63

/-- `bound` of every sum that has a positive cap and a positive delta. -/
abbrev WriteQuota.Sums (w : WriteQuota) (bound : Int → Int → Prop) : Prop :=
  ∀ c ∈ w.checks, 0 < c.2.1 → 0 < c.2.2 → bound (c.1 + c.2.1) c.2.2

theorem checkLimit64_ok {what : String} {used delta limit : Int} :
    checkLimit64 what used delta limit = .ok () ↔ (0 < delta → 0 < limit → int64 (used + delta) ≤ limit) := by
  unfold checkLimit64
  split_ifs with h
  · simp [h.1, h.2.1, h.2.2]
  · simpa using h

/-- The subtraction cannot overflow. -/
theorem deltas64_eq {u : ObjectWriteUsage} {size : Int} (hsz : Stored size) (hpr : Stored u.previousSize) :
    u.deltas64 size = u.deltas size := by
  obtain ⟨hsz, hsh⟩ := hsz
  obtain ⟨hpr, hph⟩ := hpr
  rw [ObjectWriteUsage.deltas64, ObjectWriteUsage.deltas, int64_eq (by omega) (by omega)]

theorem preflightBucketQuota64_ok {cfg : BucketConfig} {usedBytes usedObjects deltaBytes deltaObjects : Int}
    (h : preflightBucketQuota64 cfg usedBytes usedObjects deltaBytes deltaObjects = .ok ()) :
    checkLimit64 "bucket bytes" usedBytes deltaBytes cfg.bucketMaxBytes = .ok () ∧
      checkLimit64 "bucket objects" usedObjects deltaObjects cfg.bucketMaxObjects = .ok () := by
  unfold preflightBucketQuota64 at h
  split_ifs at h with hcp
  · -- without a cap neither check can refuse
    exact ⟨checkLimit64_ok.mpr fun _ hcap => absurd hcp.1 (by omega),
      checkLimit64_ok.mpr fun _ hcap => absurd hcp.2 (by omega)⟩
  · obtain ⟨⟨⟩, hby, ho⟩ := bind_eq_ok.mp h
    exact ⟨hby, ho⟩

/-- **An accepted write has no sum over its cap, as the code computes it.** -/
theorem admitWrite64_ok {w : WriteQuota} (hrn : w.InRange) (h : admitWrite64 w = .ok ()) :
    w.Sums fun sum limit => int64 sum ≤ limit := by
  rw [admitWrite64, deltas64_eq hrn.size hrn.previous] at h
  obtain ⟨⟨⟩, ht, hbc⟩ := bind_eq_ok.mp h
  obtain ⟨⟨⟩, -, ht⟩ := bind_eq_ok.mp ht
  obtain ⟨⟨⟩, hby, ho⟩ := bind_eq_ok.mp ht
  obtain ⟨hbb, hbo⟩ := preflightBucketQuota64_ok hbc
  rw [checkLimit64_ok] at hby ho hbb hbo
  simp only [WriteQuota.Sums, WriteQuota.checks, List.forall_mem_cons]
  exact ⟨hby, ho, hbb, hbo, by simp⟩

/-- **An accepted write is within the caps exactly if no sum leaves the range of an `int64`.** -/
theorem admitWrite64_within_iff {w : WriteQuota} (hrange : w.InRange) (h : admitWrite64 w = .ok ()) :
    (w.Sums fun sum limit => sum ≤ limit) ↔ w.Sums fun sum _ => sum < 2 ^ 63 := by
  constructor
  · intro hwt c hc hd hcap
    exact (hwt c hc hd hcap).trans_lt (hrange.checks c hc).2
  · intro hf c hc hd hcap
    obtain ⟨⟨hus, -⟩, -⟩ := hrange.checks c hc
    have hcm : int64 (c.1 + c.2.1) ≤ c.2.2 := admitWrite64_ok hrange h c hc hd hcap
    rwa [int64_eq (by omega) (hf c hc hd hcap)] at hcm

/-- One more object of 2 bytes in a space that holds 5 of its 10 bytes. -/
def smallWrite : WriteQuota :=
  ⟨.ok (), ⟨10, 10, 5, 1⟩, ⟨false, 0, 0, 10, 0⟩, 5, 1, ⟨0, true⟩, 2⟩

theorem small_write_within : smallWrite.Sums fun sum limit => sum ≤ limit :=
  (admitWrite64_within_iff ⟨by decide, by decide, by decide⟩ (by decide)).mpr (by decide)

/-- The largest size there is passes the same caps. -/
theorem huge_write_admitted :
    let w : WriteQuota := { smallWrite with size := 2 ^ 63 - 1 }
    w.InRange ∧ admitWrite64 w = .ok () ∧ ¬ w.Sums fun sum limit => sum ≤ limit :=
  ⟨⟨by decide, by decide, by decide⟩, by decide, by decide⟩

end AeroVault.Service
