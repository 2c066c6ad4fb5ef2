import AeroVault.Service.Sessions

/-! Write once, read many: what becomes of rows under retention or legal hold.

Each path that replaces or removes rows checks the rows it will replace or
remove, so no call removes a protected row (`removes_unprotected`). The blobs are
another matter: a row's blob may be another row's too, and the call that writes or
deletes it checks only the other row. `worm_iff` says exactly when protected rows
and their blobs are safe. -/
namespace AeroVault.Service
open Lib Repository Access List

variable {s : Vault} {o : Object} {now : Nat}

/-! ### Protected rows stay -/

theorem not_mem_replacedIDs {k : Path} {versioning : Bool} (ho : o ∈ s.objects.rows)
    (hp : Protected s now o) (h : checkOverwriteProtection s now k versioning = .ok ()) :
    o.id ∉ replacedIDs s k versioning := by
  intro hid
  unfold replacedIDs replacedRow at hid
  unfold checkOverwriteProtection at h
  cases versioning with
  | true => cases hid
  | false =>
    cases hrow : getObject s.objects k with
    | none => simp [hrow] at hid
    | some row =>
      simp only [hrow, Bool.false_eq_true] at h hid
      obtain rfl := eq_of_id ho (getObject_some hrow).1 (by simpa using hid)
      exact not_protected_of_check h hp

section Effects
variable {ctx : Ctx} (ho : o ∈ s.objects.rows) (hp : Protected s ctx.now o)
include ho hp

theorem removeEffect_unprotected (target : Object) (hard : Bool) :
    o.id ∉ (removeEffect ctx target hard s).removes := by
  unfold removeEffect
  split
  · split
    · exact not_mem_nil
    next versions hv =>
      split
      · exact not_mem_nil
      · intro hid
        obtain ⟨rfl, hch⟩ := versionsForHardDelete_ok hv
        obtain ⟨a, ha, hid⟩ := mem_map.mp hid
        have heq : a = o := eq_of_id (mem_listObjectVersions.mp ha).1 ho hid
        exact checkAllUnprotected_ok hch a ha (heq ▸ hp)
  · exact not_mem_nil

/-- The row that `DeleteVersion` removes is the one it has checked, since no other
row has its version ID. -/
theorem versionDeleteEffect_unprotected (tenant bucket key versionID : String) (hv : VersionsDistinct s) :
    o.id ∉ (versionDeleteEffect ctx tenant bucket key versionID s).removes := by
  unfold versionDeleteEffect
  split
  · exact not_mem_nil
  next target ht =>
    obtain ⟨hm, hun⟩ := prepareVersionDelete_ok ht
    split
    · exact not_mem_nil
    next row hrow =>
      obtain ⟨hrow, -, hversion⟩ := getObjectVersion_some hrow
      obtain rfl := hv.rows row hrow target hm hversion
      split
      · exact not_mem_nil
      · intro hid
        obtain rfl := eq_of_id ho hm (mem_singleton.mp hid)
        exact hun hp

theorem putEffect_unprotected (req : PutRequest) : o.id ∉ (putEffect ctx req s).removes := by
  unfold putEffect
  split
  · exact not_mem_nil
  next plan hplan =>
    split
    · exact not_mem_replacedIDs ho hp (planned hplan).unprotected
    · exact not_mem_nil

theorem completeEffect_unprotected (scope : MultipartScope) (uploadID : String)
    (manifest : Option (List PartRecord)) : o.id ∉ (completeEffect ctx scope uploadID manifest s).removes := by
  unfold completeEffect
  split
  · exact not_mem_nil
  · split
    · exact not_mem_nil
    next plan hplan =>
      split
      · exact not_mem_nil
      · exact not_mem_replacedIDs ho hp (completionPlanned hplan).unprotected

end Effects

theorem removes_unprotected {c : Call} (hv : VersionsDistinct s) (ho : o ∈ s.objects.rows)
    (hp : Protected s c.ctx.now o) : o.id ∉ (c.effect s).removes := by
  obtain ⟨ctx, request⟩ := c
  cases request with
  | put req => exact putEffect_unprotected ho hp req
  | completeMultipart scope uploadID manifest =>
    exact completeEffect_unprotected ho hp scope uploadID manifest
  | delete tenant bucket key hard =>
    show o.id ∉ (deleteEffect ctx tenant bucket key hard s).removes
    unfold deleteEffect
    split
    · exact not_mem_nil
    · split
      · exact not_mem_nil
      · exact removeEffect_unprotected ho hp _ hard
  | adminDelete tenant bucket key hard =>
    show o.id ∉ (adminDeleteEffect ctx tenant bucket key hard s).removes
    unfold adminDeleteEffect
    split
    · exact not_mem_nil
    · split
      · exact not_mem_nil
      · exact removeEffect_unprotected ho hp _ hard
  | deleteVersion tenant bucket key versionID =>
    exact versionDeleteEffect_unprotected ho hp tenant bucket key versionID hv
  | createDeleteMarker tenant bucket key =>
    show o.id ∉ (markerEffect ctx tenant bucket key s).removes
    unfold markerEffect
    split <;> exact not_mem_nil
  | initMultipart | uploadPart | restoreObject | setBucketVersioning | setBucketObjectLock
  | setObjectRetention | putLegalHold => exact not_mem_nil

/-! ### Runs -/

/-- The call neither removes a protected row nor changes or removes its bytes. -/
def Call.KeepsProtected (c : Call) (s : Vault) : Prop :=
  ∀ o ∈ s.objects.rows, Protected s c.ctx.now o →
    (∃ o' ∈ (s.next c).objects.rows, SameRow o o') ∧
      (s.next c).bytes o.storageKey = s.bytes o.storageKey

/-- No blob that the call writes or deletes is that of a protected row, unless the
bytes there stay what they were. -/
abbrev Call.SparesProtected (c : Call) (s : Vault) : Prop :=
  ∀ x ∈ (c.effect s).touches, ∀ o ∈ s.objects.rows, Protected s c.ctx.now o →
    o.storageKey = x.1 → s.bytes x.1 = x.2

theorem keepsProtected_iff {c : Call} (hs : SessionsSound s) (hv : VersionsDistinct s) :
    c.KeepsProtected s ↔ c.SparesProtected s := by
  have hout := call_outcome c hs
  constructor
  · intro h x hx o ho hp hkey
    have hby := (h o ho hp).2
    rw [hkey, hout.touched x hx] at hby
    exact hby.symm
  · intro h o ho hp
    refine ⟨hout.rows.kept o ho (removes_unprotected hv ho hp), ?_⟩
    by_cases ht : ∃ x ∈ (c.effect s).touches, x.1 = o.storageKey
    · obtain ⟨x, hx, hkey⟩ := ht
      rw [← hkey, hout.touched x hx]
      exact (h x hx o ho hp hkey.symm).symm
    · exact hout.untouched o.storageKey fun x hx hkey => ht ⟨x, hx, hkey⟩

/-- **Along a run from the empty vault, whose calls draw version IDs that are not in
use, no call removes a protected row or touches its bytes, exactly when each call
spares the blobs of the protected rows.** -/
theorem worm_iff (buckets : String → String → BucketConfig) (maxBytes maxObjects : String → Int)
    (calls : List Call)
    (hfresh : Each Vault.next (fun s c => c.DrawsFresh s) (.empty buckets maxBytes maxObjects) calls) :
    Each Vault.next (fun s c => c.KeepsProtected s) (.empty buckets maxBytes maxObjects) calls ↔
      Each Vault.next (fun s c => c.SparesProtected s) (.empty buckets maxBytes maxObjects) calls := by
  refine each_iff_each (J := fun s => SessionsSound s ∧ VersionsDistinct s) ?_ ?_ ?_ hfresh
  · exact fun s c hs hc => ⟨sessionsSound_next c hs.1, versionsDistinct_next hs.1 hs.2 hc⟩
  · exact fun s c hs _ => keepsProtected_iff hs.1 hs.2
  · exact ⟨sessionsSound_empty buckets maxBytes maxObjects, versionsDistinct_empty ..⟩

/-- A key whose only version is under retention: the overwrite, the hard delete and
the version delete are refused, and its bytes stay. -/
theorem worm_locked_key :
    let start : Vault := .empty (fun _ _ => ⟨false, 100, 0, 0, 0⟩)
    let calls : List Call :=
      [⟨allowedUser 1 "v1" "u1", .put (plainPut "acme" "docs" "a" [1])⟩,
        ⟨allowedUser 2 "v2" "u2", .put (plainPut "acme" "docs" "a" [2])⟩,
        ⟨allowedUser 3 "v3" "u3", .delete "acme" "docs" "a" true⟩,
        ⟨allowedUser 4 "v4" "u4", .deleteVersion "acme" "docs" "a" "v1"⟩]
    Each Vault.next (fun s c => c.KeepsProtected s) start calls ∧
      (run Vault.next start calls).bytes "acme/docs/a" = some [1] := by
  intro start calls
  have hf : Each Vault.next (fun s c => c.DrawsFresh s) start calls := by decide +kernel
  refine ⟨(worm_iff _ _ _ calls hf).mpr ?_, ?_⟩ <;> decide +kernel

/-- The retention of 100 is set by the bucket. A put, a soft delete, which retention
does not stop, and a put of other bytes: nothing is live then, so nothing is
checked, and the bytes of the row under retention are gone. -/
theorem put_after_soft_delete_breaks_retention :
    let start : Vault := .empty (fun _ _ => ⟨false, 100, 0, 0, 0⟩)
    let calls : List Call :=
      [⟨allowedUser 1 "v1" "u1", .put (plainPut "acme" "docs" "a" [1])⟩,
        ⟨allowedUser 2 "v2" "u2", .delete "acme" "docs" "a" false⟩,
        ⟨allowedUser 3 "v3" "u3", .put (plainPut "acme" "docs" "a" [2])⟩]
    Each Vault.next (fun s c => c.DrawsFresh s) start calls ∧
      ¬ Each Vault.next (fun s c => c.KeepsProtected s) start calls := by
  refine ⟨by decide +kernel, fun h => ?_⟩
  have hby := h.mono fun s c hc o ho hp => (hc o ho hp).2
  revert hby
  decide +kernel

end AeroVault.Service
