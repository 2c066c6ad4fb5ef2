import AeroVault.Service.Checks

/-! Deleting, restoring and protecting objects. -/
namespace AeroVault.Service
open Lib Repository Access

/-- `addTenantUsage` with negated counts. -/
def releaseUsage (s : Vault) (tenant : String) (usage : Int × Int) : Vault :=
  s.addTenantUsage tenant (-usage.1) (-usage.2)

/-! ### Delete -/

def checkAllUnprotected (s : Vault) (now : Nat) : List Object → Except ServiceError Unit
  | [] => .ok ()
  | version :: rest =>
    match checkObjectProtection s now version with
    | .error err => .error err
    | .ok () => checkAllUnprotected s now rest

/-- `versionsForHardDelete`: all rows of the key, each of them unprotected. -/
def versionsForHardDelete (s : Vault) (now : Nat) (k : Path) : Except ServiceError (List Object) :=
  match checkAllUnprotected s now (listObjectVersions s.objects k) with
  | .error err => .error err
  | .ok () => .ok (listObjectVersions s.objects k)

theorem checkAllUnprotected_ok {s : Vault} {now : Nat} {versions : List Object}
    (h : checkAllUnprotected s now versions = .ok ()) : ∀ o ∈ versions, ¬ Protected s now o := by
  induction versions with
  | nil => exact nofun
  | cons version rest ih =>
    unfold checkAllUnprotected at h
    split at h
    · cases h
    next hch =>
      intro o ho
      obtain rfl | ho := List.mem_cons.mp ho
      · exact not_protected_of_check hch
      · exact ih h o ho

/-- The blobs of the versions that are not delete markers; a storage key that
several of them share is deleted once. -/
def deleteVersionBlobs : List Object → Vault → Vault
  | [], s => s
  | version :: rest, s =>
    if version.isDeleteMarker then deleteVersionBlobs rest s
    else deleteVersionBlobs rest (s.deleteBlob version.storageKey)

/-- The rows of `versions` whose blob is at `key`. -/
def ownsBlob (key : String) (o : Object) : Bool := !o.isDeleteMarker && o.storageKey == key

section
variable (versions : List Object) (s : Vault)

/-- Only blobs are deleted. -/
theorem deleteVersionBlobs_frame :
    deleteVersionBlobs versions s = {s with blobs := (deleteVersionBlobs versions s).blobs} := by
  induction versions generalizing s with
  | nil => rfl
  | cons o rest ih =>
    unfold deleteVersionBlobs
    split
    · exact ih s
    · rw [ih (s.deleteBlob o.storageKey)]
      rfl

theorem deleteVersionBlobs_objects : (deleteVersionBlobs versions s).objects = s.objects := by
  rw [deleteVersionBlobs_frame]

theorem deleteVersionBlobs_held : (deleteVersionBlobs versions s).held = s.held := by
  rw [deleteVersionBlobs_frame]
  rfl

theorem deleteVersionBlobs_blobs (key : String) :
    (deleteVersionBlobs versions s).blobs key =
      if versions.any (ownsBlob key) then none else s.blobs key := by
  induction versions generalizing s with
  | nil => rfl
  | cons o rest ih =>
    unfold deleteVersionBlobs
    cases hm : o.isDeleteMarker with
    | true => simp [ih, ownsBlob, hm]
    | false =>
      by_cases hkey : o.storageKey = key
      · simp [ih, ownsBlob, hm, hkey, Vault.deleteBlob]
      · have hother : (s.deleteBlob o.storageKey).blobs key = s.blobs key :=
          Function.update_of_ne (.symm hkey) _ _
        simp [ih, ownsBlob, hkey, hother]

end

/-- `hardDeleteObjectWithVersions`: blobs first, then the rows. -/
def hardDeleteObjectWithVersions (k : Path) (versions : List Object) (s : Vault) :
    Except ServiceError Unit × Vault :=
  let wiped := deleteVersionBlobs versions s
  match hardDeleteObjectWithEvent wiped.held k wiped.objects with
  | .error err => (.error (.repo err), wiped)
  | .ok objects =>
    (.ok (), releaseUsage (wiped.withObjects objects) k.tenantID (countedObjectUsage versions))

/-- `softDeleteObjectWithRefs`: the blob stays. -/
def softDeleteObjectWithRefs (now : Nat) (o : Object) (s : Vault) : Except ServiceError Unit × Vault :=
  match softDeleteObject now o.path s.objects with
  | .error err => (.error (.repo err), s)
  | .ok objects => (.ok (), releaseUsage {s with objects := objects} o.path.tenantID (o.size, 1))

/-- The live row of a key, for a caller who may delete it. -/
def deletable (ctx : Ctx) (action : Action) (tenant bucket key : String) (s : Vault) :
    Except ServiceError Object := do
  let k ← checkedObjectDefaults tenant bucket key
  match getObject s.objects k with
  | none => throw .notFound
  | some o =>
    authorizeObject ctx action o
    return o

theorem deletable_ok {ctx : Ctx} {action : Action} {tenant bucket key : String} {s : Vault} {o : Object}
    (h : deletable ctx action tenant bucket key s = .ok o) :
    getObject s.objects o.path = some o ∧ o.path = defaults tenant bucket key := by
  obtain ⟨k, hk, h⟩ := passed h
  have hpath : k = defaults tenant bucket key := by
    unfold checkedObjectDefaults at hk
    split at hk
    · cases hk
    · cases hk
      rfl
  split at h
  · cases h
  next hfound =>
    obtain ⟨-, h⟩ := checked h
    cases h
    obtain ⟨-, hat, -⟩ := getObject_some hfound
    exact ⟨hat ▸ hfound, hat.trans hpath⟩

/-- What `Delete` and `AdminDelete` do with the row they may delete. -/
def removeObject (ctx : Ctx) (o : Object) (hard : Bool) (s : Vault) : Except ServiceError Unit × Vault :=
  if hard then
    match versionsForHardDelete s ctx.now o.path with
    | .error err => (.error err, s)
    | .ok versions => hardDeleteObjectWithVersions o.path versions s
  else softDeleteObjectWithRefs ctx.now o s

/-- `DeleteWithAction`, as `Delete` calls it. -/
def delete (ctx : Ctx) (tenant bucket key : String) (hard : Bool) (s : Vault) :
    Except ServiceError Unit × Vault :=
  match deletable ctx .delete tenant bucket key s with
  | .error err => (.error err, s)
  | .ok o =>
    match preflightQuota s o.path.tenantID 0 0 with
    | .error err => (.error err, s)
    | .ok () => removeObject ctx o hard s

/-- `AdminDelete`: the bucket is admitted first, the action is the privileged one
(or the ordinary one, where the operator opted out), and there is no quota preflight. -/
def adminDelete (ctx : Ctx) (tenant bucket key : String) (hard : Bool) (s : Vault) :
    Except ServiceError Unit × Vault :=
  match checkedObjectDefaults tenant bucket key >>= admitBucket ctx with
  | .error err => (.error err, s)
  | .ok () =>
    match deletable ctx ctx.adminDeleteAction tenant bucket key s with
    | .error err => (.error err, s)
    | .ok o => removeObject ctx o hard s

/-- `DeleteVersion`, up to its effects: the version, unprotected. -/
def prepareVersionDelete (ctx : Ctx) (tenant bucket key versionID : String) (s : Vault) :
    Except ServiceError Object := do
  let o ← objectVersion s tenant bucket key versionID
  authorizeObject ctx .delete o
  checkObjectProtection s ctx.now o
  preflightQuota s o.path.tenantID 0 0
  return o

/-- What `DeleteVersion` has checked: the row is there, and unprotected. -/
theorem prepareVersionDelete_ok {ctx : Ctx} {tenant bucket key versionID : String} {s : Vault}
    {o : Object} (h : prepareVersionDelete ctx tenant bucket key versionID s = .ok o) :
    o ∈ s.objects.rows ∧ ¬ Protected s ctx.now o := by
  obtain ⟨found, hfound, h⟩ := passed h
  obtain ⟨-, h⟩ := checked h
  obtain ⟨hch, h⟩ := checked h
  cases h
  exact ⟨objectVersion_mem hfound, not_protected_of_check hch⟩

def deleteVersion (ctx : Ctx) (tenant bucket key versionID : String) (s : Vault) :
    Except ServiceError Unit × Vault :=
  match prepareVersionDelete ctx tenant bucket key versionID s with
  | .error err => (.error err, s)
  | .ok o =>
    let wiped := deleteVersionBlobs [o] s
    match deleteObjectVersion wiped.held o.path o.versionID wiped.objects with
    | .error err => (.error (.repo err), wiped)
    | .ok objects =>
      (.ok (), releaseUsage (wiped.withObjects objects) o.path.tenantID (countedObjectUsage [o]))

/-! ### Restore and delete markers -/

/-- `Stat`: a key the backend accepts, with a blob. -/
def stat (s : Vault) (key : String) : Bool := validObjectKey key && (s.blobs key).isSome

/-- `RestoreObject`, up to its effects: the row the service would restore. -/
def prepareRestore (ctx : Ctx) (tenant bucket key : String) (s : Vault) : Except ServiceError Object := do
  let k ← checkedObjectDefaults tenant bucket key
  match getObject s.objects k with
  | some _ => throw .preconditionFailed
  | none =>
    match restorableObject s.objects k with
    | none => throw .notFound
    | some o =>
      authorizeObject ctx .restore o
      if stat s o.storageKey then
        preflightQuota s k.tenantID o.size 1
        preflightBucketQuota s k o.size 1
        return o
      else throw .notFound

/-- `RestoreObject` of the service. -/
def restore (ctx : Ctx) (tenant bucket key : String) (s : Vault) : Except ServiceError Unit × Vault :=
  match prepareRestore ctx tenant bucket key s with
  | .error err => (.error err, s)
  | .ok o =>
    match Repository.restoreObject o.path s.objects with
    | .error _ => (.error .notFound, s)
    | .ok objects =>
      (.ok (), Vault.addTenantUsage {s with objects := objects} o.path.tenantID o.size 1)

def deleteMarkerMetadataKey : String := "_aero_delete_marker"

/-- `CreateDeleteMarker`, up to its effects: the key, and the owner to keep. -/
def prepareDeleteMarker (ctx : Ctx) (tenant bucket key : String) (s : Vault) :
    Except ServiceError (Path × GoMap) := do
  let k ← checkedObjectDefaults tenant bucket key
  if !(s.config k).versioning then throw (.invalidArgs .versioningDisabled)
  let metadata : GoMap := [(deleteMarkerMetadataKey, "true")]
  match getObject s.objects k with
  | some current =>
    authorizeObject ctx .delete current
    return (k, metadataWithOwner metadata (current.metadata.get ownerMetadataKey))
  | none =>
    authorizePath ctx .delete k
    return (k, metadata)

theorem prepareDeleteMarker_marks {ctx : Ctx} {tenant bucket key : String} {s : Vault} {k : Path}
    {metadata : GoMap} (h : prepareDeleteMarker ctx tenant bucket key s = .ok (k, metadata)) :
    metadata.get deleteMarkerMetadataKey = "true" := by
  have ho (owner : String) :
      (metadataWithOwner [(deleteMarkerMetadataKey, "true")] owner).get deleteMarkerMetadataKey = "true" := by
    unfold metadataWithOwner
    split_ifs
    · rfl
    · exact GoMap.get_set_ne owner (by decide)
  obtain ⟨k, -, h⟩ := passed h
  dsimp only at h
  split at h
  · obtain ⟨ht, -⟩ := checked h
    cases ht
  · split at h
    · obtain ⟨-, h⟩ := checked h
      cases h
      exact ho _
    · obtain ⟨-, h⟩ := checked h
      cases h
      rfl

def createDeleteMarker (ctx : Ctx) (tenant bucket key : String) (s : Vault) :
    Except ServiceError Object × Vault :=
  match prepareDeleteMarker ctx tenant bucket key s with
  | .error err => (.error err, s)
  | .ok (k, metadata) =>
    let marked := insertDeleteMarker ctx.now k ctx.newVersionID metadata s.objects
    (.ok marked.1, {s with objects := marked.2})

/-! ### Bucket and object settings -/

def updateBucket (s : Vault) (tenant bucket : String) (f : BucketConfig → BucketConfig) : Vault :=
  let configs := Function.update (s.buckets tenant) bucket (f (s.buckets tenant bucket))
  {s with buckets := Function.update s.buckets tenant configs}

/-- `SetBucketVersioning`, for a caller who may manage the bucket. -/
def setBucketVersioning (ctx : Ctx) (tenant bucket : String) (enabled : Bool) (s : Vault) :
    Except ServiceError Unit × Vault :=
  let k := defaults tenant bucket ""
  match authorizePath ctx .manageACL k with
  | .error err => (.error err, s)
  | .ok () => (.ok (), updateBucket s k.tenantID k.bucket fun cfg => {cfg with versioning := enabled})

def setBucketObjectLock (ctx : Ctx) (tenant bucket : String) (seconds : Nat) (s : Vault) :
    Except ServiceError Unit × Vault :=
  let k := defaults tenant bucket ""
  match authorizePath ctx .manageACL k with
  | .error err => (.error err, s)
  | .ok () =>
    (.ok (), updateBucket s k.tenantID k.bucket fun cfg => {cfg with objectLockSeconds := seconds})

def retentionModeMetadataKey : String := "_aero_object_lock_mode"

/-- `SetObjectRetention`, up to its effects: the version, and the mode. -/
def prepareRetention (ctx : Ctx) (tenant bucket key versionID mode : String) (till : Nat) (s : Vault) :
    Except ServiceError (Object × String) := do
  let mode := GoText.toUpper (GoText.trimSpace mode)
  if mode ≠ "GOVERNANCE" ∧ mode ≠ "COMPLIANCE" then throw (.invalidArgs .retentionMode)
  if till ≤ ctx.now then throw (.invalidArgs .retentionInThePast)
  let o ← objectVersion s tenant bucket key versionID
  authorizeObject ctx .write o
  if (o.lockedUntil.any fun current => till < current) then throw .retentionShortened
  return (o, mode)

/-- The date that passes is not before the stored one. -/
theorem prepareRetention_found {ctx : Ctx} {tenant bucket key versionID mode : String} {till : Nat}
    {s : Vault} {o : Object} {mode' : String}
    (h : prepareRetention ctx tenant bucket key versionID mode till s = .ok (o, mode')) :
    o ∈ s.objects.rows ∧ ¬ (o.lockedUntil.any fun current => till < current) = true := by
  unfold prepareRetention at h
  obtain ⟨-, h⟩ := admitted h
  obtain ⟨-, h⟩ := admitted h
  obtain ⟨found, hfound, h⟩ := passed h
  obtain ⟨-, h⟩ := checked h
  obtain ⟨hnot, h⟩ := admitted h
  cases h
  exact ⟨objectVersion_mem hfound, hnot⟩

def setRetention (ctx : Ctx) (tenant bucket key versionID mode : String) (till : Nat) (s : Vault) :
    Except ServiceError Unit × Vault :=
  match prepareRetention ctx tenant bucket key versionID mode till s with
  | .error err => (.error err, s)
  | .ok (o, mode) =>
    match Repository.setObjectRetention o.id till (o.metadata.set retentionModeMetadataKey mode)
        s.objects with
    | .error err => (.error (.repo err), s)
    | .ok objects => (.ok (), {s with objects := objects})

/-- `PutLegalHold` of the service. -/
def placeLegalHold (ctx : Ctx) (tenant bucket key versionID reason : String) (s : Vault) :
    Except ServiceError Unit × Vault :=
  match objectVersion s tenant bucket key versionID with
  | .error err => (.error err, s)
  | .ok o =>
    match authorizeObject ctx .write o with
    | .error err => (.error err, s)
    | .ok () =>
      (.ok (), s.putLegalHold ⟨o.id, o.path.tenantID, o.versionID, reason, ctx.caller⟩)

end AeroVault.Service
