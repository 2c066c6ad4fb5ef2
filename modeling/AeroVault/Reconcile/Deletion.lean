import AeroVault.Service.Removals

/-! The background jobs that delete: the retention sweep and the sweep of
non-current versions.

A sweep lists candidate rows and then takes them one by one. Each is read again,
its scope is validated and its protection checked before anything is deleted.
Faults of the database, of the storage and of the context are left out, and so is
the cleanup of chunks. -/
namespace AeroVault.Reconcile
open Lib Repository Service

/-- What a sweep brings with it. -/
structure Sweep where
  now : Nat
  /-- How long soft-deleted rows are kept. -/
  retention : Nat
  /-- The boundary's admission of a tenant's bucket. -/
  checkBucket : String → String → Bool

/-! ### Scope -/

/-- `unicode.IsControl`. -/
def isControl (c : Char) : Bool := c.toNat < 0x20 || (0x7f ≤ c.toNat && c.toNat < 0xa0)

def validateIdentifier (value : String) : Bool :=
  !(value == "" || GoText.trimSpace value != value) && !value.toList.any isControl

def validateTenant (tenant : String) : Bool := tenant != "*" && validateIdentifier tenant

/-- `spaces.ValidateBindingInput`. -/
def validateBindingInput (tenant bucket : String) : Bool :=
  validateTenant tenant && validateIdentifier bucket && bucket != "*"

def validateObjectIdentity (o : Object) : Bool :=
  !(o.id == 0 || o.path.key == "" || o.versionID == "") && !(o.backend == "" && !o.isDeleteMarker)

def validateObjectScope (o : Object) : Bool :=
  validateObjectIdentity o && validateBindingInput o.path.tenantID o.path.bucket &&
    !(o.storageKey == "" && !o.isDeleteMarker)

def sameObjectIdentity (a b : Object) : Bool :=
  a.id == b.id && a.path == b.path && a.versionID == b.versionID && a.backend == b.backend &&
    a.storageKey == b.storageKey && a.versionTombstone == b.versionTombstone &&
    a.deletedAt == b.deletedAt

/-- `canonicalObject`: the row read again, if it is still what it was. -/
def canonicalObject (s : Vault) (o : Object) : Option Object :=
  if !validateObjectScope o then none
  else
    match getObjectByID s.objects o.id with
    | none => none
    | some actual =>
      if validateObjectScope actual && sameObjectIdentity o actual then some actual else none

/-- `scopeState.object`. -/
def scopeObject (w : Sweep) (s : Vault) (o : Object) : Option Object :=
  (canonicalObject s o).filter fun actual => w.checkBucket actual.path.tenantID actual.path.bucket

def versionAnchorMatches (anchor row : Object) : Bool :=
  anchor.id != row.id || sameObjectIdentity anchor row

/-- `validateVersions`, with the rows and version IDs seen so far. -/
def validateVersions (w : Sweep) (s : Vault) (anchor : Object) (seen : List Nat)
    (versionIDs : List String) : List Object → Option (List Object)
  | [] => if seen.contains anchor.id then some [] else none
  | version :: rest =>
    if version.path.key != anchor.path.key || seen.contains version.id ||
        versionIDs.contains version.versionID then none
    else
      match canonicalObject s version with
      | none => none
      | some actual =>
        if !versionAnchorMatches anchor actual then none
        else if !w.checkBucket anchor.path.tenantID anchor.path.bucket then none
        else
          (validateVersions w s anchor (actual.id :: seen) (actual.versionID :: versionIDs) rest).map
            (actual :: ·)

/-- `scopeRepository.ListObjectVersions`. -/
def scopeVersions (w : Sweep) (s : Vault) (anchor : Object) : Option (List Object) :=
  match listObjectVersions s.objects anchor.path with
  | [] => none
  | versions => validateVersions w s anchor [] [] versions

/-! ### Protection and deletion -/

def objectDeletionProtected (w : Sweep) (s : Vault) (o : Object) : Bool :=
  (o.lockedUntil.any fun till => w.now < till) || o.metadata.get "_aero_legal_hold" == "ON" ||
    s.held o.id

/-- `objectKeyDeletionProtected`; nothing if the versions could not be listed. -/
def objectKeyDeletionProtected (w : Sweep) (s : Vault) (anchor : Object) : Option Bool :=
  (scopeVersions w s anchor).map fun versions => versions.any (objectDeletionProtected w s)

def adjustUsage (s : Vault) (tenant : String) (usage : Int × Int) : Vault :=
  if usage = (0, 0) then s else s.addTenantUsage tenant usage.1 usage.2

/-- `hardDeleteKey`: the blobs of all versions of the key, then their rows. -/
def hardDeleteKey (w : Sweep) (anchor : Object) (s : Vault) : Vault :=
  match scopeVersions w s anchor with
  | none => s
  | some versions =>
    if versions.any (objectDeletionProtected w s) then s
    else
      let wiped := deleteVersionBlobs versions s
      match hardDeleteObject wiped.held anchor.path wiped.objects with
      | .error _ => wiped
      | .ok objects =>
        adjustUsage (wiped.withObjects objects) anchor.path.tenantID (-countedObjectUsage versions)

/-- `hardDeleteVersion`: the blob of one row, then the row. -/
def hardDeleteVersion (w : Sweep) (o : Object) (s : Vault) : Vault :=
  if objectDeletionProtected w s o then s
  else
    let wiped := deleteVersionBlobs [o] s
    match hardDeleteObjectByID wiped.held o.id wiped.objects with
    | .error _ => wiped
    | .ok objects =>
      adjustUsage (wiped.withObjects objects) o.path.tenantID (-countedObjectUsage [o])

/-! ### The retention sweep -/

/-- `ListSoftDeletedBefore`: `ORDER BY deleted_at`. -/
def listSoftDeletedBefore (t : Objects) (before limit : Nat) : List Object :=
  let found := t.rows.filter fun o => (o.deletedAt.any fun d => d < before) && !o.versionTombstone
  (found.insertionSort fun a b => a.deletedAt.getD 0 ≤ b.deletedAt.getD 0).take limit

def purgeOneSoftDeleted (w : Sweep) (s : Vault) (o : Object) : Vault :=
  match scopeObject w s o with
  | none => s
  | some anchor =>
    match objectKeyDeletionProtected w s anchor with
    | some false => hardDeleteKey w anchor s
    | _ => s

def purgeSoftDeleted (w : Sweep) (s : Vault) : Vault :=
  (listSoftDeletedBefore s.objects (w.now - w.retention) 200).foldl (purgeOneSoftDeleted w) s

/-! ### The sweep of non-current versions -/

def secondsPerDay : Nat := 24 * 60 * 60

/-- `ListExpiredNonCurrentVersions`, in the order of the IDs. -/
def listExpiredNonCurrentVersions (s : Vault) (now limit : Nat) : List Object :=
  let expired (o : Object) : Bool :=
    let days := (s.config o.path).noncurrentDays
    o.versionTombstone && 0 < days && !s.held o.id &&
      (o.deletedAt.any fun d => d + days * secondsPerDay < now)
  (s.objects.rows.filter expired).take limit

def purgeNonCurrentVersion (w : Sweep) (s : Vault) (o : Object) : Vault :=
  match scopeObject w s o with
  | none => s
  | some v =>
    if !v.versionTombstone || v.live then s
    else if objectDeletionProtected w s v then s
    else hardDeleteVersion w v s

def sweepNonCurrentVersions (w : Sweep) (s : Vault) : Vault :=
  (listExpiredNonCurrentVersions s w.now 200).foldl (purgeNonCurrentVersion w) s

end AeroVault.Reconcile
