import AeroVault.Lib.Attempt
import AeroVault.Service.Vault

/-! The checks that the service's operations share: arguments, quotas, protection. -/
namespace AeroVault.Service
open Lib Repository Access

/-! ### Arguments -/

def maxMetadataSize : Nat := 64 * 1024
def maxMetadataKeyLen : Nat := 256
def maxMetadataValueLen : Nat := 64 * 1024
def maxContentEncodingLen : Nat := 256

/-- The reserved namespace, in any letter case. -/
def reservedKey (key : String) : Bool := GoText.hasPrefix (GoText.toLower key) "_aero_"

def validateMetadataFrom (total : Nat) : GoMap → Except ServiceError Unit
  | [] => .ok ()
  | (k, v) :: rest =>
    if reservedKey k then .error (.invalidArgs (.reservedMetadata k))
    else if k.utf8ByteSize > maxMetadataKeyLen then .error (.metadataKeyTooLong k)
    else if v.utf8ByteSize > maxMetadataValueLen then
      .error (.metadataValueTooLong k v.utf8ByteSize)
    else
      let total' := total + k.utf8ByteSize + v.utf8ByteSize
      if total' > maxMetadataSize then .error (.metadataTooLarge total')
      else validateMetadataFrom total' rest

def validateMetadata (metadata : GoMap) : Except ServiceError Unit := validateMetadataFrom 0 metadata

/-- Carriage return, line feed, delete and the control characters but the tab. -/
def controlCharacter (c : Char) : Bool :=
  c == '\r' || c == '\n' || c.toNat == 0x7f || (c.toNat < 0x20 && c != '\t')

def validateContentEncoding (value : String) : Except ServiceError Unit :=
  if value = "" then .ok ()
  else if value.utf8ByteSize > maxContentEncodingLen then
    .error (.invalidArgs .contentEncodingTooLong)
  else if value.toList.any controlCharacter then .error (.invalidArgs .invalidContentEncoding)
  else .ok ()

def validACL (acl : String) : Bool :=
  acl == "private" || acl == "public-read" || acl == "public-read-write" || acl == "authenticated-read"

def validateACL (acl : String) : Except ServiceError Unit :=
  if acl = "" || validACL acl then .ok () else .error (.invalidArgs (.invalidACL acl))

structure PutOptions where
  contentType : String
  contentDisposition : String
  contentEncoding : String
  metadata : GoMap
  tags : GoMap
  acl : String
  legalHold : Bool
  contentMD5 : String
  storageClass : String
  deriving DecidableEq

/-- `storeContentHeaders`: the two headers become reserved metadata. -/
def storeContentHeaders (opts : PutOptions) : Except ServiceError GoMap :=
  match validateContentEncoding opts.contentEncoding with
  | .error err => .error err
  | .ok () =>
    let disposed := if opts.contentDisposition = "" then opts.metadata
      else opts.metadata.set "_aero_content_disposition" opts.contentDisposition
    .ok (if opts.contentEncoding = "" then disposed
      else disposed.set "_aero_content_encoding" opts.contentEncoding)

def storeContentMD5 (contentMD5 : String) (metadata : GoMap) : GoMap :=
  if contentMD5 = "" then metadata else metadata.set "_aero_content_md5" contentMD5

def defaultStorageClass (storageClass : String) : String :=
  if storageClass = "" then "STANDARD" else storageClass

/-! ### Access -/

def authorizeObject (ctx : Ctx) (action : Action) (o : Object) : Except ServiceError Unit :=
  match ctx.authorize action (objectResource o) with
  | some err => .error err
  | none => .ok ()

def authorizePath (ctx : Ctx) (action : Action) (k : Path) : Except ServiceError Unit :=
  match ctx.authorize action (pathResource k "") with
  | some err => .error err
  | none => .ok ()

def admitBucket (ctx : Ctx) (k : Path) : Except ServiceError Unit :=
  match ctx.admitBucket k.tenantID k.bucket with
  | some err => .error err
  | none => .ok ()

def ownerForPrincipal (p : Principal) : String :=
  if p.kind = .user ∨ p.kind = .service then p.subjectID else ""

def metadataWithOwner (metadata : GoMap) (owner : String) : GoMap :=
  if owner = "" then metadata else metadata.set ownerMetadataKey owner

/-- `preparePutAccess`: an overwrite needs the write action and keeps the owner; a
new key needs the create action and is the caller's. -/
def preparePutAccess (ctx : Ctx) (s : Vault) (k : Path) (metadata : GoMap) :
    Except ServiceError GoMap := do
  admitBucket ctx k
  match getObject s.objects k with
  | some existing =>
    authorizeObject ctx .write existing
    return metadataWithOwner metadata (existing.metadata.get ownerMetadataKey)
  | none =>
    authorizePath ctx .create k
    return metadataWithOwner metadata (ownerForPrincipal ctx.principal)

/-! ### Quotas and usage -/

def checkLimit (what : String) (used delta limit : Int) : Except ServiceError Unit :=
  if delta > 0 ∧ limit > 0 ∧ used + delta > limit then .error (.quotaExceeded what (used + delta) limit)
  else .ok ()

def checkBytesQuota (q : TenantQuota) (delta : Int) : Except ServiceError Unit :=
  checkLimit "bytes" q.usedBytes delta q.maxBytes

def checkObjectsQuota (q : TenantQuota) (delta : Int) : Except ServiceError Unit :=
  checkLimit "objects" q.usedObjects delta q.maxObjects

def preflightQuota (s : Vault) (tenant : String) (deltaBytes deltaObjects : Int) :
    Except ServiceError Unit := do
  checkBytesQuota (s.quotas tenant) deltaBytes
  checkObjectsQuota (s.quotas tenant) deltaObjects

/-- `countedObjectUsage`: bytes and number of the counted rows. -/
def countedObjectUsage (objects : List Object) : Int × Int :=
  let counted := objects.filter Object.counted
  ((counted.map fun o => (o.size : Int)).sum, counted.length)

/-- `BucketUsage`. -/
def bucketUsage (s : Vault) (tenant bucket : String) : Int × Int :=
  countedObjectUsage
    (s.objects.rows.filter fun o => o.path.tenantID == tenant && o.path.bucket == bucket)

def preflightBucketQuota (s : Vault) (k : Path) (deltaBytes deltaObjects : Int) :
    Except ServiceError Unit := do
  let cfg := s.config k
  if cfg.bucketMaxBytes ≤ 0 ∧ cfg.bucketMaxObjects ≤ 0 then return
  let (usedBytes, usedObjects) := bucketUsage s k.tenantID k.bucket
  checkLimit "bucket bytes" usedBytes deltaBytes cfg.bucketMaxBytes
  checkLimit "bucket objects" usedObjects deltaObjects cfg.bucketMaxObjects

structure ObjectWriteUsage where
  previousSize : Int
  newObject : Bool
  deriving DecidableEq

def ObjectWriteUsage.deltas (u : ObjectWriteUsage) (newSize : Int) : Int × Int :=
  if u.newObject then (newSize, 1) else (newSize - u.previousSize, 0)

def objectWriteUsage (s : Vault) (k : Path) (versioning : Bool) : ObjectWriteUsage :=
  if versioning then ⟨0, true⟩
  else
    match getObject s.objects k with
    | none => ⟨0, true⟩
    | some current => ⟨current.size, false⟩

/-- `accountObjectUsage`. -/
def accountObjectUsage (s : Vault) (tenant : String) (u : ObjectWriteUsage) (size : Nat) : Vault :=
  s.addTenantUsage tenant (u.deltas size).1 (u.deltas size).2

/-! ### Protection -/

/-- A row is protected while its retention date is ahead or a hold is on it. -/
def Protected (s : Vault) (now : Nat) (o : Object) : Prop :=
  (∃ till, o.lockedUntil = some till ∧ now < till) ∨ s.held o.id = true

instance (s : Vault) (now : Nat) (o : Object) : Decidable (Protected s now o) :=
  match h : o.lockedUntil with
  | some till => decidable_of_iff (now < till ∨ s.held o.id = true) (by simp [Protected, h])
  | none => decidable_of_iff (s.held o.id = true) (by simp [Protected, h])

def checkObjectProtection (s : Vault) (now : Nat) (o : Object) : Except ServiceError Unit :=
  match o.lockedUntil with
  | some till =>
    if now < till then .error (.retentionLocked till)
    else if o.metadata.get "_aero_legal_hold" = "ON" then .error .legalHold
    else if s.held o.id then .error .legalHold
    else .ok ()
  | none =>
    if o.metadata.get "_aero_legal_hold" = "ON" then .error .legalHold
    else if s.held o.id then .error .legalHold
    else .ok ()

/-- Only an unversioned write replaces the live row. -/
def checkOverwriteProtection (s : Vault) (now : Nat) (k : Path) (versioning : Bool) :
    Except ServiceError Unit :=
  if versioning then .ok ()
  else
    match getObject s.objects k with
    | none => .ok ()
    | some o => checkObjectProtection s now o

def checkMultipartLock (s : Vault) (now : Nat) (u : Upload) (versioning : Bool) :
    Except ServiceError Unit :=
  checkOverwriteProtection s now u.path versioning

/-- `objectVersion`: one version of a key, or its live row. -/
def objectVersion (s : Vault) (tenant bucket key versionID : String) : Except ServiceError Object := do
  let k ← checkedObjectDefaults tenant bucket key
  match (if versionID = "" then getObject s.objects k else getObjectVersion s.objects k versionID) with
  | some o => return o
  | none => throw .notFound

/-! ### What the checks establish -/

instance decidableForallOk {ε α : Type} (x : Except ε α) (P : α → Prop) [DecidablePred P] :
    Decidable (∀ a, x = .ok a → P a) :=
  match x with
  | .error _ => isTrue nofun
  | .ok a => decidable_of_iff (P a) ⟨fun h _ heq => Except.ok.inj heq ▸ h, fun h => h a rfl⟩

/-- Checks in sequence pass together. -/
theorem passed {ε α β : Type} {x : Except ε α} {f : α → Except ε β} {b : β}
    (h : x >>= f = .ok b) : ∃ a, x = .ok a ∧ f a = .ok b :=
  bind_eq_ok.mp h

theorem checked {ε β : Type} {x : Except ε Unit} {f : Unit → Except ε β} {b : β}
    (h : x >>= f = .ok b) : x = .ok () ∧ f () = .ok b := by
  obtain ⟨_, hx, hf⟩ := passed h
  exact ⟨hx, hf⟩

theorem admitted {ε α β : Type} {c : Prop} [Decidable c] {err : ε} {f : α → Except ε β} {x : Except ε β} {b : β}
    (h : (if c then throw err >>= f else x) = .ok b) : ¬ c ∧ x = .ok b := by
  split_ifs at h with hc
  · cases h
  · exact ⟨hc, h⟩

variable {key : String} {metadata : GoMap}

/-- Metadata that was accepted has no reserved key. -/
theorem find?_of_validateMetadataFrom (hkey : reservedKey key = true)
    {total : Nat} (h : validateMetadataFrom total metadata = .ok ()) : metadata.find? (fun e => e.1 == key) = none := by
  induction metadata generalizing total with
  | nil => rfl
  | cons entry rest ih =>
    simp only [validateMetadataFrom] at h
    split_ifs at h with hk
    have hne : entry.1 ≠ key := fun heq => hk (heq ▸ hkey)
    simpa [hne] using ih h

theorem get_of_validateMetadataFrom (hkey : reservedKey key = true)
    {total : Nat} (h : validateMetadataFrom total metadata = .ok ()) : metadata.get key = "" := by
  rw [GoMap.get, find?_of_validateMetadataFrom hkey h]
  rfl

/-- The object to be written is not a delete marker. -/
def Unmarked (metadata : GoMap) : Prop := metadata.get "_aero_delete_marker" = ""

theorem unmarked_of_validateMetadata (h : validateMetadata metadata = .ok ()) :
    Unmarked metadata := get_of_validateMetadataFrom (by decide) h

variable {k : String}

theorem Unmarked.set (h : Unmarked metadata) (v : String)
    (hk : k ≠ "_aero_delete_marker") : Unmarked (metadata.set k v) :=
  (GoMap.get_set_ne v hk).trans h

theorem Unmarked.delete (h : Unmarked metadata)
    (hk : k ≠ "_aero_delete_marker") : Unmarked (metadata.delete k) :=
  (GoMap.get_delete_ne hk).trans h

variable {o : Object}

theorem Unmarked.isDeleteMarker (h : Unmarked o.metadata) : o.isDeleteMarker = false := by
  unfold Unmarked at h
  simp [Object.isDeleteMarker, h]

/-- The reserved keys that a `Put` itself writes. -/
def putMetadataKeys : List String :=
  ["_aero_content_disposition", "_aero_content_encoding", "_aero_content_md5", ownerMetadataKey]

variable (hkey : key ∉ putMetadataKeys)
include hkey

theorem get_set_of_notMem {v : String} (hk : k ∈ putMetadataKeys) :
    (metadata.set k v).get key = metadata.get key :=
  GoMap.get_set_ne v fun heq => hkey (heq ▸ hk)

theorem get_storeContentHeaders {opts : PutOptions}
    (h : storeContentHeaders opts = .ok metadata) :
    metadata.get key = opts.metadata.get key := by
  unfold storeContentHeaders at h
  split at h
  · cases h
  · cases h
    have hset (m : GoMap) (k v : String) (hk : k ∈ putMetadataKeys) : (m.set k v).get key = m.get key :=
      get_set_of_notMem hkey hk
    split_ifs
    · rfl
    · rw [hset _ _ _ (by simp [putMetadataKeys])]
    · rw [hset _ _ _ (by simp [putMetadataKeys])]
    · rw [hset _ _ _ (by simp [putMetadataKeys]), hset _ _ _ (by simp [putMetadataKeys])]

theorem get_storeContentMD5 (contentMD5 : String) (metadata : GoMap) :
    (storeContentMD5 contentMD5 metadata).get key = metadata.get key := by
  unfold storeContentMD5
  split_ifs
  · rfl
  · exact get_set_of_notMem hkey (by simp [putMetadataKeys])

theorem get_metadataWithOwner (metadata : GoMap) (owner : String) :
    (metadataWithOwner metadata owner).get key = metadata.get key := by
  unfold metadataWithOwner
  split_ifs
  · rfl
  · exact get_set_of_notMem hkey (by simp [putMetadataKeys])

variable {s : Vault}

theorem get_preparePutAccess {ctx : Ctx} {k : Path} {owned : GoMap}
    (h : preparePutAccess ctx s k metadata = .ok owned) :
    owned.get key = metadata.get key := by
  obtain ⟨-, h⟩ := checked h
  split at h
  · obtain ⟨-, h⟩ := checked h
    cases h
    exact get_metadataWithOwner hkey _ _
  · obtain ⟨-, h⟩ := checked h
    cases h
    exact get_metadataWithOwner hkey _ _

omit hkey

theorem unmarked_storeContentHeaders {opts : PutOptions}
    (hm : Unmarked opts.metadata) (h : storeContentHeaders opts = .ok metadata) : Unmarked metadata :=
  (get_storeContentHeaders (by decide) h).trans hm

theorem unmarked_storeContentMD5 (hm : Unmarked metadata) (contentMD5 : String) :
    Unmarked (storeContentMD5 contentMD5 metadata) :=
  (get_storeContentMD5 (by decide) contentMD5 metadata).trans hm

theorem unmarked_preparePutAccess {ctx : Ctx} {k : Path} {owned : GoMap}
    (hm : Unmarked metadata) (h : preparePutAccess ctx s k metadata = .ok owned) : Unmarked owned :=
  (get_preparePutAccess (by decide) h).trans hm

theorem objectVersion_mem {tenant bucket versionID : String}
    (h : objectVersion s tenant bucket key versionID = .ok o) : o ∈ s.objects.rows := by
  obtain ⟨k, -, h⟩ := passed h
  split at h
  next found hfound =>
    cases h
    split at hfound
    · exact (getObject_some hfound).1
    · exact (getObjectVersion_some hfound).1
  · cases h

theorem not_protected_of_check {now : Nat}
    (h : checkObjectProtection s now o = .ok ()) : ¬ Protected s now o := by
  intro hp
  unfold checkObjectProtection at h
  obtain ⟨till, ht, hlt⟩ | hh := hp
  · rw [ht] at h
    simp [hlt] at h
  · cases hl : o.lockedUntil <;> rw [hl] at h <;> simp only [hh] at h <;> split_ifs at h

end AeroVault.Service
