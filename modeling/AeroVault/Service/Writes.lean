import AeroVault.Service.Checks

/-! Writing objects: `Put` and multipart uploads.

Each operation first makes its checks, which only read (`preparePut`,
`prepareCompletion`), and then stores the blob and writes the row. Failures after
the blob was stored are part of the model: a body that does not have the declared
size or digest is stored first and its blob deleted again. -/
namespace AeroVault.Service
open Lib Repository Access

/-! ### Rows for stored blobs -/

/-- `storage.GenerationMetadataKey`. -/
def withGeneration (generation : String) (metadata : GoMap) : GoMap :=
  if generation = "" then metadata else metadata.set "_aero_storage_generation" generation

theorem get_withGeneration {key : String} (h : "_aero_storage_generation" ≠ key) (generation : String)
    (metadata : GoMap) : (withGeneration generation metadata).get key = metadata.get key := by
  unfold withGeneration
  split_ifs
  · rfl
  · exact GoMap.get_set_ne _ h

theorem unmarked_withGeneration {metadata : GoMap} (hm : Unmarked metadata) (generation : String) :
    Unmarked (withGeneration generation metadata) :=
  (get_withGeneration (by decide) generation metadata).trans hm

/-- In seconds; `S3.defaultLock` has the code's arithmetic. -/
def lockedUntil (now lockSeconds : Nat) : Option Nat :=
  if lockSeconds > 0 then some (now + lockSeconds) else none

/-- The row of a key is inserted as a new version, or upserted; then the canned ACL
is set on the live row, which is the one just written, and a hold is put on it. -/
def saveObject (ctx : Ctx) (s : Vault) (obj : Object) (versioning : Bool) (acl : String)
    (hold : Bool) (holdReason : String) : Object × Vault :=
  let written :=
    if versioning then insertObjectVersion ctx.now obj s.objects
    else upsertObject ctx.now obj s.objects
  let objects :=
    if acl = "" then written.2 else committed written.2 (setObjectACL obj.path acl written.2)
  let saved := {s with objects := objects}
  let record : LegalHold :=
    ⟨written.1.id, written.1.path.tenantID, written.1.versionID, holdReason, ctx.caller⟩
  (written.1, if hold then saved.putLegalHold record else saved)

/-! ### Put -/

structure PutRequest where
  tenant : String
  bucket : String
  key : String
  body : Bytes
  /-- The declared size, if it is known. -/
  size : Option Nat
  opts : PutOptions
  deriving DecidableEq

/-- What `Put` has decided before it stores the body. -/
structure PutPlan where
  path : Path
  config : BucketConfig
  usage : ObjectWriteUsage
  size : Nat
  metadata : GoMap
  storageKey : String
  expectedMD5 : Option Bytes
  deriving DecidableEq

/-- `md5WrapReader`: the declared digest, if there is one, must decode. -/
def expectedMD5 (ctx : Ctx) (contentMD5 : String) : Except ServiceError (Option Bytes) :=
  if contentMD5 = "" then .ok none
  else
    match ctx.decodeBase64 contentMD5 with
    | some digest => .ok (some digest)
    | none => .error (.invalidArgs .base64ContentMD5)

def acceptObjectKey (key : String) : Except ServiceError Unit :=
  if validObjectKey key then .ok () else .error .invalidStorageKey

/-- `Put`, up to the write of the blob. -/
def preparePut (ctx : Ctx) (req : PutRequest) (s : Vault) : Except ServiceError PutPlan := do
  let k := defaults req.tenant req.bucket req.key
  validateKey req.key
  validateMetadata req.opts.metadata
  let headed ← storeContentHeaders req.opts
  let owned ← preparePutAccess ctx s k headed
  validateACL req.opts.acl
  let size := req.size.getD req.body.length
  preflightQuota s k.tenantID 0 0
  admitBucket ctx k
  let cfg := s.config k
  checkOverwriteProtection s ctx.now k cfg.versioning
  let usage := objectWriteUsage s k cfg.versioning
  preflightQuota s k.tenantID (usage.deltas size).1 (usage.deltas size).2
  preflightBucketQuota s k (usage.deltas size).1 (usage.deltas size).2
  let sk := versionedStorageKey cfg.versioning k ctx.newVersionID
  let digest ← expectedMD5 ctx req.opts.contentMD5
  acceptObjectKey sk
  return ⟨k, cfg, usage, size, storeContentMD5 req.opts.contentMD5 owned, sk, digest⟩

/-- What the checks of `Put` have established about its plan. The metadata have no reserved key
but those that `Put` itself writes. -/
structure Planned (ctx : Ctx) (req : PutRequest) (s : Vault) (plan : PutPlan) : Prop where
  key : checkedObjectDefaults req.tenant req.bucket req.key = .ok plan.path
  path : plan.path = defaults req.tenant req.bucket req.key
  config : plan.config = s.config plan.path
  storageKey : plan.storageKey = versionedStorageKey plan.config.versioning plan.path ctx.newVersionID
  valid : validObjectKey plan.storageKey = true
  usage : plan.usage = objectWriteUsage s plan.path plan.config.versioning
  unprotected : checkOverwriteProtection s ctx.now plan.path plan.config.versioning = .ok ()
  metadata : ∀ key, reservedKey key = true → key ∉ putMetadataKeys → plan.metadata.get key = ""

variable {ctx : Ctx} {req : PutRequest} {s : Vault} {plan : PutPlan}

theorem Planned.unmarked (h : Planned ctx req s plan) : Unmarked plan.metadata :=
  h.metadata _ (by decide) (by decide)

theorem planned (h : preparePut ctx req s = .ok plan) : Planned ctx req s plan := by
  obtain ⟨hkey, h⟩ := checked h
  obtain ⟨hm, h⟩ := checked h
  obtain ⟨headed, hh, h⟩ := passed h
  obtain ⟨owned, ho, h⟩ := passed h
  obtain ⟨-, h⟩ := checked h
  obtain ⟨-, h⟩ := checked h
  obtain ⟨-, h⟩ := checked h
  obtain ⟨hpr, h⟩ := checked h
  obtain ⟨-, h⟩ := checked h
  obtain ⟨-, h⟩ := checked h
  obtain ⟨digest, -, h⟩ := passed h
  obtain ⟨hac, h⟩ := checked h
  cases h
  refine ⟨by simp only [checkedObjectDefaults, hkey], rfl, rfl, rfl, ?_, rfl, hpr, fun key hres hkey => ?_⟩
  · unfold acceptObjectKey at hac
    split_ifs at hac with hv
    exact hv
  · calc (storeContentMD5 req.opts.contentMD5 owned).get key
      _ = owned.get key := get_storeContentMD5 hkey _ _
      _ = headed.get key := get_preparePutAccess hkey ho
      _ = req.opts.metadata.get key := get_storeContentHeaders hkey hh
      _ = "" := get_of_validateMetadataFrom hres hm

def PutPlan.digestMatches (plan : PutPlan) (ctx : Ctx) (body : Bytes) : Bool :=
  plan.expectedMD5.all fun digest => ctx.md5 body == digest

/-- The body has the declared size and digest. -/
def PutPlan.accepts (plan : PutPlan) (ctx : Ctx) (body : Bytes) : Bool :=
  body.length == plan.size && plan.digestMatches ctx body

def buildPutObject (ctx : Ctx) (req : PutRequest) (plan : PutPlan) : Object where
  path := plan.path
  versionID := ctx.newVersionID
  backend := ctx.backend
  storageKey := plan.storageKey
  size := req.body.length
  etag := ctx.etag req.body
  contentType := req.opts.contentType
  metadata := withGeneration ctx.generation plan.metadata
  tags := req.opts.tags
  storageClass := defaultStorageClass req.opts.storageClass
  lockedUntil := lockedUntil ctx.now plan.config.objectLockSeconds

def writePutObject (ctx : Ctx) (req : PutRequest) (plan : PutPlan) (s : Vault) : Object × Vault :=
  let saved := saveObject ctx s (buildPutObject ctx req plan) plan.config.versioning req.opts.acl
    req.opts.legalHold "s3 upload"
  (saved.1, accountObjectUsage saved.2 plan.path.tenantID plan.usage saved.1.size)

def put (ctx : Ctx) (req : PutRequest) (s : Vault) : Except ServiceError Object × Vault :=
  match preparePut ctx req s with
  | .error err => (.error err, s)
  | .ok plan =>
    let stored := s.putBlob plan.storageKey req.body ctx.now
    if req.body.length ≠ plan.size then
      (.error (.sizeMismatch plan.size req.body.length), stored.deleteBlob plan.storageKey)
    else if !plan.digestMatches ctx req.body then (.error .badDigest, stored.deleteBlob plan.storageKey)
    else
      let written := writePutObject ctx req plan stored
      (.ok written.1, written.2)

/-! ### Multipart uploads -/

def pendingACLMetadataKey : String := "_aero_pending_acl"
def pendingLegalHoldKey : String := "_aero_pending_legal_hold"

/-- The pending settings of the object to be, kept in the upload's metadata. -/
def withPending (opts : PutOptions) (metadata : GoMap) : GoMap :=
  let withACL := if opts.acl = "" then metadata else metadata.set pendingACLMetadataKey opts.acl
  if opts.legalHold then withACL.set pendingLegalHoldKey "ON" else withACL

/-- `InitMultipart`. The storage key and the version are fixed here. -/
def prepareUpload (ctx : Ctx) (req : PutRequest) (s : Vault) : Except ServiceError Upload := do
  let k := defaults req.tenant req.bucket req.key
  validateKey req.key
  validateMetadata req.opts.metadata
  let headed ← storeContentHeaders req.opts
  let owned ← preparePutAccess ctx s k headed
  validateACL req.opts.acl
  preflightQuota s k.tenantID 0 0
  admitBucket ctx k
  let sk := versionedStorageKey (s.config k).versioning k ctx.newVersionID
  acceptObjectKey sk
  return {
    id := ctx.newUploadID, path := k, versionID := ctx.newVersionID, backend := ctx.backend
    backendUID := ctx.newUploadID, storageKey := sk, contentType := req.opts.contentType
    metadata := storeContentMD5 req.opts.contentMD5 (withPending req.opts owned)
    tags := req.opts.tags, storageClass := defaultStorageClass req.opts.storageClass }

def initMultipart (ctx : Ctx) (req : PutRequest) (s : Vault) : Except ServiceError Upload × Vault :=
  match prepareUpload ctx req s with
  | .error err => (.error err, s)
  | .ok u => (.ok u, {s with uploads := s.uploads ++ [u]})

/-- What holds of every upload from its start. -/
structure UploadSound (u : Upload) : Prop where
  unmarked : Unmarked u.metadata
  storageKey : u.storageKey ≠ ""
  backend : u.backendUID = u.id

theorem unmarked_withPending {metadata : GoMap} (hm : Unmarked metadata) (opts : PutOptions) :
    Unmarked (withPending opts metadata) := by
  unfold withPending
  split_ifs
  · exact hm.set _ (by decide)
  · exact hm
  · exact (hm.set _ (by decide)).set _ (by decide)
  · exact hm.set _ (by decide)

theorem prepareUpload_sound {u : Upload}
    (h : prepareUpload ctx req s = .ok u) : UploadSound u ∧ u.versionID = ctx.newVersionID := by
  obtain ⟨-, h⟩ := checked h
  obtain ⟨hmt, h⟩ := checked h
  obtain ⟨headed, hh, h⟩ := passed h
  obtain ⟨owned, ho, h⟩ := passed h
  obtain ⟨-, h⟩ := checked h
  obtain ⟨-, h⟩ := checked h
  obtain ⟨-, h⟩ := checked h
  obtain ⟨hac, h⟩ := checked h
  cases h
  have hm := unmarked_storeContentHeaders (unmarked_of_validateMetadata hmt) hh
  have hpn := unmarked_withPending (unmarked_preparePutAccess hm ho) req.opts
  refine ⟨⟨unmarked_storeContentMD5 hpn _, fun hem => ?_, rfl⟩, rfl⟩
  have hkey : acceptObjectKey "" = .ok () := hem ▸ hac
  revert hkey
  decide

structure MultipartScope where
  tenantID : String
  bucket : String
  key : String
  deriving DecidableEq

/-- Empty bucket and key match every upload of the tenant. -/
def MultipartScope.matchesPath (scope : MultipartScope) (k : Path) : Bool :=
  k.tenantID == defaultTenant scope.tenantID && (scope.bucket == "" || k.bucket == scope.bucket) &&
    (scope.key == "" || k.key == scope.key)

def uploadResource (u : Upload) : Resource := pathResource u.path (u.metadata.get ownerMetadataKey)

def loadMultipartUpload (ctx : Ctx) (scope : MultipartScope) (uploadID : String) (s : Vault) :
    Except ServiceError Upload :=
  match s.uploads.find? fun u => u.id == uploadID with
  | none => .error .uploadNotFound
  | some u =>
    if !scope.matchesPath u.path then .error .uploadNotFound
    else
      match ctx.authorize .write (uploadResource u) with
      | some err => .error err
      | none => .ok u

def uploadStorageKey (u : Upload) : String := if u.storageKey = "" then storageKey u.path else u.storageKey

/-- `RecordPart`. -/
def recordPart (s : Vault) (part : PartRecord) : Vault :=
  {s with parts := part ::
    s.parts.filter fun p => !(p.uploadID == part.uploadID && p.partNumber == part.partNumber)}

def stagePart (s : Vault) (uploadID : String) (partNumber : Int) (data : Bytes) : Vault :=
  let parts := Function.update (s.staged uploadID) partNumber (some data)
  {s with staged := Function.update s.staged uploadID parts}

/-- `UploadPartFor`. The backend keeps the part even if its size turns out wrong. -/
def uploadPart (ctx : Ctx) (scope : MultipartScope) (uploadID : String) (partNumber : Int)
    (body : Bytes) (size : Option Nat) (s : Vault) : Except ServiceError PartRecord × Vault :=
  match loadMultipartUpload ctx scope uploadID s with
  | .error err => (.error err, s)
  | .ok u =>
    match preflightQuota s u.path.tenantID 0 0 with
    | .error err => (.error err, s)
    | .ok () =>
      if partNumber < 1 ∨ partNumber > 10000 then (.error (.invalidArgs .partNumber), s)
      else
        let staged := stagePart s u.backendUID partNumber body
        let expected := size.getD body.length
        if body.length ≠ expected then (.error (.sizeMismatch expected body.length), staged)
        else
          let part : PartRecord := ⟨uploadID, partNumber, ctx.etag body, expected⟩
          (.ok part, recordPart staged part)

/-- `ListParts`, in ascending order. -/
def listParts (s : Vault) (uploadID : String) : List PartRecord :=
  (s.parts.filter fun p => p.uploadID == uploadID).insertionSort fun a b => a.partNumber ≤ b.partNumber

def selectFrom (stored : List PartRecord) (previous : Int) :
    List PartRecord → Except ServiceError (List PartRecord)
  | [] => .ok []
  | requested :: rest =>
    if requested.partNumber ≤ previous then .error (.invalidArgs .partsNotAscending)
    else
      match stored.find? fun p => p.partNumber == requested.partNumber with
      | none => .error (.invalidArgs (.partNotUploaded requested.partNumber))
      | some part =>
        if !GoText.equalFold (GoText.trim '"' requested.etag) (GoText.trim '"' part.etag) then
          .error (.partETagMismatch requested.partNumber)
        else
          match selectFrom stored requested.partNumber rest with
          | .error err => .error err
          | .ok selected => .ok (part :: selected)

def selectMultipartParts (client stored : List PartRecord) : Except ServiceError (List PartRecord) :=
  if client = [] then .error (.invalidArgs .emptyManifest) else selectFrom stored 0 client

def multipartCompletionParts (s : Vault) (uploadID : String) (manifest : Option (List PartRecord)) :
    Except ServiceError (List PartRecord) :=
  match manifest with
  | some client => selectMultipartParts client (listParts s uploadID)
  | none =>
    if listParts s uploadID = [] then .error (.invalidArgs .noPartsUploaded)
    else .ok (listParts s uploadID)

/-- What a completion has decided before it has any effect. -/
structure CompletionPlan where
  upload : Upload
  parts : List PartRecord
  config : BucketConfig
  usage : ObjectWriteUsage
  deriving DecidableEq

/-- `buildPartList`'s total: the recorded sizes. -/
def CompletionPlan.total (plan : CompletionPlan) : Nat := (plan.parts.map PartRecord.size).sum

/-- `CompleteMultipart`, up to the accounting. The configuration is read anew: the
storage key is the one of `InitMultipart`, the versioning the current one. -/
def prepareCompletion (ctx : Ctx) (scope : MultipartScope) (uploadID : String)
    (manifest : Option (List PartRecord)) (s : Vault) : Except ServiceError CompletionPlan := do
  let u ← loadMultipartUpload ctx scope uploadID s
  let parts ← multipartCompletionParts s uploadID manifest
  let cfg := s.config u.path
  checkMultipartLock s ctx.now u cfg.versioning
  let usage := objectWriteUsage s u.path cfg.versioning
  let total := (parts.map PartRecord.size).sum
  preflightQuota s u.path.tenantID (usage.deltas total).1 (usage.deltas total).2
  preflightBucketQuota s u.path (usage.deltas total).1 (usage.deltas total).2
  return ⟨u, parts, cfg, usage⟩

variable {uploadID : String}

theorem mem_listParts {p : PartRecord} : p ∈ listParts s uploadID ↔ p ∈ s.parts ∧ p.uploadID = uploadID := by
  simp [listParts]

theorem selectFrom_cons {stored rest selected : List PartRecord} {requested : PartRecord} {previous : Int}
    (h : selectFrom stored previous (requested :: rest) = .ok selected) :
    previous < requested.partNumber ∧ ∃ part later, stored.find? (·.partNumber == requested.partNumber) = some part ∧
      selectFrom stored requested.partNumber rest = .ok later ∧ part :: later = selected := by
  unfold selectFrom at h
  split_ifs at h with hprev
  split at h
  · cases h
  next part hpr =>
    split_ifs at h
    split at h
    · cases h
    next later hl => exact ⟨not_le.mp hprev, part, later, hpr, hl, Except.ok.inj h⟩

theorem selectFrom_mem {stored client selected : List PartRecord} {previous : Int}
    (h : selectFrom stored previous client = .ok selected) : ∀ p ∈ selected, p ∈ stored := by
  induction client generalizing previous selected with
  | nil =>
    cases h
    exact nofun
  | cons requested rest ih =>
    obtain ⟨-, part, later, hpr, hl, rfl⟩ := selectFrom_cons h
    exact List.forall_mem_cons.mpr ⟨List.mem_of_find?_eq_some hpr, ih hl⟩

/-- The parts of a completion are parts that the upload has received. -/
theorem multipartCompletionParts_mem {manifest : Option (List PartRecord)} {parts : List PartRecord}
    (h : multipartCompletionParts s uploadID manifest = .ok parts) :
    ∀ p ∈ parts, p ∈ s.parts ∧ p.uploadID = uploadID := by
  intro p hp
  refine mem_listParts.mp ?_
  unfold multipartCompletionParts at h
  split at h
  · unfold selectMultipartParts at h
    split at h
    · cases h
    · exact selectFrom_mem h p hp
  · split at h
    · cases h
    · cases h
      exact hp

structure CompletionPlanned (ctx : Ctx) (s : Vault) (uploadID : String) (plan : CompletionPlan) :
    Prop where
  upload : plan.upload ∈ s.uploads ∧ plan.upload.id = uploadID
  parts : ∀ p ∈ plan.parts, p ∈ s.parts ∧ p.uploadID = uploadID
  usage : plan.usage = objectWriteUsage s plan.upload.path plan.config.versioning
  unprotected :
    checkOverwriteProtection s ctx.now plan.upload.path plan.config.versioning = .ok ()

theorem loadMultipartUpload_ok {scope : MultipartScope}
    {u : Upload} (h : loadMultipartUpload ctx scope uploadID s = .ok u) :
    u ∈ s.uploads ∧ u.id = uploadID := by
  unfold loadMultipartUpload at h
  split at h
  · cases h
  next found hfound =>
    have hu : found = u := by
      split at h
      · cases h
      · split at h
        · cases h
        · exact Except.ok.inj h
    rw [← hu]
    exact ⟨List.mem_of_find?_eq_some hfound, by simpa using List.find?_some hfound⟩

theorem completionPlanned {scope : MultipartScope}
    {manifest : Option (List PartRecord)} {plan : CompletionPlan}
    (h : prepareCompletion ctx scope uploadID manifest s = .ok plan) :
    CompletionPlanned ctx s uploadID plan := by
  obtain ⟨u, hu, h⟩ := passed h
  obtain ⟨parts, hpr, h⟩ := passed h
  obtain ⟨hl, h⟩ := checked h
  obtain ⟨-, h⟩ := checked h
  obtain ⟨-, h⟩ := checked h
  cases h
  exact ⟨loadMultipartUpload_ok hu, multipartCompletionParts_mem hpr, rfl, hl⟩

/-- The part files of a manifest, joined; none if one is missing. -/
def mergeParts (s : Vault) (u : Upload) (parts : List PartRecord) : Option Bytes :=
  (parts.mapM fun p => s.staged u.backendUID p.partNumber).map List.flatten

def buildObjectFromUpload (ctx : Ctx) (plan : CompletionPlan) (data : Bytes) : Object where
  path := plan.upload.path
  versionID := plan.upload.versionID
  backend := plan.upload.backend
  storageKey := plan.upload.storageKey
  size := if data.length = 0 then plan.total else data.length
  etag := ctx.multipartETag (plan.parts.map PartRecord.etag)
  contentType := plan.upload.contentType
  metadata := withGeneration ctx.generation plan.upload.metadata
  tags := plan.upload.tags
  storageClass := plan.upload.storageClass
  lockedUntil := lockedUntil ctx.now plan.config.objectLockSeconds

def withoutPending (metadata : GoMap) : GoMap :=
  (metadata.delete pendingACLMetadataKey).delete pendingLegalHoldKey

/-- `saveMultipartObject`: the pending settings are taken out of the metadata. -/
def saveMultipartObject (ctx : Ctx) (s : Vault) (obj : Object) (versioning : Bool) : Object × Vault :=
  let acl := obj.metadata.get pendingACLMetadataKey
  let hold := obj.metadata.get pendingLegalHoldKey == "ON"
  let cleaned := if acl ≠ "" ∨ hold then {obj with metadata := withoutPending obj.metadata} else obj
  saveObject ctx s cleaned versioning acl hold "s3 multipart upload"

def multipartCompleteKey (uploadID : String) : String := "_mp_complete:" ++ uploadID

/-- The backend's upload is consumed, and with `DeleteUpload` the session and its parts. -/
def dropStaged (s : Vault) (u : Upload) : Vault :=
  {s with staged := Function.update s.staged u.backendUID fun _ => none}

def closeUpload (s : Vault) (u : Upload) (saved : Object) : Vault :=
  {s with
    completions := ⟨u.path.tenantID, multipartCompleteKey u.id, saved⟩ :: s.completions
    uploads := s.uploads.filter fun v => !(v.id == u.id)
    parts := s.parts.filter fun p => !(p.uploadID == u.id)}

/-- The usage is accounted before the backend merges the parts. -/
def accountCompletion (plan : CompletionPlan) (s : Vault) : Vault :=
  dropStaged (accountObjectUsage s plan.upload.path.tenantID plan.usage plan.total) plan.upload

def storeCompletion (ctx : Ctx) (plan : CompletionPlan) (data : Bytes) (s : Vault) : Object × Vault :=
  let stored := (accountCompletion plan s).putBlob (uploadStorageKey plan.upload) data ctx.now
  saveMultipartObject ctx stored (buildObjectFromUpload ctx plan data) plan.config.versioning

def finishMultipartCompletion (ctx : Ctx) (plan : CompletionPlan) (s : Vault) :
    Except ServiceError Object × Vault :=
  match mergeParts s plan.upload plan.parts with
  | none => (.error .storageComplete, accountCompletion plan s)
  | some data =>
    let saved := storeCompletion ctx plan data s
    (.ok saved.1, closeUpload saved.2 plan.upload saved.1)

/-- `replayMultipartCompletion`: the cached object, for a caller who may write it. -/
def replayMultipartCompletion (ctx : Ctx) (scope : MultipartScope) (cached : Object) :
    Except ServiceError Object :=
  if !scope.matchesPath cached.path then .error (.forbidden "multipart scope")
  else
    match authorizeObject ctx .write cached with
    | .error err => .error err
    | .ok () => .ok cached

/-- The completion cached for an upload, if it has completed. -/
def cachedCompletion (s : Vault) (scope : MultipartScope) (uploadID : String) : Option Completion :=
  s.completions.find? fun c =>
    c.tenantID == defaultTenant scope.tenantID && c.idemKey == multipartCompleteKey uploadID

def completeMultipart (ctx : Ctx) (scope : MultipartScope) (uploadID : String)
    (manifest : Option (List PartRecord)) (s : Vault) : Except ServiceError Object × Vault :=
  match cachedCompletion s scope uploadID with
  | some completion => (replayMultipartCompletion ctx scope completion.object, s)
  | none =>
    match prepareCompletion ctx scope uploadID manifest s with
    | .error err => (.error err, s)
    | .ok plan => finishMultipartCompletion ctx plan s

end AeroVault.Service
