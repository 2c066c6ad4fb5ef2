import AeroVault.Service.Removals
import AeroVault.Service.Writes

/-! Calls of the service, and the effect of each on rows and blobs.

`Call.effect` says, from the state before a call, which storage keys the call
writes or deletes, which rows it removes or replaces, and which row it stores. It
is read off the same checks that the call makes; that a call has exactly this
effect is proved in `AeroVault.Service.Effects`. -/
namespace AeroVault.Service
open Lib Repository Access

inductive Request
  | put (req : PutRequest)
  | initMultipart (req : PutRequest)
  | uploadPart (scope : MultipartScope) (uploadID : String) (partNumber : Int) (body : Bytes)
      (size : Option Nat)
  | completeMultipart (scope : MultipartScope) (uploadID : String)
      (manifest : Option (List PartRecord))
  | delete (tenant bucket key : String) (hard : Bool)
  | adminDelete (tenant bucket key : String) (hard : Bool)
  | deleteVersion (tenant bucket key versionID : String)
  | restoreObject (tenant bucket key : String)
  | createDeleteMarker (tenant bucket key : String)
  | setBucketVersioning (tenant bucket : String) (enabled : Bool)
  | setBucketObjectLock (tenant bucket : String) (seconds : Nat)
  | setObjectRetention (tenant bucket key versionID mode : String) (till : Nat)
  | putLegalHold (tenant bucket key versionID reason : String)

structure Call where
  ctx : Ctx
  request : Request

/-- The vault after a call. -/
def Vault.next (s : Vault) (c : Call) : Vault :=
  match c.request with
  | .put req => (put c.ctx req s).2
  | .initMultipart req => (initMultipart c.ctx req s).2
  | .uploadPart scope uploadID partNumber body size =>
    (uploadPart c.ctx scope uploadID partNumber body size s).2
  | .completeMultipart scope uploadID manifest =>
    (completeMultipart c.ctx scope uploadID manifest s).2
  | .delete tenant bucket key hard => (delete c.ctx tenant bucket key hard s).2
  | .adminDelete tenant bucket key hard => (adminDelete c.ctx tenant bucket key hard s).2
  | .deleteVersion tenant bucket key versionID =>
    (deleteVersion c.ctx tenant bucket key versionID s).2
  | .restoreObject tenant bucket key => (restore c.ctx tenant bucket key s).2
  | .createDeleteMarker tenant bucket key => (createDeleteMarker c.ctx tenant bucket key s).2
  | .setBucketVersioning tenant bucket enabled =>
    (setBucketVersioning c.ctx tenant bucket enabled s).2
  | .setBucketObjectLock tenant bucket seconds =>
    (setBucketObjectLock c.ctx tenant bucket seconds s).2
  | .setObjectRetention tenant bucket key versionID mode till =>
    (setRetention c.ctx tenant bucket key versionID mode till s).2
  | .putLegalHold tenant bucket key versionID reason =>
    (placeLegalHold c.ctx tenant bucket key versionID reason s).2

def Call.succeeds (c : Call) (s : Vault) : Bool :=
  match c.request with
  | .put req => (put c.ctx req s).1.isOk
  | .initMultipart req => (initMultipart c.ctx req s).1.isOk
  | .uploadPart scope uploadID partNumber body size =>
    (uploadPart c.ctx scope uploadID partNumber body size s).1.isOk
  | .completeMultipart scope uploadID manifest =>
    (completeMultipart c.ctx scope uploadID manifest s).1.isOk
  | .delete tenant bucket key hard => (delete c.ctx tenant bucket key hard s).1.isOk
  | .adminDelete tenant bucket key hard => (adminDelete c.ctx tenant bucket key hard s).1.isOk
  | .deleteVersion tenant bucket key versionID =>
    (deleteVersion c.ctx tenant bucket key versionID s).1.isOk
  | .restoreObject tenant bucket key => (restore c.ctx tenant bucket key s).1.isOk
  | .createDeleteMarker tenant bucket key => (createDeleteMarker c.ctx tenant bucket key s).1.isOk
  | .setBucketVersioning tenant bucket enabled =>
    (setBucketVersioning c.ctx tenant bucket enabled s).1.isOk
  | .setBucketObjectLock tenant bucket seconds =>
    (setBucketObjectLock c.ctx tenant bucket seconds s).1.isOk
  | .setObjectRetention tenant bucket key versionID mode till =>
    (setRetention c.ctx tenant bucket key versionID mode till s).1.isOk
  | .putLegalHold tenant bucket key versionID reason =>
    (placeLegalHold c.ctx tenant bucket key versionID reason s).1.isOk

/-- A user to whom everything is allowed, at a time and with the identifiers that
the call will draw. -/
def allowedUser (now : Nat) (versionID uploadID : String) : Ctx where
  now := now
  principal := ⟨"user", "acme", .user, [], [], [], none⟩
  caller := "user"
  authorize := fun _ _ => none
  admitBucket := fun _ _ => none
  adminDeleteAction := .delete
  newVersionID := versionID
  newUploadID := uploadID
  backend := "local"
  generation := ""
  md5 := id
  decodeBase64 := fun _ => none
  etag := fun _ => "etag"
  multipartETag := fun _ => "etag"

def plainPut (tenant bucket key : String) (body : Bytes) : PutRequest where
  tenant := tenant
  bucket := bucket
  key := key
  body := body
  size := none
  opts := ⟨"text/plain", "", "", [], [], "", false, "", ""⟩

/-- One object, `a`, with row 1, neither locked nor versioned. -/
def onePut : Vault :=
  run Vault.next .empty
    [⟨allowedUser 1 "v1" "u1", .put (plainPut "acme" "docs" "a" [1])⟩]

/-! ### Effects -/

/-- A row that a call stores: an object with its content, or a delete marker. -/
structure NewRow where
  id : Nat
  versionID : String
  storageKey : String
  content : Option Bytes

structure Effect where
  /-- The storage keys written or, with `none`, deleted. -/
  touches : List (String × Option Bytes)
  /-- The rows removed or overwritten. -/
  removes : List Nat
  adds : Option NewRow

def Effect.quiet : Effect := ⟨[], [], none⟩

/-- The row that a write of `k` replaces: the live one, unless versions are kept. -/
def replacedRow (s : Vault) (k : Path) (versioning : Bool) : Option Object :=
  if versioning then none else getObject s.objects k

/-- The ID of the row that a write of `k` stores. -/
def writtenID (s : Vault) (k : Path) (versioning : Bool) : Nat :=
  ((replacedRow s k versioning).map Object.id).getD s.objects.nextID

def replacedIDs (s : Vault) (k : Path) (versioning : Bool) : List Nat :=
  ((replacedRow s k versioning).map Object.id).toList

def putEffect (ctx : Ctx) (req : PutRequest) (s : Vault) : Effect :=
  match preparePut ctx req s with
  | .error _ => .quiet
  | .ok plan =>
    if plan.accepts ctx req.body then
      { touches := [(plan.storageKey, some req.body)]
        removes := replacedIDs s plan.path plan.config.versioning
        adds := some ⟨writtenID s plan.path plan.config.versioning, ctx.newVersionID,
          plan.storageKey, some req.body⟩ }
    else ⟨[(plan.storageKey, none)], [], none⟩

def completeEffect (ctx : Ctx) (scope : MultipartScope) (uploadID : String)
    (manifest : Option (List PartRecord)) (s : Vault) : Effect :=
  match cachedCompletion s scope uploadID with
  | some _ => .quiet
  | none =>
    match prepareCompletion ctx scope uploadID manifest s with
    | .error _ => .quiet
    | .ok plan =>
      match mergeParts s plan.upload plan.parts with
      | none => .quiet
      | some data =>
        { touches := [(uploadStorageKey plan.upload, some data)]
          removes := replacedIDs s plan.upload.path plan.config.versioning
          adds := some ⟨writtenID s plan.upload.path plan.config.versioning, plan.upload.versionID,
            plan.upload.storageKey, some data⟩ }

/-- The blobs that a removal of `versions` deletes. -/
def deletedBlobs (versions : List Object) : List (String × Option Bytes) :=
  (versions.filter fun o => !o.isDeleteMarker).map fun o => (o.storageKey, none)

def removeEffect (ctx : Ctx) (o : Object) (hard : Bool) (s : Vault) : Effect :=
  if hard then
    match versionsForHardDelete s ctx.now o.path with
    | .error _ => .quiet
    | .ok versions =>
      match hardDeleteObjectWithEvent s.held o.path s.objects with
      | .error _ => ⟨deletedBlobs versions, [], none⟩
      | .ok _ => ⟨deletedBlobs versions, versions.map Object.id, none⟩
  else .quiet

def deleteEffect (ctx : Ctx) (tenant bucket key : String) (hard : Bool) (s : Vault) : Effect :=
  match deletable ctx .delete tenant bucket key s with
  | .error _ => .quiet
  | .ok o =>
    match preflightQuota s o.path.tenantID 0 0 with
    | .error _ => .quiet
    | .ok () => removeEffect ctx o hard s

def adminDeleteEffect (ctx : Ctx) (tenant bucket key : String) (hard : Bool) (s : Vault) : Effect :=
  match checkedObjectDefaults tenant bucket key >>= admitBucket ctx with
  | .error _ => .quiet
  | .ok () =>
    match deletable ctx ctx.adminDeleteAction tenant bucket key s with
    | .error _ => .quiet
    | .ok o => removeEffect ctx o hard s

def versionDeleteEffect (ctx : Ctx) (tenant bucket key versionID : String) (s : Vault) : Effect :=
  match prepareVersionDelete ctx tenant bucket key versionID s with
  | .error _ => .quiet
  | .ok o =>
    match getObjectVersion s.objects o.path o.versionID with
    | none => ⟨deletedBlobs [o], [], none⟩
    | some row => ⟨deletedBlobs [o], if s.held row.id then [] else [row.id], none⟩

def markerEffect (ctx : Ctx) (tenant bucket key : String) (s : Vault) : Effect :=
  match prepareDeleteMarker ctx tenant bucket key s with
  | .error _ => .quiet
  | .ok _ => ⟨[], [], some ⟨s.objects.nextID, ctx.newVersionID, "", none⟩⟩

def Call.effect (c : Call) (s : Vault) : Effect :=
  match c.request with
  | .put req => putEffect c.ctx req s
  | .completeMultipart scope uploadID manifest => completeEffect c.ctx scope uploadID manifest s
  | .delete tenant bucket key hard => deleteEffect c.ctx tenant bucket key hard s
  | .adminDelete tenant bucket key hard => adminDeleteEffect c.ctx tenant bucket key hard s
  | .deleteVersion tenant bucket key versionID =>
    versionDeleteEffect c.ctx tenant bucket key versionID s
  | .createDeleteMarker tenant bucket key => markerEffect c.ctx tenant bucket key s
  | _ => .quiet

end AeroVault.Service
