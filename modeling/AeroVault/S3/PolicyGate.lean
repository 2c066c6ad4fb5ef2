import AeroVault.Lib.Attempt
import AeroVault.Lib.GoText
import AeroVault.Lib.Tables

/-! The bucket-policy gate of the S3 routes and the handlers behind it.

Every handler first calls `authorizeS3Request`, which picks an action from the request
and asks the bucket's policy for it; then the handler picks an operation from the same
request. The two choices are made by different lists: `gate_matches_iff` says for which
requests they come to the same action, and `head_deletes_notifications` shows a request
that is allowed as a read and deletes. -/
namespace AeroVault.S3
open Lib

/-! ### Requests -/

/-- The methods that the code tells apart; `other` is any other one. -/
inductive Method
  | get | head | put | post | delete | other
  deriving DecidableEq

/-- `url.Values`, one pair for each value. -/
abbrev Query := List (String × String)

def Query.has (q : Query) (name : String) : Bool := q.any fun p => p.1 == name

/-- The first value of a parameter, or the empty string. -/
def Query.get (q : Query) (name : String) : String :=
  ((q.find? fun p => p.1 == name).map Prod.snd).getD ""

structure Request where
  method : Method
  bucket : String
  /-- What the wildcard of an object route stands for; `none` on a bucket route. -/
  wildcard : Option String
  query : Query
  /-- The header `x-amz-copy-source`. -/
  copySource : String
  /-- The header `x-amz-expected-bucket-owner`. -/
  expectedOwner : String

def keyFromURL (r : Request) : String := GoText.trimPrefix (r.wildcard.getD "") "/"

inductive S3Error
  | forbidden | invalidArgs | unsupportedPost | methodNotAllowed
  deriving DecidableEq

/-! ### The action of a request -/

structure BucketPolicyActionRule where
  query : String
  getAction : String
  putAction : String
  deleteAction : String
  deriving DecidableEq

def bucketPolicyActionRules : List BucketPolicyActionRule :=
  [⟨"versioning", "s3:GetBucketVersioning", "s3:PutBucketVersioning", ""⟩,
    ⟨"lifecycle", "s3:GetLifecycleConfiguration", "s3:PutLifecycleConfiguration",
      "s3:PutLifecycleConfiguration"⟩,
    ⟨"object-lock", "s3:GetBucketObjectLockConfiguration", "s3:PutBucketObjectLockConfiguration", ""⟩,
    ⟨"acl", "s3:GetBucketAcl", "s3:PutBucketAcl", ""⟩,
    ⟨"location", "s3:GetBucketLocation", "", ""⟩,
    ⟨"versions", "s3:ListBucketVersions", "", ""⟩,
    ⟨"policy", "s3:GetBucketPolicy", "s3:PutBucketPolicy", "s3:DeleteBucketPolicy"⟩,
    ⟨"logging", "s3:GetBucketLogging", "s3:PutBucketLogging", "s3:PutBucketLogging"⟩,
    ⟨"notification", "s3:GetBucketNotification", "s3:PutBucketNotification", "s3:PutBucketNotification"⟩,
    ⟨"accelerate", "s3:GetAccelerateConfiguration", "s3:PutAccelerateConfiguration", ""⟩,
    ⟨"encryption", "s3:GetEncryptionConfiguration", "s3:PutEncryptionConfiguration",
      "s3:PutEncryptionConfiguration"⟩,
    ⟨"website", "s3:GetBucketWebsite", "s3:PutBucketWebsite", "s3:DeleteBucketWebsite"⟩,
    ⟨"tagging", "s3:GetBucketTagging", "s3:PutBucketTagging", "s3:PutBucketTagging"⟩,
    ⟨"uploads", "s3:ListBucketMultipartUploads", "", ""⟩,
    ⟨"cors", "s3:GetBucketCORS", "s3:PutBucketCORS", "s3:PutBucketCORS"⟩,
    ⟨"delete", "", "s3:DeleteObject", "s3:DeleteObject"⟩]

def actionForMethod (m : Method) (rule : BucketPolicyActionRule) : String :=
  let action :=
    match m with
    | .put | .post => rule.putAction
    | .delete => rule.deleteAction
    | .get | .head | .other => rule.getAction
  if action = "" then rule.getAction else action

/-- The first rule whose parameter the request has. -/
def firstRule (q : Query) : Option BucketPolicyActionRule :=
  bucketPolicyActionRules.find? fun rule => q.has rule.query

def bucketPolicyAction (m : Method) (q : Query) : String :=
  match firstRule q with
  | some rule => actionForMethod m rule
  | none =>
    match m with
    | .put => "s3:CreateBucket"
    | .delete => "s3:DeleteBucket"
    | .post => "s3:DeleteObject"
    | .get | .head | .other => "s3:ListBucket"

def objectReadPolicyAction (q : Query) : String :=
  if q.has "tagging" then "s3:GetObjectTagging"
  else if q.has "acl" then "s3:GetObjectAcl"
  else if q.has "legal-hold" then "s3:GetObjectLegalHold"
  else if q.has "retention" then "s3:GetObjectRetention"
  else if q.get "uploadId" ≠ "" then "s3:ListMultipartUploadParts"
  else "s3:GetObject"

def objectWritePolicyAction (q : Query) : String :=
  if q.has "tagging" then "s3:PutObjectTagging"
  else if q.has "acl" then "s3:PutObjectAcl"
  else if q.has "legal-hold" then "s3:PutObjectLegalHold"
  else if q.has "retention" then "s3:PutObjectRetention"
  else if q.has "restore" then "s3:RestoreObject"
  else "s3:PutObject"

def objectPolicyAction (m : Method) (q : Query) : String :=
  match m with
  | .get | .head => objectReadPolicyAction q
  | .put => objectWritePolicyAction q
  | .delete =>
    if q.has "tagging" then "s3:DeleteObjectTagging"
    else if q.get "uploadId" ≠ "" then "s3:AbortMultipartUpload"
    else "s3:DeleteObject"
  | .post | .other => "s3:PutObject"

/-- The action that is evaluated for a request. -/
def policyAction (r : Request) : String :=
  if keyFromURL r ≠ "" then objectPolicyAction r.method r.query else bucketPolicyAction r.method r.query

/-! ### The gate -/

/-- What the gate asks: the tenant of the caller, the policies of the buckets, the
provider of delete permissions, and what is in the body. -/
structure Gate where
  tenant : String
  /-- `checkBucketPolicy` for a bucket, a key and an action. -/
  checkBucketPolicy : String → String → String → Bool
  /-- `authorizeDelete` for a bucket and a key. -/
  authorizeDelete : String → String → Bool
  /-- The body is a policy that can be stored. -/
  policyBody : Bool
  pathUnescape : String → Option String

/-- The bucket and the key of a copy source. -/
def parseCopySource (pathUnescape : String → Option String) (s : String) : Option (String × String) :=
  let rawPath := String.ofList ((GoText.trimPrefix s "/").toList.takeWhile (· ≠ '?'))
  let path := ((pathUnescape rawPath).getD rawPath).toList
  let bucket := String.ofList (path.takeWhile (· ≠ '/'))
  let key := String.ofList ((path.dropWhile (· ≠ '/')).drop 1)
  if bucket = "" ∨ key = "" then none else some (bucket, key)

/-- The caller expects the bucket to be someone else's. -/
abbrev Request.foreignOwner (r : Request) (tenant : String) : Prop :=
  r.expectedOwner ≠ "" ∧ r.expectedOwner ≠ tenant

/-- A copy also reads its source. -/
def authorizeCopySource (g : Gate) (r : Request) : Except S3Error Unit :=
  match parseCopySource g.pathUnescape r.copySource with
  | some (srcBucket, srcKey) =>
    refuseIf (r.copySource ≠ "" ∧ g.checkBucketPolicy srcBucket srcKey "s3:GetObject" = false) .forbidden
  | none => .ok ()

def authorizeS3Request (g : Gate) (r : Request) : Except S3Error Unit := do
  let key := keyFromURL r
  refuseIf (r.foreignOwner g.tenant) .forbidden
  refuseIf (key = "" ∧ r.method = .put ∧ r.query.has "policy" = true ∧ g.policyBody = false) .invalidArgs
  refuseIf (g.checkBucketPolicy r.bucket key (policyAction r) = false) .forbidden
  authorizeCopySource g r
  refuseIf (key ≠ "" ∧ policyAction r = "s3:DeleteObject" ∧ g.authorizeDelete r.bucket key = false)
    .forbidden

/-! ### The operations -/

/-- What a handler goes on to, each under the name of its function. -/
inductive Operation
  | getBucketVersioning | putBucketVersioning
  | getBucketLifecycle | putBucketLifecycle | deleteBucketLifecycle
  | getBucketObjectLock | putBucketObjectLock
  | getBucketACL | putBucketACL
  | getBucketLocation | listObjectVersions
  | getBucketPolicy | putBucketPolicy | deleteBucketPolicy
  | getBucketLogging | putBucketLogging | deleteBucketLogging
  | getBucketNotifications | putBucketNotifications | deleteBucketNotifications
  | getBucketAccelerate | putBucketAccelerate
  | getBucketEncryption | putBucketEncryption | deleteBucketEncryption
  | getBucketWebsite | putBucketWebsite | deleteBucketWebsite
  | getBucketTagging | putBucketTagging | deleteBucketTagging
  | getBucketCORS | putBucketCORS | deleteBucketCORS
  | listMultipartUploads | listObjects | headBucket | createBucket | deleteBucket | deleteObjects
  | getObject | headObject | putObject | deleteObject | copyObject | restoreObject
  | getObjectTagging | putObjectTagging | deleteObjectTagging
  | getObjectACL | putObjectACL
  | getObjectLegalHold | putObjectLegalHold
  | getObjectRetention | putObjectRetention
  | createMultipartUpload | uploadPart | uploadPartCopy | completeMultipartUpload
  | abortMultipartUpload | listParts
  deriving DecidableEq

open Operation

/-- The action that an operation is. An upload in parts and a copy write an object;
removing a setting is what the rules call it for `DELETE`. -/
def Operation.action : Operation → String
  | .getBucketVersioning => "s3:GetBucketVersioning"
  | .putBucketVersioning => "s3:PutBucketVersioning"
  | .getBucketLifecycle => "s3:GetLifecycleConfiguration"
  | .putBucketLifecycle | .deleteBucketLifecycle => "s3:PutLifecycleConfiguration"
  | .getBucketObjectLock => "s3:GetBucketObjectLockConfiguration"
  | .putBucketObjectLock => "s3:PutBucketObjectLockConfiguration"
  | .getBucketACL => "s3:GetBucketAcl"
  | .putBucketACL => "s3:PutBucketAcl"
  | .getBucketLocation => "s3:GetBucketLocation"
  | .listObjectVersions => "s3:ListBucketVersions"
  | .getBucketPolicy => "s3:GetBucketPolicy"
  | .putBucketPolicy => "s3:PutBucketPolicy"
  | .deleteBucketPolicy => "s3:DeleteBucketPolicy"
  | .getBucketLogging => "s3:GetBucketLogging"
  | .putBucketLogging | .deleteBucketLogging => "s3:PutBucketLogging"
  | .getBucketNotifications => "s3:GetBucketNotification"
  | .putBucketNotifications | .deleteBucketNotifications => "s3:PutBucketNotification"
  | .getBucketAccelerate => "s3:GetAccelerateConfiguration"
  | .putBucketAccelerate => "s3:PutAccelerateConfiguration"
  | .getBucketEncryption => "s3:GetEncryptionConfiguration"
  | .putBucketEncryption | .deleteBucketEncryption => "s3:PutEncryptionConfiguration"
  | .getBucketWebsite => "s3:GetBucketWebsite"
  | .putBucketWebsite => "s3:PutBucketWebsite"
  | .deleteBucketWebsite => "s3:DeleteBucketWebsite"
  | .getBucketTagging => "s3:GetBucketTagging"
  | .putBucketTagging | .deleteBucketTagging => "s3:PutBucketTagging"
  | .getBucketCORS => "s3:GetBucketCORS"
  | .putBucketCORS | .deleteBucketCORS => "s3:PutBucketCORS"
  | .listMultipartUploads => "s3:ListBucketMultipartUploads"
  | .listObjects | .headBucket => "s3:ListBucket"
  | .createBucket => "s3:CreateBucket"
  | .deleteBucket => "s3:DeleteBucket"
  | .getObject | .headObject => "s3:GetObject"
  | .putObject | .copyObject => "s3:PutObject"
  | .createMultipartUpload | .uploadPart | .uploadPartCopy | .completeMultipartUpload => "s3:PutObject"
  | .deleteObject | .deleteObjects => "s3:DeleteObject"
  | .restoreObject => "s3:RestoreObject"
  | .getObjectTagging => "s3:GetObjectTagging"
  | .putObjectTagging => "s3:PutObjectTagging"
  | .deleteObjectTagging => "s3:DeleteObjectTagging"
  | .getObjectACL => "s3:GetObjectAcl"
  | .putObjectACL => "s3:PutObjectAcl"
  | .getObjectLegalHold => "s3:GetObjectLegalHold"
  | .putObjectLegalHold => "s3:PutObjectLegalHold"
  | .getObjectRetention => "s3:GetObjectRetention"
  | .putObjectRetention => "s3:PutObjectRetention"
  | .abortMultipartUpload => "s3:AbortMultipartUpload"
  | .listParts => "s3:ListMultipartUploadParts"

abbrev Dispatch := Method → Except S3Error Operation

/-! ### Bucket routes -/

/-- A setting that `PUT` writes and every other method reads. -/
def putOrGet (put get : Operation) : Dispatch
  | .put => .ok put
  | _ => .ok get

/-- A setting that `PUT` writes, `DELETE` removes and every other method reads. -/
def putDeleteOrGet (put delete get : Operation) : Dispatch
  | .put => .ok put
  | .delete => .ok delete
  | _ => .ok get

/-- A setting with one operation for each of three methods. -/
def getPutDelete (get put delete : Operation) : Dispatch
  | .get => .ok get
  | .put => .ok put
  | .delete => .ok delete
  | _ => .error .invalidArgs

def dispatchVersioning : Dispatch := putOrGet .putBucketVersioning .getBucketVersioning

def dispatchLifecycle : Dispatch :=
  putDeleteOrGet .putBucketLifecycle .deleteBucketLifecycle .getBucketLifecycle

def dispatchObjectLock : Dispatch := putOrGet .putBucketObjectLock .getBucketObjectLock

def dispatchACL : Dispatch := putOrGet .putBucketACL .getBucketACL

def dispatchBucketPolicy : Dispatch :=
  putDeleteOrGet .putBucketPolicy .deleteBucketPolicy .getBucketPolicy

def dispatchBucketLogging : Dispatch :=
  getPutDelete .getBucketLogging .putBucketLogging .deleteBucketLogging

/-- Unlike the others, what is neither `GET` nor `PUT` deletes. -/
def dispatchBucketNotifications : Dispatch
  | .get => .ok .getBucketNotifications
  | .put => .ok .putBucketNotifications
  | _ => .ok .deleteBucketNotifications

def dispatchBucketAccelerate : Dispatch := putOrGet .putBucketAccelerate .getBucketAccelerate

def dispatchBucketEncryption : Dispatch :=
  getPutDelete .getBucketEncryption .putBucketEncryption .deleteBucketEncryption

def dispatchBucketWebsite : Dispatch :=
  getPutDelete .getBucketWebsite .putBucketWebsite .deleteBucketWebsite

def dispatchBucketTagging : Dispatch :=
  getPutDelete .getBucketTagging .putBucketTagging .deleteBucketTagging

def dispatchBucketCORS : Dispatch := getPutDelete .getBucketCORS .putBucketCORS .deleteBucketCORS

/-- The cases of `dispatchBucketSubresource`, in order. -/
def bucketSubresources : List (String × Dispatch) :=
  [("versioning", dispatchVersioning), ("lifecycle", dispatchLifecycle),
    ("object-lock", dispatchObjectLock), ("acl", dispatchACL),
    ("location", fun _ => .ok .getBucketLocation), ("versions", fun _ => .ok .listObjectVersions),
    ("policy", dispatchBucketPolicy), ("logging", dispatchBucketLogging),
    ("notification", dispatchBucketNotifications), ("accelerate", dispatchBucketAccelerate),
    ("encryption", dispatchBucketEncryption), ("website", dispatchBucketWebsite),
    ("tagging", dispatchBucketTagging), ("cors", dispatchBucketCORS)]

/-- The switch on the method that `BucketDispatch` ends with. -/
def bucketMethod (m : Method) (q : Query) : Except S3Error Operation :=
  match m with
  | .get =>
    if q.has "uploads" then .ok .listMultipartUploads
    else if q.has "cors" then .ok .getBucketCORS
    else .ok .listObjects
  | .head => .ok .headBucket
  | .put =>
    if q.has "cors" then .ok .putBucketCORS
    else if q.has "delete" then .ok .deleteObjects
    else .ok .createBucket
  | .post =>
    if q.has "delete" then .ok .deleteObjects
    else if q.has "cors" then .ok .deleteBucketCORS
    else .error .unsupportedPost
  | .delete => .ok .deleteBucket
  | .other => .error .methodNotAllowed

/-- `dispatchBucketSubresource`, and the method if no sub-resource is asked for. -/
def bucketOperation (m : Method) (q : Query) : Except S3Error Operation :=
  match bucketSubresources.find? fun c => q.has c.1 with
  | some c => c.2 m
  | none => bucketMethod m q

def bucketDispatch (g : Gate) (r : Request) : Except S3Error Operation := do
  authorizeS3Request g r
  refuseIf (r.foreignOwner g.tenant) .forbidden
  bucketOperation r.method r.query

/-! ### Object routes -/

def putOperation (copySource : String) (q : Query) : Operation :=
  if copySource ≠ "" then
    if q.get "uploadId" ≠ "" then .uploadPartCopy else .copyObject
  else if q.has "tagging" then .putObjectTagging
  else if q.get "uploadId" ≠ "" then .uploadPart
  else if q.has "acl" then .putObjectACL
  else if q.has "legal-hold" then .putObjectLegalHold
  else if q.has "retention" then .putObjectRetention
  else if q.has "restore" then .restoreObject
  else .putObject

def getOperation (q : Query) : Operation :=
  if q.has "tagging" then .getObjectTagging
  else if q.get "uploadId" ≠ "" then .listParts
  else if q.has "acl" then .getObjectACL
  else if q.has "legal-hold" then .getObjectLegalHold
  else if q.has "retention" then .getObjectRetention
  else .getObject

def deleteOperation (q : Query) : Operation :=
  if q.has "tagging" then .deleteObjectTagging
  else if q.get "uploadId" ≠ "" then .abortMultipartUpload
  else .deleteObject

def postOperation (q : Query) : Except S3Error Operation :=
  if q.has "uploads" then .ok .createMultipartUpload
  else if q.get "uploadId" ≠ "" then .ok .completeMultipartUpload
  else .error .invalidArgs

def putObject (g : Gate) (r : Request) : Except S3Error Operation := do
  authorizeS3Request g r
  return putOperation r.copySource r.query

def getObject (g : Gate) (r : Request) : Except S3Error Operation := do
  authorizeS3Request g r
  return getOperation r.query

def headObject (g : Gate) (r : Request) : Except S3Error Operation := do
  authorizeS3Request g r
  return .headObject

def deleteObject (g : Gate) (r : Request) : Except S3Error Operation := do
  authorizeS3Request g r
  let op := deleteOperation r.query
  refuseIf (op = .deleteObject ∧ g.authorizeDelete r.bucket (keyFromURL r) = false) .forbidden
  return op

def postObject (g : Gate) (r : Request) : Except S3Error Operation := do
  authorizeS3Request g r
  postOperation r.query

/-- The routes of a bucket and of its objects. -/
def serve (g : Gate) (r : Request) : Except S3Error Operation :=
  match r.wildcard, r.method with
  | none, _ => bucketDispatch g r
  | some _, .put => putObject g r
  | some _, .get => getObject g r
  | some _, .head => headObject g r
  | some _, .delete => deleteObject g r
  | some _, .post => postObject g r
  | some _, .other => .error .methodNotAllowed

/-! ### What is served -/

def objectOperation (m : Method) (q : Query) (copySource : String) : Except S3Error Operation :=
  match m with
  | .put => .ok (putOperation copySource q)
  | .get => .ok (getOperation q)
  | .head => .ok .headObject
  | .delete => .ok (deleteOperation q)
  | .post => postOperation q
  | .other => .error .methodNotAllowed

/-- The operation of a request that no check refuses. -/
def operation (r : Request) : Except S3Error Operation :=
  match r.wildcard with
  | none => bucketOperation r.method r.query
  | some _ => objectOperation r.method r.query r.copySource

variable {g : Gate} {r : Request} {op : Operation} {m : Method} {q : Query}

theorem served (h : serve g r = .ok op) : authorizeS3Request g r = .ok () ∧ operation r = .ok op := by
  unfold serve at h
  unfold operation
  cases hw : r.wildcard with
  | none =>
    simp only [hw, bucketDispatch, bind_eq_ok] at h
    obtain ⟨_, hat, _, -, hop⟩ := h
    exact ⟨hat, hop⟩
  | some w =>
    cases hm : r.method with
    | other => simp [hw, hm] at h
    | delete =>
      simp only [hw, hm, deleteObject, bind_eq_ok] at h
      obtain ⟨_, hat, _, -, hop⟩ := h
      exact ⟨hat, hop⟩
    | _ =>
      simp only [hw, hm, putObject, getObject, headObject, postObject, bind_eq_ok] at h
      obtain ⟨_, hat, hop⟩ := h
      exact ⟨hat, hop⟩

/-- A gate that refuses nothing. -/
def openGate (r : Request) : Gate where
  tenant := r.expectedOwner
  checkBucketPolicy _ _ _ := true
  authorizeDelete _ _ := true
  policyBody := true
  pathUnescape _ := none

theorem not_foreignOwner_openGate : ¬ r.foreignOwner (openGate r).tenant := fun h => h.2 rfl

theorem authorize_openGate (r : Request) : authorizeS3Request (openGate r) r = .ok () := by
  have hsource : authorizeCopySource (openGate r) r = .ok () := by
    unfold authorizeCopySource
    split
    · simp [openGate]
    · rfl
  simp only [authorizeS3Request, bind_eq_ok, hsource]
  simp [openGate, Request.foreignOwner]

theorem serve_openGate (h : operation r = .ok op) : serve (openGate r) r = .ok op := by
  have hauth := authorize_openGate r
  unfold operation at h
  unfold serve
  cases hw : r.wildcard with
  | none =>
    rw [hw] at h
    simp only [bucketDispatch, bind_eq_ok, refuseIf_ok]
    exact ⟨(), hauth, (), not_foreignOwner_openGate, h⟩
  | some w =>
    rw [hw] at h
    cases hm : r.method with
    | other =>
      rw [hm] at h
      cases h
    | delete =>
      rw [hm] at h
      simp only [deleteObject, bind_eq_ok, refuseIf_ok]
      exact ⟨(), hauth, (), (fun hno => by cases hno.2), h⟩
    | _ =>
      rw [hm] at h
      simp only [putObject, getObject, headObject, postObject, bind_eq_ok]
      exact ⟨(), hauth, h⟩

/-! ### Two lists of cases -/

/-- The action is that of the operation, if there is one. -/
def Agrees (action : String) (result : Except S3Error Operation) : Prop :=
  ∀ op, result = .ok op → action = op.action

@[simp] theorem agrees_ok {action : String} : Agrees action (.ok op) ↔ action = op.action := by
  simp [Agrees]

@[simp] theorem agrees_error {action : String} {e : S3Error} : Agrees action (.error e) := by
  simp [Agrees]

instance (action : String) : (result : Except S3Error Operation) → Decidable (Agrees action result)
  | .ok op => decidable_of_iff (action = op.action) agrees_ok.symm
  | .error _ => .isTrue agrees_error

/-- The sub-resources that come first in both lists, in the same order. -/
def sharedRows : List (BucketPolicyActionRule × (String × Dispatch)) :=
  (bucketPolicyActionRules.take 13).zip (bucketSubresources.take 13)

theorem rules_eq :
    bucketPolicyActionRules = sharedRows.map Prod.fst ++ bucketPolicyActionRules.drop 13 := rfl

theorem subresources_eq :
    bucketSubresources = sharedRows.map Prod.snd ++ bucketSubresources.drop 13 := rfl

theorem sharedRows_names : ∀ row ∈ sharedRows, row.1.query = row.2.1 := by decide +kernel

/-! ### When they agree -/

/-- The first parameter of the request that a rule is for. -/
def firstIs (q : Query) (name : String) : Prop :=
  (firstRule q).map BucketPolicyActionRule.query = some name

/-- The request has none of the parameters. -/
def Query.lacks (q : Query) (names : List String) : Prop := ∀ name ∈ names, q.has name = false

/-- The settings whose handler reads on `POST`, which their rule takes for a write. -/
def readOnPost : List String := ["versioning", "lifecycle", "object-lock", "acl", "policy", "accelerate"]

/-- The methods under which the handler of a shared sub-resource does what its rule says. -/
abbrev RowMatched (m : Method) (name : String) : Prop :=
  (name ∈ readOnPost → m ≠ .post) ∧ (name = "notification" → m ≠ .head ∧ m ≠ .other)

theorem sharedRows_agree :
    ∀ row ∈ sharedRows, Agrees (actionForMethod m row.1) (row.2.2 m) ↔ RowMatched m row.1.query := by
  cases m <;> decide +kernel

theorem sharedRows_ne : ∀ row ∈ sharedRows, row.1.query ≠ "uploads" ∧ row.1.query ≠ "delete" := by
  decide +kernel

/-- On a bucket route. Two parameters have a rule and no case, or a case that comes later. -/
@[mk_iff]
structure BucketMatched (m : Method) (q : Query) : Prop where
  shared : ∀ name, firstIs q name → RowMatched m name
  uploads : firstIs q "uploads" →
    if q.has "cors" then m ∉ [.get, .put, .delete]
    else m = .get ∨ m = .other ∨ (m = .post ∧ q.has "delete" = false)
  delete : firstIs q "delete" → m = .put ∨ m = .post ∨ m = .other

theorem firstIs_iff {rule : BucketPolicyActionRule} (h : firstRule q = some rule) {name : String} :
    firstIs q name ↔ rule.query = name := by
  simp [firstIs, h]

theorem bucketMatched_shared_iff {row : BucketPolicyActionRule × (String × Dispatch)}
    (hrow : row ∈ sharedRows) (h : firstRule q = some row.1) :
    BucketMatched m q ↔ RowMatched m row.1.query := by
  constructor
  · intro hm
    exact hm.shared _ ((firstIs_iff h).mpr rfl)
  · intro hm
    obtain ⟨hup, hd⟩ := sharedRows_ne row hrow
    refine ⟨fun name hnm => ?_, fun hnm => ?_, fun hnm => ?_⟩
    · rw [← (firstIs_iff h).mp hnm]
      exact hm
    · exact absurd ((firstIs_iff h).mp hnm) hup
    · exact absurd ((firstIs_iff h).mp hnm) hd

theorem bucketMatched_rest_iff {rule : BucketPolicyActionRule} (h : firstRule q = some rule)
    (hnm : rule.query ∈ ["uploads", "cors", "delete"]) :
    BucketMatched m q ↔
      (rule.query = "uploads" →
        if q.has "cors" then m ∉ [.get, .put, .delete]
        else m = .get ∨ m = .other ∨ (m = .post ∧ q.has "delete" = false)) ∧
      (rule.query = "delete" → m = .put ∨ m = .post ∨ m = .other) := by
  have hrow : RowMatched m rule.query := by
    revert hnm
    generalize rule.query = name
    cases m <;> revert name <;> decide +kernel
  simp only [bucketMatched_iff, firstIs_iff h, forall_eq']
  exact and_iff_right hrow

/-- The cases after the shared ones: the rules go on with three parameters, the handler
with one of them and then with the method. -/
theorem bucket_agrees_rest_iff
    (h : firstRule q = (bucketPolicyActionRules.drop 13).find? fun rule => q.has rule.query)
    (h' : (bucketSubresources.find? fun c => q.has c.1) =
      (bucketSubresources.drop 13).find? fun c => q.has c.1) :
    Agrees (bucketPolicyAction m q) (bucketOperation m q) ↔ BucketMatched m q := by
  have hop : bucketOperation m q = if q.has "cors" then dispatchBucketCORS m else bucketMethod m q := by
    unfold bucketOperation
    rw [h']
    cases hcors : q.has "cors" <;> simp [bucketSubresources, hcors]
  have hrule : firstRule q =
      if q.has "uploads" then some ⟨"uploads", "s3:ListBucketMultipartUploads", "", ""⟩
      else if q.has "cors" then some ⟨"cors", "s3:GetBucketCORS", "s3:PutBucketCORS", "s3:PutBucketCORS"⟩
      else if q.has "delete" then some ⟨"delete", "", "s3:DeleteObject", "s3:DeleteObject"⟩
      else none := by
    rw [h]
    simp only [bucketPolicyActionRules, List.drop_succ_cons, List.drop_zero, List.find?_cons]
    cases q.has "uploads" <;> cases q.has "cors" <;> cases q.has "delete" <;> rfl
  simp only [bucketPolicyAction, hop]
  cases hupl : q.has "uploads" with
  | true =>
    rw [if_pos hupl] at hrule
    rw [bucketMatched_rest_iff hrule (by simp), hrule]
    cases hcors : q.has "cors" <;> cases hd : q.has "delete" <;> cases m <;>
      simp [bucketMethod, dispatchBucketCORS, getPutDelete, actionForMethod, action, hupl,
        hcors, hd]
  | false =>
    cases hcors : q.has "cors" with
    | true =>
      simp only [hupl, hcors, Bool.false_eq_true] at hrule
      rw [bucketMatched_rest_iff hrule (by simp), hrule]
      cases m <;> simp [dispatchBucketCORS, getPutDelete, actionForMethod, action]
    | false =>
      cases hd : q.has "delete" with
      | true =>
        simp only [hupl, hcors, hd, Bool.false_eq_true] at hrule
        rw [bucketMatched_rest_iff hrule (by simp), hrule]
        cases m <;> simp [bucketMethod, actionForMethod, action, hupl, hcors, hd]
      | false =>
        simp only [bucketMatched_iff, firstIs, hrule]
        cases m <;> simp [bucketMethod, action, hupl, hcors, hd]

theorem bucket_agrees_iff : Agrees (bucketPolicyAction m q) (bucketOperation m q) ↔ BucketMatched m q := by
  have hpr := find?_paired (fun rule : BucketPolicyActionRule => q.has rule.query)
    (fun c : String × Dispatch => q.has c.1) sharedRows (bucketPolicyActionRules.drop 13)
    (bucketSubresources.drop 13) fun row hrow => congrArg q.has (sharedRows_names row hrow)
  rw [← rules_eq, ← subresources_eq] at hpr
  obtain ⟨row, hrow, hrl, hcs⟩ | ⟨hrl, hcs⟩ := hpr
  · rw [bucketMatched_shared_iff hrow hrl, ← sharedRows_agree row hrow]
    simp only [bucketPolicyAction, bucketOperation, firstRule, hrl, hcs]
  · exact bucket_agrees_rest_iff hrl hcs

/-- On an object route. -/
def ObjectMatched (m : Method) (q : Query) (copySource : String) : Prop :=
  match m with
  | .get => q.get "uploadId" ≠ "" → q.has "tagging" = true ∨ q.lacks ["acl", "legal-hold", "retention"]
  | .head => q.get "uploadId" = "" ∧ q.lacks ["tagging", "acl", "legal-hold", "retention"]
  | .put =>
    (copySource ≠ "" → q.lacks ["tagging", "acl", "legal-hold", "retention", "restore"]) ∧
      (q.get "uploadId" ≠ "" → q.has "tagging" = true ∨
        q.lacks ["acl", "legal-hold", "retention", "restore"])
  | .post | .delete | .other => True

theorem readAction_eq_get_iff : objectReadPolicyAction q = "s3:GetObject" ↔
    q.get "uploadId" = "" ∧ q.lacks ["tagging", "acl", "legal-hold", "retention"] := by
  unfold objectReadPolicyAction
  split_ifs <;> simp_all [Query.lacks]

theorem readAction_eq_listParts_iff (h : q.has "tagging" = false) (hid : q.get "uploadId" ≠ "") :
    objectReadPolicyAction q = "s3:ListMultipartUploadParts" ↔
      q.lacks ["acl", "legal-hold", "retention"] := by
  unfold objectReadPolicyAction
  split_ifs <;> simp_all [Query.lacks]

theorem writeAction_eq_put_iff : objectWritePolicyAction q = "s3:PutObject" ↔
    q.lacks ["tagging", "acl", "legal-hold", "retention", "restore"] := by
  unfold objectWritePolicyAction
  split_ifs <;> simp_all [Query.lacks]

theorem get_agrees_iff : objectReadPolicyAction q = (getOperation q).action ↔ ObjectMatched .get q "" := by
  unfold ObjectMatched
  by_cases ht : q.has "tagging" = true
  · simp [getOperation, objectReadPolicyAction, ht, action]
  · by_cases hid : q.get "uploadId" = ""
    · simp only [getOperation, objectReadPolicyAction]
      split_ifs <;> simp_all [action]
    · have hop : (getOperation q).action = "s3:ListMultipartUploadParts" := by
        simp [getOperation, ht, hid, action]
      have hl := readAction_eq_listParts_iff (Bool.eq_false_iff.mpr ht) hid
      rw [hop, hl]
      simp [ht, hid]

theorem put_agrees_iff {copySource : String} :
    objectWritePolicyAction q = (putOperation copySource q).action ↔ ObjectMatched .put q copySource := by
  unfold ObjectMatched
  by_cases hcp : copySource = ""
  · by_cases ht : q.has "tagging" = true
    · simp [putOperation, objectWritePolicyAction, ht, hcp, action]
    · by_cases hid : q.get "uploadId" = ""
      · simp only [putOperation, objectWritePolicyAction]
        split_ifs <;> simp_all [action]
      · have hop : (putOperation copySource q).action = "s3:PutObject" := by
          simp [putOperation, hcp, ht, hid, action]
        rw [hop, writeAction_eq_put_iff]
        simp [ht, hid, hcp, Query.lacks]
  · have hop : (putOperation copySource q).action = "s3:PutObject" := by
      unfold putOperation
      split_ifs <;> rfl
    rw [hop, writeAction_eq_put_iff]
    simp_all [Query.lacks]

theorem object_agrees_iff {copySource : String} :
    Agrees (objectPolicyAction m q) (objectOperation m q copySource) ↔ ObjectMatched m q copySource := by
  cases m with
  | get => exact agrees_ok.trans get_agrees_iff
  | head => exact agrees_ok.trans readAction_eq_get_iff
  | put => exact agrees_ok.trans put_agrees_iff
  | delete =>
    simp only [objectPolicyAction, objectOperation, agrees_ok, deleteOperation, ObjectMatched, iff_true]
    split_ifs <;> rfl
  | post =>
    simp only [objectPolicyAction, objectOperation, postOperation, ObjectMatched]
    split_ifs <;> simp [action]
  | other => exact iff_of_true agrees_error trivial

/-- On an object route whose key is empty, which the gate takes for a bucket route. -/
def EmptyKeyMatched (m : Method) (q : Query) : Prop :=
  match m with
  | .get | .head | .put => False
  | .delete => firstIs q "delete" ∧ q.has "tagging" = false ∧ q.get "uploadId" = ""
  | .post => q.has "uploads" = false ∧ q.get "uploadId" = ""
  | .other => True

/-- The actions that no rule for a bucket has. -/
def objectActions : List String :=
  ["s3:GetObject", "s3:PutObject", "s3:RestoreObject", "s3:GetObjectTagging", "s3:PutObjectTagging",
    "s3:DeleteObjectTagging", "s3:GetObjectAcl", "s3:PutObjectAcl", "s3:GetObjectLegalHold",
    "s3:PutObjectLegalHold", "s3:GetObjectRetention", "s3:PutObjectRetention", "s3:AbortMultipartUpload",
    "s3:ListMultipartUploadParts"]

theorem bucketPolicyAction_notMem : bucketPolicyAction m q ∉ objectActions := by
  have hrl : ∀ rule ∈ bucketPolicyActionRules, actionForMethod m rule ∉ objectActions := by
    cases m <;> decide +kernel
  unfold bucketPolicyAction
  split
  next rule hrule => exact hrl rule (List.mem_of_find?_eq_some hrule)
  · cases m <;> decide

theorem bucketPolicyAction_eq_delete_iff :
    bucketPolicyAction .delete q = "s3:DeleteObject" ↔ firstIs q "delete" := by
  have hrul : ∀ rule ∈ bucketPolicyActionRules,
      actionForMethod .delete rule = "s3:DeleteObject" ↔ rule.query = "delete" := by decide +kernel
  unfold bucketPolicyAction
  split
  next rule hrl =>
    rw [firstIs_iff hrl]
    exact hrul rule (List.mem_of_find?_eq_some hrl)
  next hnone => simp [firstIs, hnone]

theorem not_agrees_object (h : op.action ∈ objectActions) : ¬ Agrees (bucketPolicyAction m q) (.ok op) := by
  intro hag
  rw [← agrees_ok.mp hag] at h
  exact bucketPolicyAction_notMem h

theorem emptyKey_agrees_iff {copySource : String} :
    Agrees (bucketPolicyAction m q) (objectOperation m q copySource) ↔ EmptyKeyMatched m q := by
  cases m with
  | get =>
    refine iff_of_false (not_agrees_object ?_) id
    unfold getOperation
    split_ifs <;> decide
  | head => exact iff_of_false (not_agrees_object (by decide)) id
  | put =>
    refine iff_of_false (not_agrees_object ?_) id
    unfold putOperation
    split_ifs <;> decide
  | delete =>
    simp only [objectOperation, deleteOperation, EmptyKeyMatched]
    split_ifs with ht hid
    · exact iff_of_false (not_agrees_object (by decide)) fun h => absurd ht (by simp [h.2.1])
    · exact iff_of_false (not_agrees_object (by decide)) fun h => hid h.2.2
    · simp only [not_not] at hid
      rw [agrees_ok, show Operation.deleteObject.action = "s3:DeleteObject" from rfl,
        bucketPolicyAction_eq_delete_iff]
      simp [ht, hid]
  | post =>
    simp only [objectOperation, postOperation]
    split_ifs with hup hid
    · exact iff_of_false (not_agrees_object (by decide)) fun h => absurd hup (by simp [h.1])
    · exact iff_of_false (not_agrees_object (by decide)) fun h => hid h.2
    · simp only [not_not] at hid
      exact iff_of_true agrees_error ⟨Bool.eq_false_iff.mpr hup, hid⟩
  | other => exact iff_of_true agrees_error trivial

/-- The requests whose two choices come to the same action. -/
def Matched (r : Request) : Prop :=
  match r.wildcard with
  | none => BucketMatched r.method r.query
  | some _ =>
    if keyFromURL r = "" then EmptyKeyMatched r.method r.query
    else ObjectMatched r.method r.query r.copySource

theorem operation_agrees_iff (r : Request) : Agrees (policyAction r) (operation r) ↔ Matched r := by
  unfold policyAction operation Matched
  cases hw : r.wildcard with
  | none =>
    have hkey : keyFromURL r = "" := by
      rw [keyFromURL, hw]
      decide
    rw [if_neg (not_not.mpr hkey)]
    exact bucket_agrees_iff
  | some w =>
    by_cases hkey : keyFromURL r = ""
    · rw [if_neg (not_not.mpr hkey)]
      simpa only [hkey, if_true] using emptyKey_agrees_iff
    · rw [if_pos hkey]
      simpa only [hkey, if_false] using object_agrees_iff

/-- **The action that the gate evaluates is the action of what is then done**, whatever the
policies, the tenant and the provider say, exactly for the requests that are `Matched`. -/
theorem gate_matches_iff (r : Request) :
    (∀ g op, serve g r = .ok op → policyAction r = op.action) ↔ Matched r := by
  rw [← operation_agrees_iff]
  constructor
  · intro h op hop
    exact h (openGate r) op (serve_openGate hop)
  · intro h g op hsr
    exact h op (served hsr).2

/-- A policy that allows reading the notifications, and nothing else. -/
def readersGate : Gate where
  tenant := "default"
  checkBucketPolicy _ _ action := action == "s3:GetBucketNotification"
  authorizeDelete _ _ := false
  policyBody := false
  pathUnescape _ := none

/-- **`HEAD /b?notification` is allowed as a read and deletes the notifications.** -/
theorem head_deletes_notifications :
    let r : Request := ⟨.head, "b", none, [("notification", "")], "", ""⟩
    policyAction r = "s3:GetBucketNotification" ∧
      serve readersGate r = .ok .deleteBucketNotifications ∧
      deleteBucketNotifications.action = "s3:PutBucketNotification" := by
  decide +kernel

end AeroVault.S3
