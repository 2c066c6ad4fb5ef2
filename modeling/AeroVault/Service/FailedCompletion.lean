import AeroVault.Service.PartHistory

/-! A `CompleteMultipart` that fails, and what the tenant is charged for it.

Where a completion gives up is an input of the call (`CompletionFailure`); without a failure it is
`completeMultipart` (`completeMultipartFailing_none`). The usage is charged before the backend
merges the parts and before the row is written, and nothing takes the charge back: a completion
that fails leaves the counters as they were exactly if it has not come to charge, or its charge is
none (`failed_completions_keep_usage_iff`). The claim is released, so a retry charges again
(`failed_retry_charges_again`). -/
namespace AeroVault.Service
open Lib Repository Access

/-- Where a completion fails that its own checks admit. -/
inductive CompletionFailure
  | none
  /-- Before the accounting: the claim is not obtained, or a read of the repository fails. -/
  | early
  /-- In `AddTenantUsage`, which has or has not committed; it reads the counters after its commit. -/
  | account (committed : Bool)
  /-- In the backend, which has consumed the upload; what is read under the storage key now. -/
  | storage (left : Option Bytes)
  | row
  | acl
  | hold
  deriving DecidableEq

structure CompletionCall where
  ctx : Ctx
  scope : MultipartScope
  uploadID : String
  manifest : Option (List PartRecord)
  failure : CompletionFailure

/-- `saveMultipartObject`, up to the ACL or the legal hold that is not set any more. -/
def saveMultipartRow (ctx : Ctx) (s : Vault) (obj : Object) (versioning : Bool) (acl : String) : Vault :=
  let hold := obj.metadata.get pendingLegalHoldKey == "ON"
  let cleaned :=
    if obj.metadata.get pendingACLMetadataKey ≠ "" ∨ hold then
      {obj with metadata := withoutPending obj.metadata}
    else obj
  (saveObject ctx s cleaned versioning acl false "s3 multipart upload").2

/-- `finishMultipartCompletion`, from the merge on. -/
def mergeCompletionFailing (failure : CompletionFailure) (ctx : Ctx) (plan : CompletionPlan) (s : Vault) :
    Except PutError Object × Vault :=
  match mergeParts s plan.upload plan.parts with
  | none => (.error (.service .storageComplete), accountCompletion plan s)
  | some data =>
    let stored := (accountCompletion plan s).putBlob (uploadStorageKey plan.upload) data ctx.now
    let obj := buildObjectFromUpload ctx plan data
    let acl := obj.metadata.get pendingACLMetadataKey
    if failure = .row then (.error .failed, stored)
    else if failure = .acl ∧ acl ≠ "" then
      (.error .failed, saveMultipartRow ctx stored obj plan.config.versioning "")
    else if failure = .hold ∧ obj.metadata.get pendingLegalHoldKey == "ON" then
      (.error .failed, saveMultipartRow ctx stored obj plan.config.versioning acl)
    else
      let saved := storeCompletion ctx plan data s
      (.ok saved.1, closeUpload saved.2 plan.upload saved.1)

/-- `finishMultipartCompletion`. -/
def finishCompletionFailing (failure : CompletionFailure) (ctx : Ctx) (plan : CompletionPlan) (s : Vault) :
    Except PutError Object × Vault :=
  let tenant := plan.upload.path.tenantID
  match failure with
  | .early | .account false => (.error .failed, s)
  | .account true => (.error .failed, accountObjectUsage s tenant plan.usage plan.total)
  | .storage left =>
    (.error .failed, (accountCompletion plan s).leaveBlob (uploadStorageKey plan.upload) ctx.now left)
  | failure => mergeCompletionFailing failure ctx plan s

def completeMultipartFailing (c : CompletionCall) (s : Vault) : Except PutError Object × Vault :=
  if c.failure = .early then (.error .failed, s)
  else match cachedCompletion s c.scope c.uploadID with
    | some completion => ((replayMultipartCompletion c.ctx c.scope completion.object).mapError .service, s)
    | none =>
      match prepareCompletion c.ctx c.scope c.uploadID c.manifest s with
      | .error err => (.error (.service err), s)
      | .ok plan => finishCompletionFailing c.failure c.ctx plan s

theorem completeMultipartFailing_none (ctx : Ctx) (scope : MultipartScope) (uploadID : String)
    (manifest : Option (List PartRecord)) (s : Vault) :
    completeMultipartFailing ⟨ctx, scope, uploadID, manifest, .none⟩ s =
      ((completeMultipart ctx scope uploadID manifest s).1.mapError .service,
        (completeMultipart ctx scope uploadID manifest s).2) := by
  unfold completeMultipartFailing completeMultipart
  cases cachedCompletion s scope uploadID with
  | some completion => rfl
  | none =>
    cases prepareCompletion ctx scope uploadID manifest s with
    | error err => rfl
    | ok plan =>
      dsimp only [finishCompletionFailing, mergeCompletionFailing, finishMultipartCompletion]
      cases mergeParts s plan.upload plan.parts with
      | none | some => rfl

/-! ### What is charged -/

/-- The counters of all tenants. -/
def KeepsUsage (s s' : Vault) : Prop := ∀ tenant, usedQuota s' tenant = usedQuota s tenant

/-- What the completion charges. -/
def CompletionPlan.charge (plan : CompletionPlan) : Int × Int := plan.usage.deltas plan.total

/-- The charge leaves the counters of the tenant as they are: it is none, or they stand at zero. -/
def CompletionPlan.Free (plan : CompletionPlan) (s : Vault) : Prop :=
  let used := usedQuota s plan.upload.path.tenantID
  max 0 (used.1 + plan.charge.1) = used.1 ∧ max 0 (used.2 + plan.charge.2) = used.2

/-- The call comes to charge. -/
def CompletionCall.charges (c : CompletionCall) : Bool :=
  match c.failure with
  | .early | .account false => false
  | _ => true

/-- If the call comes to charge, the charge is none. -/
def CompletionCall.Uncharged (c : CompletionCall) (s : Vault) : Prop :=
  c.charges = true → cachedCompletion s c.scope c.uploadID = none →
    ∀ plan, prepareCompletion c.ctx c.scope c.uploadID c.manifest s = .ok plan → plan.Free s

variable {s s' : Vault} {plan : CompletionPlan} {c : CompletionCall}

theorem keepsUsage_refl : KeepsUsage s s := fun _ => rfl

/-- The counters after a charge. -/
theorem keepsUsage_account_iff
    (h : s'.quotas = (s.addTenantUsage plan.upload.path.tenantID plan.charge.1 plan.charge.2).quotas) :
    KeepsUsage s s' ↔ plan.Free s := by
  have hus (tenant : String) : usedQuota s' tenant =
      if tenant = plan.upload.path.tenantID then
        (max 0 ((usedQuota s tenant).1 + plan.charge.1), max 0 ((usedQuota s tenant).2 + plan.charge.2))
      else usedQuota s tenant := by
    simp only [usedQuota, h, Vault.addTenantUsage, Function.update_apply]
    split_ifs with ht
    · rw [ht]
    · rfl
  constructor
  · intro hkp
    have hsame := hkp plan.upload.path.tenantID
    rw [hus, if_pos rfl] at hsame
    exact Prod.ext_iff.mp hsame
  · intro hfree tenant
    rw [hus]
    split_ifs with ht
    · rw [ht]
      exact Prod.ext hfree.1 hfree.2
    · rfl

theorem mergeCompletionFailing_quotas {failure : CompletionFailure} {ctx : Ctx} :
    (mergeCompletionFailing failure ctx plan s).2.quotas =
      (s.addTenantUsage plan.upload.path.tenantID plan.charge.1 plan.charge.2).quotas := by
  unfold mergeCompletionFailing
  cases mergeParts s plan.upload plan.parts with
  | none => rfl
  | some data =>
    dsimp only
    split_ifs
    · rfl
    · exact saveObject_quotas ..
    · exact saveObject_quotas ..
    · exact saveObject_quotas ..

/-- A completion that has come to charge has charged once. -/
theorem finishCompletionFailing_quotas {ctx : Ctx} (hch : c.charges = true) :
    (finishCompletionFailing c.failure ctx plan s).2.quotas =
      (s.addTenantUsage plan.upload.path.tenantID plan.charge.1 plan.charge.2).quotas := by
  unfold CompletionCall.charges at hch
  cases hf : c.failure with
  | early => rw [hf] at hch; cases hch
  | account committed =>
    cases committed with
    | false => rw [hf] at hch; cases hch
    | true => rfl
  | storage left => cases left <;> rfl
  | none | row | acl | hold => exact mergeCompletionFailing_quotas

theorem finishCompletionFailing_uncharged {ctx : Ctx} (hch : c.charges = false) :
    (finishCompletionFailing c.failure ctx plan s).2 = s := by
  unfold CompletionCall.charges at hch
  split at hch
  next hf => rw [hf]; rfl
  next hf => rw [hf]; rfl
  · cases hch

theorem keepsUsage_iff_uncharged : KeepsUsage s (completeMultipartFailing c s).2 ↔ c.Uncharged s := by
  unfold completeMultipartFailing CompletionCall.Uncharged
  by_cases hearl : c.failure = .early
  · rw [if_pos hearl]
    refine ⟨fun _ hch => ?_, fun _ => keepsUsage_refl⟩
    simp [CompletionCall.charges, hearl] at hch
  · rw [if_neg hearl]
    cases hcc : cachedCompletion s c.scope c.uploadID with
    | some completion => exact ⟨nofun, fun _ => keepsUsage_refl⟩
    | none =>
      cases hplan : prepareCompletion c.ctx c.scope c.uploadID c.manifest s with
      | error err => exact ⟨nofun, fun _ => keepsUsage_refl⟩
      | ok plan =>
        cases hch : c.charges with
        | false =>
          rw [finishCompletionFailing_uncharged hch]
          exact ⟨nofun, fun _ => keepsUsage_refl⟩
        | true =>
          rw [keepsUsage_account_iff (finishCompletionFailing_quotas hch)]
          constructor
          · intro hfree _ _ plan' hplan'
            cases hplan'
            exact hfree
          · intro h
            exact h rfl rfl plan rfl

/-- **A completion that returns an error leaves the counters as they were if and only if it fails before its
accounting is committed, or its charge is none. So it is for every state and any number of calls.** -/
theorem failed_completions_keep_usage_iff (s : Vault) (calls : List CompletionCall) :
    Each (fun s c => (completeMultipartFailing c s).2)
        (fun s c => (completeMultipartFailing c s).1.isOk = false →
          KeepsUsage s (completeMultipartFailing c s).2) s calls ↔
      Each (fun s c => (completeMultipartFailing c s).2)
        (fun s c => (completeMultipartFailing c s).1.isOk = false → c.Uncharged s) s calls := by
  exact each_congr fun s c => imp_congr_right fun _ => keepsUsage_iff_uncharged

/-- A completion of the upload `u1`. -/
def completeOne (failure : CompletionFailure) : CompletionCall := ⟨partUser, acmeScope, "u1", none, failure⟩

/-- The row of a completion cannot be written; its retry finds no parts any more. Both fail, and both have
charged for the two bytes and the object that is not there. -/
theorem failed_retry_charges_again :
    let start := uploadParts [partOne [1, 2] 2] openedUpload
    let failed := (completeMultipartFailing (completeOne .row) start).2
    let retried := (completeMultipartFailing (completeOne .none) failed).2
    (completeMultipartFailing (completeOne .row) start).1.isOk = false ∧
      (completeMultipartFailing (completeOne .none) failed).1.isOk = false ∧
      usedQuota start "acme" = (0, 0) ∧ usedQuota failed "acme" = (2, 1) ∧ usedQuota retried "acme" = (4, 2) ∧
      retried.objects.rows = [] := by
  decide +kernel

end AeroVault.Service
