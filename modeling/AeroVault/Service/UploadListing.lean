import AeroVault.Reconcile.Deletion
import AeroVault.Service.Listing
import AeroVault.Service.Writes

/-! The uploads in progress that a caller may write: `ListMultipartUploads` and
`BucketHasMultipartUploads`.

The repository cuts a page of uploads and the service leaves out those that the caller may not write
(`listMultipartUploads_eq`), so that a page with less uploads than were asked for need not be the
last one. `BucketHasMultipartUploads` asks for one upload, and sees only whether the first of the
bucket is one of the caller's (`bucketHasMultipartUploads_eq`). -/
namespace AeroVault.Service
open Lib Repository Access Reconcile
open Repository.Listings (uploadKey listUploads bucketUploads)

def validateReplayUpload (u : Upload) (requestedID : String) : Except AccessError Unit :=
  if !validateBindingInput u.path.tenantID u.path.bucket then .error .boundaryFault
  else if !(validateKey u.path.key).isOk then .error .boundaryFault
  else if u.id = "" ∨ u.id ≠ requestedID ∨ u.backendUID = "" ∨ u.backend = "" ∨ u.versionID = "" then
    .error .boundaryFault
  else .ok ()

/-- The body of the loop over the uploads of a page. -/
def appendWritableUpload (c : Caller) (tenant bucket : String) (filtered : List Upload) (u : Upload) :
    Except AccessError (List Upload) := do
  if u.path.tenantID ≠ tenant ∨ u.path.bucket ≠ bucket then .error .boundaryFault
  if c.spaceBoundary.isSome then validateReplayUpload u u.id
  match c.authorize .write (uploadResource u) with
  | .ok () => .ok (filtered ++ [u])
  | .error err => if ordinaryAccessDenial err then .ok filtered else .error err

def listMultipartUploads (c : Caller) (uploads : List Upload)
    (tenant bucket keyMarker uploadIDMarker : String) (limit : Int) : Except AccessError (List Upload) := do
  let tenant := defaultTenant tenant
  let bucket := defaultBucket bucket
  c.admitBucket tenant bucket
  c.requireActiveTenant tenant
  (listUploads uploads tenant bucket keyMarker uploadIDMarker limit).foldlM
    (appendWritableUpload c tenant bucket) []

/-- `BucketHasMultipartUploads`. -/
def bucketHasMultipartUploads (c : Caller) (uploads : List Upload) (tenant bucket : String) :
    Except AccessError Bool := do
  let uploads ← listMultipartUploads c uploads tenant bucket "" "" 1
  return uploads.length ≠ 0

/-! ### What is left of a page -/

section Page
variable {c : Caller} {tenant bucket : String} {uploads : List Upload}

/-- The caller may write the upload. -/
def writable (c : Caller) (u : Upload) : Bool := (c.authorize .write (uploadResource u)).isOk

/-- The table of uploads as the service writes it: distinct ids, keys that are let in and, if there
is a boundary, nothing that it would find incomplete. -/
structure WrittenUploads (c : Caller) (uploads : List Upload) : Prop where
  ids : (uploads.map (·.id)).Nodup
  keys : ∀ u ∈ uploads, validateKey u.path.key = .ok ()
  complete : c.spaceBoundary.isSome = true → ∀ u ∈ uploads, validateReplayUpload u u.id = .ok ()

theorem WrittenUploads.key_ne_empty (h : WrittenUploads c uploads) : ∀ u ∈ uploads, u.path.key ≠ "" := by
  intro u hu hem
  have hkey := h.keys u hu
  rw [hem] at hkey
  cases hkey

/-- All uploads come after the empty marker. -/
theorem WrittenUploads.after_start (h : WrittenUploads c uploads) (tenant bucket : String) :
    after uploadKey (bucketUploads uploads tenant bucket) (toLex ("", "")) = bucketUploads uploads tenant bucket := by
  refine List.filter_eq_self.mpr fun u hu => ?_
  have hm := List.mem_of_mem_filter ((Listings.bucketUploads_perm uploads tenant bucket).mem_iff.mp hu)
  have hlt := Listings.empty_lt (h.key_ne_empty u hm)
  rw [decide_eq_true_iff, Prod.Lex.toLex_lt_toLex]
  exact .inl hlt

theorem Admitted.appendWritableUpload (h : Admitted c tenant bucket) {u : Upload}
    (ht : u.path.tenantID = tenant) (hbc : u.path.bucket = bucket)
    (hcm : c.spaceBoundary.isSome = true → validateReplayUpload u u.id = .ok ()) (filtered : List Upload) :
    appendWritableUpload c tenant bucket filtered u =
      .ok (if writable c u then filtered ++ [u] else filtered) := by
  have hans : c.authorize .write (uploadResource u) = .ok () ∨
      ∃ reason, c.authorize .write (uploadResource u) = .error (.forbidden reason) :=
    h.authorize ht hbc rfl
  have hbd : Service.appendWritableUpload c tenant bucket filtered u =
      match c.authorize .write (uploadResource u) with
      | .ok () => .ok (filtered ++ [u])
      | .error err => if ordinaryAccessDenial err then .ok filtered else .error err := by
    unfold Service.appendWritableUpload
    simp only [ht, hbc, ne_eq, not_true, or_self]
    cases hbn : c.spaceBoundary.isSome with
    | false => rfl
    | true =>
      simp only [hcm hbn]
      rfl
  rw [hbd, writable]
  obtain hok | ⟨reason, hd⟩ := hans
  · simp only [hok]
    rfl
  · simp only [hd]
    rfl

/-- **A page of the repository, and what the caller may write of it.** -/
theorem listMultipartUploads_eq (hadmitted : Admitted c (defaultTenant tenant) (defaultBucket bucket))
    (h : WrittenUploads c uploads) (keyMarker uploadIDMarker : String) {limit : Int} (hpos : 0 < limit)
    (hmax : limit ≤ 10000) :
    listMultipartUploads c uploads tenant bucket keyMarker uploadIDMarker limit =
      .ok (((after uploadKey (bucketUploads uploads (defaultTenant tenant) (defaultBucket bucket))
        (toLex (keyMarker, uploadIDMarker))).take limit.toNat).filter (writable c)) := by
  have ht := defaultTenant_idem tenant
  have hbc : defaultBucket bucket ≠ "" := by
    unfold defaultBucket
    split_ifs with hem
    · decide
    · exact hem
  have hm : ∀ u ∈ (after uploadKey (bucketUploads uploads (defaultTenant tenant) (defaultBucket bucket))
      (toLex (keyMarker, uploadIDMarker))).take limit.toNat, u ∈ uploads ∧
        u.path.tenantID = defaultTenant tenant ∧ u.path.bucket = defaultBucket bucket := by
    intro u hu
    have hrow := (mem_after.mp (List.mem_of_mem_take hu)).1
    rw [(Listings.bucketUploads_perm uploads _ _).mem_iff, List.mem_filter, Bool.and_eq_true_iff,
      beq_iff_eq, beq_iff_eq] at hrow
    exact hrow
  rw [listMultipartUploads, hadmitted.bucket, hadmitted.tenant,
    Listings.listUploads_eq h.key_ne_empty hbc keyMarker uploadIDMarker hpos hmax, ht]
  refine foldlM_append_filter (fun u hu filtered => ?_) []
  obtain ⟨hrow, hrt, hrb⟩ := hm u hu
  exact hadmitted.appendWritableUpload hrt hrb
    (fun hbn => h.complete hbn u hrow) filtered

/-- **Whether the bucket has uploads is read off its first one.** -/
theorem bucketHasMultipartUploads_eq (hadmitted : Admitted c (defaultTenant tenant) (defaultBucket bucket))
    (h : WrittenUploads c uploads) :
    bucketHasMultipartUploads c uploads tenant bucket =
      .ok ((bucketUploads uploads (defaultTenant tenant) (defaultBucket bucket)).head?.any (writable c)) := by
  have hnone : after uploadKey (bucketUploads uploads (defaultTenant tenant) (defaultBucket bucket))
      (toLex ("", "")) = bucketUploads uploads (defaultTenant tenant) (defaultBucket bucket) :=
    h.after_start (defaultTenant tenant) (defaultBucket bucket)
  rw [bucketHasMultipartUploads, listMultipartUploads_eq hadmitted h "" "" Int.one_pos (by decide), hnone]
  cases bucketUploads uploads (defaultTenant tenant) (defaultBucket bucket) with
  | nil => rfl
  | cons first rest =>
    show Except.ok (decide (([first].filter (writable c)).length ≠ 0)) = Except.ok (writable c first)
    rw [List.filter_cons]
    cases writable c first <;> rfl

end Page

end AeroVault.Service
