import AeroVault.Lib.ThinnedPages
import AeroVault.Service.UploadListing

/-! ListMultipartUploads of the S3 API.

A page is collected from scans of 1000 uploads, of which the service has left out those that the
caller may not write. A scan that comes back with less than 1000 is taken for the last one. So
uploads that come after 1000 others, one of which is another's, can be missing from the listing
without a sign of it; when they are can be told from the uploads and who may write them
(`upload_listing_exact_iff`). -/
namespace AeroVault.S3
open Lib Repository Service
open Repository.Listings (uploadKey bucketUploads)

/-- A place in the listing: a key and an upload id. -/
abbrev UploadMarker := String ×ₗ String

def scanSize : Nat := 1000

variable (c : Caller) (uploads : List Upload) (tenant bucket keyPrefix : String)

/-- `multipartUploadPage`. The loop's own condition holds in every round: a scan that brings the
number of uploads above the limit ends it. `fuel` counts the rounds. -/
def multipartUploadPage (marker : UploadMarker) (limit fuel : Nat) :
    Option (Except AccessError (List Upload × Bool)) :=
  scanThinned
    (fun marker => listMultipartUploads c uploads tenant bucket (ofLex marker).1 (ofLex marker).2 scanSize)
    uploadKey scanSize limit (fun u => GoText.hasPrefix u.path.key keyPrefix) fuel marker []

/-- The answer of `listMultipartUploads`, with the markers to go on from if it is truncated. -/
def uploadsAnswer (uploads : List Upload) (hasMore : Bool) : ListPage Upload UploadMarker :=
  if hasMore then ⟨uploads, (uploads.getLast?.map uploadKey).getD (toLex ("", "")), true⟩
  else ⟨uploads, toLex ("", ""), false⟩

/-- One request of a client. -/
def uploadsPage (limit fuel : Nat) (marker : UploadMarker) :
    Except (Option AccessError) (ListPage Upload UploadMarker) :=
  match settled (multipartUploadPage c uploads tenant bucket keyPrefix marker limit fuel) with
  | .error err => .error err
  | .ok (shown, hasMore) => .ok (uploadsAnswer shown hasMore)

/-- An upload that the listing is to show: it has the prefix, and the caller may write it. -/
def shownUpload (u : Upload) : Bool :=
  writable c u && GoText.hasPrefix u.path.key keyPrefix

/-- The uploads of the bucket that the listing is to show. -/
def uploadsToShow : List Upload :=
  uploads.filter fun u => u.path.tenantID == tenant && u.path.bucket == bucket && shownUpload c keyPrefix u

/-- Following the markers gives each of these uploads once, and nothing else. -/
def ListsUploads
    (page : UploadMarker → Except (Option AccessError) (ListPage Upload UploadMarker)) : Prop :=
  ∃ pages, Follows (following page) (toLex ("", "")) pages ∧
    (pages.flatMap (·.objects)).Perm (uploadsToShow c uploads tenant bucket keyPrefix)

/-- From each upload on which a page begins: if the first scans show too few uploads for a page and
another one is still to come, no upload that they have seen is hidden. -/
def ScansReach (limit : Nat) : Prop :=
  ∀ i, Reaches (writable c) (shownUpload c keyPrefix) scanSize limit 0
    (passing (shownUpload c keyPrefix) (i * limit) (bucketUploads uploads tenant bucket))

/-- The first upload of the bucket is one that the caller may write, if there is any. -/
def FirstWritable : Prop :=
  ∀ first, (bucketUploads uploads tenant bucket).head? = some first →
    (∃ u ∈ bucketUploads uploads tenant bucket, writable c u = true) → writable c first = true

theorem filter_bucketUploads_perm :
    ((bucketUploads uploads tenant bucket).filter (shownUpload c keyPrefix)).Perm
      (uploadsToShow c uploads tenant bucket keyPrefix) := by
  refine ((Listings.bucketUploads_perm uploads tenant bucket).filter _).trans (.of_eq ?_)
  rw [List.filter_filter]
  exact List.filter_congr fun u _ => Bool.and_comm _ _

section Exact
variable {c uploads tenant bucket keyPrefix} {limit fuel : Nat}

/-- A request from a marker. -/
theorem exists_uploadsPage (hadmitted : Admitted c (defaultTenant tenant) (defaultBucket bucket))
    (h : WrittenUploads c uploads) (hlim : 0 < limit) (hf : uploads.length < fuel) (marker : UploadMarker) :
    ∃ answer, uploadsPage c uploads tenant bucket keyPrefix limit fuel marker = .ok answer ∧
      Found ((after uploadKey (bucketUploads uploads (defaultTenant tenant) (defaultBucket bucket)) marker).filter
          (shownUpload c keyPrefix)) answer.objects limit (answer.hasMore = true)
        (Reaches (writable c) (shownUpload c keyPrefix) scanSize limit 0
          (after uploadKey (bucketUploads uploads (defaultTenant tenant) (defaultBucket bucket)) marker)) ∧
      (answer.hasMore = true → answer.objects.getLast?.map uploadKey = some answer.nextMarker) := by
  have hbl : ThinsBlocks uploadKey
      (bucketUploads uploads (defaultTenant tenant) (defaultBucket bucket)) (writable c) scanSize
      fun marker => listMultipartUploads c uploads tenant bucket (ofLex marker).1 (ofLex marker).2 scanSize :=
    fun marker => listMultipartUploads_eq hadmitted h _ _ (by decide) (by decide)
  have hrn : (after uploadKey (bucketUploads uploads (defaultTenant tenant) (defaultBucket bucket)) marker).length
      < fuel := by
    have hle := (Listings.bucketUploads_perm uploads (defaultTenant tenant) (defaultBucket bucket)).length_eq
    exact (List.length_filter_le _ _).trans_lt ((hle.trans_le (List.length_filter_le _ _)).trans_lt hf)
  have hsh : ∀ u, shownUpload c keyPrefix u = (writable c u && GoText.hasPrefix u.path.key keyPrefix) :=
    fun _ => rfl
  obtain ⟨shown, more, hsc, hfound⟩ := exists_scanThinned (Listings.inOrder_bucketUploads h.ids _ _) hbl
    hsh (by decide) fuel marker [] (Nat.zero_le limit) hrn
  refine ⟨uploadsAnswer shown more, by rw [uploadsPage, multipartUploadPage, hsc]; rfl, ?_⟩
  cases more with
  | false => exact ⟨hfound, nofun⟩
  | true =>
    refine ⟨hfound, fun _ => ?_⟩
    have hne : shown ≠ [] := hfound.ne_nil hlim rfl
    rw [uploadsAnswer, if_pos rfl, List.getLast?_eq_some_getLast hne]
    rfl

theorem listsUploads_iff (hadmitted : Admitted c (defaultTenant tenant) (defaultBucket bucket))
    (h : WrittenUploads c uploads) (hl : 0 < limit) (hfl : uploads.length < fuel) :
    ListsUploads c uploads (defaultTenant tenant) (defaultBucket bucket) keyPrefix
        (uploadsPage c uploads tenant bucket keyPrefix limit fuel) ↔
      ScansReach c uploads (defaultTenant tenant) (defaultBucket bucket) keyPrefix limit := by
  obtain ⟨pages, hf, hfr, hex⟩ := exact_iff_reaches (Listings.inOrder_bucketUploads h.ids _ _) hl
    (exists_uploadsPage hadmitted h hl hfl) (toLex ("", ""))
  have hpr := filter_bucketUploads_perm c uploads (defaultTenant tenant) (defaultBucket bucket) keyPrefix
  rw [h.after_start] at hfr hex
  rw [ScansReach, ← hex]
  constructor
  · intro ⟨pages', hf', hsh⟩
    obtain rfl := hf.unique hf'
    exact hfr.eq_of_length (hsh.length_eq.trans hpr.length_eq.symm)
  · intro hall
    exact ⟨pages, hf, hall ▸ hpr⟩

/-- **The listing of uploads is exact if and only if its scans reach what they look for**, and a
bucket in which the caller has an upload is seen to have one if and only if the first upload of the
bucket is one of the caller's. -/
theorem upload_listing_exact_iff (hadmitted : Admitted c (defaultTenant tenant) (defaultBucket bucket))
    (h : WrittenUploads c uploads) (hlimit : 0 < limit) (hfuel : uploads.length < fuel) :
    (ListsUploads c uploads (defaultTenant tenant) (defaultBucket bucket) keyPrefix
        (uploadsPage c uploads tenant bucket keyPrefix limit fuel) ↔
      ScansReach c uploads (defaultTenant tenant) (defaultBucket bucket) keyPrefix limit) ∧
    (((∃ u ∈ bucketUploads uploads (defaultTenant tenant) (defaultBucket bucket), writable c u = true) →
        bucketHasMultipartUploads c uploads tenant bucket = .ok true) ↔
      FirstWritable c uploads (defaultTenant tenant) (defaultBucket bucket)) := by
  refine ⟨listsUploads_iff hadmitted h hlimit hfuel, ?_⟩
  rw [bucketHasMultipartUploads_eq hadmitted h, FirstWritable]
  cases bucketUploads uploads (defaultTenant tenant) (defaultBucket bucket) with
  | nil | cons => simp

/-- An upload to the bucket `docs` of `acme`. -/
def sampleUpload (id key owner : String) : Upload where
  id := id
  path := ⟨"acme", "docs", key⟩
  versionID := "v"
  backend := "local"
  backendUID := "b"
  storageKey := key
  contentType := ""
  metadata := [(ownerMetadataKey, owner)]
  tags := []
  storageClass := ""

theorem writtenUploads_ann (hids : (uploads.map (·.id)).Nodup)
    (hkeys : ∀ u ∈ uploads, validateKey u.path.key = .ok ()) : WrittenUploads ann uploads :=
  ⟨hids, hkeys, nofun⟩

/-- **An upload behind another's is not seen**: the one upload that is asked for is hidden. -/
theorem upload_behind_hidden_one :
    ∃ u ∈ bucketUploads [sampleUpload "1" "a" "bob", sampleUpload "2" "b" "ann"] "acme" "docs",
      writable ann u = true ∧
      bucketHasMultipartUploads ann [sampleUpload "1" "a" "bob", sampleUpload "2" "b" "ann"] "acme" "docs" =
        .ok false := by
  decide

def ownUploads : List Upload := [sampleUpload "1" "a" "ann", sampleUpload "2" "b" "ann"]

/-- Two uploads of the caller, one on a page. -/
theorem own_uploads_listed :
    ListsUploads ann ownUploads "acme" "docs" "" (uploadsPage ann ownUploads "acme" "docs" "" 1 3) ∧
      bucketHasMultipartUploads ann ownUploads "acme" "docs" = .ok true := by
  have hwr : WrittenUploads ann ownUploads := by
    refine writtenUploads_ann (by decide) fun u hu => ?_
    obtain rfl | rfl := List.mem_pair.mp hu
    all_goals rfl
  have hrc : ScansReach ann ownUploads "acme" "docs" "" 1 := by
    intro i
    refine reaches_of_length_le ((length_passing_le _ _ _).trans ?_)
    decide
  have hf : FirstWritable ann ownUploads "acme" "docs" := by
    intro first hh _
    cases hh
    rfl
  have hiff : (ListsUploads ann ownUploads "acme" "docs" ""
      (uploadsPage ann ownUploads "acme" "docs" "" 1 3) ↔ _) ∧ _ :=
    upload_listing_exact_iff admitted_ann hwr Nat.one_pos (Nat.lt_succ_self 2)
  exact ⟨hiff.1.mpr hrc, hiff.2.mpr hf ⟨sampleUpload "2" "b" "ann", by decide, rfl⟩⟩

end Exact

end AeroVault.S3
