import AeroVault.Repository.Listings
import AeroVault.Service.Checks

/-! Listings of the objects that a caller may read: `listObjectsMatching`.

The repository lists pages in key order without regard to who is asking. The service goes
through these pages and keeps the objects that pass the filter and that the caller may read,
until it has one more than the page holds: the look-ahead tells whether there is a next page.
If the keys are distinct, following the markers gives each of these objects once and in key
order (`authorized_listing_exact`), however the repository cuts its pages. -/
namespace AeroVault.Service
open Lib Repository Access
open List hiding after
open Repository.Listings (keyOf pageLimit empty_lt)

/-! ### Access -/

inductive AccessError
  | forbidden (reason : String)
  /-- `ErrForbidden` with the denial of the boundary: the bucket is bound to a space. -/
  | spaceBound
  /-- `ErrForbidden` with `ErrTenantDisabled`. -/
  | tenantDisabled
  /-- `ErrResourceBoundaryFault`. -/
  | boundaryFault
  /-- The boundary's own read failed. -/
  | boundaryStore
  /-- `tenant status`: the tenant's record could not be read. -/
  | tenantStatus
  deriving DecidableEq

/-- The caller of a listing, and what the service knows of it: the boundary and the authorizer
if there are any, and the tenants. -/
structure Caller where
  principal : Principal
  spaceBoundary : Option (String → String → Option Fault)
  tenantStatus : Bool
  verifiedTenant : String
  /-- The status of a tenant that is known. -/
  getTenant : String → Except Unit (Option String)
  authorizer : Option (Principal → Action → Resource → Except Fault Decision)
  deleteFailOpen : Bool

def serviceBoundaryError : Fault → AccessError
  | .spaceBound => .spaceBound
  | .tenantUnavailable => .tenantDisabled
  | .boundaryFault => .boundaryFault
  | .storeError => .boundaryStore

def isSystemDeleteExempt (p : Principal) (tenant : String) : Bool :=
  p.kind == .system && p.tenantID != "" && p.tenantID == tenant

namespace Caller

def admitBucket (c : Caller) (tenant bucket : String) : Except AccessError Unit :=
  match c.spaceBoundary with
  | none => .ok ()
  | some check =>
    match check tenant bucket with
    | none => .ok ()
    | some fault => .error (serviceBoundaryError fault)

def requireActiveTenant (c : Caller) (tenant : String) : Except AccessError Unit :=
  if !c.tenantStatus || (c.verifiedTenant != "" && c.verifiedTenant == tenant) then .ok ()
  else if c.principal.kind = .system then .ok ()
  else
    match c.getTenant tenant with
    | .error _ => .error .tenantStatus
    | .ok status => if status = some "disabled" then .error .tenantDisabled else .ok ()

/-- `authorize` with no provider configured. -/
def authorizeUnprovided (c : Caller) (action : Action) (resource : Resource) : Except AccessError Unit :=
  let unprovided := AccessError.forbidden "no authorization provider configured"
  if action = .adminDelete then .error unprovided
  else if action = .delete ∧ c.deleteFailOpen = false then
    if isSystemDeleteExempt c.principal resource.tenantID then .ok () else .error unprovided
  else .ok ()

def authorize (c : Caller) (action : Action) (resource : Resource) : Except AccessError Unit := do
  c.admitBucket resource.tenantID resource.bucket
  c.requireActiveTenant resource.tenantID
  match c.authorizer with
  | none => c.authorizeUnprovided action resource
  | some decide =>
    match decide c.principal action resource with
    | .error _ => .error .boundaryFault
    | .ok decision => if decision.allowed then .ok () else .error (.forbidden decision.reason)

end Caller

def ordinaryAccessDenial : AccessError → Bool
  | .forbidden _ | .spaceBound => true
  | .tenantDisabled | .boundaryFault | .boundaryStore | .tenantStatus => false

/-! ### The listing -/

inductive ListingError (ε : Type)
  | access (err : AccessError)
  | fetch (err : ε)
  deriving DecidableEq

abbrev ObjectPage := ListPage Object String

/-- A listing of the repository, by tenant, bucket, prefix, marker and limit. -/
abbrev ObjectPageFetcher (ε : Type) := String → String → String → String → Int → Except ε ObjectPage

def objectInScope (tenant bucket key : String) (o : Object) : Bool :=
  o.path.tenantID == tenant && o.path.bucket == bucket && (key == "" || o.path.key == key) && o.id != 0

/-- An object row read for a bucket, if there is a boundary, is of that bucket and well named. -/
def validateBoundaryObjects (c : Caller) (objects : List Object) (tenant bucket key : String) :
    Except AccessError Unit :=
  match c.spaceBoundary with
  | none => .ok ()
  | some _ =>
    if objects.all fun o => objectInScope tenant bucket key o && (validateKey o.path.key).isOk then .ok ()
    else .error .boundaryFault

section Listing
variable {ε : Type} (c : Caller)

/-- `appendAuthorizedObject`: an object the caller may not read is left out. -/
def appendAuthorizedObject (obj : Object) (objects : List Object) : Except AccessError (List Object) :=
  match c.authorize .read (objectResource obj) with
  | .ok () => .ok (objects ++ [obj])
  | .error err => if ordinaryAccessDenial err then .ok objects else .error err

abbrev Collected (ε : Type) := Except (ListingError ε) (List Object)

/-- The body of the loop over the objects of a raw page. -/
def collectObject (wanted : Nat) (keeps : Option (Object → Bool)) (objects : List Object) (obj : Object) :
    Except (Collected ε) (List Object) :=
  if keeps.any fun keeps => !keeps obj then .ok objects
  else
    match appendAuthorizedObject c obj objects with
    | .error err => .error (.error (.access err))
    | .ok objects => if objects.length = wanted then .error (.ok objects) else .ok objects

def fetchValidated (tenant bucket keyPrefix : String) (fetch : ObjectPageFetcher ε) (cursor : String) :
    Except (Collected ε) ObjectPage :=
  match fetch tenant bucket keyPrefix cursor 1000 with
  | .error err => .error (.error (.fetch err))
  | .ok page =>
    match validateBoundaryObjects c page.objects tenant bucket "" with
    | .error err => .error (.error (.access err))
    | .ok () => .ok page

/-- `collectAuthorizedObjects`. The loop's own condition holds in every round: a visit that
brings the number of objects to `wanted` ends it. `fuel` counts the rounds. -/
def collectAuthorizedObjects (tenant bucket keyPrefix marker : String) (wanted : Nat)
    (fetch : ObjectPageFetcher ε) (keeps : Option (Object → Bool)) (fuel : Nat) : Option (Collected ε) :=
  scanPages (fetchValidated c tenant bucket keyPrefix fetch) (collectObject c wanted keeps)
    (fun cursor next => !(next == "" || next == cursor)) .ok .ok fuel marker []

/-- The page of a listing, from one object more than it holds. -/
def cutAuthorized (limit : Nat) (objects : List Object) : ObjectPage :=
  cutPage keyOf "" limit objects

def listObjectsMatching (tenant bucket keyPrefix marker : String) (limit : Int)
    (fetch : ObjectPageFetcher ε) (keeps : Option (Object → Bool)) (fuel : Nat) :
    Option (Except (ListingError ε) ObjectPage) :=
  match c.admitBucket tenant bucket with
  | .error err => some (.error (.access err))
  | .ok () =>
    match c.requireActiveTenant tenant with
    | .error err => some (.error (.access err))
    | .ok () =>
      if c.authorizer.isNone && keeps.isNone then
        match fetch tenant bucket keyPrefix marker limit with
        | .error err => some (.error (.fetch err))
        | .ok page =>
          match validateBoundaryObjects c page.objects tenant bucket "" with
          | .error err => some (.error (.access err))
          | .ok () => some (.ok page)
      else
        let limit := pageLimit limit
        (collectAuthorizedObjects c tenant bucket keyPrefix marker (limit + 1) fetch keeps fuel).map fun
          | .error err => .error err
          | .ok objects => .ok (cutAuthorized limit objects)

end Listing

/-! ### What one page takes -/

section Pass
variable {ε : Type} {c : Caller} {tenant bucket : String} {keeps : Option (Object → Bool)}

/-- The caller may read the object. -/
def readable (c : Caller) (o : Object) : Bool := (c.authorize .read (objectResource o)).isOk

/-- The object passes the filter, if there is one, and the caller may read it. -/
def listed (c : Caller) (keeps : Option (Object → Bool)) (o : Object) : Bool :=
  keeps.all (fun keeps => keeps o) && readable c o

/-- The bucket admits the caller, the tenant is active, and the authorizer, if there is one,
decides without an error. -/
structure Admitted (c : Caller) (tenant bucket : String) : Prop where
  bucket : c.admitBucket tenant bucket = .ok ()
  tenant : c.requireActiveTenant tenant = .ok ()
  decides : ∀ decide, c.authorizer = some decide →
    ∀ action resource, ∃ decision, decide c.principal action resource = .ok decision

/-- What needs no provider is allowed in the bucket, or ordinarily denied. -/
theorem Admitted.authorize (h : Admitted c tenant bucket) {action : Action} {resource : Resource}
    (ht : resource.tenantID = tenant) (hbc : resource.bucket = bucket)
    (hunp : c.authorizeUnprovided action resource = .ok ()) :
    c.authorize action resource = .ok () ∨
      ∃ reason, c.authorize action resource = .error (.forbidden reason) := by
  have hst : c.authorize action resource =
      match c.authorizer with
      | none => c.authorizeUnprovided action resource
      | some decide =>
        match decide c.principal action resource with
        | .error _ => .error .boundaryFault
        | .ok decision => if decision.allowed then .ok () else .error (.forbidden decision.reason) := by
    rw [Caller.authorize, ht, hbc, h.bucket, h.tenant]
    rfl
  rw [hst]
  cases hat : c.authorizer with
  | none => exact .inl hunp
  | some decide =>
    obtain ⟨decision, hd⟩ := h.decides decide hat action resource
    simp only [hd]
    split_ifs
    · exact .inl rfl
    · exact .inr ⟨_, rfl⟩

theorem Admitted.appendAuthorizedObject (h : Admitted c tenant bucket) {o : Object}
    (ht : o.path.tenantID = tenant) (hbc : o.path.bucket = bucket) (objects : List Object) :
    appendAuthorizedObject c o objects = .ok (if readable c o then objects ++ [o] else objects) := by
  unfold Service.appendAuthorizedObject readable
  have han : c.authorize .read (objectResource o) = .ok () ∨
      ∃ reason, c.authorize .read (objectResource o) = .error (.forbidden reason) :=
    h.authorize ht hbc rfl
  obtain hok | ⟨reason, hd⟩ := han
  · simp only [hok]
    rfl
  · simp only [hd]
    rfl

/-- The rows of a bucket as the boundary accepts them. -/
def InScope (tenant bucket : String) (objs : List Object) : Prop :=
  ∀ o ∈ objs, o.path.tenantID = tenant ∧ o.path.bucket = bucket ∧ o.id ≠ 0 ∧ validateKey o.path.key = .ok ()

/-- The rows have ids and keys as the service writes them. -/
def WellNamed (t : Objects) : Prop := ∀ o ∈ t.rows, o.id ≠ 0 ∧ validateKey o.path.key = .ok ()

theorem InScope.validateBoundaryObjects_key {objs : List Object} (h : InScope tenant bucket objs)
    {key : String} (hkey : ∀ o ∈ objs, key = "" ∨ o.path.key = key) :
    validateBoundaryObjects c objs tenant bucket key = .ok () := by
  unfold Service.validateBoundaryObjects
  cases c.spaceBoundary with
  | none => rfl
  | some check =>
    refine if_pos (all_eq_true.mpr fun o ho => ?_)
    obtain ⟨ht, hbc, hid, hv⟩ := h o ho
    have hkey' : (key == "" || o.path.key == key) = true := by simpa using hkey o ho
    simp only [objectInScope, ht, hbc, hkey', hv, beq_self_eq_true]
    simp [hid, Except.toBool]

theorem InScope.validateBoundaryObjects {objs : List Object} (h : InScope tenant bucket objs) :
    validateBoundaryObjects c objs tenant bucket "" = .ok () :=
  h.validateBoundaryObjects_key fun _ _ => .inl rfl

theorem Admitted.collectObject (h : Admitted c tenant bucket) {o : Object}
    (ht : o.path.tenantID = tenant) (hbc : o.path.bucket = bucket) {wanted : Nat}
    {objects : List Object} (hrm : objects.length < wanted) :
    (collectObject c wanted keeps objects o : Except (Collected ε) (List Object)) =
      if listed c keeps o then
        if objects.length + 1 = wanted then .error (.ok (objects ++ [o])) else .ok (objects ++ [o])
      else .ok objects := by
  have hf : (keeps.any fun keeps => !keeps o) = !keeps.all fun keeps => keeps o := by
    cases keeps <;> rfl
  unfold Service.collectObject listed
  rw [hf, h.appendAuthorizedObject ht hbc]
  cases keeps.all fun keeps => keeps o with
  | false => rfl
  | true =>
    cases readable c o with
    | false => simp [hrm.ne]
    | true => simp

/-- A pass takes the listed objects until it has as many as are wanted. -/
theorem foldlM_collectObject (h : Admitted c tenant bucket) {wanted : Nat} {rest objects : List Object}
    (hrs : InScope tenant bucket rest) (hrm : objects.length < wanted) :
    (rest.foldlM (collectObject c wanted keeps) objects : Except (Collected ε) (List Object)) =
      if (objects ++ rest.filter (listed c keeps)).length < wanted then
        .ok (objects ++ rest.filter (listed c keeps))
      else .error (.ok ((objects ++ rest.filter (listed c keeps)).take wanted)) := by
  induction rest generalizing objects with
  | nil =>
    rw [filter_nil, append_nil, if_pos hrm]
    rfl
  | cons o rest ih =>
    obtain ⟨ht, hbc, -, -⟩ := hrs o mem_cons_self
    have htl : InScope tenant bucket rest := fun o' ho' => hrs o' (mem_cons_of_mem _ ho')
    rw [foldlM_cons, h.collectObject ht hbc hrm, filter_cons]
    cases listed c keeps o with
    | false => exact ih htl hrm
    | true =>
      have happ : objects ++ o :: rest.filter (listed c keeps) =
          (objects ++ [o]) ++ rest.filter (listed c keeps) := by simp
      rw [if_pos rfl, if_pos rfl, happ]
      by_cases hl : objects.length + 1 = wanted
      · -- The last one wanted: what comes after it is not looked at.
        have hln : (objects ++ [o]).length = wanted := by simpa using hl
        have hf : ¬ ((objects ++ [o]) ++ rest.filter (listed c keeps)).length < wanted := by
          rw [length_append]
          omega
        rw [if_pos hl, if_neg hf, take_left' hln]
        rfl
      · rw [if_neg hl]
        refine ih htl ?_
        rw [length_append, length_singleton]
        omega

end Pass

/-! ### All pages -/

section Exact
variable {ε : Type} {c : Caller} {tenant bucket keyPrefix : String} {keeps : Option (Object → Bool)}
  {objs : List Object} {fetch : ObjectPageFetcher ε}

/-- The objects of a listing under a prefix. -/
def underPrefix (keyPrefix : String) (objs : List Object) : List Object :=
  objs.filter fun o => GoText.hasPrefix o.path.key keyPrefix

/-- The live objects of a bucket: one for each key, in key order. -/
structure BucketObjects (tenant bucket : String) (objs : List Object) : Prop where
  inOrder : InOrder keyOf objs
  inScope : InScope tenant bucket objs

theorem BucketObjects.filter (h : BucketObjects tenant bucket objs) (p : Object → Bool) :
    BucketObjects tenant bucket (objs.filter p) :=
  ⟨h.inOrder.filter p, fun o ho => h.inScope o (mem_of_mem_filter ho)⟩

theorem key_ne_empty {o : Object} (h : validateKey o.path.key = .ok ()) : o.path.key ≠ "" := by
  intro hem
  rw [validateKey, if_pos hem] at h
  cases h

theorem serves_fetchValidated (h : InScope tenant bucket objs)
    (hf : Serves keyOf objs fun cursor => fetch tenant bucket keyPrefix cursor 1000) :
    Serves keyOf objs (fetchValidated c tenant bucket keyPrefix fetch) := by
  intro marker
  obtain ⟨page, rest, hpg, hsp, hm⟩ := hf marker
  have hsc : InScope tenant bucket page.objects := by
    intro o ho
    have hmem : o ∈ after keyOf objs marker := by
      rw [hsp]
      exact mem_append_left _ ho
    exact h o (mem_after.mp hmem).1
  refine ⟨page, rest, ?_, hsp, hm⟩
  simp only [fetchValidated, hpg, hsc.validateBoundaryObjects]

/-- The objects collected are the next ones listed. -/
theorem collectAuthorizedObjects_eq (hadmitted : Admitted c tenant bucket)
    (h : BucketObjects tenant bucket objs)
    (hft : Serves keyOf objs fun cursor => fetch tenant bucket keyPrefix cursor 1000)
    {wanted fuel : Nat} (hwn : 0 < wanted) (hf : objs.length < fuel) (marker : String) :
    collectAuthorizedObjects c tenant bucket keyPrefix marker wanted fetch keeps fuel =
      some (.ok ((after keyOf (objs.filter (listed c keeps)) marker).take wanted)) := by
  have hon : ∀ marker, ∀ o ∈ after keyOf objs marker,
      (!(o.path.key == "" || o.path.key == marker)) = true := by
    intro marker o ho
    obtain ⟨hobj, hlt⟩ := mem_after.mp ho
    simp [key_ne_empty (h.inScope o hobj).2.2.2, hlt.ne']
  have hsc : InScope tenant bucket (after keyOf objs marker) := fun o ho => h.inScope o (mem_after.mp ho).1
  have hl : (after keyOf objs marker).length < fuel := (length_filter_le _ _).trans_lt hf
  rw [collectAuthorizedObjects, scanPages_eq_fold h.inOrder (serves_fetchValidated h.inScope hft) _ hon
    _ _ _ _ _ hl, foldlM_collectObject hadmitted hsc (by simpa using hwn), nil_append,
    after_filter]
  split_ifs with hsh
  · rw [take_of_length_le hsh.le]
    rfl
  · rfl

/-- One request of a client. -/
def authorizedPage (c : Caller) (tenant bucket keyPrefix : String) (limit : Int)
    (fetch : ObjectPageFetcher ε) (keeps : Option (Object → Bool)) (fuel : Nat) (marker : String) :
    Except (Option (ListingError ε)) ObjectPage :=
  settled (listObjectsMatching c tenant bucket keyPrefix marker limit fetch keeps fuel)

theorem pageLimit_eq {limit : Int} (h : 1 ≤ limit) (h' : limit ≤ 1000) : pageLimit limit = limit.toNat := by
  rw [pageLimit, if_neg]
  omega

/-- Without an authorizer and a filter everything is listed. -/
theorem filter_listed_unprovided (hadmitted : Admitted c tenant bucket)
    (hat : c.authorizer = none) (h : InScope tenant bucket objs) :
    objs.filter (listed c none) = objs := by
  refine filter_eq_self.mpr fun o ho => ?_
  obtain ⟨ht, hbc, -, -⟩ := h o ho
  have hok : c.authorize .read (objectResource o) = .ok () := by
    rw [Caller.authorize]
    simp only [objectResource, pathResource, ht, hbc, hadmitted.bucket, hadmitted.tenant, hat]
    rfl
  simp [listed, readable, hok, Except.toBool]

/-- **The service is a server of the objects listed**, if the repository is one of all objects. -/
theorem serves_authorizedPage (hadmitted : Admitted c tenant bucket) (h : BucketObjects tenant bucket objs)
    {limit : Int} (hpos : 1 ≤ limit) (hmax : limit ≤ 1000) (hfetch : ∀ n, 1 ≤ n → n ≤ 1000 →
      Serves keyOf objs (fun cursor => fetch tenant bucket keyPrefix cursor n) ∧
        PagesWithin n.toNat fun cursor => fetch tenant bucket keyPrefix cursor n)
    {fuel : Nat} (hfuel : objs.length < fuel) :
    Serves keyOf (objs.filter (listed c keeps))
        (authorizedPage c tenant bucket keyPrefix limit fetch keeps fuel) ∧
      PagesWithin limit.toNat (authorizedPage c tenant bucket keyPrefix limit fetch keeps fuel) := by
  by_cases hdirect : (c.authorizer.isNone && keeps.isNone) = true
  · obtain ⟨hat, hkp⟩ := Bool.and_eq_true_iff.mp hdirect
    obtain rfl := Option.isNone_iff_eq_none.mp hkp
    obtain ⟨hsr, hwt⟩ := hfetch limit hpos hmax
    have hpage : ∀ marker page rest, fetch tenant bucket keyPrefix marker limit = .ok page →
        after keyOf objs marker = page.objects ++ rest →
        authorizedPage c tenant bucket keyPrefix limit fetch none fuel marker = .ok page := by
      intro marker page rest hfetch hsp
      have hsc : InScope tenant bucket page.objects := by
        intro o ho
        have hmem : o ∈ after keyOf objs marker := by
          rw [hsp]
          exact mem_append_left _ ho
        exact h.inScope o (mem_after.mp hmem).1
      rw [authorizedPage, listObjectsMatching, hadmitted.bucket, hadmitted.tenant]
      simp only [if_pos hdirect, hfetch, hsc.validateBoundaryObjects]
      rfl
    rw [filter_listed_unprovided hadmitted (Option.isNone_iff_eq_none.mp hat) h.inScope]
    refine ⟨fun marker => ?_, fun marker page hok => ?_⟩
    · obtain ⟨page, rest, hfetch, hsp, hm⟩ := hsr marker
      exact ⟨page, rest, hpage marker page rest hfetch hsp, hsp, hm⟩
    · obtain ⟨page', rest, hfetch, hsp, -⟩ := hsr marker
      obtain rfl := Except.ok.inj ((hpage marker page' rest hfetch hsp).symm.trans hok)
      exact hwt marker page' hfetch
  · have hpage : authorizedPage c tenant bucket keyPrefix limit fetch keeps fuel = fun marker =>
        .ok (cutPage keyOf "" limit.toNat
          ((after keyOf (objs.filter (listed c keeps)) marker).take (limit.toNat + 1))) := by
      funext marker
      rw [authorizedPage, listObjectsMatching, hadmitted.bucket, hadmitted.tenant]
      simp only [if_neg hdirect]
      rw [collectAuthorizedObjects_eq hadmitted h (hfetch 1000 (by decide) le_rfl).1 (Nat.succ_pos _) hfuel,
        pageLimit_eq hpos hmax]
      rfl
    rw [hpage]
    exact ⟨serves_cutPage keyOf "" _ (by omega), pagesWithin_cutPage keyOf "" _ _⟩

/-- **The authorized listing is exact across pages.** Following the markers from the empty one
comes to an end and gives the objects under the prefix that pass the filter and that the caller
may read, each once and in key order, at most `limit` on a page. -/
theorem authorized_listing_exact (hadmitted : Admitted c tenant bucket)
    (h : BucketObjects tenant bucket objs) {limit : Int} (hpos : 1 ≤ limit) (hmax : limit ≤ 1000)
    (hfetch : ∀ n, 1 ≤ n → n ≤ 1000 →
      Serves keyOf (underPrefix keyPrefix objs) (fun cursor => fetch tenant bucket keyPrefix cursor n) ∧
        PagesWithin n.toNat fun cursor => fetch tenant bucket keyPrefix cursor n)
    {fuel : Nat} (hfuel : objs.length < fuel) :
    ∃ pages, Follows (following (authorizedPage c tenant bucket keyPrefix limit fetch keeps fuel)) "" pages ∧
      pages.flatMap (·.objects) = objs.filter (fun o =>
        GoText.hasPrefix o.path.key keyPrefix && keeps.all (fun keeps => keeps o) && readable c o) ∧
      ∀ page ∈ pages, page.objects.length ≤ limit := by
  have hsr : Serves keyOf ((underPrefix keyPrefix objs).filter (listed c keeps))
        (authorizedPage c tenant bucket keyPrefix limit fetch keeps fuel) ∧
      PagesWithin limit.toNat (authorizedPage c tenant bucket keyPrefix limit fetch keeps fuel) :=
    serves_authorizedPage hadmitted (h.filter _) hpos hmax hfetch
      ((length_filter_le _ _).trans_lt hfuel)
  obtain ⟨hserv, hwt⟩ := hsr
  obtain ⟨pages, hf, hall, hl⟩ := hserv.exists_follows ((h.inOrder.filter _).filter _) hwt ""
  refine ⟨pages, hf, ?_, fun page hpg => ?_⟩
  · rw [hall]
    rw [after, filter_filter, filter_filter]
    refine filter_congr fun o ho => ?_
    have hlt : "" < o.path.key := empty_lt (key_ne_empty (h.inScope o ho).2.2.2)
    simp only [hlt, decide_true, listed]
    cases GoText.hasPrefix o.path.key keyPrefix <;> simp
  · have hle := hl page hpg
    omega

/-- An object of the bucket `docs` of `acme`, of which only the key and the owner are of interest. -/
def sampleObject (id : Nat) (key owner : String) : Object where
  id := id
  path := ⟨"acme", "docs", key⟩
  versionID := "v"
  backend := "local"
  storageKey := key
  metadata := [(ownerMetadataKey, owner)]
  storageClass := "STANDARD"
  acl := "private"

def sampleObjects : List Object :=
  [sampleObject 1 "a" "ann", sampleObject 2 "b" "bob", sampleObject 3 "c" "ann"]

/-- A caller who may read what belongs to `ann`. -/
def ann : Caller where
  principal := ⟨"ann", "acme", .user, [], [], [], none⟩
  spaceBoundary := none
  tenantStatus := false
  verifiedTenant := ""
  getTenant := fun _ => .ok none
  authorizer := some fun p _ r => .ok ⟨r.ownerID == p.subjectID, "owner"⟩
  deleteFailOpen := false

theorem admitted_ann : Admitted ann "acme" "docs" := by
  refine ⟨rfl, rfl, fun decide hd action resource => ?_⟩
  cases hd
  exact ⟨_, rfl⟩

def fetchSample : ObjectPageFetcher Unit := fun _ _ keyPrefix marker limit =>
  .ok (cutPage keyOf "" limit.toNat
    ((after keyOf (underPrefix keyPrefix sampleObjects) marker).take (limit.toNat + 1)))

/-- One object on a page, the second object hidden. -/
theorem hidden_object_passed_over :
    ∃ pages, Follows (following (authorizedPage ann "acme" "docs" "" 1 fetchSample none 4)) "" pages ∧
      pages.flatMap (·.objects) = [sampleObject 1 "a" "ann", sampleObject 3 "c" "ann"] ∧
      ∀ page ∈ pages, (page.objects.length : Int) ≤ 1 := by
  have hob : BucketObjects "acme" "docs" sampleObjects := by
    refine ⟨by decide, fun o ho => ?_⟩
    simp only [sampleObjects, mem_cons, not_mem_nil, or_false] at ho
    obtain rfl | rfl | rfl := ho
    all_goals exact ⟨rfl, rfl, by decide, rfl⟩
  have hf : ∀ n : Int, 1 ≤ n → n ≤ 1000 →
      Serves keyOf (underPrefix "" sampleObjects) (fun cursor => fetchSample "acme" "docs" "" cursor n) ∧
        PagesWithin n.toNat fun cursor => fetchSample "acme" "docs" "" cursor n :=
    fun n hpos _ => ⟨serves_cutPage keyOf "" _ (by omega), pagesWithin_cutPage keyOf "" _ _⟩
  have hfl : sampleObjects.length < 4 := by decide
  exact authorized_listing_exact admitted_ann hob le_rfl (by decide) hf hfl

end Exact

end AeroVault.Service
