import AeroVault.Service.Listing

/-! The versions of a key that a caller may read: `ListVersionKeys` and
`ListObjectVersionsWithOpts` of the service.

The repository cuts a page of the versions of a key, and the service leaves out those that the
caller may not read. Whether there is more is still said of the repository's page
(`exists_listObjectVersionsWithOpts`). -/
namespace AeroVault.Service
open Lib Lib.SqlLike Repository Access
open Repository.Listings (pageLimit VersionListOpts VersionListPage versionsBehind)

inductive VersionsError
  /-- `ErrInvalidArgs` for a version marker without a key marker that has the prefix. -/
  | marker
  | invalid (err : ServiceError)
  | access (err : AccessError)
  | repository (err : RepoError)
  deriving DecidableEq

/-- `ListVersionKeys`. -/
def listVersionKeys (d : Dialect) (t : Objects) (tenant bucket keyPrefix marker : String) (limit : Int) :
    List String × String × Bool :=
  Listings.listObjectVersionKeys d t (defaultTenant tenant) (defaultBucket bucket) keyPrefix marker limit

/-- The loop takes a version as the object listings take an object. -/
def filterAuthorizedVersions (c : Caller) (versions : List Object) : Except AccessError (List Object) :=
  versions.foldlM (fun out version => appendAuthorizedObject c version out) []

/-- `ListObjectVersionsWithOpts` of the service. -/
def listObjectVersionsWithOpts (c : Caller) (t : Objects) (tenant bucket key : String)
    (opts : VersionListOpts) : Except VersionsError VersionListPage := do
  let k ← (checkedObjectDefaults tenant bucket key).mapError .invalid
  (c.admitBucket k.tenantID k.bucket).mapError .access
  (c.requireActiveTenant k.tenantID).mapError .access
  let page ← (Listings.listObjectVersionsWithOpts t k.tenantID k.bucket key opts).mapError .repository
  (validateBoundaryObjects c page.versions k.tenantID k.bucket key).mapError .access
  let versions ← (filterAuthorizedVersions c page.versions).mapError .access
  return {page with versions := versions}

section Page
variable {c : Caller} {t : Objects} {tenant bucket key : String}

/-- The rows of a key from a marker on, if it is a version of the key. -/
def versionsFrom (t : Objects) (k : Path) (marker : String) : Option (List Object) :=
  if marker = "" then some (listObjectVersions t k) else (getObjectVersion t k marker).map (versionsBehind t k)

theorem mem_versionsFrom {k : Path} {marker : String} {rows : List Object}
    (h : versionsFrom t k marker = some rows) {o : Object} (ho : o ∈ rows) : o ∈ t.rows ∧ o.path = k := by
  have hm : o ∈ listObjectVersions t k := by
    unfold versionsFrom at h
    split_ifs at h
    · exact Option.some.inj h ▸ ho
    · obtain ⟨marker, -, rfl⟩ := Option.map_eq_some_iff.mp h
      exact List.mem_of_mem_filter ho
  have hrow := (List.perm_insertionSort newer (versionsAt t k)).mem_iff.mp hm
  obtain ⟨hrow, hpath⟩ := List.mem_filter.mp hrow
  exact ⟨hrow, by simpa [atPath] using hpath⟩

/-- **A page of the repository, and what the caller may read of it.** -/
theorem exists_listObjectVersionsWithOpts
    (hadmitted : Admitted c (defaultTenant tenant) (defaultBucket bucket)) (hnamed : WellNamed t)
    (hkey : validateKey key = .ok ()) {marker : String} {rows : List Object}
    (hrw : versionsFrom t (defaults tenant bucket key) marker = some rows) {limit : Nat}
    (hpos : 0 < limit) (hmax : limit ≤ 1000) :
    ∃ page, listObjectVersionsWithOpts c t tenant bucket key ⟨marker, limit⟩ = .ok page ∧
      page.versions = (rows.take limit).filter (readable c) ∧ page.hasMore = decide (limit < rows.length) := by
  have hl : pageLimit (limit : Int) = limit := pageLimit_eq (by omega) (by omega)
  have hrep : Listings.listObjectVersionsWithOpts t (defaultTenant tenant) (defaultBucket bucket) key
      ⟨marker, limit⟩ = .ok (Listings.cutVersions limit rows) := by
    have hpath : (⟨defaultTenant (defaultTenant tenant), defaultBucket bucket, key⟩ : Path) =
        defaults tenant bucket key :=
      congrArg (fun tenant => (⟨tenant, defaultBucket bucket, key⟩ : Path)) (defaultTenant_idem tenant)
    unfold versionsFrom at hrw
    simp only [Listings.listObjectVersionsWithOpts, hpath, hl]
    split_ifs at hrw ⊢ with hmark
    · rw [Option.some.inj hrw]
    · obtain ⟨version, hversion, rfl⟩ := Option.map_eq_some_iff.mp hrw
      rw [hversion]
  obtain ⟨hvr, hmr⟩ := Listings.cutVersions_eq limit rows
  have hm : ∀ o ∈ rows.take limit, o ∈ t.rows ∧ o.path = defaults tenant bucket key :=
    fun o ho => mem_versionsFrom hrw (List.mem_of_mem_take ho)
  have hsc : InScope (defaultTenant tenant) (defaultBucket bucket) (rows.take limit) := by
    intro o ho
    obtain ⟨hrow, hpath⟩ := hm o ho
    exact ⟨congrArg Path.tenantID hpath, congrArg Path.bucket hpath, hnamed o hrow⟩
  have hv : validateBoundaryObjects c (rows.take limit) (defaultTenant tenant) (defaultBucket bucket) key =
      .ok () :=
    hsc.validateBoundaryObjects_key fun o ho => .inr (congrArg Path.key (hm o ho).2)
  have hf : filterAuthorizedVersions c (rows.take limit) = .ok ((rows.take limit).filter (readable c)) :=
    foldlM_append_filter (fun o ho out => hadmitted.appendAuthorizedObject (hsc o ho).1 (hsc o ho).2.1 out) []
  refine ⟨{Listings.cutVersions limit rows with versions := (rows.take limit).filter (readable c)}, ?_, rfl, hmr⟩
  have hpath : checkedObjectDefaults tenant bucket key = .ok (defaults tenant bucket key) := by
    rw [checkedObjectDefaults, hkey]
  simp only [listObjectVersionsWithOpts, bind_eq_ok, wrapped_ok_iff]
  refine ⟨_, hpath, (), hadmitted.bucket, (), hadmitted.tenant, _, hrep, (), ?_, _, ?_, rfl⟩
  · rw [hvr]
    exact hv
  · rw [hvr]
    exact hf

end Page

end AeroVault.Service
