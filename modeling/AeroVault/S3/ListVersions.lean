import AeroVault.Lib.NestedPages
import AeroVault.Service.VersionListing

/-! ListObjectVersions of the S3 API.

A page holds at most max-keys versions and delete markers. It is filled key by key from the
repository's pages of versions, from which the service has already left out what the caller may not
read. The handler is the procedure of `Lib/NestedPages.lean` with keys for groups: each request is a
page at the place of its markers (`agrees_listObjectVersions`). So the listing is exact if and only
if the pages keep what the caller may read (`version_listing_exact_iff`); what hides it is a hidden
newest version, a hidden stretch of a key, or keys that are hidden altogether. -/
namespace AeroVault.S3
open Lib Lib.SqlLike Repository Service List Nested GoText
open Repository.Listings (versionKeys inBucket versionsBehind)

/-! ### The handler -/

structure VersionEntry where
  key : String
  versionID : String
  isLatest : Bool
  lastModified : Nat
  etag : String
  size : Nat
  storageClass : String
  deriving DecidableEq

structure DeleteMarkerEntry where
  key : String
  versionID : String
  isLatest : Bool
  lastModified : Nat
  deriving DecidableEq

structure ListVersionsResult where
  versions : List VersionEntry
  deleteMarkers : List DeleteMarkerEntry
  isTruncated : Bool
  nextKeyMarker : String
  nextVersionIDMarker : String
  deriving DecidableEq

def ListVersionsResult.empty : ListVersionsResult := ⟨[], [], false, "", ""⟩

def versionEntry (o : Object) (isLatest : Bool) : VersionEntry :=
  ⟨o.path.key, o.versionID, isLatest, o.updatedAt, "\"" ++ o.etag ++ "\"", o.size,
    defaultStorageClass o.storageClass⟩

def deleteMarkerEntry (o : Object) (isLatest : Bool) : DeleteMarkerEntry :=
  ⟨o.path.key, o.versionID, isLatest, o.updatedAt⟩

def appendVersion (out : ListVersionsResult) (o : Object) (isLatest : Bool) : ListVersionsResult :=
  if o.isDeleteMarker then {out with deleteMarkers := out.deleteMarkers ++ [deleteMarkerEntry o isLatest]}
  else {out with versions := out.versions ++ [versionEntry o isLatest]}

def appendVersions (out : ListVersionsResult) (versions : List Object) (startsAfter : Bool) :
    ListVersionsResult :=
  versions.zipIdx.foldl (fun out v => appendVersion out v.1 (v.2 == 0 && !startsAfter)) out

/-- `appendVersionPage`. The first key is read from the version marker on. -/
def appendVersionPage (c : Caller) (t : Objects) (tenant bucket : String) (moreKeys : Bool) :
    List String → String → Nat → ListVersionsResult → Except VersionsError ListVersionsResult
  | [], _, _, out => .ok out
  | key :: keys, marker, remaining, out => do
    let page ← listObjectVersionsWithOpts c t tenant bucket key ⟨marker, remaining⟩
    let out := appendVersions out page.versions (marker != "")
    let remaining := remaining - page.versions.length
    let more := page.hasMore || !keys.isEmpty || moreKeys
    if (remaining == 0 && more) || page.hasMore then
      return {out with
        isTruncated := true
        nextKeyMarker := key
        nextVersionIDMarker := (page.versions.getLast?.map (·.versionID)).getD marker}
    else appendVersionPage c t tenant bucket moreKeys keys "" remaining out

def versionPageKeys (d : Dialect) (t : Objects) (tenant bucket keyPrefix keyMarker versionMarker : String)
    (limit : Nat) : List String × Bool :=
  let keys := if versionMarker ≠ "" ∧ hasPrefix keyMarker keyPrefix then [keyMarker] else []
  let later := listVersionKeys d t tenant bucket keyPrefix keyMarker limit
  (keys ++ later.1, later.2.2)

/-- `s3PageLimit`, of the number that the parameter spells if it spells one. -/
def s3PageLimit (raw : Option Int) (defaultValue : Nat) : Nat :=
  match raw with
  | none => defaultValue
  | some value => if value < 0 then defaultValue else if value > 1000 then 1000 else value.toNat

/-- The listing's markers: a key, and a version of it. -/
abbrev VersionMarker := String × String

def listObjectVersions (c : Caller) (d : Dialect) (t : Objects) (tenant bucket keyPrefix : String)
    (maxKeys : Option Int) (marker : VersionMarker) : Except VersionsError ListVersionsResult :=
  let maxKeys := s3PageLimit maxKeys 1000
  if marker.2 ≠ "" ∧ marker.1 = "" then .error .marker
  else if marker.2 ≠ "" ∧ !hasPrefix marker.1 keyPrefix then .error .marker
  else if maxKeys = 0 then .ok .empty
  else
    let keys := versionPageKeys d t tenant bucket keyPrefix marker.1 marker.2 maxKeys
    appendVersionPage c t tenant bucket keys.2 keys.1 marker.2 maxKeys .empty

/-- One request of a client. -/
def versionsPage (c : Caller) (d : Dialect) (t : Objects) (tenant bucket keyPrefix : String)
    (maxKeys : Option Int) (marker : VersionMarker) :
    Except VersionsError (ListVersionsResult × Option VersionMarker) :=
  match listObjectVersions c d t tenant bucket keyPrefix maxKeys marker with
  | .error err => .error err
  | .ok out => .ok (out, if out.isTruncated then some (out.nextKeyMarker, out.nextVersionIDMarker) else none)

/-! ### What the listing is to show -/

/-- The row is the newest of its key. -/
def isNewest (t : Objects) (o : Object) : Bool :=
  (Repository.listObjectVersions t o.path).head? == some o

/-- The rows of the bucket with the prefix that the caller may read. -/
def visibleVersions (c : Caller) (t : Objects) (tenant bucket keyPrefix : String) : List Object :=
  t.rows.filter fun o => inBucket tenant bucket o && hasPrefix o.path.key keyPrefix && readable c o

/-- The versions among rows with their marks. -/
def versionEntries (shown : List (Object × Bool)) : List VersionEntry :=
  (shown.filter fun e => !e.1.isDeleteMarker).map fun e => versionEntry e.1 e.2

def deleteMarkerEntries (shown : List (Object × Bool)) : List DeleteMarkerEntry :=
  (shown.filter fun e => e.1.isDeleteMarker).map fun e => deleteMarkerEntry e.1 e.2

/-- Following the markers gives each version and each delete marker that the caller may read once,
and nothing else, and the newest ones of their keys are marked. -/
def ListsVersions (c : Caller) (t : Objects) (tenant bucket keyPrefix : String)
    (page : VersionMarker → Except VersionsError (ListVersionsResult × Option VersionMarker)) : Prop :=
  ∃ pages, Follows page ("", "") pages ∧
    (pages.flatMap (·.versions)).Perm
      (versionEntries ((visibleVersions c t tenant bucket keyPrefix).map fun o => (o, isNewest t o))) ∧
    (pages.flatMap (·.deleteMarkers)).Perm
      (deleteMarkerEntries ((visibleVersions c t tenant bucket keyPrefix).map fun o => (o, isNewest t o)))

/-! ### The entries of a page -/

section Append
variable (out : ListVersionsResult)

theorem versionEntries_append (shown later : List (Object × Bool)) :
    versionEntries (shown ++ later) = versionEntries shown ++ versionEntries later := by
  rw [versionEntries, filter_append, map_append]
  rfl

theorem deleteMarkerEntries_append (shown later : List (Object × Bool)) :
    deleteMarkerEntries (shown ++ later) = deleteMarkerEntries shown ++ deleteMarkerEntries later := by
  rw [deleteMarkerEntries, filter_append, map_append]
  rfl

theorem foldl_appendVersion (shown : List (Object × Bool)) :
    shown.foldl (fun out e => appendVersion out e.1 e.2) out =
      {out with
        versions := out.versions ++ versionEntries shown
        deleteMarkers := out.deleteMarkers ++ deleteMarkerEntries shown} := by
  induction shown generalizing out with
  | nil => simp [versionEntries, deleteMarkerEntries]
  | cons e shown ih =>
    rw [foldl_cons, ih, appendVersion]
    cases hm : e.1.isDeleteMarker with
    | false | true => simp [versionEntries, deleteMarkerEntries, hm]

theorem zipIdx_succ (versions : List Object) (n : Nat) (startsAfter : Bool) :
    ((versions.zipIdx (n + 1)).map fun v => (v.1, v.2 == 0 && !startsAfter)) =
      versions.map fun o => (o, false) := by
  induction versions generalizing n with
  | nil => rfl
  | cons o versions ih => simpa using ih (n + 1)

/-- The first version of a page that does not start after another is marked. -/
theorem appendVersions_eq (versions : List Object) (startsAfter : Bool) :
    appendVersions out versions startsAfter =
      {out with
        versions := out.versions ++ versionEntries (mark (!startsAfter) versions)
        deleteMarkers := out.deleteMarkers ++ deleteMarkerEntries (mark (!startsAfter) versions)} := by
  have hm : (versions.zipIdx.map fun v => (v.1, v.2 == 0 && !startsAfter)) =
      mark (!startsAfter) versions := by
    cases versions with
    | nil => rfl
    | cons o versions =>
      rw [zipIdx_cons, map_cons, zipIdx_succ]
      rfl
  rw [← hm, ← foldl_appendVersion, foldl_map]
  rfl

end Append

/-! ### The places of the listing -/

section Places
variable (c : Caller) (d : Dialect) (t : Objects) (tenant bucket keyPrefix : String)

/-- The rows of a key, which are to be shown if it has the prefix. -/
def keyGroup (key : String) : Nested.Group Object :=
  ⟨hasPrefix key keyPrefix, Repository.listObjectVersions t (defaults tenant bucket key)⟩

/-- The keys that the listing goes through. -/
def listedKeys : List String := versionKeys d t (defaultTenant tenant) (defaultBucket bucket) keyPrefix

/-- The place that a request begins at. -/
def placeAt (marker : VersionMarker) : Nested.Place Object :=
  ⟨if marker.2 = "" then none
    else (versionsFrom t (defaults tenant bucket marker.1) marker.2).map (⟨hasPrefix marker.1 keyPrefix, ·⟩),
    (after id (listedKeys d t tenant bucket keyPrefix) marker.1).map (keyGroup t tenant bucket keyPrefix)⟩

/-- A marker without a version, or with a version of a key that can be. -/
def GoodMarker (marker : VersionMarker) : Prop :=
  marker.2 = "" ∨ validateKey marker.1 = .ok () ∧
    (versionsFrom t (defaults tenant bucket marker.1) marker.2).isSome = true

/-- A result is that of a page of the procedure. -/
structure AgreesWith (out out' : ListVersionsResult)
    (answer : List (Object × Bool) × Option (Nested.Place Object)) : Prop where
  versions : out'.versions = out.versions ++ versionEntries answer.1
  deleteMarkers : out'.deleteMarkers = out.deleteMarkers ++ deleteMarkerEntries answer.1
  next : answer.2 = if out'.isTruncated then
    some (placeAt d t tenant bucket keyPrefix (out'.nextKeyMarker, out'.nextVersionIDMarker)) else none
  good : out'.isTruncated = true → GoodMarker t tenant bucket (out'.nextKeyMarker, out'.nextVersionIDMarker)

end Places

section Page
variable {c : Caller} {d : Dialect} {t : Objects} {tenant bucket keyPrefix : String}

/-- Rows as the service writes them, with version ids that tell the rows of a key apart. -/
structure WrittenVersions (t : Objects) : Prop where
  named : WellNamed t
  versioned : ∀ o ∈ t.rows, o.versionID ≠ ""
  distinct : ∀ a ∈ t.rows, ∀ b ∈ t.rows, a.path = b.path → a.versionID = b.versionID → a = b

variable {k : Path} {o : Object}

/-- A row is found by its id. -/
theorem WrittenVersions.getObjectVersion_eq (h : WrittenVersions t) (ho : o ∈ t.rows) :
    getObjectVersion t o.path o.versionID = some o := by
  have hsome : (getObjectVersion t o.path o.versionID).isSome = true :=
    find?_isSome.mpr ⟨o, ho, by simp [atPath]⟩
  obtain ⟨found, hfound⟩ := Option.isSome_iff_exists.mp hsome
  have hbt := find?_some hfound
  rw [Bool.and_eq_true_iff, atPath, beq_iff_eq, beq_iff_eq] at hbt
  rw [hfound, h.distinct found (mem_of_find?_eq_some hfound) o ho hbt.1 hbt.2]

/-- What is behind a version, by its id. -/
theorem WrittenVersions.versionsFrom_eq (h : WrittenVersions t) {front later : List Object}
    (hrw : Repository.listObjectVersions t k = front ++ o :: later) :
    versionsFrom t k o.versionID = some later := by
  have hm : o ∈ Repository.listObjectVersions t k := by simp [hrw]
  obtain ⟨hrow, rfl⟩ := mem_listObjectVersions.mp hm
  rw [versionsFrom, if_neg (h.versioned o hrow), h.getObjectVersion_eq hrow, Option.map_some,
    Listings.versionsBehind_eq hrw]

variable {marker : String} {rows : List Object}

theorem suffix_versionsFrom
    (h : versionsFrom t k marker = some rows) : rows <:+ Repository.listObjectVersions t k := by
  unfold versionsFrom at h
  split_ifs at h with hmr
  · rw [Option.some.inj h]
  · obtain ⟨version, hversion, rfl⟩ := Option.map_eq_some_iff.mp h
    have hbt := find?_some hversion
    rw [Bool.and_eq_true_iff, atPath, beq_iff_eq] at hbt
    have hm : version ∈ Repository.listObjectVersions t k :=
      mem_listObjectVersions.mpr ⟨mem_of_find?_eq_some hversion, hbt.1⟩
    obtain ⟨front, later, hrw⟩ := append_of_mem hm
    rw [Listings.versionsBehind_eq hrw]
    exact ⟨front ++ [version], by rw [append_assoc]; exact hrw.symm⟩

variable {key : String} {keys : List String}

/-- The marker that a page ends with leads to where the procedure goes on. -/
theorem placeAt_end (h : WrittenVersions t)
    (hkey : validateKey key = .ok ()) (hrw : versionsFrom t (defaults tenant bucket key) marker = some rows)
    (haft : after id (listedKeys d t tenant bucket keyPrefix) key = keys) (remaining : Nat) :
    let last := ((seen (readable c) remaining rows).getLast?.map (·.versionID)).getD marker
    endIn (readable c) (marker != "") remaining ⟨hasPrefix key keyPrefix, rows⟩
        (keys.map (keyGroup t tenant bucket keyPrefix)) = placeAt d t tenant bucket keyPrefix (key, last) ∧
      GoodMarker t tenant bucket (key, last) := by
  by_cases hsn : seen (readable c) remaining rows = []
  · simp only [hsn, getLast?_nil, Option.map_none]
    rw [endIn, if_pos hsn, placeAt, haft]
    by_cases hm : marker = ""
    · simp [hm, GoodMarker]
    · simp [hm, GoodMarker, hkey, hrw]
  · obtain ⟨front, last, hsp, -, -, hsh⟩ := exists_unshown hsn
    obtain ⟨before, hbf⟩ := suffix_versionsFrom hrw
    have hall : Repository.listObjectVersions t (defaults tenant bucket key) =
        (before ++ front) ++ last :: unshown (readable c) remaining rows := by
      rw [← hbf, append_assoc, ← hsp]
    have hf := h.versionsFrom_eq hall
    have hrow : last ∈ t.rows := (mem_listObjectVersions.mp (by rw [hall]; simp)).1
    have hl : (seen (readable c) remaining rows).getLast? = some last := by
      rw [hsh, getLast?_concat]
    simp only [hl, Option.map_some]
    rw [endIn, if_neg hsn, placeAt, haft]
    simp [GoodMarker, h.versioned last hrow, hkey, hf]

/-- The page ends with a key exactly where the procedure ends it with the group. -/
theorem ends_page_iff (left remaining : Nat) (rows : List Object) (keys beyond : List String)
    (group : String → Nested.Group Object) :
    ((left == 0 && (decide (remaining < rows.length) || !keys.isEmpty || !beyond.isEmpty)) ||
        decide (remaining < rows.length)) = true ↔
      (left = 0 ∧ keys.map group ++ beyond.map group ≠ []) ∨ remaining < rows.length := by
  by_cases hcut : remaining < rows.length
  · simp [hcut]
  · simp only [hcut, decide_false, Bool.and_eq_true_iff, beq_iff_eq,
      Bool.or_eq_true_iff, Bool.not_eq_true', isEmpty_eq_false_iff, ne_eq, append_eq_nil_iff,
      map_eq_nil_iff]
    tauto

variable {beyond : List String} {remaining : Nat}

theorem s3PageLimit_le (raw : Option Int) : s3PageLimit raw 1000 ≤ 1000 := by
  unfold s3PageLimit
  split
  · exact le_rfl
  · split_ifs <;> omega

theorem inOrder_listedKeys : InOrder id (listedKeys d t tenant bucket keyPrefix) :=
  Listings.inOrder_distinctKeys _

theorem mem_listedKeys : key ∈ listedKeys d t tenant bucket keyPrefix ↔
    ∃ o ∈ t.rows, inBucket (defaultTenant tenant) (defaultBucket bucket) o = true ∧
      Listings.keyLike d keyPrefix o.path.key = true ∧ o.path.key = key := by
  rw [listedKeys, versionKeys, Listings.mem_distinctKeys]
  simp only [mem_filter, Bool.and_eq_true_iff, and_assoc]

theorem WrittenVersions.validateKey (h : WrittenVersions t)
    (hkey : key ∈ listedKeys d t tenant bucket keyPrefix) : validateKey key = .ok () := by
  obtain ⟨o, ho, -, -, rfl⟩ := mem_listedKeys.mp hkey
  exact (h.named o ho).2

/-- The keys that a page opens after a key marker. -/
theorem versionPageKeys_eq (keyMarker versionMarker : String) {limit : Nat} (hpos : 0 < limit)
    (hmax : limit ≤ 1000)
    (hkeys : (after id (listedKeys d t tenant bucket keyPrefix) keyMarker).take limit = keys)
    (hby : (after id (listedKeys d t tenant bucket keyPrefix) keyMarker).drop limit = beyond) :
    versionPageKeys d t tenant bucket keyPrefix keyMarker versionMarker limit =
      ((if versionMarker ≠ "" ∧ hasPrefix keyMarker keyPrefix then [keyMarker] else []) ++ keys,
        !beyond.isEmpty) := by
  have hlm : Listings.pageLimit (limit : Int) = limit := pageLimit_eq (by omega) (by omega)
  obtain ⟨hl, hm⟩ := Listings.listObjectVersionKeys_eq d t (defaultTenant tenant) (defaultBucket bucket)
    keyPrefix keyMarker limit
  have ht := defaultTenant_idem tenant
  rw [hlm, ht] at hl hm
  have hsome : decide (limit < (after id (listedKeys d t tenant bucket keyPrefix) keyMarker).length) =
      !beyond.isEmpty := by
    rw [← hby, Bool.eq_iff_iff]
    simp
  simp only [versionPageKeys, listVersionKeys, hl, hm]
  exact congrArg₂ _ (congrArg _ hkeys) hsome

theorem validateKey_ne_empty (h : Service.validateKey key = .ok ()) : key ≠ "" := by
  intro hem
  rw [hem] at h
  cases h

/-- Filling a page from the keys does what the procedure does with the groups. -/
def Fills (c : Caller) (d : Dialect) (t : Objects) (tenant bucket keyPrefix : String) (keys beyond : List String)
    (marker : String) (groups : List (Nested.Group Object)) (remaining : Nat) (out : ListVersionsResult) : Prop :=
  ∃ out', appendVersionPage c t tenant bucket (!beyond.isEmpty) keys marker remaining out = .ok out' ∧
    AgreesWith d t tenant bucket keyPrefix out out' (fill (readable c) (marker != "") remaining groups
      (beyond.map (keyGroup t tenant bucket keyPrefix)))

section Admitted
variable (hadmitted : Admitted c (defaultTenant tenant) (defaultBucket bucket)) (h : WrittenVersions t)
include hadmitted h

/-- One key. -/
theorem agrees_cons (hkey : validateKey key = .ok ())
    (hrw : versionsFrom t (defaults tenant bucket key) marker = some rows)
    (haft : after id (listedKeys d t tenant bucket keyPrefix) key = keys ++ beyond)
    (hrest : ∀ remaining ≤ 1000, 0 < remaining ∨ keys = [] → ∀ out : ListVersionsResult, out.isTruncated = false →
      Fills c d t tenant bucket keyPrefix keys beyond "" (keys.map (keyGroup t tenant bucket keyPrefix)) remaining out)
    (hpos : 0 < remaining) (hmax : remaining ≤ 1000) (out : ListVersionsResult)
    (hout : out.isTruncated = false) :
    Fills c d t tenant bucket keyPrefix (key :: keys) beyond marker
      (⟨hasPrefix key keyPrefix, rows⟩ :: keys.map (keyGroup t tenant bucket keyPrefix)) remaining out := by
  obtain ⟨page, hpg, hv, hm⟩ := exists_listObjectVersionsWithOpts hadmitted h.named hkey hrw hpos hmax
  have hsn : page.versions = seen (readable c) remaining rows := hv
  have hen := ends_page_iff (remaining - (seen (readable c) remaining rows).length) remaining rows keys
    beyond (keyGroup t tenant bucket keyPrefix)
  rw [Fills, appendVersionPage, hpg, fill]
  simp only [bind, Except.bind, hm, hsn, appendVersions_eq]
  by_cases hend : (remaining - (seen (readable c) remaining rows).length = 0 ∧
      keys.map (keyGroup t tenant bucket keyPrefix) ++ beyond.map (keyGroup t tenant bucket keyPrefix) ≠ []) ∨
        remaining < rows.length
  · obtain ⟨hpl, hg⟩ := placeAt_end h hkey hrw haft remaining
    rw [if_pos (hen.mpr hend), if_pos hend]
    refine ⟨_, rfl, ⟨rfl, rfl, ?_, fun _ => hg⟩⟩
    rw [← map_append, hpl]
    rfl
  · have ho : 0 < remaining - (seen (readable c) remaining rows).length ∨ keys = [] := by
      by_cases hf : remaining - (seen (readable c) remaining rows).length = 0
      · have hnone := not_not.mp fun hne => hend (.inl ⟨hf, hne⟩)
        exact .inr (map_eq_nil_iff.mp (append_eq_nil_iff.mp hnone).1)
      · exact .inl (Nat.pos_of_ne_zero hf)
    rw [if_neg fun hy => hend (hen.mp hy), if_neg hend]
    obtain ⟨out', hok, hag⟩ := hrest _ ((Nat.sub_le _ _).trans hmax) ho
      {out with
        versions := out.versions ++ versionEntries
          (mark (!(marker != "")) (seen (readable c) remaining rows))
        deleteMarkers := out.deleteMarkers ++ deleteMarkerEntries
          (mark (!(marker != "")) (seen (readable c) remaining rows))} hout
    rw [bne_self_eq_false] at hag
    refine ⟨out', hok, ⟨?_, ?_, hag.next, hag.good⟩⟩
    · rw [hag.versions, versionEntries_append, append_assoc]
    · rw [hag.deleteMarkers, deleteMarkerEntries_append, append_assoc]

/-- The keys of a page from which no version has been shown yet. -/
theorem agrees_keys (hkeys : ∀ key ∈ keys, validateKey key = .ok ())
    (haft : ∀ front key later, keys = front ++ key :: later →
      after id (listedKeys d t tenant bucket keyPrefix) key = later ++ beyond)
    (hm : remaining ≤ 1000) (hop : 0 < remaining ∨ keys = []) (out : ListVersionsResult)
    (ho : out.isTruncated = false) :
    Fills c d t tenant bucket keyPrefix keys beyond "" (keys.map (keyGroup t tenant bucket keyPrefix)) remaining
      out := by
  induction keys generalizing remaining out with
  | nil =>
    refine ⟨out, rfl, ⟨?_, ?_, ?_, fun ht => ?_⟩⟩
    · exact (append_nil _).symm
    · exact (append_nil _).symm
    · rw [ho]
      rfl
    · rw [ho] at ht
      cases ht
  | cons key keys ih =>
    have hpos : 0 < remaining := hop.resolve_right (cons_ne_nil _ _)
    refine agrees_cons hadmitted h (hkeys key mem_cons_self) rfl (haft [] key keys rfl) ?_ hpos hm out ho
    intro remaining hm hop out ho
    refine ih (fun k hk => hkeys k (mem_cons_of_mem _ hk)) (fun front k later hsp => ?_) hm hop out ho
    exact haft (key :: front) k later (by rw [hsp]; rfl)

/-- The keys that a page opens, from the marker on. -/
theorem agrees_later (marker : String)
    (hkeys : after id (listedKeys d t tenant bucket keyPrefix) marker = keys ++ beyond)
    (hm : remaining ≤ 1000) (ho : 0 < remaining ∨ keys = []) (out : ListVersionsResult)
    (hout : out.isTruncated = false) :
    Fills c d t tenant bucket keyPrefix keys beyond "" (keys.map (keyGroup t tenant bucket keyPrefix)) remaining
      out := by
  refine agrees_keys hadmitted h (fun key hkey => ?_) (fun front key later hsp => ?_) hm ho out hout
  · have hmem : key ∈ after id (listedKeys d t tenant bucket keyPrefix) marker := by
      rw [hkeys]
      exact mem_append_left _ hkey
    exact h.validateKey (mem_after.mp hmem).1
  · have hsp' : after id (listedKeys d t tenant bucket keyPrefix) marker =
        (front ++ [key]) ++ (later ++ beyond) := by
      rw [hkeys, hsp]
      simp
    exact after_key_getLast inOrder_listedKeys hsp' getLast?_concat

/-- **A request is a page of the procedure** at the place of its markers, and refused where that
is. -/
theorem agrees_listObjectVersions {maxKeys : Option Int} (hpos : 0 < s3PageLimit maxKeys 1000) {marker : VersionMarker}
    (hmark : GoodMarker t tenant bucket marker) :
    (∃ out answer, listObjectVersions c d t tenant bucket keyPrefix maxKeys marker = .ok out ∧
      Nested.serve (readable c) (s3PageLimit maxKeys 1000) (placeAt d t tenant bucket keyPrefix marker) =
        .ok answer ∧ AgreesWith d t tenant bucket keyPrefix .empty out answer) ∨
    ((∃ err, listObjectVersions c d t tenant bucket keyPrefix maxKeys marker = .error err) ∧
      Nested.serve (readable c) (s3PageLimit maxKeys 1000) (placeAt d t tenant bucket keyPrefix marker) =
        .error ()) := by
  obtain ⟨keyMarker, versionMarker⟩ := marker
  have hmax := s3PageLimit_le maxKeys
  unfold listObjectVersions
  generalize s3PageLimit maxKeys 1000 = size at hpos hmax
  obtain ⟨keys, hkeys⟩ : ∃ keys, (after id (listedKeys d t tenant bucket keyPrefix) keyMarker).take size = keys :=
    ⟨_, rfl⟩
  obtain ⟨beyond, hby⟩ :
      ∃ beyond, (after id (listedKeys d t tenant bucket keyPrefix) keyMarker).drop size = beyond := ⟨_, rfl⟩
  have hall : after id (listedKeys d t tenant bucket keyPrefix) keyMarker = keys ++ beyond := by
    rw [← hkeys, ← hby, take_append_drop]
  have hpg := versionPageKeys_eq keyMarker versionMarker hpos hmax hkeys hby
  simp only [hpg, hpos.ne', Nested.serve, placeAt, ← map_take, ← map_drop, hkeys, hby]
  by_cases hversion : versionMarker = ""
  · obtain ⟨out, hok, hag⟩ := agrees_later hadmitted h keyMarker hall hmax (.inl hpos) .empty rfl
    refine .inl ⟨out, _, ?_, ?_, hag⟩
    · simpa [hversion] using hok
    · simp [hversion]
  · obtain ⟨hkey, hsome⟩ := hmark.resolve_left hversion
    obtain ⟨rows, hrw⟩ := Option.isSome_iff_exists.mp hsome
    have hnn : keyMarker ≠ "" := validateKey_ne_empty hkey
    cases hh : hasPrefix keyMarker keyPrefix with
    | false => exact .inr ⟨⟨.marker, by simp [hversion]⟩, by simp [hversion, hrw]⟩
    | true =>
      obtain ⟨out, hok, hag⟩ := agrees_cons hadmitted h hkey hrw hall
        (fun _ hmax ho out hout => agrees_later hadmitted h keyMarker hall hmax ho out hout) hpos hmax .empty rfl
      refine .inl ⟨out, _, ?_, ?_, hag⟩
      · simpa [hversion, hnn] using hok
      · have hrs : (versionMarker != "") = true := bne_iff_ne.mpr hversion
        simp [hversion, hrw, hh, hrs]

end Admitted

end Page

/-! ### The run of a client -/

section Run
variable {c : Caller} {d : Dialect} {t : Objects} {tenant bucket keyPrefix : String} {maxKeys : Option Int}

/-- A marker of the listing leads to a place. -/
def LeadsTo (d : Dialect) (t : Objects) (tenant bucket keyPrefix : String) (marker : VersionMarker)
    (place : Nested.Place Object) : Prop :=
  GoodMarker t tenant bucket marker ∧ placeAt d t tenant bucket keyPrefix marker = place

/-- A page of the listing shows rows. -/
def ShowsRows (page : ListVersionsResult) (shown : List (Object × Bool)) : Prop :=
  page.versions = versionEntries shown ∧ page.deleteMarkers = deleteMarkerEntries shown

theorem AgreesWith.rel_next {out : ListVersionsResult} {answer : List (Object × Bool) × Option (Nested.Place Object)}
    (h : AgreesWith d t tenant bucket keyPrefix .empty out answer) :
    Option.Rel (LeadsTo d t tenant bucket keyPrefix)
      (if out.isTruncated then some (out.nextKeyMarker, out.nextVersionIDMarker) else none) answer.2 := by
  rw [h.next]
  split_ifs with ht
  · exact .some ⟨h.good ht, rfl⟩
  · exact .none

theorem flatMap_of_showsRows {pages : List ListVersionsResult} {shown : List (List (Object × Bool))}
    (h : List.Forall₂ ShowsRows pages shown) :
    pages.flatMap (·.versions) = versionEntries shown.flatten ∧
      pages.flatMap (·.deleteMarkers) = deleteMarkerEntries shown.flatten := by
  induction h with
  | nil => exact ⟨rfl, rfl⟩
  | cons hpg _ ih =>
    rw [flatMap_cons, flatMap_cons, flatten_cons, versionEntries_append, deleteMarkerEntries_append,
      hpg.1, hpg.2, ih.1, ih.2]
    exact ⟨rfl, rfl⟩

section Admitted
variable (hadmitted : Admitted c (defaultTenant tenant) (defaultBucket bucket)) (h : WrittenVersions t)
  (hpos : 0 < s3PageLimit maxKeys 1000)
include hadmitted h hpos

/-- One step of a client, at a marker and at its place. -/
theorem versionsPage_step (marker : VersionMarker) (place : Nested.Place Object)
    (hpl : LeadsTo d t tenant bucket keyPrefix marker place) :
    Alike (versionsPage c d t tenant bucket keyPrefix maxKeys) (Nested.serve (readable c) (s3PageLimit maxKeys 1000))
      (LeadsTo d t tenant bucket keyPrefix) ShowsRows marker place := by
  obtain ⟨hm, rfl⟩ := hpl
  obtain ⟨out, answer, hok, hsr, hag⟩ | ⟨⟨err, herr⟩, hsr⟩ :=
    agrees_listObjectVersions hadmitted h hpos hm
  · refine .inl ⟨out, _, answer.1, answer.2, by rw [versionsPage, hok], hsr, ⟨?_, ?_⟩, hag.rel_next⟩
    · exact hag.versions
    · exact hag.deleteMarkers
  · exact .inr ⟨⟨err, by rw [versionsPage, herr]⟩, (), hsr⟩

/-- **A client that follows the markers goes from place to place.** -/
theorem exists_follows_iff (P : List VersionEntry → List DeleteMarkerEntry → Prop) :
    (∃ pages, Follows (versionsPage c d t tenant bucket keyPrefix maxKeys) ("", "") pages ∧
      P (pages.flatMap (·.versions)) (pages.flatMap (·.deleteMarkers))) ↔
    ∃ shown, Follows (Nested.serve (readable c) (s3PageLimit maxKeys 1000))
        (placeAt d t tenant bucket keyPrefix ("", "")) shown ∧
      P (versionEntries shown.flatten) (deleteMarkerEntries shown.flatten) := by
  have hstart : LeadsTo d t tenant bucket keyPrefix ("", "") (placeAt d t tenant bucket keyPrefix ("", "")) :=
    ⟨.inl rfl, rfl⟩
  constructor
  · intro ⟨pages, hpag, hP⟩
    obtain ⟨shown, hsh, hshows⟩ := hpag.simulate (versionsPage_step hadmitted h hpos) hstart
    obtain ⟨hv, hm⟩ := flatMap_of_showsRows hshows
    exact ⟨shown, hsh, hv ▸ hm ▸ hP⟩
  · intro ⟨shown, hsh, hP⟩
    obtain ⟨pages, hpag, hshows⟩ :=
      hsh.simulate (fun _ _ hpl => (versionsPage_step hadmitted h hpos _ _ hpl).symm) hstart
    obtain ⟨hv, hm⟩ := flatMap_of_showsRows hshows.flip
    exact ⟨pages, hpag, by rw [hv, hm]; exact hP⟩

end Admitted

/-! ### The rows of the listing -/

/-- The rows of the keys that the listing goes through. -/
def listedRows (d : Dialect) (t : Objects) (tenant bucket keyPrefix : String) : List Object :=
  (listedKeys d t tenant bucket keyPrefix).flatMap fun key =>
    Repository.listObjectVersions t (defaults tenant bucket key)

theorem mem_listedRows {o : Object} : o ∈ listedRows d t tenant bucket keyPrefix ↔ o ∈ t.rows ∧
    inBucket (defaultTenant tenant) (defaultBucket bucket) o = true ∧
    Listings.keyLike d keyPrefix o.path.key = true := by
  simp only [listedRows, mem_flatMap, mem_listObjectVersions, mem_listedKeys]
  constructor
  · intro ⟨key, ⟨row, hrow, hbc, hl, hkey⟩, ho, hpath⟩
    rw [hpath]
    exact ⟨ho, by simp [inBucket, defaults, hpath], hkey ▸ hl⟩
  · intro ⟨ho, hbc, hl⟩
    refine ⟨o.path.key, ⟨o, ho, hbc, hl, rfl⟩, ho, ?_⟩
    rw [inBucket, Bool.and_eq_true_iff, beq_iff_eq, beq_iff_eq] at hbc
    rw [defaults, ← hbc.1, ← hbc.2]

theorem nodup_listObjectVersions (t : Objects) (k : Path) : (Repository.listObjectVersions t k).Nodup :=
  (perm_insertionSort newer _).nodup_iff.mpr (t.nodup.filter _)

theorem nodup_listedRows : (listedRows d t tenant bucket keyPrefix).Nodup := by
  refine nodup_flatMap.mpr ⟨fun key _ => nodup_listObjectVersions t _, ?_⟩
  refine inOrder_listedKeys.imp fun {key key'} hlt o ho ho' => ?_
  have hsame := (mem_listObjectVersions.mp ho).2.symm.trans (mem_listObjectVersions.mp ho').2
  exact hlt.ne (congrArg Path.key hsame)

theorem placeAt_start (h : WrittenVersions t) : placeAt d t tenant bucket keyPrefix ("", "") =
    ⟨none, (listedKeys d t tenant bucket keyPrefix).map (keyGroup t tenant bucket keyPrefix)⟩ := by
  have hall : after id (listedKeys d t tenant bucket keyPrefix) "" = listedKeys d t tenant bucket keyPrefix := by
    refine filter_eq_self.mpr fun key hkey => ?_
    simpa using Listings.empty_lt (validateKey_ne_empty (h.validateKey hkey))
  rw [placeAt, hall]
  rfl

theorem rows_start (h : WrittenVersions t) :
    (placeAt d t tenant bucket keyPrefix ("", "")).rows = listedRows d t tenant bucket keyPrefix := by
  rw [placeAt_start h, Nested.Place.rows, flatMap_map]
  rfl

/-- What is to be shown of a key, with the newest row marked. -/
theorem entries_keyGroup {key : String} : (keyGroup t tenant bucket keyPrefix key).entries (readable c) =
    ((Repository.listObjectVersions t (defaults tenant bucket key)).filter fun o =>
      hasPrefix o.path.key keyPrefix && readable c o).map fun o => (o, isNewest t o) := by
  have hpath : ∀ o ∈ Repository.listObjectVersions t (defaults tenant bucket key),
      o.path = defaults tenant bucket key := fun o ho => (mem_listObjectVersions.mp ho).2
  have hnw : ∀ o ∈ Repository.listObjectVersions t (defaults tenant bucket key),
      isNewest t o = true ↔ (Repository.listObjectVersions t (defaults tenant bucket key)).head? = some o :=
    fun o ho => by rw [isNewest, hpath o ho, beq_iff_eq]
  have hm := mark_eq_map (nodup_listObjectVersions t _) hnw
  have hf : ∀ o ∈ Repository.listObjectVersions t (defaults tenant bucket key),
      (hasPrefix o.path.key keyPrefix && readable c o) =
        (hasPrefix key keyPrefix && readable c o) := fun o ho => by rw [hpath o ho]; rfl
  rw [Nested.Group.entries, filter_congr hf, keyGroup]
  cases hasPrefix key keyPrefix with
  | false => simp
  | true =>
    rw [if_pos rfl, hm, filter_map]
    rfl

/-- What is to be shown from the start on is what the listing is to show. -/
theorem entries_start (h : WrittenVersions t) :
    ((placeAt d t tenant bucket keyPrefix ("", "")).entries (readable c)).Perm
      ((visibleVersions c t (defaultTenant tenant) (defaultBucket bucket) keyPrefix).map fun o =>
        (o, isNewest t o)) := by
  have hen : (placeAt d t tenant bucket keyPrefix ("", "")).entries (readable c) =
      ((listedRows d t tenant bucket keyPrefix).filter fun o =>
        hasPrefix o.path.key keyPrefix && readable c o).map fun o => (o, isNewest t o) := by
    rw [placeAt_start h, Nested.Place.entries, flatMap_map, listedRows, filter_flatMap, map_flatMap]
    exact flatMap_congr fun key _ => entries_keyGroup
  rw [hen]
  refine .map _ ((perm_ext_iff_of_nodup (nodup_listedRows.filter _) (t.nodup.filter _)).mpr fun o => ?_)
  simp only [mem_filter, mem_listedRows, Bool.and_eq_true_iff]
  constructor
  · intro ⟨⟨ho, hbc, _⟩, hh, hrd⟩
    exact ⟨ho, ⟨hbc, hh⟩, hrd⟩
  · intro ⟨ho, ⟨hbc, hh⟩, hrd⟩
    exact ⟨⟨ho, hbc, Listings.keyLike_of_hasPrefix hh⟩, hh, hrd⟩

/-! ### The entries and the rows -/

/-- The row of an entry, with its mark. -/
def rowOf (t : Objects) (tenant bucket key versionID : String) (isLatest : Bool) : Option (Object × Bool) :=
  (getObjectVersion t (defaults tenant bucket key) versionID).map (·, isLatest)

/-- Rows of the bucket. -/
def OfBucket (t : Objects) (tenant bucket : String) (shown : List (Object × Bool)) : Prop :=
  ∀ e ∈ shown, e.1 ∈ t.rows ∧ inBucket (defaultTenant tenant) (defaultBucket bucket) e.1 = true

theorem path_of_inBucket {o : Object} (h : inBucket (defaultTenant tenant) (defaultBucket bucket) o = true) :
    o.path = defaults tenant bucket o.path.key := by
  rw [inBucket, Bool.and_eq_true_iff, beq_iff_eq, beq_iff_eq] at h
  rw [defaults, ← h.1, ← h.2]

theorem rowOf_eq (h : WrittenVersions t) {shown : List (Object × Bool)} (hsh : OfBucket t tenant bucket shown)
    {e : Object × Bool} (he : e ∈ shown) : rowOf t tenant bucket e.1.path.key e.1.versionID e.2 = some e := by
  obtain ⟨hrow, hbc⟩ := hsh e he
  rw [rowOf, ← path_of_inBucket hbc, h.getObjectVersion_eq hrow]
  rfl

theorem filterMap_map_of_inverse {α β : Type*} {f : α → β} {g : β → Option α} {l : List α}
    (h : ∀ a ∈ l, g (f a) = some a) : (l.map f).filterMap g = l := by
  rw [filterMap_map]
  exact (filterMap_congr h).trans filterMap_some

/-- The entries tell the rows apart. -/
theorem perm_of_entries (h : WrittenVersions t) {shown wanted : List (Object × Bool)}
    (hsh : OfBucket t tenant bucket shown) (hwn : OfBucket t tenant bucket wanted)
    (hv : (versionEntries shown).Perm (versionEntries wanted))
    (hmr : (deleteMarkerEntries shown).Perm (deleteMarkerEntries wanted)) : shown.Perm wanted := by
  have hversion : ∀ {l}, OfBucket t tenant bucket l →
      (versionEntries l).filterMap (fun v => rowOf t tenant bucket v.key v.versionID v.isLatest) =
        l.filter fun e => !e.1.isDeleteMarker := fun hl =>
    filterMap_map_of_inverse fun e he => rowOf_eq h hl (mem_of_mem_filter he)
  have hm : ∀ {l}, OfBucket t tenant bucket l →
      (deleteMarkerEntries l).filterMap (fun v => rowOf t tenant bucket v.key v.versionID v.isLatest) =
        l.filter fun e => e.1.isDeleteMarker := fun hl =>
    filterMap_map_of_inverse fun e he => rowOf_eq h hl (mem_of_mem_filter he)
  have hv := hv.filterMap fun v => rowOf t tenant bucket v.key v.versionID v.isLatest
  have hmr := hmr.filterMap fun v => rowOf t tenant bucket v.key v.versionID v.isLatest
  rw [hversion hsh, hversion hwn] at hv
  rw [hm hsh, hm hwn] at hmr
  have hsp := filter_append_perm (fun e : Object × Bool => e.1.isDeleteMarker)
  exact (hsp shown).symm.trans ((hmr.append hv).trans (hsp wanted))

theorem listsVersions_iff_exact (hadmitted : Admitted c (defaultTenant tenant) (defaultBucket bucket))
    (h : WrittenVersions t) (hpos : 0 < s3PageLimit maxKeys 1000) :
    ListsVersions c t (defaultTenant tenant) (defaultBucket bucket) keyPrefix
        (versionsPage c d t tenant bucket keyPrefix maxKeys) ↔
      Nested.Exact (readable c) (s3PageLimit maxKeys 1000) (placeAt d t tenant bucket keyPrefix ("", "")) := by
  have hwn : OfBucket t tenant bucket
      ((visibleVersions c t (defaultTenant tenant) (defaultBucket bucket) keyPrefix).map fun o =>
        (o, isNewest t o)) := by
    intro e he
    obtain ⟨o, ho, rfl⟩ := mem_map.mp he
    obtain ⟨hrow, hbt⟩ := mem_filter.mp ho
    rw [Bool.and_eq_true_iff, Bool.and_eq_true_iff] at hbt
    exact ⟨hrow, hbt.1.1⟩
  rw [ListsVersions,
    exists_follows_iff hadmitted h hpos fun versions deleteMarkers => versions.Perm _ ∧ deleteMarkers.Perm _]
  refine exists_congr fun shown => and_congr_right fun hf => ?_
  have hsh : OfBucket t tenant bucket shown.flatten := by
    intro e he
    have hrow := mem_follows hf e he
    rw [rows_start h] at hrow
    exact ⟨(mem_listedRows.mp hrow).1, (mem_listedRows.mp hrow).2.1⟩
  constructor
  · intro ⟨hv, hm⟩
    exact (perm_of_entries h hsh hwn hv hm).trans (entries_start h).symm
  · intro hpr
    have hall := hpr.trans (entries_start h)
    exact ⟨(hall.filter _).map _, (hall.filter _).map _⟩

/-- **The version listing is exact if and only if the pages keep what the caller may read**: for every
table of rows, every caller, prefix and page size. -/
theorem version_listing_exact_iff (hadmitted : Admitted c (defaultTenant tenant) (defaultBucket bucket))
    (h : WrittenVersions t) (hpos : 0 < s3PageLimit maxKeys 1000) :
    ListsVersions c t (defaultTenant tenant) (defaultBucket bucket) keyPrefix
        (versionsPage c d t tenant bucket keyPrefix maxKeys) ↔
      Nested.Kept (readable c) (s3PageLimit maxKeys 1000) (s3PageLimit maxKeys 1000) (s3PageLimit maxKeys 1000)
        ((listedKeys d t tenant bucket keyPrefix).map (keyGroup t tenant bucket keyPrefix)) := by
  rw [listsVersions_iff_exact hadmitted h hpos]
  have hnd : (placeAt d t tenant bucket keyPrefix ("", "")).rows.Nodup := by
    rw [rows_start h]
    exact nodup_listedRows
  rw [placeAt_start h] at hnd ⊢
  exact exact_iff_keptAt hpos _ hnd nofun

/-- The key `a` is hidden from the caller, the key `b` is not. -/
def hiddenFirst : Objects := (Table.empty.insert (sampleObject 0 "a" "bob")).insert (sampleObject 0 "b" "ann")

/-- **One entry on a page**: the page opens the key `a`, shows nothing of it and is taken for the last
one. -/
theorem version_behind_hidden_key :
    visibleVersions ann hiddenFirst "acme" "docs" "" = [sampleObject 2 "b" "ann"] ∧
      versionsPage ann .sqlite hiddenFirst "acme" "docs" "" (some 1) ("", "") = .ok (.empty, none) ∧
      ¬ ListsVersions ann hiddenFirst "acme" "docs" ""
        (versionsPage ann .sqlite hiddenFirst "acme" "docs" "" (some 1)) := by
  have hvs : visibleVersions ann hiddenFirst "acme" "docs" "" = [sampleObject 2 "b" "ann"] := by decide
  have hpg : versionsPage ann .sqlite hiddenFirst "acme" "docs" "" (some 1) ("", "") = .ok (.empty, none) := rfl
  refine ⟨hvs, hpg, fun ⟨pages, hf, hv, _⟩ => ?_⟩
  rw [hf.unique (.last hpg), hvs] at hv
  exact absurd hv.length_eq (by decide)

/-- A version of the key `a`. -/
def sampleVersion (id : Nat) (versionID : String) (updatedAt : Nat) : Object :=
  { sampleObject id "a" "ann" with versionID := versionID, updatedAt := updatedAt }

def twoVersions : Objects := (Table.empty.insert (sampleVersion 0 "v1" 1)).insert (sampleVersion 0 "v2" 2)

/-- Two versions of a key, one on a page. -/
theorem two_versions_listed :
    ListsVersions ann twoVersions "acme" "docs" ""
      (versionsPage ann .sqlite twoVersions "acme" "docs" "" (some 1)) := by
  have hwr : WrittenVersions twoVersions := by
    refine ⟨fun o ho => ?_, fun o ho => ?_, by decide⟩
    all_goals obtain rfl | rfl := mem_pair.mp ho
    · exact ⟨by decide, rfl⟩
    · exact ⟨by decide, rfl⟩
    · decide
    · decide
  have hpos : 0 < s3PageLimit (some 1) 1000 := Nat.one_pos
  have hiff : ListsVersions ann twoVersions "acme" "docs" ""
      (versionsPage ann .sqlite twoVersions "acme" "docs" "" (some 1)) ↔ _ :=
    version_listing_exact_iff admitted_ann hwr hpos
  have hg : (listedKeys .sqlite twoVersions "acme" "docs" "").map (keyGroup twoVersions "acme" "docs" "") =
      [⟨true, [sampleVersion 2 "v2" 2, sampleVersion 1 "v1" 1]⟩] := rfl
  have hall : ∀ o ∈ [sampleVersion 2 "v2" 2, sampleVersion 1 "v1" 1], readable ann o = true := by decide
  rw [hiff, hg]
  refine ⟨rfl, fun o ho => hall o (mem_of_mem_head? ho), fun before stretch later hsp hl _ => ?_, ?_⟩
  · obtain ⟨o, rfl⟩ := length_eq_one_iff.mp hl
    have ho : o ∈ before ++ [o] ++ later := by simp
    rw [← hsp] at ho
    exact ⟨o, mem_singleton_self o, hall o ho⟩
  · split_ifs <;> trivial

end Run

end AeroVault.S3
