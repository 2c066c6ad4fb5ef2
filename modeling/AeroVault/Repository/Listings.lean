import AeroVault.Lib.GoText
import AeroVault.Lib.PagingTies
import AeroVault.Lib.SqlLike
import AeroVault.Repository.Objects

/-! The paged listings of the repository.

Each is one query for one row more than the page holds, in key order and after the marker. Rows
with one key come in the order of the table, which is not specified. -/
namespace AeroVault.Repository.Listings
open Lib Lib.SqlLike
open List hiding after

def pageLimit (limit : Int) : Nat := if limit ≤ 0 ∨ limit > 1000 then 1000 else limit.toNat

theorem pageLimit_pos (limit : Int) : 0 < pageLimit limit := by
  unfold pageLimit
  split_ifs <;> omega

theorem pageLimit_le (limit : Int) : pageLimit limit ≤ 1000 := by
  unfold pageLimit
  split_ifs <;> omega

theorem empty_lt {key : String} (h : key ≠ "") : "" < key := by
  rw [String.lt_iff]
  obtain ⟨first, rest, hl⟩ := exists_cons_of_ne_nil (fun hnil => h (String.toList_eq_nil_iff.mp hnil))
  rw [hl]
  exact nil_lt_cons first rest

def literalPrefixPattern (keyPrefix : String) : List Char := literalPrefix '!' keyPrefix.toList

/-- `key LIKE pattern ESCAPE '!'`, with the pattern of a prefix. A `String` is valid UTF-8. -/
def keyLike (d : Dialect) (keyPrefix key : String) : Bool :=
  like d '!' (literalPrefixPattern keyPrefix) key.toList

/-- A key that has the prefix matches its pattern. -/
theorem keyLike_of_hasPrefix {d : Dialect} {keyPrefix key : String} (h : GoText.hasPrefix key keyPrefix = true) :
    keyLike d keyPrefix key = true :=
  like_of_isPrefix d (by decide) (List.isPrefixOf_iff_prefix.mp h)

/-- What a listing is ordered by. -/
abbrev keyOf (o : Object) : String := o.path.key

/-- `ORDER BY key ASC`. -/
def orderByKey (rows : List Object) : List Object := rows.insertionSort fun a b => keyOf a ≤ keyOf b

def inBucket (tenant bucket : String) (o : Object) : Bool :=
  o.path.tenantID == tenant && o.path.bucket == bucket

/-- The query that two listings share, but for what they ask of `deleted_at`. -/
def listRows (d : Dialect) (deletedAt : Option Nat → Bool) (t : Objects)
    (tenant bucket keyPrefix marker : String) (limit : Int) : ListPage Object String :=
  let rows := (orderByKey t.rows).filter fun o => inBucket (defaultTenant tenant) bucket o &&
    deletedAt o.deletedAt && keyLike d keyPrefix o.path.key && decide (marker < o.path.key)
  cutPage keyOf "" (pageLimit limit) (rows.take (pageLimit limit + 1))

def listObjects (d : Dialect) : Objects → String → String → String → String → Int → ListPage Object String :=
  listRows d Option.isNone

def listDeletedObjects (d : Dialect) :
    Objects → String → String → String → String → Int → ListPage Object String :=
  listRows d Option.isSome

/-! ### The rows of a listing -/

/-- The rows that a listing goes through, in its order. -/
def source (d : Dialect) (deletedAt : Option Nat → Bool) (t : Objects) (tenant bucket keyPrefix : String) :
    List Object :=
  (orderByKey t.rows).filter fun o =>
    inBucket (defaultTenant tenant) bucket o && deletedAt o.deletedAt && keyLike d keyPrefix o.path.key

theorem listRows_eq (d : Dialect) (deletedAt : Option Nat → Bool) (t : Objects)
    (tenant bucket keyPrefix marker : String) (limit : Int) :
    listRows d deletedAt t tenant bucket keyPrefix marker limit =
      cutPage keyOf "" (pageLimit limit)
        ((after keyOf (source d deletedAt t tenant bucket keyPrefix) marker).take (pageLimit limit + 1)) := by
  have hrw : (orderByKey t.rows).filter (fun o => inBucket (defaultTenant tenant) bucket o &&
      deletedAt o.deletedAt && keyLike d keyPrefix o.path.key && decide (marker < o.path.key)) =
        after keyOf (source d deletedAt t tenant bucket keyPrefix) marker := by
    rw [source, after, filter_filter]
    exact filter_congr fun o _ => Bool.and_comm _ _
  rw [← hrw]
  rfl

theorem inWeakOrder_source (d : Dialect) (deletedAt : Option Nat → Bool) (t : Objects)
    (tenant bucket keyPrefix : String) :
    InWeakOrder keyOf (source d deletedAt t tenant bucket keyPrefix) :=
  (pairwise_insertionSort _ t.rows).filter _

theorem source_perm (d : Dialect) (deletedAt : Option Nat → Bool) (t : Objects)
    (tenant bucket keyPrefix : String) :
    (source d deletedAt t tenant bucket keyPrefix).Perm (t.rows.filter fun o =>
      inBucket (defaultTenant tenant) bucket o && deletedAt o.deletedAt && keyLike d keyPrefix o.path.key) :=
  (perm_insertionSort _ t.rows).filter _

/-! ### Uploads in progress -/

/-- What uploads are ordered by. -/
abbrev uploadKey (u : Upload) : String ×ₗ String := toLex (u.path.key, u.id)

/-- `ORDER BY key ASC, upload_id ASC`. -/
def orderUploads (uploads : List Upload) : List Upload :=
  uploads.insertionSort fun a b => uploadKey a ≤ uploadKey b

/-- `ListUploads`. An empty bucket stands for all buckets, an empty key marker for no marker. -/
def listUploads (uploads : List Upload) (tenant bucket keyMarker uploadIDMarker : String) (limit : Int) :
    List Upload :=
  let limit := if limit ≤ 0 then 1000 else if limit > 10000 then 10000 else limit
  let rows := (orderUploads uploads).filter fun u =>
    u.path.tenantID == defaultTenant tenant && (bucket == "" || u.path.bucket == bucket) &&
      (keyMarker == "" || (decide (keyMarker < u.path.key) ||
        (u.path.key == keyMarker && decide (uploadIDMarker < u.id))))
  rows.take limit.toNat

/-- The uploads of a bucket in order. -/
def bucketUploads (uploads : List Upload) (tenant bucket : String) : List Upload :=
  (orderUploads uploads).filter fun u => u.path.tenantID == tenant && u.path.bucket == bucket

theorem bucketUploads_perm (uploads : List Upload) (tenant bucket : String) :
    (bucketUploads uploads tenant bucket).Perm
      (uploads.filter fun u => u.path.tenantID == tenant && u.path.bucket == bucket) :=
  (perm_insertionSort _ uploads).filter _

/-- Uploads have distinct ids, so that their order is strict. -/
theorem inOrder_bucketUploads {uploads : List Upload} (hids : (uploads.map (·.id)).Nodup)
    (tenant bucket : String) : InOrder uploadKey (bucketUploads uploads tenant bucket) := by
  have hnd : ((orderUploads uploads).map (·.id)).Nodup :=
    (((perm_insertionSort _ uploads).map _).nodup_iff).mpr hids
  have hbt := (pairwise_insertionSort (fun a b => uploadKey a ≤ uploadKey b) uploads).and
    (pairwise_map.mp hnd)
  refine .filter _ (hbt.imp fun h => ?_)
  refine lt_of_le_of_ne h.1 fun heq => h.2 ?_
  exact congrArg (fun marker => (ofLex marker).2) heq

/-- A marker with a key, or the empty one if no key is empty: what comes after it. -/
theorem listUploads_eq {uploads : List Upload} (hkeys : ∀ u ∈ uploads, u.path.key ≠ "")
    {tenant bucket : String} (hbc : bucket ≠ "") (keyMarker uploadIDMarker : String) {limit : Int}
    (hpos : 0 < limit) (hm : limit ≤ 10000) :
    listUploads uploads tenant bucket keyMarker uploadIDMarker limit =
      (after uploadKey (bucketUploads uploads (defaultTenant tenant) bucket)
        (toLex (keyMarker, uploadIDMarker))).take limit.toNat := by
  have hl : (if limit ≤ 0 then 1000 else if limit > 10000 then 10000 else limit) = limit := by
    rw [if_neg hpos.not_ge, if_neg hm.not_gt]
  have hmr : ∀ u ∈ orderUploads uploads, (keyMarker == "" || (decide (keyMarker < u.path.key) ||
      (u.path.key == keyMarker && decide (uploadIDMarker < u.id)))) =
        decide (toLex (keyMarker, uploadIDMarker) < uploadKey u) := by
    intro u hu
    rw [Bool.eq_iff_iff, decide_eq_true_iff, Prod.Lex.toLex_lt_toLex]
    by_cases hem : keyMarker = ""
    · have hkey : u.path.key ≠ "" := hkeys u ((perm_insertionSort _ uploads).mem_iff.mp hu)
      simp [hem, empty_lt hkey]
    · have hsame : u.path.key = keyMarker ↔ keyMarker = u.path.key := eq_comm
      simp [hem, hsame]
  unfold listUploads
  rw [hl, after, bucketUploads, filter_filter]
  refine congrArg (take limit.toNat) (filter_congr fun u hu => ?_)
  rw [hmr u hu, beq_eq_false_iff_ne.mpr hbc, Bool.false_or, Bool.and_comm]

/-! ### Versions -/

/-- `SELECT DISTINCT key … ORDER BY key`. -/
def distinctKeys (rows : List Object) : List String := (rows.map keyOf).dedup.insertionSort (· ≤ ·)

def listObjectVersionKeys (d : Dialect) (t : Objects) (tenant bucket keyPrefix marker : String)
    (limit : Int) : List String × String × Bool :=
  let limit := pageLimit limit
  let rows := (distinctKeys (t.rows.filter fun o => inBucket (defaultTenant tenant) bucket o &&
    keyLike d keyPrefix o.path.key && decide (marker < o.path.key))).take (limit + 1)
  let hasMore := decide (limit < rows.length)
  let keys := if hasMore then rows.take limit else rows
  (keys, if hasMore then keys.getLast?.getD "" else "", hasMore)

structure VersionListOpts where
  versionIDMarker : String
  limit : Int

structure VersionListPage where
  versions : List Object
  nextVersionID : String
  hasMore : Bool
  deriving DecidableEq

/-- The rows of a key behind a version of it. -/
def versionsBehind (t : Objects) (k : Path) (marker : Object) : List Object :=
  (listObjectVersions t k).filter fun o =>
    decide (o.updatedAt < marker.updatedAt) || (o.updatedAt == marker.updatedAt && decide (o.id < marker.id))

def cutVersions (limit : Nat) (rows : List Object) : VersionListPage :=
  let out := rows.take (limit + 1)
  let hasMore := decide (limit < out.length)
  let out := if hasMore then out.take limit else out
  ⟨out, if hasMore then (out.getLast?.map (·.versionID)).getD "" else "", hasMore⟩

def listObjectVersionsWithOpts (t : Objects) (tenant bucket key : String) (opts : VersionListOpts) :
    Except RepoError VersionListPage :=
  let k : Path := ⟨defaultTenant tenant, bucket, key⟩
  if opts.versionIDMarker = "" then .ok (cutVersions (pageLimit opts.limit) (listObjectVersions t k))
  else
    match getObjectVersion t k opts.versionIDMarker with
    | none => .error .notFound
    | some marker => .ok (cutVersions (pageLimit opts.limit) (versionsBehind t k marker))

/-- The keys of a bucket that match the pattern of a prefix. -/
def versionKeys (d : Dialect) (t : Objects) (tenant bucket keyPrefix : String) : List String :=
  distinctKeys (t.rows.filter fun o => inBucket tenant bucket o && keyLike d keyPrefix o.path.key)

theorem inOrder_distinctKeys (rows : List Object) : InOrder id (distinctKeys rows) := by
  have hnd : (distinctKeys rows).Nodup := (perm_insertionSort _ _).nodup_iff.mpr (nodup_dedup _)
  have hsorted := pairwise_insertionSort (· ≤ ·) (rows.map keyOf).dedup
  exact (hsorted.and hnd).imp fun h => lt_of_le_of_ne h.1 h.2

theorem mem_distinctKeys {rows : List Object} {key : String} :
    key ∈ distinctKeys rows ↔ ∃ o ∈ rows, o.path.key = key := by
  rw [distinctKeys, (perm_insertionSort _ _).mem_iff, mem_dedup, mem_map]

/-- Keys in order are determined by which they are. -/
theorem eq_of_inOrder {keys keys' : List String} (h : InOrder id keys) (h' : InOrder id keys')
    (hm : ∀ key, key ∈ keys ↔ key ∈ keys') : keys = keys' := by
  have hpr : keys.Perm keys' :=
    (perm_ext_iff_of_nodup (h.imp fun hlt => hlt.ne) (h'.imp fun hlt => hlt.ne)).mpr hm
  exact hpr.eq_of_pairwise (fun a b _ _ hab hba => absurd hab (not_lt_of_gt hba)) h h'

theorem distinctKeys_after (t : Objects) (p : Object → Bool) (marker : String) :
    distinctKeys (t.rows.filter fun o => p o && decide (marker < o.path.key)) =
      after id (distinctKeys (t.rows.filter p)) marker := by
  refine eq_of_inOrder (inOrder_distinctKeys _) (inOrder_after (inOrder_distinctKeys _) marker) fun key => ?_
  rw [mem_after, mem_distinctKeys, mem_distinctKeys]
  constructor
  · intro ⟨o, ho, hkey⟩
    obtain ⟨hrow, hbt⟩ := mem_filter.mp ho
    obtain ⟨hp, hlt⟩ := Bool.and_eq_true_iff.mp hbt
    exact ⟨⟨o, mem_filter.mpr ⟨hrow, hp⟩, hkey⟩, hkey ▸ of_decide_eq_true hlt⟩
  · intro ⟨⟨o, ho, hkey⟩, hlt⟩
    obtain ⟨hrow, hp⟩ := mem_filter.mp ho
    subst hkey
    exact ⟨o, mem_filter.mpr ⟨hrow, Bool.and_eq_true_iff.mpr ⟨hp, decide_eq_true hlt⟩⟩, rfl⟩

/-- The keys after a marker are the next ones of all keys. -/
theorem listObjectVersionKeys_eq (d : Dialect) (t : Objects) (tenant bucket keyPrefix marker : String)
    (limit : Int) :
    (listObjectVersionKeys d t tenant bucket keyPrefix marker limit).1 =
        (after id (versionKeys d t (defaultTenant tenant) bucket keyPrefix) marker).take (pageLimit limit) ∧
      (listObjectVersionKeys d t tenant bucket keyPrefix marker limit).2.2 = decide (pageLimit limit <
        (after id (versionKeys d t (defaultTenant tenant) bucket keyPrefix) marker).length) := by
  have hkeys := distinctKeys_after t (fun o => inBucket (defaultTenant tenant) bucket o &&
    keyLike d keyPrefix o.path.key) marker
  simp only [listObjectVersionKeys, hkeys, decide_eq_true_eq]
  exact ⟨cut_lookahead _ _, decide_eq_decide.mpr (lt_length_lookahead _ _)⟩

theorem cutVersions_eq (limit : Nat) (rows : List Object) :
    (cutVersions limit rows).versions = rows.take limit ∧
      (cutVersions limit rows).hasMore = decide (limit < rows.length) := by
  simp only [cutVersions, decide_eq_true_eq]
  exact ⟨cut_lookahead _ _, decide_eq_decide.mpr (lt_length_lookahead _ _)⟩

/-- The rows of a key are in strict order, since they have distinct ids. -/
theorem pairwise_listObjectVersions (t : Objects) (k : Path) :
    (listObjectVersions t k).Pairwise fun a b => newer a b ∧ a.id ≠ b.id := by
  have hids : (versionsAt t k).Pairwise fun a b => a.id ≠ b.id := (t.sorted.imp fun h => h.ne).filter _
  exact (pairwise_insertionSort newer _).and
    (((perm_insertionSort newer _).pairwise_iff fun h => h.symm).mpr hids)

/-- What is behind a row of a key in the order of its rows. -/
theorem versionsBehind_eq {t : Objects} {k : Path} {front later : List Object} {marker : Object}
    (h : listObjectVersions t k = front ++ marker :: later) : versionsBehind t k marker = later := by
  have hor := pairwise_listObjectVersions t k
  rw [h] at hor
  obtain ⟨-, hl, hcr⟩ := pairwise_append.mp hor
  have hf : front.filter (fun o => decide (o.updatedAt < marker.updatedAt) ||
      (o.updatedAt == marker.updatedAt && decide (o.id < marker.id))) = [] := by
    refine filter_eq_nil_iff.mpr fun o ho => ?_
    have hnw := (hcr o ho marker mem_cons_self).1
    unfold newer orderDesc at hnw
    simp
    omega
  have hrs : later.filter (fun o => decide (o.updatedAt < marker.updatedAt) ||
      (o.updatedAt == marker.updatedAt && decide (o.id < marker.id))) = later := by
    refine filter_eq_self.mpr fun o ho => ?_
    obtain ⟨holder, hid⟩ := rel_of_pairwise_cons hl ho
    unfold newer orderDesc at holder
    simp
    omega
  rw [versionsBehind, h, filter_append, hf, filter_cons_of_neg (by simp), hrs, nil_append]

/-! ### Prefixes in SQLite -/

/-- No key of the bucket begins with the prefix only if the case of the ASCII letters is ignored. -/
def SameLetters (t : Objects) (tenant bucket keyPrefix : String) : Prop :=
  ∀ o ∈ t.rows, inBucket tenant bucket o = true →
    keyPrefix.toList.map Char.toLower <+: o.path.key.toList.map Char.toLower →
      GoText.hasPrefix o.path.key keyPrefix = true

/-- A row of the bucket after the marker whose key begins with the prefix. -/
def beginsWith (tenant bucket keyPrefix marker : String) (o : Object) : Bool :=
  inBucket tenant bucket o && GoText.hasPrefix o.path.key keyPrefix && decide (marker < o.path.key)

/-- Both listings of SQLite show the first rows, or keys, that begin with the prefix after the marker. -/
structure PrefixExact (t : Objects) (tenant bucket keyPrefix : String) : Prop where
  objects : ∀ marker limit, (listObjects .sqlite t tenant bucket keyPrefix marker limit).objects =
    ((orderByKey t.rows).filter fun o => beginsWith (defaultTenant tenant) bucket keyPrefix marker o &&
      o.deletedAt.isNone).take (pageLimit limit)
  keys : ∀ marker limit, (listObjectVersionKeys .sqlite t tenant bucket keyPrefix marker limit).1 =
    (distinctKeys (t.rows.filter (beginsWith (defaultTenant tenant) bucket keyPrefix marker))).take
      (pageLimit limit)

variable {d : Dialect} {t : Objects} {tenant bucket keyPrefix : String}

theorem keyLike_sqlite (hnul : '\x00' ∉ keyPrefix.toList) {key : String} :
    keyLike .sqlite keyPrefix key = true ↔
      keyPrefix.toList.map Char.toLower <+: key.toList.map Char.toLower :=
  like_literalPrefix .sqlite (by decide) hnul key.toList

theorem SameLetters.keyLike_eq (hnul : '\x00' ∉ keyPrefix.toList) (h : SameLetters t tenant bucket keyPrefix)
    {o : Object} (ho : o ∈ t.rows) : (inBucket tenant bucket o && keyLike .sqlite keyPrefix o.path.key) =
      (inBucket tenant bucket o && GoText.hasPrefix o.path.key keyPrefix) := by
  cases hb : inBucket tenant bucket o with
  | false => rfl
  | true => exact Bool.eq_iff_iff.mpr ⟨fun hk => h o ho hb ((keyLike_sqlite hnul).mp hk), keyLike_of_hasPrefix⟩

/-- A marker that has the key next to it. -/
theorem exists_marker {keys : List String} (h : InOrder id keys) {key : String} (hkey : key ∈ keys)
    (hne : key ≠ "") : ∃ marker later, after id keys marker = key :: later := by
  obtain ⟨front, later, hsp⟩ := append_of_mem hkey
  have hall : after id keys "" = keys.filter (· ≠ "") :=
    filter_congr fun k _ => decide_eq_decide.mpr ⟨fun hlt => (ne_of_lt hlt).symm, empty_lt⟩
  rw [hsp, filter_append, filter_cons_of_pos (by simpa using hne)] at hall
  cases hl : (front.filter (· ≠ "")).getLast? with
  | none =>
    rw [getLast?_eq_none_iff.mp hl, ← hsp] at hall
    exact ⟨"", _, hall⟩
  | some last => exact ⟨last, _, after_key_getLast h (hsp ▸ hall) hl⟩

theorem PrefixExact.sameLetters (hnul : '\x00' ∉ keyPrefix.toList) (h : PrefixExact t tenant bucket keyPrefix) :
    SameLetters t (defaultTenant tenant) bucket keyPrefix := by
  intro o ho hb hl
  by_contra hno
  have hk : o.path.key ∈ versionKeys .sqlite t (defaultTenant tenant) bucket keyPrefix := by
    refine mem_distinctKeys.mpr ⟨o, mem_filter.mpr ⟨ho, ?_⟩, rfl⟩
    rw [hb, (keyLike_sqlite hnul).mpr hl]
    rfl
  have hne : o.path.key ≠ "" := by
    intro hem
    rw [hem] at hno hl
    have hnil : keyPrefix.toList = [] := map_eq_nil_iff.mp (prefix_nil.mp hl)
    rw [GoText.hasPrefix, hnil] at hno
    exact hno rfl
  -- Listed alone, behind the key before it, it would have to begin with the prefix.
  obtain ⟨marker, later, haft⟩ := exists_marker (inOrder_distinctKeys _) hk hne
  have hpg := h.keys marker 1
  rw [(listObjectVersionKeys_eq .sqlite t tenant bucket keyPrefix marker 1).1, versionKeys, haft] at hpg
  have hm : o.path.key ∈ (o.path.key :: later).take (pageLimit 1) := by simp [pageLimit]
  rw [hpg] at hm
  obtain ⟨a, ha, hka⟩ := mem_distinctKeys.mp (mem_of_mem_take hm)
  simp only [mem_filter, beginsWith, Bool.and_eq_true] at ha
  exact hno (hka ▸ ha.2.1.2)

theorem SameLetters.prefixExact (hnul : '\x00' ∉ keyPrefix.toList)
    (h : SameLetters t (defaultTenant tenant) bucket keyPrefix) : PrefixExact t tenant bucket keyPrefix := by
  refine ⟨fun marker limit => ?_, fun marker limit => ?_⟩
  · have hsame : (orderByKey t.rows).filter (fun o =>
        beginsWith (defaultTenant tenant) bucket keyPrefix marker o && o.deletedAt.isNone) =
          after keyOf (source .sqlite Option.isNone t tenant bucket keyPrefix) marker := by
      rw [source, after, filter_filter]
      refine filter_congr fun o ho => ?_
      rw [beginsWith, ← h.keyLike_eq hnul ((mem_insertionSort _).mp ho)]
      grind
    rw [hsame, ← cut_lookahead, listObjects, listRows_eq, cutPage]
    split_ifs <;> rfl
  · rw [(listObjectVersionKeys_eq .sqlite t tenant bucket keyPrefix marker limit).1, versionKeys,
      ← distinctKeys_after]
    refine congrArg (fun rows => (distinctKeys rows).take _) (filter_congr fun o ho => ?_)
    rw [beginsWith, h.keyLike_eq hnul ho]

/-- **Both listings of SQLite are exact**, for every marker and limit and a prefix without NUL, if and
only if no key of the bucket begins with the prefix in other letter case. -/
theorem prefix_listings_exact_iff (t : Objects) (tenant bucket keyPrefix : String)
    (hnul : '\x00' ∉ keyPrefix.toList) :
    PrefixExact t tenant bucket keyPrefix ↔ SameLetters t (defaultTenant tenant) bucket keyPrefix :=
  ⟨fun h => h.sameLetters hnul, fun h => h.prefixExact hnul⟩

def oneKey : Objects :=
  Table.empty.insert {markerColumns 1 ⟨"default", "docs", "a/1"⟩ "v1" [] with deletedAt := none}

/-- With the prefix `a` the listings of this bucket are exact. -/
theorem same_case_listed : PrefixExact oneKey "" "docs" "a" := by
  refine (prefix_listings_exact_iff oneKey "" "docs" "a" (by decide)).mpr fun o ho _ _ => ?_
  obtain rfl := List.mem_singleton.mp ho
  decide

/-- The key `a/1` is listed with the prefix `A`. -/
theorem other_case_listed :
    (listObjects .sqlite oneKey "" "docs" "A" "" 10).objects.map keyOf = ["a/1"] ∧
      ¬ PrefixExact oneKey "" "docs" "A" := by
  refine ⟨by decide +kernel, fun h => ?_⟩
  have hkeys := h.keys "" 10
  revert hkeys
  decide +kernel

end AeroVault.Repository.Listings
