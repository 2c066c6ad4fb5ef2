import AeroVault.Service.Listing

/-! The listing of soft-deleted objects: `ListDeletedObjects` and `FileService.ListDeleted`.

A key has at most one live row but any number of deleted ones, and the marker of the listing is a
key. A page that ends between two deleted rows of one key therefore loses the second, and on SQLite
`LIKE` also lists keys that begin with the prefix in another letter case. The listing is exact if
and only if neither happens, which can be told from the rows and the page size
(`trash_listing_exact_iff`). -/
namespace AeroVault.Service
open Lib Lib.SqlLike Repository Access Listings
open List hiding after
open Repository.Listings (keyOf pageLimit empty_lt keyLike keyLike_of_hasPrefix inBucket listDeletedObjects)

/-- The page that `ListDeleted` asks the repository for. -/
def fetchDeleted (d : Dialect) (t : Objects) : ObjectPageFetcher RepoError :=
  fun tenant bucket keyPrefix marker limit => .ok (listDeletedObjects d t tenant bucket keyPrefix marker limit)

/-- `FileService.ListDeleted`. -/
def listDeleted (c : Caller) (d : Dialect) (t : Objects) (tenant bucket keyPrefix marker : String)
    (limit : Int) (fuel : Nat) : Option (Except (ListingError RepoError) ObjectPage) :=
  listObjectsMatching c (defaultTenant tenant) (defaultBucket bucket) keyPrefix marker limit
    (fetchDeleted d t) none fuel

/-- A row of the trash: of the bucket, deleted, and its key has the prefix. -/
def inTrash (tenant bucket keyPrefix : String) (o : Object) : Bool :=
  inBucket tenant bucket o && o.deletedAt.isSome && GoText.hasPrefix o.path.key keyPrefix

/-- Following the markers gives each row of the trash once, and nothing else. -/
def ListsTrash {ε : Type} (t : Objects) (tenant bucket keyPrefix : String)
    (page : String → Except ε ObjectPage) : Prop :=
  ∃ pages, Follows (following page) "" pages ∧
    (pages.flatMap (·.objects)).Perm (t.rows.filter (inTrash tenant bucket keyPrefix))

/-- The keys of the trash in order, one for each row. -/
def trashKeys (t : Objects) (tenant bucket keyPrefix : String) : List String :=
  ((t.rows.filter (inTrash tenant bucket keyPrefix)).map keyOf).insertionSort (· ≤ ·)

/-- A deleted row whose key is not empty and matches the pattern of the prefix has the prefix. -/
def SameCase (d : Dialect) (t : Objects) (tenant bucket keyPrefix : String) : Prop :=
  ∀ o ∈ t.rows, inBucket tenant bucket o = true → o.deletedAt.isSome = true → o.path.key ≠ "" →
    keyLike d keyPrefix o.path.key = true → GoText.hasPrefix o.path.key keyPrefix = true

/-- What the listing of the trash needs. -/
structure TrashWhole (d : Dialect) (t : Objects) (tenant bucket keyPrefix : String) (size : Nat) : Prop where
  /-- The first marker is the empty key. -/
  named : "" ∉ trashKeys t tenant bucket keyPrefix
  sameCase : SameCase d t tenant bucket keyPrefix
  unsplit : Unsplit size (trashKeys t tenant bucket keyPrefix)

/-! ### The rows of the trash -/

section Rows
variable {ε : Type} {d : Dialect} {t : Objects} {tenant bucket keyPrefix : String} {size : Nat}

/-- The rows that the listing goes through. -/
def trashRows (d : Dialect) (t : Objects) (tenant bucket keyPrefix : String) : List Object :=
  source d Option.isSome t tenant bucket keyPrefix

theorem mem_trashRows {o : Object} :
    o ∈ trashRows d t tenant bucket keyPrefix ↔ o ∈ t.rows ∧
      inBucket (defaultTenant tenant) bucket o = true ∧ o.deletedAt.isSome = true ∧
      keyLike d keyPrefix o.path.key = true := by
  rw [trashRows, (source_perm d _ t tenant bucket keyPrefix).mem_iff, mem_filter,
    Bool.and_eq_true_iff, Bool.and_eq_true_iff, and_assoc]

theorem mem_trash {o : Object} :
    o ∈ t.rows.filter (inTrash tenant bucket keyPrefix) ↔ o ∈ t.rows ∧
      inBucket tenant bucket o = true ∧ o.deletedAt.isSome = true ∧
      GoText.hasPrefix o.path.key keyPrefix = true := by
  rw [mem_filter, inTrash, Bool.and_eq_true_iff, Bool.and_eq_true_iff, and_assoc]

theorem mem_trashKeys {key : String} :
    key ∈ trashKeys t tenant bucket keyPrefix ↔
      ∃ o ∈ t.rows.filter (inTrash tenant bucket keyPrefix), o.path.key = key := by
  rw [trashKeys, (perm_insertionSort _ _).mem_iff, mem_map]

theorem inWeakOrder_trashRows : InWeakOrder keyOf (trashRows d t tenant bucket keyPrefix) :=
  inWeakOrder_source d _ t tenant bucket keyPrefix

/-- The rows that the listing shows, from the first marker on. -/
def shownRows (d : Dialect) (t : Objects) (tenant bucket keyPrefix : String) : List Object :=
  after keyOf (trashRows d t tenant bucket keyPrefix) ""

theorem mem_shownRows {o : Object} :
    o ∈ shownRows d t tenant bucket keyPrefix ↔ o ∈ trashRows d t tenant bucket keyPrefix ∧ o.path.key ≠ "" := by
  rw [shownRows, mem_after]
  exact and_congr_right fun _ => ⟨fun hlt => (ne_of_lt hlt).symm, empty_lt⟩

/-- Where no letter case is in the way, they are the trash. -/
theorem shownRows_perm (hnamed : "" ∉ trashKeys t (defaultTenant tenant) bucket keyPrefix)
    (hcs : SameCase d t (defaultTenant tenant) bucket keyPrefix) :
    (shownRows d t tenant bucket keyPrefix).Perm
      (t.rows.filter (inTrash (defaultTenant tenant) bucket keyPrefix)) := by
  refine ((source_perm d _ t tenant bucket keyPrefix).filter _).trans (.of_eq ?_)
  rw [filter_filter]
  refine filter_congr fun o ho => Bool.eq_iff_iff.mpr ?_
  have hkey : inTrash (defaultTenant tenant) bucket keyPrefix o = true → o.path.key ≠ "" := fun hin hem =>
    hnamed (mem_trashKeys.mpr ⟨o, mem_filter.mpr ⟨ho, hin⟩, hem⟩)
  simp only [Bool.and_eq_true, decide_eq_true_eq]
  constructor
  · rintro ⟨hlt, ⟨hbc, hd⟩, hl⟩
    exact Bool.and_eq_true_iff.mpr ⟨Bool.and_eq_true_iff.mpr ⟨hbc, hd⟩, hcs o ho hbc hd (ne_of_lt hlt).symm hl⟩
  · intro hin
    obtain ⟨hrow, hh⟩ := Bool.and_eq_true_iff.mp hin
    exact ⟨empty_lt (hkey hin), Bool.and_eq_true_iff.mp hrow, keyLike_of_hasPrefix hh⟩

/-- The keys of the rows, which are in order, are those of the trash. -/
theorem trashKeys_eq (hnamed : "" ∉ trashKeys t (defaultTenant tenant) bucket keyPrefix)
    (hcs : SameCase d t (defaultTenant tenant) bucket keyPrefix) :
    trashKeys t (defaultTenant tenant) bucket keyPrefix =
      (shownRows d t tenant bucket keyPrefix).map keyOf := by
  have hsame : (trashKeys t (defaultTenant tenant) bucket keyPrefix).Perm
      ((shownRows d t tenant bucket keyPrefix).map keyOf) :=
    (perm_insertionSort _ _).trans ((shownRows_perm hnamed hcs).map keyOf).symm
  refine hsame.eq_of_pairwise (fun _ _ _ _ => le_antisymm) (pairwise_insertionSort _ _) ?_
  exact pairwise_map.mpr (inWeakOrder_trashRows.filter _)

/-- **A listing that pages through these rows by key is exact** if and only if the trash is whole. -/
theorem listsTrash_iff (hsz : 0 < size) {page : String → Except ε ObjectPage}
    (hpg : CutsPages keyOf (trashRows d t tenant bucket keyPrefix) size page) :
    ListsTrash t (defaultTenant tenant) bucket keyPrefix page ↔
      TrashWhole d t (defaultTenant tenant) bucket keyPrefix size := by
  obtain ⟨pages, hfol, hsub, hkeys, hex⟩ := exact_iff_unsplit hsz inWeakOrder_trashRows hpg ""
  constructor
  · intro ⟨pages', hfol', hperm⟩
    obtain rfl := hfol.unique hfol'
    have hnamed : "" ∉ trashKeys t (defaultTenant tenant) bucket keyPrefix := by
      intro hm
      obtain ⟨o, ho, hem⟩ := mem_trashKeys.mp hm
      have hlt := (mem_after.mp (hsub.subset (hperm.mem_iff.mpr ho))).2
      exact absurd hem hlt.ne'
    -- Each key that is listed is one of the trash, and all keys that match are listed.
    have hcs : SameCase d t (defaultTenant tenant) bucket keyPrefix := by
      intro o ho hbc hd hne hl
      have hrow : o ∈ shownRows d t tenant bucket keyPrefix :=
        mem_shownRows.mpr ⟨mem_trashRows.mpr ⟨ho, hbc, hd, hl⟩, hne⟩
      obtain ⟨shown, hsh, hkey⟩ := hkeys o hrow
      have hh := (mem_trash.mp (hperm.mem_iff.mp hsh)).2.2.2
      rwa [show o.path.key = shown.path.key from hkey.symm]
    refine ⟨hnamed, hcs, ?_⟩
    rw [trashKeys_eq hnamed hcs]
    refine hex.mp (hsub.eq_of_length ?_)
    rw [hperm.length_eq]
    exact (shownRows_perm hnamed hcs).length_eq.symm
  · intro h
    have hrw := trashKeys_eq h.named h.sameCase
    refine ⟨pages, hfol, ?_⟩
    rw [hex.mpr (hrw ▸ h.unsplit)]
    exact shownRows_perm h.named h.sameCase

end Rows

/-! ### The two listings -/

section Pages
variable {c : Caller} {d : Dialect} {t : Objects} {tenant bucket keyPrefix : String}

/-- `ListDeletedObjects` pages through the rows by key. -/
theorem cutsPages_fetchDeleted (d : Dialect) (t : Objects) (tenant bucket keyPrefix : String) (limit : Int) :
    CutsPages keyOf (trashRows d t tenant bucket keyPrefix) (pageLimit limit) fun marker =>
      fetchDeleted d t tenant bucket keyPrefix marker limit := by
  have hpg : (fun marker => fetchDeleted d t tenant bucket keyPrefix marker limit) = fun marker =>
      .ok (cutPage keyOf "" (pageLimit limit)
        ((after keyOf (trashRows d t tenant bucket keyPrefix) marker).take (pageLimit limit + 1))) := by
    funext marker
    rw [fetchDeleted, listDeletedObjects, listRows_eq]
    rfl
  rw [hpg]
  exact cutsPages_cutPage keyOf "" _ (pageLimit_pos limit)

/-- The caller may read every deleted object of the bucket. -/
def ReadsTrash (c : Caller) (t : Objects) (tenant bucket : String) : Prop :=
  ∀ o ∈ t.rows, inBucket tenant bucket o = true → o.deletedAt.isSome = true → readable c o = true

end Pages

section Collect
variable {ε : Type} {c : Caller} {tenant bucket keyPrefix : String} {rows : List Object}
  {fetch : ObjectPageFetcher ε}

/-- Rows of the bucket that the caller may read. -/
structure ReadRows (c : Caller) (tenant bucket : String) (rows : List Object) : Prop where
  inScope : InScope tenant bucket rows
  readable : ∀ o ∈ rows, readable c o = true

theorem readRows_trashRows {t : Objects} (hnamed : WellNamed t)
    (hrd : ReadsTrash c t (defaultTenant tenant) bucket) {d : Dialect} :
    ReadRows c (defaultTenant tenant) bucket (trashRows d t tenant bucket keyPrefix) := by
  refine ⟨fun o ho => ?_, fun o ho => ?_⟩
  · obtain ⟨hrow, hbc, -, -⟩ := mem_trashRows.mp ho
    rw [inBucket, Bool.and_eq_true_iff, beq_iff_eq, beq_iff_eq] at hbc
    exact ⟨hbc.1, hbc.2, hnamed o hrow⟩
  · obtain ⟨hrow, hbc, hd, -⟩ := mem_trashRows.mp ho
    exact hrd o hrow hbc hd

section
variable (hadmitted : Admitted c tenant bucket) (h : ReadRows c tenant bucket rows)
include hadmitted h

/-- One round: a raw page is fetched, and its rows are taken as they are, up to the number wanted. -/
theorem ReadRows.scanPages_succ {cursor : String} {page : ObjectPage}
    (hpg : fetch tenant bucket keyPrefix cursor 1000 = .ok page) {n : Nat}
    (hob : page.objects = (after keyOf rows cursor).take n) (leadsOn : String → String → Bool)
    {wanted : Nat} {objects : List Object} (hrm : objects.length < wanted) (fuel : Nat) :
    scanPages (fetchValidated c tenant bucket keyPrefix fetch) (collectObject c wanted none)
        leadsOn .ok .ok (fuel + 1) cursor objects =
      if (objects ++ page.objects).length < wanted then
        if !page.hasMore then some (.ok (objects ++ page.objects))
        else if !leadsOn cursor page.nextMarker then some (.ok (objects ++ page.objects))
        else scanPages (fetchValidated c tenant bucket keyPrefix fetch) (collectObject c wanted none)
          leadsOn .ok .ok fuel page.nextMarker (objects ++ page.objects)
      else some (.ok ((objects ++ page.objects).take wanted)) := by
  have hm : ∀ o ∈ page.objects, o ∈ rows := by
    intro o ho
    rw [hob] at ho
    exact (mem_after.mp (mem_of_mem_take ho)).1
  have hsc : InScope tenant bucket page.objects := fun o ho => h.inScope o (hm o ho)
  have hall : page.objects.filter (listed c none) = page.objects :=
    filter_eq_self.mpr fun o ho => h.readable o (hm o ho)
  simp only [scanPages, fetchValidated, hpg, hsc.validateBoundaryObjects,
    foldlM_collectObject hadmitted hsc hrm, hall]
  split_ifs <;> rfl

/-- A round with one more row wanted takes the first row there is. -/
theorem ReadRows.scanPages_one_more
    (hf : CutsPages keyOf rows 1000 fun cursor => fetch tenant bucket keyPrefix cursor 1000)
    (leadsOn : String → String → Bool) (cursor : String) (fuel : Nat) (objects : List Object) :
    scanPages (fetchValidated c tenant bucket keyPrefix fetch) (collectObject c (objects.length + 1) none)
        leadsOn .ok .ok (fuel + 1) cursor objects =
      some (.ok (objects ++ (after keyOf rows cursor).take 1) : Collected ε) := by
  obtain ⟨page, hpg, ho, hnx, -⟩ := hf cursor
  rw [h.scanPages_succ hadmitted hpg ho leadsOn (Nat.lt_succ_self _), ho]
  cases hrs : after keyOf rows cursor with
  | nil =>
    have hl : page.hasMore = false := by
      cases hm : page.next? with
      | none => exact ListPage.next?_eq_none.mp hm
      | some cursor' => exact absurd (hnx cursor' hm).1 (by simp [hrs])
    simp [hl]
  | cons o rest => simp [take_append]

/-- **What is collected** is the page, and possibly a row that tells that there is more. Two rounds
are enough, since the raw pages are as long as a page of the listing can be. -/
theorem ReadRows.exists_collected
    (hfetch : CutsPages keyOf rows 1000 fun cursor => fetch tenant bucket keyPrefix cursor 1000)
    {size fuel : Nat} (hsz : size ≤ 1000) (hf : 2 ≤ fuel) (marker : String) :
    ∃ extra, collectAuthorizedObjects c tenant bucket keyPrefix marker (size + 1) fetch none fuel =
        some (.ok ((after keyOf rows marker).take size ++ extra)) ∧
      (extra ≠ [] → size < (after keyOf rows marker).length) ∧
      (extra = [] → (after keyOf rows marker).length ≤ size ∨
        ∀ last, ((after keyOf rows marker).take size).getLast? = some last →
          after keyOf rows (keyOf last) = []) := by
  obtain ⟨fuel, rfl⟩ := Nat.exists_eq_add_of_le' hf
  obtain ⟨page, hpg, hobj, hnx, hend⟩ := hfetch marker
  have hl : ((after keyOf rows marker).take 1000).length = min 1000 (after keyOf rows marker).length :=
    length_take
  rw [collectAuthorizedObjects, h.scanPages_succ hadmitted hpg hobj _ (Nat.succ_pos _), nil_append, hobj]
  by_cases hshort : ((after keyOf rows marker).take 1000).length < size + 1
  · have hall : (after keyOf rows marker).take 1000 = (after keyOf rows marker).take size := by
      rw [← take_of_length_le (Nat.le_of_lt_succ hshort), take_take, Nat.min_eq_left hsz]
    rw [if_pos hshort]
    cases hm : page.next? with
    | none =>
      refine ⟨[], ?_, (absurd rfl), fun _ => ?_⟩
      · rw [ListPage.next?_eq_none.mp hm, hall, append_nil]
        rfl
      · obtain hle | hlast := hend hm
        · exact .inl (by omega)
        · refine .inr fun last hlast' => hlast last ?_
          rw [hobj, hall, hlast']
    | some cursor =>
      -- The page is as long as a raw page: whether there is more is seen in a second round.
      obtain ⟨hln, hcr⟩ := hnx cursor hm
      obtain ⟨hh, rfl⟩ := ListPage.next?_eq_some.mp hm
      obtain rfl : size = 1000 := by omega
      obtain ⟨last, hlast, hkey⟩ := Option.map_eq_some_iff.mp hcr
      rw [hobj] at hlast
      have hlt : marker < page.nextMarker := by
        rw [← hkey]
        exact (mem_after.mp (mem_of_mem_take (mem_of_getLast? hlast))).2
      have hne : page.nextMarker ≠ "" := fun hem => not_lt_nil _ (hem ▸ hlt)
      have hfl : ((after keyOf rows marker).take 1000).length = 1000 := by omega
      have hrn := h.scanPages_one_more hadmitted hfetch
        (fun cursor next => !(next == "" || next == cursor)) page.nextMarker fuel
        ((after keyOf rows marker).take 1000)
      rw [hfl] at hrn
      have hon : (!(page.nextMarker == "" || page.nextMarker == marker)) = true := by simp [hne, hlt.ne']
      refine ⟨(after keyOf rows page.nextMarker).take 1, ?_, fun _ => hln,
        fun hnil => .inr fun last' hlast' => ?_⟩
      · simp only [hh, hon, hrn, Bool.not_true, Bool.false_eq_true, if_false]
      · cases hlast.symm.trans hlast'
        rw [hkey]
        exact (take_eq_nil_iff.mp hnil).resolve_left (by decide)
  · refine ⟨((after keyOf rows marker).drop size).take 1, ?_, fun _ => by omega,
      fun hnil => ?_⟩
    · rw [if_neg hshort, take_take, Nat.min_eq_left (by omega), take_add]
    · have hpos := congrArg length hnil
      rw [length_take, length_drop, length_nil] at hpos
      omega

/-- The page that `ListDeleted` cuts from what it has collected. -/
theorem ReadRows.cutsPages
    (hf : ∀ limit, CutsPages keyOf rows (pageLimit limit) fun cursor => fetch tenant bucket keyPrefix cursor limit)
    (limit : Int) {fuel : Nat} (hfl : 2 ≤ fuel) :
    CutsPages keyOf rows (pageLimit limit) fun marker =>
      settled (listObjectsMatching c tenant bucket keyPrefix marker limit fetch none fuel) := by
  by_cases hd : (c.authorizer.isNone && (none : Option (Object → Bool)).isNone) = true
  · intro marker
    obtain ⟨page, hpg, hob, hrs⟩ := hf limit marker
    have hsc : InScope tenant bucket page.objects := by
      intro o ho
      rw [hob] at ho
      exact h.inScope o (mem_after.mp (mem_of_mem_take ho)).1
    refine ⟨page, ?_, hob, hrs⟩
    simp only [listObjectsMatching, hadmitted.bucket, hadmitted.tenant, if_pos hd, hpg,
      hsc.validateBoundaryObjects]
    rfl
  · refine cutsPages_of_extra (pageLimit_pos limit) "" fun marker => ?_
    obtain ⟨extra, hcl, hm⟩ := h.exists_collected hadmitted (hf 1000) (pageLimit_le limit) hfl marker
    refine ⟨extra, ?_, hm⟩
    simp only [listObjectsMatching, hadmitted.bucket, hadmitted.tenant, if_neg hd, hcl]
    rfl

end

end Collect

/-! ### The result -/

section Exact

/-- **Listing the trash is exact if and only if it is whole**: no row has an empty key, no key that
only matches the prefix in another letter case is in the way, and no page ends between two rows of
one key. This is so for the repository's listing, and for the service's with each caller who may
read all of the trash. -/
theorem trash_listing_exact_iff (d : Dialect) (t : Objects) (tenant bucket keyPrefix : String)
    (limit : Int) :
    (ListsTrash t (defaultTenant tenant) bucket keyPrefix
        (fun marker => fetchDeleted d t tenant bucket keyPrefix marker limit) ↔
      TrashWhole d t (defaultTenant tenant) bucket keyPrefix (pageLimit limit)) ∧
    ∀ c fuel, Admitted c (defaultTenant tenant) (defaultBucket bucket) → WellNamed t →
      ReadsTrash c t (defaultTenant tenant) (defaultBucket bucket) → 2 ≤ fuel →
      (ListsTrash t (defaultTenant tenant) (defaultBucket bucket) keyPrefix
          (fun marker => settled (listDeleted c d t tenant bucket keyPrefix marker limit fuel)) ↔
        TrashWhole d t (defaultTenant tenant) (defaultBucket bucket) keyPrefix (pageLimit limit)) := by
  have hpos := pageLimit_pos limit
  refine ⟨listsTrash_iff hpos (cutsPages_fetchDeleted d t tenant bucket keyPrefix limit), ?_⟩
  intro c fuel hadmitted hnamed hrd hf
  have ht := defaultTenant_idem tenant
  have hrw : ReadRows c (defaultTenant (defaultTenant tenant)) (defaultBucket bucket)
      (trashRows d t (defaultTenant tenant) (defaultBucket bucket) keyPrefix) :=
    readRows_trashRows hnamed (by rwa [ht])
  rw [ht] at hrw
  have hpg := hrw.cutsPages hadmitted
    (cutsPages_fetchDeleted d t (defaultTenant tenant) (defaultBucket bucket) keyPrefix) limit hf
  have hex := listsTrash_iff hpos hpg
  rwa [ht] at hex

/-- A deleted object of the bucket `docs` of `acme`. -/
def deletedObject (key : String) : Object := { sampleObject 0 key "ann" with deletedAt := some 0 }

/-- The key `a` was written and deleted twice. -/
def deletedTwice : Objects := (Table.empty.insert (deletedObject "a")).insert (deletedObject "a")

/-- **One row on a page**: after the first row of `a` the listing goes on behind `a`. -/
theorem deleted_twice_listed_once :
    ¬ ListsTrash deletedTwice "acme" "docs" ""
      (fun marker => fetchDeleted .sqlite deletedTwice "acme" "docs" "" marker 1) := by
  have hiff : ListsTrash deletedTwice "acme" "docs" "" _ ↔ TrashWhole .sqlite deletedTwice "acme" "docs" "" 1 :=
    listsTrash_iff Nat.one_pos (cutsPages_fetchDeleted .sqlite deletedTwice "acme" "docs" "" 1)
  intro h
  have hsp := (hiff.mp h).unsplit 0
  exact hsp (by decide) rfl

def deletedOnce : Objects := (Table.empty.insert (deletedObject "a")).insert (deletedObject "b")

/-- Two keys, one row on a page. -/
theorem deleted_once_listed :
    ListsTrash deletedOnce "acme" "docs" "" fun marker =>
      settled (listDeleted ann .sqlite deletedOnce "acme" "docs" "" marker 1 2) := by
  have hnamed : WellNamed deletedOnce := by
    intro o ho
    obtain rfl | rfl := mem_pair.mp ho
    all_goals exact ⟨by decide, rfl⟩
  have hrd : ReadsTrash ann deletedOnce "acme" "docs" := by
    intro o ho _ _
    obtain rfl | rfl := mem_pair.mp ho
    all_goals rfl
  have hkeys : trashKeys deletedOnce "acme" "docs" "" = ["a", "b"] := by decide
  have hwh : TrashWhole .sqlite deletedOnce "acme" "docs" "" (pageLimit 1) := by
    refine ⟨by rw [hkeys]; decide, fun o _ _ _ _ _ => rfl, fun i hi => ?_⟩
    obtain rfl : i = 0 := by
      change (i + 1) * 1 < 2 at hi
      omega
    decide
  have hiff := trash_listing_exact_iff .sqlite deletedOnce "acme" "docs" "" 1
  exact (hiff.2 ann 2 admitted_ann hnamed hrd le_rfl).mpr hwh

end Exact

end AeroVault.Service
