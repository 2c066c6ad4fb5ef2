import AeroVault.Reconcile.Deletion
import AeroVault.Service.Calls

/-! Whether the background sweeps destroy current data.

A sweep takes rows out by a key of theirs: the retention sweep by path, all rows of
the key of a soft-deleted row, the sweep of non-current versions by ID. What it
has taken out in the end depends on the state before it alone (`Swept`), since what
it does to one key changes nothing for another. The blobs go by storage key, which
rows of other keys may share. `background_deletion_safe_iff` says in which runs the
sweeps are safe. -/
namespace AeroVault.Reconcile
open Lib Repository Service List

variable {w : Sweep} {s s₀ s₁ s' : Vault} {o x : Object}

/-! ### What a sweep leaves -/

/-- The rows whose key is in `gone` are removed, and their blobs. -/
structure Swept {κ : Type} (keyOf : Object → κ) (gone : κ → Bool) (s s' : Vault) : Prop where
  rows : s'.objects.rows = s.objects.rows.filter fun o => !gone (keyOf o)
  lost : ∀ o ∈ s.objects.rows, gone (keyOf o) = true → ∀ key, ownsBlob key o = true →
    s'.blobs key = none
  kept : ∀ key, (∀ o ∈ s.objects.rows, gone (keyOf o) = true → ownsBlob key o = false) →
    s'.blobs key = s.blobs key
  held : ∀ o ∈ s'.objects.rows, s'.held o.id = s.held o.id

section Swept
variable {κ : Type} {keyOf : Object → κ} {gone gone' : κ → Bool}

theorem Swept.none (keyOf : Object → κ) (s : Vault) : Swept keyOf (fun _ => false) s s where
  rows := by simp
  lost := nofun
  kept _ _ := rfl
  held _ _ := rfl

theorem Swept.mem (h : Swept keyOf gone s s') :
    o ∈ s'.objects.rows ↔ o ∈ s.objects.rows ∧ gone (keyOf o) = false := by
  rw [h.rows]
  simp

theorem Swept.trans (h : Swept keyOf gone s s₁) (h' : Swept keyOf gone' s₁ s') :
    Swept keyOf (fun k => gone k || gone' k) s s' where
  rows := by
    rw [h'.rows, h.rows, filter_filter]
    congr 1
    funext o
    cases gone (keyOf o) <;> simp
  lost o ho hgn key hown := by
    cases hf : gone (keyOf o) with
    | false =>
      rw [hf, Bool.false_or] at hgn
      exact h'.lost o (h.mem.mpr ⟨ho, hf⟩) hgn key hown
    | true =>
      -- The blob is gone already, and stays so, whatever the second sweep deletes.
      have hl := h.lost o ho hf key hown
      by_cases hag : ∃ a ∈ s₁.objects.rows, gone' (keyOf a) = true ∧ ownsBlob key a = true
      · obtain ⟨a, ha, hgn', hown'⟩ := hag
        exact h'.lost a ha hgn' key hown'
      · rw [h'.kept key fun a ha hg => Bool.eq_false_iff.mpr fun hown' => hag ⟨a, ha, hg, hown'⟩]
        exact hl
  kept key hkp := by
    rw [h'.kept key fun a ha hg => hkp a (h.mem.mp ha).1 (by simp [hg])]
    exact h.kept key fun a ha hg => hkp a ha (by simp [hg])
  held o ho := by
    rw [h'.held o ho]
    exact h.held o (h'.mem.mp ho).1

/-- Takes one row after another: a row that is admitted takes out all rows with its
key, and whether a row is admitted does not depend on what was taken out before,
unless it was the row itself. -/
theorem foldl_swept [DecidableEq κ] (admits : Vault → Object → Bool) (purge : Vault → Object → Vault)
    (hpr : ∀ s x, admits s x = true → x ∈ s.objects.rows → Swept keyOf (fun k => k == keyOf x) s (purge s x))
    (hsk : ∀ s x, admits s x = false → purge s x = s)
    (hst : ∀ (gone : κ → Bool) (s s₀ : Vault) x, Swept keyOf gone s s₀ → x ∈ s.objects.rows →
      admits s₀ x = (admits s x && !gone (keyOf x)))
    (l : List Object) (hl : ∀ x ∈ l, x ∈ s.objects.rows) (h : Swept keyOf gone s s₀) :
    Swept keyOf (fun k => gone k || l.any fun x => admits s x && k == keyOf x) s (l.foldl purge s₀) := by
  induction l generalizing gone s₀ with
  | nil => simpa using h
  | cons x rest ih =>
    have hx := hl x mem_cons_self
    have hrs : ∀ y ∈ rest, y ∈ s.objects.rows := fun y hy => hl y (mem_cons_of_mem _ hy)
    have hadm := hst gone s s₀ x h hx
    rw [foldl_cons]
    cases hnow : admits s₀ x with
    | true =>
      rw [hnow] at hadm
      have hbt : admits s x = true ∧ gone (keyOf x) = false := by simpa using hadm.symm
      have hstep := h.trans (hpr s₀ x hnow (h.mem.mpr ⟨hx, hbt.2⟩))
      have hf := ih hrs hstep
      simpa [hbt.1, Bool.or_assoc] using hf
    | false =>
      rw [hsk s₀ x hnow]
      have hf := ih hrs h
      -- Either the row is not admitted, or its key is gone already.
      rw [hnow] at hadm
      have hsame : (fun k => gone k || (x :: rest).any fun y => admits s y && k == keyOf y) =
          fun k => gone k || rest.any fun y => admits s y && k == keyOf y := by
        funext k
        rw [any_cons]
        cases hx' : admits s x with
        | false => simp
        | true =>
          have hg : gone (keyOf x) = true := by simpa [hx'] using hadm.symm
          by_cases hk : k = keyOf x
          · simp [hk, hg]
          · have hne : (k == keyOf x) = false := beq_eq_false_iff_ne.mpr hk
            simp [hne]
      rw [hsame]
      exact hf

end Swept

/-! ### Scope, read off the table -/

variable {t : Objects}

theorem sameObjectIdentity_refl (o : Object) : sameObjectIdentity o o = true := by
  simp [sameObjectIdentity]

theorem canonicalObject_of_mem (ho : o ∈ s.objects.rows) :
    canonicalObject s o = if validateObjectScope o then some o else none := by
  unfold canonicalObject
  rw [getObjectByID_of_mem ho]
  cases hv : validateObjectScope o with
  | false => simp
  | true => simp [hv, sameObjectIdentity_refl]

theorem canonicalObject_of_not_mem (h : ∀ a ∈ s.objects.rows, a.id ≠ o.id) : canonicalObject s o = none := by
  have hnone : getObjectByID s.objects o.id = none := find?_eq_none.mpr fun a ha => by simpa using h a ha
  unfold canonicalObject
  rw [hnone]
  split <;> rfl

def scopeAdmits (w : Sweep) (o : Object) : Bool :=
  validateObjectScope o && w.checkBucket o.path.tenantID o.path.bucket

theorem scopeObject_of_mem (ho : o ∈ s.objects.rows) :
    scopeObject w s o = if scopeAdmits w o then some o else none := by
  unfold scopeObject scopeAdmits
  rw [canonicalObject_of_mem ho]
  cases validateObjectScope o with
  | false => rfl
  | true => simp [Option.filter]

theorem scopeObject_of_not_mem (h : ∀ a ∈ s.objects.rows, a.id ≠ o.id) :
    scopeObject w s o = none := by
  rw [scopeObject, canonicalObject_of_not_mem h]
  rfl

variable {anchor : Object} {versions : List Object}

/-- Versions that are all rows of the table come back as they are. -/
theorem validateVersions_eq {seen : List Nat} {versionIDs : List String}
    {valid : List Object} (hmem : ∀ v ∈ versions, v ∈ s.objects.rows)
    (h : validateVersions w s anchor seen versionIDs versions = some valid) : valid = versions := by
  induction versions generalizing seen versionIDs valid with
  | nil =>
    unfold validateVersions at h
    split at h
    · exact (Option.some.inj h).symm
    · cases h
  | cons v rest ih =>
    unfold validateVersions at h
    rw [canonicalObject_of_mem (hmem v mem_cons_self)] at h
    split at h
    · cases h
    · split at h
      · cases h
      next actual hac =>
        obtain rfl : v = actual := by
          split at hac
          · exact Option.some.inj hac
          · cases hac
        split at h
        · cases h
        · split at h
          · cases h
          · obtain ⟨later, hl, rfl⟩ := Option.map_eq_some_iff.mp h
            rw [ih (fun u hu => hmem u (mem_cons_of_mem _ hu)) hl]

/-- Two states that both have the versions validate them alike. -/
theorem validateVersions_congr (seen : List Nat) (versionIDs : List String)
    (hm : ∀ v ∈ versions, v ∈ s.objects.rows) (hm₀ : ∀ v ∈ versions, v ∈ s₀.objects.rows) :
    validateVersions w s₀ anchor seen versionIDs versions =
      validateVersions w s anchor seen versionIDs versions := by
  induction versions generalizing seen versionIDs with
  | nil => rfl
  | cons v rest ih =>
    unfold validateVersions
    rw [canonicalObject_of_mem (hm v mem_cons_self), canonicalObject_of_mem (hm₀ v mem_cons_self)]
    have hrs (a : Object) := ih (a.id :: seen) (a.versionID :: versionIDs)
      (fun u hu => hm u (mem_cons_of_mem _ hu)) fun u hu => hm₀ u (mem_cons_of_mem _ hu)
    simp only [hrs]

theorem scopeVersions_eq (h : scopeVersions w s anchor = some versions) :
    versions = listObjectVersions s.objects anchor.path := by
  unfold scopeVersions at h
  split at h
  · cases h
  · exact validateVersions_eq (fun v hv => (mem_listObjectVersions.mp hv).1) h

variable {gone : Path → Bool}

theorem Swept.listObjectVersions (h : Swept Object.path gone s s₀) {k : Path}
    (hk : gone k = false) : listObjectVersions s₀.objects k = listObjectVersions s.objects k := by
  have hv : versionsAt s₀.objects k = versionsAt s.objects k := by
    unfold versionsAt
    rw [h.rows, filter_filter]
    refine filter_congr fun o _ => ?_
    by_cases hok : o.path = k
    · simp [hok, hk]
    · simp [atPath, hok]
  rw [Repository.listObjectVersions, hv, Repository.listObjectVersions]

theorem Swept.scopeVersions (h : Swept Object.path gone s s₀)
    (hk : gone anchor.path = false) : scopeVersions w s₀ anchor = scopeVersions w s anchor := by
  have hl := h.listObjectVersions hk
  unfold Reconcile.scopeVersions
  rw [hl]
  split
  · rfl
  · refine validateVersions_congr [] [] (fun v hv => (mem_listObjectVersions.mp hv).1) fun v hv => ?_
    rw [← hl] at hv
    exact (mem_listObjectVersions.mp hv).1

/-! ### The retention sweep -/

theorem not_held_of_unprotected (h : objectDeletionProtected w s o = false) : s.held o.id = false := by
  unfold objectDeletionProtected at h
  simp only [Bool.or_eq_false_iff] at h
  exact h.2

theorem held_withObjects (ho : o ∈ t.rows) : (s.withObjects t).held o.id = s.held o.id := by
  unfold Vault.held Vault.withObjects
  rw [any_filter]
  congr 1
  funext h
  by_cases hid : h.objectID = o.id
  · have hrow : (t.rows.any fun a => a.id == h.objectID) = true :=
      any_eq_true.mpr ⟨o, ho, by simp [hid]⟩
    rw [hrow, Bool.true_and]
  · simp [hid]

theorem adjustUsage_frame {tenant : String} {usage : Int × Int} :
    (adjustUsage s tenant usage).objects = s.objects ∧ (adjustUsage s tenant usage).holds = s.holds ∧
      (adjustUsage s tenant usage).blobs = s.blobs := by
  unfold adjustUsage
  split <;> exact ⟨rfl, rfl, rfl⟩

/-- Blobs of `versions` deleted, and the rows of a key that are `versions`. -/
theorem swept_deletion {κ : Type} {keyOf : Object → κ} {gone : κ → Bool} {tenant : String} {usage : Int × Int}
    (hrw : t.rows = s.objects.rows.filter fun o => !gone (keyOf o))
    (hv : ∀ o, o ∈ versions ↔ o ∈ s.objects.rows ∧ gone (keyOf o) = true) :
    Swept keyOf gone s (adjustUsage ((deleteVersionBlobs versions s).withObjects t) tenant usage) := by
  obtain ⟨hobj, hholds, hbl⟩ := adjustUsage_frame
  refine ⟨?_, fun o ho hg key hown => ?_, fun key hkp => ?_, fun o ho => ?_⟩
  · rw [hobj]
    exact hrw
  · rw [hbl]
    show (deleteVersionBlobs versions s).blobs key = none
    have hany : versions.any (ownsBlob key) = true := any_eq_true.mpr ⟨o, (hv o).mpr ⟨ho, hg⟩, hown⟩
    rw [deleteVersionBlobs_blobs, if_pos hany]
  · rw [hbl]
    show (deleteVersionBlobs versions s).blobs key = s.blobs key
    have hany : ¬ versions.any (ownsBlob key) = true := by
      intro hany
      obtain ⟨o, ho, hown⟩ := any_eq_true.mp hany
      obtain ⟨ho, hg⟩ := (hv o).mp ho
      rw [hkp o ho hg] at hown
      cases hown
    rw [deleteVersionBlobs_blobs, if_neg hany]
  · have ho : o ∈ t.rows := by rwa [hobj] at ho
    have hh : (adjustUsage ((deleteVersionBlobs versions s).withObjects t) tenant usage).held o.id =
        ((deleteVersionBlobs versions s).withObjects t).held o.id := by
      unfold Vault.held
      rw [hholds]
    rw [hh, held_withObjects ho, deleteVersionBlobs_held]

section
variable {κ : Type} {keyOf : Object → κ} {gone : κ → Bool} (h : Swept keyOf gone s s₀) (w : Sweep)
include h

/-- A row that remains is in scope as it was. -/
theorem Swept.scopeObject_eq (ho : o ∈ s.objects.rows) :
    scopeObject w s₀ o = if gone (keyOf o) then Option.none else scopeObject w s o := by
  split_ifs with hg
  · refine scopeObject_of_not_mem fun a ha hid => ?_
    obtain ⟨ha, hkp⟩ := h.mem.mp ha
    rw [eq_of_id ha ho hid, hg] at hkp
    cases hkp
  · rw [scopeObject_of_mem ho, scopeObject_of_mem (h.mem.mpr ⟨ho, Bool.eq_false_iff.mpr hg⟩)]

theorem Swept.protected_eq (ho : o ∈ s₀.objects.rows) :
    objectDeletionProtected w s₀ o = objectDeletionProtected w s o := by
  unfold objectDeletionProtected
  rw [h.held o ho]

end

/-- The row passes the checks of the retention sweep. -/
def purgeAdmitted (w : Sweep) (s : Vault) (o : Object) : Bool :=
  match scopeObject w s o with
  | none => false
  | some anchor => objectKeyDeletionProtected w s anchor == some false

theorem purgeAdmitted_of_mem (ho : o ∈ s.objects.rows) :
    purgeAdmitted w s o = (scopeAdmits w o && objectKeyDeletionProtected w s o == some false) := by
  rw [purgeAdmitted, scopeObject_of_mem ho]
  cases scopeAdmits w o <;> rfl

theorem purgeOneSoftDeleted_skip (h : purgeAdmitted w s o = false) : purgeOneSoftDeleted w s o = s := by
  unfold purgeAdmitted at h
  unfold purgeOneSoftDeleted
  split
  · rfl
  next anchor han =>
    rw [han] at h
    split
    next hpr => simp [hpr] at h
    · rfl

theorem purgeOneSoftDeleted_swept (h : purgeAdmitted w s o = true) (ho : o ∈ s.objects.rows) :
    Swept Object.path (fun k => k == o.path) s (purgeOneSoftDeleted w s o) := by
  rw [purgeAdmitted_of_mem ho, Bool.and_eq_true, beq_iff_eq] at h
  obtain ⟨hsc, hkey⟩ := h
  obtain ⟨versions, hv, hpr⟩ := Option.map_eq_some_iff.mp hkey
  obtain rfl := scopeVersions_eq hv
  have hun (a : Object) (ha : a ∈ s.objects.rows) (hk : a.path = o.path) : s.held a.id = false := by
    have hnone := any_eq_false.mp hpr a (mem_listObjectVersions.mpr ⟨ha, hk⟩)
    exact not_held_of_unprotected (by simpa using hnone)
  have hnt : (s.objects.rows.any fun a => atPath o.path a && s.held a.id) = false := by
    refine any_eq_false.mpr fun a ha => ?_
    by_cases hk : a.path = o.path
    · simp [hun a ha hk]
    · simp [atPath, hk]
  unfold purgeOneSoftDeleted hardDeleteKey
  simp only [scopeObject_of_mem ho, hsc, hkey, hv, hpr, if_true, Bool.false_eq_true, deleteVersionBlobs_held,
    deleteVersionBlobs_objects, hardDeleteObject, hnt]
  refine swept_deletion rfl fun a => ?_
  rw [mem_listObjectVersions]
  simp

theorem purgeAdmitted_stable (h : Swept Object.path gone s s₀) (ho : o ∈ s.objects.rows) :
    purgeAdmitted w s₀ o = (purgeAdmitted w s o && !gone o.path) := by
  cases hg : gone o.path with
  | true => simp [purgeAdmitted, h.scopeObject_eq w ho, hg]
  | false =>
    have hkey : objectKeyDeletionProtected w s₀ o = objectKeyDeletionProtected w s o := by
      unfold objectKeyDeletionProtected
      rw [h.scopeVersions hg]
      cases hv : scopeVersions w s o with
      | none => rfl
      | some versions =>
        obtain rfl := scopeVersions_eq hv
        rw [Option.map_some, Option.map_some]
        congr 1
        rw [Bool.eq_iff_iff, any_eq_true, any_eq_true]
        refine exists_congr fun a => and_congr_right fun ha => ?_
        obtain ⟨ha, hk⟩ := mem_listObjectVersions.mp ha
        rw [h.protected_eq w (h.mem.mpr ⟨ha, by rw [hk, hg]⟩)]
    rw [purgeAdmitted_of_mem (h.mem.mpr ⟨ho, hg⟩), purgeAdmitted_of_mem ho, hkey, Bool.not_false, Bool.and_true]

/-- The sweep removes the row: it is listed, and passes the checks. -/
def purgedKey (w : Sweep) (s : Vault) (k : Path) : Bool :=
  (listSoftDeletedBefore s.objects (w.now - w.retention) 200).any fun x =>
    purgeAdmitted w s x && k == x.path

theorem mem_of_listed {before limit : Nat} (h : o ∈ listSoftDeletedBefore s.objects before limit) :
    o ∈ s.objects.rows :=
  (mem_filter.mp ((mem_insertionSort _).mp (mem_of_mem_take h))).1

/-- The retention sweep removes all rows and blobs of the keys it purges. -/
theorem purgeSoftDeleted_swept :
    Swept Object.path (purgedKey w s) s (purgeSoftDeleted w s) := by
  have h := foldl_swept (purgeAdmitted w) (purgeOneSoftDeleted w)
    (fun _ _ => purgeOneSoftDeleted_swept) (fun _ _ => purgeOneSoftDeleted_skip)
    (fun _ _ _ _ => purgeAdmitted_stable)
    (listSoftDeletedBefore s.objects (w.now - w.retention) 200) (fun _ => mem_of_listed)
    (.none Object.path s)
  exact h

/-! ### The sweep of non-current versions -/

def nonCurrentAdmitted (w : Sweep) (s : Vault) (o : Object) : Bool :=
  match scopeObject w s o with
  | none => false
  | some v => v.versionTombstone && !v.live && !objectDeletionProtected w s v

theorem nonCurrentAdmitted_of_mem (ho : o ∈ s.objects.rows) : nonCurrentAdmitted w s o =
    (scopeAdmits w o && (o.versionTombstone && !o.live && !objectDeletionProtected w s o)) := by
  rw [nonCurrentAdmitted, scopeObject_of_mem ho]
  cases scopeAdmits w o <;> rfl

theorem purgeNonCurrentVersion_skip (h : nonCurrentAdmitted w s o = false) :
    purgeNonCurrentVersion w s o = s := by
  unfold nonCurrentAdmitted at h
  unfold purgeNonCurrentVersion
  split
  · rfl
  next v hv =>
    split
    · rfl
    next hcr =>
      have hpr : objectDeletionProtected w s v = true := by
        cases ht : v.versionTombstone <;> cases hl : v.live <;> simp_all
      rw [if_pos hpr]

theorem purgeNonCurrentVersion_swept (h : nonCurrentAdmitted w s o = true) (ho : o ∈ s.objects.rows) :
    Swept Object.id (fun id => id == o.id) s (purgeNonCurrentVersion w s o) := by
  simp only [nonCurrentAdmitted_of_mem ho, Bool.and_eq_true, Bool.not_eq_true'] at h
  obtain ⟨hsc, ⟨ht, hd⟩, hun⟩ := h
  unfold purgeNonCurrentVersion hardDeleteVersion
  simp only [scopeObject_of_mem ho, hsc, if_true, ht, hd, hun, Bool.false_eq_true, deleteVersionBlobs_held,
    deleteVersionBlobs_objects, hardDeleteObjectByID, getObjectByID_of_mem ho, not_held_of_unprotected hun]
  refine swept_deletion rfl fun a => ?_
  rw [mem_singleton, beq_iff_eq]
  constructor
  · intro ha
    rw [ha]
    exact ⟨ho, rfl⟩
  · intro ha
    exact eq_of_id ha.1 ho ha.2

theorem nonCurrentAdmitted_stable {gone : Nat → Bool} (h : Swept Object.id gone s s₀)
    (ho : o ∈ s.objects.rows) :
    nonCurrentAdmitted w s₀ o = (nonCurrentAdmitted w s o && !gone o.id) := by
  cases hg : gone o.id with
  | true => simp [nonCurrentAdmitted, h.scopeObject_eq w ho, hg]
  | false =>
    have ho' := h.mem.mpr ⟨ho, hg⟩
    rw [nonCurrentAdmitted_of_mem ho', nonCurrentAdmitted_of_mem ho, h.protected_eq w ho', Bool.not_false,
      Bool.and_true]

def purgedVersion (w : Sweep) (s : Vault) (id : Nat) : Bool :=
  (listExpiredNonCurrentVersions s w.now 200).any fun x => nonCurrentAdmitted w s x && id == x.id

theorem sweepNonCurrentVersions_swept :
    Swept Object.id (purgedVersion w s) s (sweepNonCurrentVersions w s) := by
  have h := foldl_swept (nonCurrentAdmitted w) (purgeNonCurrentVersion w)
    (fun _ _ => purgeNonCurrentVersion_swept) (fun _ _ => purgeNonCurrentVersion_skip)
    (fun _ _ _ _ => nonCurrentAdmitted_stable) (listExpiredNonCurrentVersions s w.now 200)
    (fun x hx => (mem_filter.mp (mem_of_mem_take hx)).1) (.none Object.id s)
  exact h

/-- A version that is swept is not current. -/
theorem not_live_of_purgedVersion (ho : o ∈ s.objects.rows) (h : purgedVersion w s o.id = true) :
    o.live = false := by
  obtain ⟨x, hx, h⟩ := any_eq_true.mp h
  have hm := (mem_filter.mp (mem_of_mem_take hx)).1
  simp only [nonCurrentAdmitted_of_mem hm, Bool.and_eq_true, Bool.not_eq_true', beq_iff_eq] at h
  rw [eq_of_id ho hm h.2]
  exact h.1.2.1.2

/-! ### Current data -/

/-- Every live row is still there, and the blob of every row that is. -/
structure Safe (s s' : Vault) : Prop where
  rows : ∀ o ∈ s.objects.rows, o.live = true → o ∈ s'.objects.rows
  blobs : ∀ o ∈ s'.objects.rows, s'.blobs o.storageKey = s.blobs o.storageKey

/-- No row that remains has its blob in common with a row that goes. -/
def BlobsApart {κ : Type} (keyOf : Object → κ) (gone : κ → Bool) (s : Vault) : Prop :=
  ∀ o ∈ s.objects.rows, gone (keyOf o) = true → ∀ a ∈ s.objects.rows, gone (keyOf a) = false →
    ownsBlob a.storageKey o = true → s.blobs a.storageKey = none

theorem Swept.safe_iff {κ : Type} {keyOf : Object → κ} {gone : κ → Bool} (h : Swept keyOf gone s s') :
    Safe s s' ↔ (∀ o ∈ s.objects.rows, gone (keyOf o) = true → o.live = false) ∧ BlobsApart keyOf gone s := by
  constructor
  · intro hsf
    refine ⟨fun o ho hg => ?_, fun o ho hg a ha hkp hown => ?_⟩
    · by_contra hl
      have hrm := (h.mem.mp (hsf.rows o ho (by simpa using hl))).2
      rw [hg] at hrm
      cases hrm
    · rw [← hsf.blobs a (h.mem.mpr ⟨ha, hkp⟩)]
      exact h.lost o ho hg _ hown
  · intro hcn
    obtain ⟨hd, hap⟩ := hcn
    refine ⟨fun o ho hl => h.mem.mpr ⟨ho, ?_⟩, fun a ha => ?_⟩
    · by_contra hg
      rw [hd o ho (by simpa using hg)] at hl
      cases hl
    · obtain ⟨ha, hkp⟩ := h.mem.mp ha
      by_cases hsh : ∃ o ∈ s.objects.rows, gone (keyOf o) = true ∧ ownsBlob a.storageKey o = true
      · obtain ⟨o, ho, hg, hown⟩ := hsh
        rw [hap o ho hg a ha hkp hown]
        exact h.lost o ho hg _ hown
      · exact h.kept _ fun o ho hg => Bool.eq_false_iff.mpr fun hown => hsh ⟨o, ho, hg, hown⟩

/-! ### Runs -/

/-- A call of the service, or one of the two sweeps. -/
inductive Activity
  | call (c : Call)
  | retention (w : Sweep)
  | nonCurrent (w : Sweep)

def Activity.next (s : Vault) : Activity → Vault
  | .call c => s.next c
  | .retention w => purgeSoftDeleted w s
  | .nonCurrent w => sweepNonCurrentVersions w s

/-- A sweep destroys no current data. -/
def Activity.Safe (s : Vault) : Activity → Prop
  | .call _ => True
  | .retention w => Reconcile.Safe s (purgeSoftDeleted w s)
  | .nonCurrent w => Reconcile.Safe s (sweepNonCurrentVersions w s)

/-- No key that the retention sweep purges has a live row, and no row that it purges
has its blob in common with another key; no version that the other sweep purges has
its blob in common with a row that remains. -/
def Activity.PurgesApart (s : Vault) : Activity → Prop
  | .call _ => True
  | .retention w =>
    (∀ o ∈ s.objects.rows, purgedKey w s o.path = true → o.live = false) ∧
      BlobsApart Object.path (purgedKey w s) s
  | .nonCurrent w => BlobsApart Object.id (purgedVersion w s) s

theorem safe_iff_purgesApart (s : Vault) (e : Activity) : e.Safe s ↔ e.PurgesApart s := by
  cases e with
  | call c => exact .rfl
  | retention w => exact purgeSoftDeleted_swept.safe_iff
  | nonCurrent w =>
    show Safe s (sweepNonCurrentVersions w s) ↔ BlobsApart Object.id (purgedVersion w s) s
    rw [sweepNonCurrentVersions_swept.safe_iff]
    exact and_iff_right fun o ho => not_live_of_purgedVersion ho

/-- **Background deletion.** In a run of calls and sweeps from the empty vault, no
sweep destroys current data exactly when what each sweep purges is apart from it. -/
theorem background_deletion_safe_iff (buckets : String → String → BucketConfig)
    (maxBytes maxObjects : String → Int) (activities : List Activity) :
    Each Activity.next (fun s e => e.Safe s) (.empty buckets maxBytes maxObjects) activities ↔
      Each Activity.next (fun s e => e.PurgesApart s) (.empty buckets maxBytes maxObjects) activities :=
  each_congr safe_iff_purgesApart

/-- Without versioning: a put, a soft delete and a put again, all of one key. When the
deleted row has expired, the sweep removes the live one with it. -/
theorem sweep_after_rewrite_removes_live_row :
    ¬ Each Activity.next (fun s e => e.Safe s)
      .empty
      [.call ⟨allowedUser 1 "v1" "u1", .put (plainPut "acme" "docs" "a" [1])⟩,
        .call ⟨allowedUser 2 "v2" "u2", .delete "acme" "docs" "a" false⟩,
        .call ⟨allowedUser 3 "v3" "u3", .put (plainPut "acme" "docs" "a" [2])⟩,
        .retention ⟨100, 30, fun _ _ => true⟩] := by
  intro h
  obtain ⟨-, -, -, hsf, -⟩ := h
  exact absurd hsf.rows (by decide +kernel)

end AeroVault.Reconcile
