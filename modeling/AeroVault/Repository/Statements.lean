import AeroVault.Lib.Runs
import AeroVault.Repository.Objects

/-! Runs of the statements that write `objects`.

A run executes statements one after another, each at its own time and among the
legal holds of that moment. -/
namespace AeroVault.Repository
open Lib

inductive Statement
  | upsertObject (obj : Object)
  | insertObjectVersion (obj : Object)
  | insertDeleteMarker (k : Path) (versionID : String) (metadata : GoMap)
  | softDeleteObject (k : Path)
  | hardDeleteObject (k : Path)
  | deleteObjectVersion (k : Path) (versionID : String)
  /-- `RestoreObject` as `FileService.RestoreObject` calls it. -/
  | restoreObject (k : Path)
  | updateObjectTagsByID (id : Nat) (tags : GoMap)

/-- A statement with what it finds around it: the time, the legal holds, and
whether the service's reads admit a restore of the row it picked (the caller's
authorization, `Stat` of the blob, the quotas). -/
structure Executed where
  statement : Statement
  now : Nat
  held : Nat → Bool
  admits : Object → Bool

/-- The service's own pick: the first listed row that a user deleted. -/
def restorableObject (t : Objects) (k : Path) : Option Object :=
  (listObjectVersions t k).find? restorable

def restoreAdmitted (admits : Object → Bool) (k : Path) (t : Objects) : Except RepoError Objects :=
  match getObject t k, restorableObject t k with
  | none, some row => if admits row then restoreObject k t else .error .notFound
  | _, _ => .error .notFound

/-- A failed statement is rolled back. -/
def committed (t : Objects) : Except RepoError Objects → Objects
  | .ok t' => t'
  | .error _ => t

def Executed.apply (e : Executed) (t : Objects) : Objects :=
  match e.statement with
  | .upsertObject obj => (upsertObject e.now obj t).2
  | .insertObjectVersion obj => (insertObjectVersion e.now obj t).2
  | .insertDeleteMarker k versionID metadata => (insertDeleteMarker e.now k versionID metadata t).2
  | .softDeleteObject k => committed t (softDeleteObject e.now k t)
  | .hardDeleteObject k => committed t (hardDeleteObject e.held k t)
  | .deleteObjectVersion k versionID => committed t (deleteObjectVersion e.held k versionID t)
  | .restoreObject k => committed t (restoreAdmitted e.admits k t)
  | .updateObjectTagsByID id tags => committed t (updateObjectTagsByID e.now id tags t)

/-- The table and the time of the last statement. -/
structure Clocked where
  table : Objects
  clock : Nat

def Clocked.empty : Clocked := ⟨.empty, 0⟩

def Clocked.next (s : Clocked) (e : Executed) : Clocked := ⟨e.apply s.table, e.now⟩

/-! ### Inversions -/

variable {t t' : Objects} {k : Path} {o row : Object}

theorem committed_cases {P : Objects → Prop} {r : Except RepoError Objects} (ht : P t)
    (hok : ∀ t', r = .ok t' → P t') : P (committed t r) := by
  cases r with
  | error e => exact ht
  | ok t' => exact hok t' rfl

theorem hardDeleteObject_ok {held : Nat → Bool} (h : hardDeleteObject held k t = .ok t') :
    t' = t.delete (atPath k) := by
  unfold hardDeleteObject at h
  split at h
  · cases h
  · exact (Except.ok.inj h).symm

theorem deleteObjectVersion_ok {held : Nat → Bool} {versionID : String}
    (h : deleteObjectVersion held k versionID t = .ok t') :
    ∃ row, getObjectVersion t k versionID = some row ∧ held row.id = false ∧
      t' = promoteLatestObjectVersion k (t.delete fun o => o.id == row.id) := by
  unfold deleteObjectVersion at h
  split at h
  · cases h
  next row hrow =>
    split at h
    · cases h
    next hh => exact ⟨row, hrow, by simpa using hh, (Except.ok.inj h).symm⟩

theorem restoreObject_ok (h : restoreObject k t = .ok t') :
    ∃ row, latest (orderDesc Object.updatedAt fun _ => 0) ((versionsAt t k).filter restorable) =
        some row ∧ t.rows.any (liveAt k) = false ∧
      t' = t.update (fun o => o.id == row.id) fun o => {o with deletedAt := none} := by
  unfold restoreObject at h
  split at h
  · cases h
  next row hrow =>
    split at h
    · cases h
    next hl => exact ⟨row, hrow, by simpa using hl, (Except.ok.inj h).symm⟩

theorem restoreAdmitted_ok {admits : Object → Bool} (h : restoreAdmitted admits k t = .ok t') :
    ∃ row, restorableObject t k = some row ∧ admits row = true ∧ restoreObject k t = .ok t' := by
  unfold restoreAdmitted at h
  split at h
  next row _ hrow =>
    split at h
    next hadm => exact ⟨row, hrow, hadm, h⟩
    · cases h
  · cases h

theorem updateObjectTagsByID_ok {now id : Nat} {tags : GoMap}
    (h : updateObjectTagsByID now id tags t = .ok t') :
    ∃ row, getObjectByID t id = some row ∧
      t' = t.update (fun o => o.id == id) fun o => {o with tags := tags, updatedAt := now} := by
  unfold updateObjectTagsByID at h
  split at h
  · cases h
  next row hrow => exact ⟨row, hrow, (Except.ok.inj h).symm⟩

/-- What a promotion does: nothing while a row is live, or when the newest row is
a marker; else the newest row is revived. -/
theorem promoteLatestObjectVersion_cases (k : Path) (t : Objects) :
    (t.rows.any (liveAt k) = true ∧ promoteLatestObjectVersion k t = t) ∨
    (t.rows.any (liveAt k) = false ∧ versionsAt t k = [] ∧ promoteLatestObjectVersion k t = t) ∨
    (∃ row, t.rows.any (liveAt k) = false ∧ latest newer (versionsAt t k) = some row ∧
      row.isDeleteMarker = true ∧ promoteLatestObjectVersion k t = t) ∨
    (∃ row, t.rows.any (liveAt k) = false ∧ latest newer (versionsAt t k) = some row ∧
      row.isDeleteMarker = false ∧
      promoteLatestObjectVersion k t = t.update (fun o => o.id == row.id) revived) := by
  unfold promoteLatestObjectVersion
  cases hlv : t.rows.any (liveAt k) with
  | true => exact .inl ⟨rfl, rfl⟩
  | false =>
    cases hl : latest newer (versionsAt t k) with
    | none => exact .inr (.inl ⟨rfl, latest_eq_none.mp hl, rfl⟩)
    | some row =>
      cases hm : row.isDeleteMarker with
      | true => exact .inr (.inr (.inl ⟨row, rfl, rfl, hm, by simp [hm]⟩))
      | false => exact .inr (.inr (.inr ⟨row, rfl, rfl, hm, by simp [hm]⟩))

/-- A promotion revives the newest row, or does nothing. -/
theorem promoteLatestObjectVersion_eq_or (k : Path) (t : Objects) :
    promoteLatestObjectVersion k t = t ∨ ∃ row, latest newer (versionsAt t k) = some row ∧
      promoteLatestObjectVersion k t = t.update (fun o => o.id == row.id) revived := by
  obtain ⟨-, h⟩ | ⟨-, -, h⟩ | ⟨-, -, -, -, h⟩ | ⟨row, -, hl, -, h⟩ := promoteLatestObjectVersion_cases k t
  · exact .inl h
  · exact .inl h
  · exact .inl h
  · exact .inr ⟨row, hl, h⟩

/-- The newest row of a key, in the source's order, has the greatest `updated_at`. -/
theorem latest_newest (h : latest newer (versionsAt t k) = some row) :
    row ∈ t.rows ∧ row.path = k ∧ ∀ b ∈ t.rows, b.path = k → b.updatedAt ≤ row.updatedAt := by
  obtain ⟨hrow, hk⟩ := mem_versionsAt.mp (latest_mem h)
  refine ⟨hrow, hk, fun b hb hbk => ?_⟩
  by_cases hne : b = row
  · rw [hne]
  · have hf : newer row b := latest_first h b (mem_versionsAt.mpr ⟨hb, hbk⟩) hne
    unfold newer orderDesc at hf
    omega

end AeroVault.Repository
