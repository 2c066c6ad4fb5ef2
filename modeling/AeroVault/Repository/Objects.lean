import AeroVault.Repository.Schema

/-! The repository's statements on the `objects` table.

Every function is one transaction of the source. Writes that the source stamps
with the current time take it as `now`; whether a legal hold is placed on a row is
a parameter `held`, since the holds are a table of their own. -/
namespace AeroVault.Repository
open Lib List Table

/-! ### Reads -/

def atPath (k : Path) (o : Object) : Bool := o.path == k

def liveAt (k : Path) (o : Object) : Bool := atPath k o && o.live

def getObject (t : Objects) (k : Path) : Option Object := t.rows.find? (liveAt k)

def getObjectVersion (t : Objects) (k : Path) (versionID : String) : Option Object :=
  t.rows.find? fun o => atPath k o && o.versionID == versionID

def getObjectByID (t : Objects) (id : Nat) : Option Object := t.rows.find? fun o => o.id == id

def versionsAt (t : Objects) (k : Path) : List Object := t.rows.filter (atPath k)

/-- `ORDER BY updated_at DESC, id DESC`. -/
abbrev newer : Object → Object → Prop := orderDesc Object.updatedAt Object.id

def listObjectVersions (t : Objects) (k : Path) : List Object := (versionsAt t k).insertionSort newer

/-! ### Writes -/

/-- The columns that the conflict clause of `UpsertObject` assigns. -/
def overwriteColumns (now : Nat) (obj row : Object) : Object :=
  {row with
    backend := obj.backend, storageKey := obj.storageKey, size := obj.size, etag := obj.etag
    contentType := obj.contentType, metadata := obj.metadata, tags := obj.tags
    storageClass := obj.storageClass, versionID := obj.versionID, lockedUntil := obj.lockedUntil
    updatedAt := now}

/-- The row that an `INSERT` of a live object makes; `acl` and `version_tombstone`
take the columns' defaults. -/
def insertColumns (now : Nat) (obj : Object) : Object :=
  {obj with
    acl := "private", createdAt := now, updatedAt := now, deletedAt := none, versionTombstone := false}

/-- `UpsertObject`: the live row of the key is overwritten in place, or a row is
inserted. -/
def upsertObject (now : Nat) (obj : Object) (t : Objects) : Object × Objects :=
  match getObject t obj.path with
  | some row =>
    ({obj with id := row.id, createdAt := row.createdAt, updatedAt := now},
      t.update (fun o => o.id == row.id) (overwriteColumns now obj))
  | none =>
    ({obj with id := t.nextID, createdAt := now, updatedAt := now}, t.insert (insertColumns now obj))

def retired (now : Nat) (o : Object) : Object :=
  {o with deletedAt := some now, versionTombstone := true}

/-- The live row of a key becomes a historical version. -/
def retireLive (now : Nat) (k : Path) (t : Objects) : Objects := t.update (liveAt k) (retired now)

def insertObjectVersion (now : Nat) (obj : Object) (t : Objects) : Object × Objects :=
  ({obj with id := t.nextID, createdAt := now, updatedAt := now},
    (retireLive now obj.path t).insert (insertColumns now obj))

/-- The row of a delete marker. -/
def markerColumns (now : Nat) (k : Path) (versionID : String) (metadata : GoMap) : Object where
  path := k
  versionID := versionID
  metadata := metadata
  acl := "private"
  createdAt := now
  updatedAt := now
  deletedAt := some now

def insertDeleteMarker (now : Nat) (k : Path) (versionID : String) (metadata : GoMap) (t : Objects) :
    Object × Objects :=
  ({markerColumns now k versionID metadata with id := t.nextID},
    (retireLive now k t).insert (markerColumns now k versionID metadata))

def softDeleteObject (now : Nat) (k : Path) (t : Objects) : Except RepoError Objects :=
  if t.rows.any (liveAt k) then .ok (t.update (liveAt k) fun o => {o with deletedAt := some now})
  else .error .notFound

def hardDeleteObject (held : Nat → Bool) (k : Path) (t : Objects) : Except RepoError Objects :=
  if t.rows.any fun o => atPath k o && held o.id then .error .legalHoldActive
  else .ok (t.delete (atPath k))

/-- `HardDeleteObjectWithEvent`, which also refuses to delete nothing. -/
def hardDeleteObjectWithEvent (held : Nat → Bool) (k : Path) (t : Objects) :
    Except RepoError Objects :=
  if t.rows.any fun o => atPath k o && held o.id then .error .legalHoldActive
  else if t.rows.any (atPath k) then .ok (t.delete (atPath k))
  else .error .notFound

def hardDeleteObjectByID (held : Nat → Bool) (id : Nat) (t : Objects) : Except RepoError Objects :=
  match getObjectByID t id with
  | none => .error .notFound
  | some _ => if held id then .error .legalHoldActive else .ok (t.delete fun o => o.id == id)

def revived (o : Object) : Object := {o with deletedAt := none, versionTombstone := false}

/-- A key without a live row gets its newest row back, unless that is a marker. -/
def promoteLatestObjectVersion (k : Path) (t : Objects) : Objects :=
  if t.rows.any (liveAt k) then t
  else
    match latest newer (versionsAt t k) with
    | none => t
    | some row =>
      if row.isDeleteMarker then t
      else t.update (fun o => o.id == row.id) revived

def deleteObjectVersion (held : Nat → Bool) (k : Path) (versionID : String) (t : Objects) :
    Except RepoError Objects :=
  match getObjectVersion t k versionID with
  | none => .error .notFound
  | some row =>
    if held row.id then .error .legalHoldActive
    else .ok (promoteLatestObjectVersion k (t.delete fun o => o.id == row.id))

/-- A row that a user deleted, as opposed to a replaced version. -/
def restorable (o : Object) : Bool := !o.live && !o.versionTombstone

/-- `RestoreObject`: `ORDER BY updated_at DESC LIMIT 1`, without a tie-break. -/
def restoreObject (k : Path) (t : Objects) : Except RepoError Objects :=
  match latest (orderDesc Object.updatedAt fun _ => 0) ((versionsAt t k).filter restorable) with
  | none => .error .notFound
  | some row =>
    if t.rows.any (liveAt k) then .error .notFound
    else .ok (t.update (fun o => o.id == row.id) fun o => {o with deletedAt := none})

def updateObjectTagsByID (now : Nat) (id : Nat) (tags : GoMap) (t : Objects) :
    Except RepoError Objects :=
  match getObjectByID t id with
  | none => .error .notFound
  | some _ => .ok (t.update (fun o => o.id == id) fun o => {o with tags := tags, updatedAt := now})

def setObjectRetention (id : Nat) (till : Nat) (metadata : GoMap) (t : Objects) :
    Except RepoError Objects :=
  match getObjectByID t id with
  | none => .error .notFound
  | some _ =>
    .ok (t.update (fun o => o.id == id) fun o =>
      {o with lockedUntil := some till, metadata := metadata})

def setObjectACL (k : Path) (acl : String) (t : Objects) : Except RepoError Objects :=
  if t.rows.any (liveAt k) then .ok (t.update (liveAt k) fun o => {o with acl := acl})
  else .error .notFound

/-! ### What the statements find -/

variable {t t' : Objects} {k : Path} {o row : Object}

theorem mem_versionsAt : o ∈ versionsAt t k ↔ o ∈ t.rows ∧ o.path = k := by
  simp [versionsAt, atPath]

theorem mem_listObjectVersions : o ∈ listObjectVersions t k ↔ o ∈ t.rows ∧ o.path = k := by
  rw [listObjectVersions, mem_insertionSort, mem_versionsAt]

theorem getObject_some (h : getObject t k = some o) : o ∈ t.rows ∧ o.path = k ∧ o.live = true := by
  have hl := find?_some h
  simp only [liveAt, atPath, Bool.and_eq_true, beq_iff_eq] at hl
  exact ⟨mem_of_find?_eq_some h, hl⟩

theorem getObject_none (h : getObject t k = none) (ho : o ∈ t.rows) (hk : o.path = k) : o.live = false := by
  have hno := find?_eq_none.mp h o ho
  simpa [liveAt, atPath, hk] using hno

theorem getObjectVersion_some {versionID : String} (h : getObjectVersion t k versionID = some o) :
    o ∈ t.rows ∧ o.path = k ∧ o.versionID = versionID := by
  have hfound := find?_some h
  simp only [atPath, Bool.and_eq_true, beq_iff_eq] at hfound
  exact ⟨mem_of_find?_eq_some h, hfound⟩

theorem getObjectByID_some {id : Nat} (h : getObjectByID t id = some o) : o ∈ t.rows ∧ o.id = id := by
  have hfound := find?_some h
  exact ⟨mem_of_find?_eq_some h, by simpa using hfound⟩

theorem getObjectByID_of_mem (h : o ∈ t.rows) : getObjectByID t o.id = some o :=
  get?_eq_some.mpr ⟨h, rfl⟩

variable {f : Object → Object}

theorem getObjectByID_update {p : Object → Bool} (hf : ∀ o, (f o).id = o.id) (id : Nat) :
    getObjectByID (t.update p f) id = (getObjectByID t id).map fun o => if p o then f o else o :=
  get?_update hf id

theorem not_any_liveAt (h : t.rows.any (liveAt k) = false) (ho : o ∈ t.rows) (hk : o.path = k) :
    o.live = false := by
  have hno := any_eq_false.mp h o ho
  simpa [liveAt, atPath, hk] using hno

theorem eq_of_id (ha : o ∈ t.rows) (hb : row ∈ t.rows) (h : o.id = row.id) : o = row := Table.eq_of_id ha hb h

theorem isDeleteMarker_congr {a : Object} (h : a.metadata = o.metadata) :
    a.isDeleteMarker = o.isDeleteMarker := by
  unfold Object.isDeleteMarker
  rw [h]

/-! ### What the statements leave -/

/-- Assigning to the row of one ID. -/
theorem mem_update_row (hf : ∀ o, (f o).id = o.id) (hrow : row ∈ t.rows) :
    o ∈ (t.update (fun a => a.id == row.id) f).rows ↔ o = f row ∨ (o ∈ t.rows ∧ o.id ≠ row.id) := by
  rw [mem_update hf]
  constructor
  · intro h
    obtain ⟨a, ha, hid, rfl⟩ | ⟨ho, hid⟩ := h
    · exact .inl (by rw [eq_of_id ha hrow (by simpa using hid)])
    · exact .inr ⟨ho, by simpa using hid⟩
  · intro h
    obtain rfl | ⟨ho, hid⟩ := h
    · exact .inl ⟨row, hrow, by simp, rfl⟩
    · exact .inr ⟨ho, by simpa using hid⟩

/-- Assigning to the live row of a key. -/
theorem mem_update_live (hf : ∀ o, (f o).id = o.id) :
    o ∈ (t.update (liveAt k) f).rows ↔
      (∃ a ∈ t.rows, a.path = k ∧ a.live = true ∧ f a = o) ∨ (o ∈ t.rows ∧ ¬ (o.path = k ∧ o.live = true)) := by
  simp only [mem_update hf, liveAt, atPath, Bool.and_eq_true, beq_iff_eq, and_assoc, Bool.eq_false_iff, ne_eq]

variable {now : Nat}

theorem mem_retireLive :
    o ∈ (retireLive now k t).rows ↔
      (∃ a ∈ t.rows, a.path = k ∧ a.live = true ∧ retired now a = o) ∨
        (o ∈ t.rows ∧ ¬ (o.path = k ∧ o.live = true)) := mem_update_live fun _ => rfl

variable {obj : Object}

theorem mem_upsertObject_some (now : Nat) (h : getObject t obj.path = some row) :
    o ∈ (upsertObject now obj t).2.rows ↔
      o = overwriteColumns now obj row ∨ (o ∈ t.rows ∧ o.id ≠ row.id) := by
  simp only [upsertObject, h]
  exact mem_update_row (fun _ => rfl) (getObject_some h).1

theorem mem_upsertObject_none (now : Nat) (h : getObject t obj.path = none) :
    o ∈ (upsertObject now obj t).2.rows ↔ o ∈ t.rows ∨ o = {insertColumns now obj with id := t.nextID} := by
  simp only [upsertObject, h]
  exact mem_insert

theorem mem_insertObjectVersion :
    o ∈ (insertObjectVersion now obj t).2.rows ↔
      o ∈ (retireLive now obj.path t).rows ∨ o = {insertColumns now obj with id := t.nextID} :=
  mem_insert

theorem mem_insertDeleteMarker {versionID : String} {metadata : GoMap} :
    o ∈ (insertDeleteMarker now k versionID metadata t).2.rows ↔
      o ∈ (retireLive now k t).rows ∨ o = {markerColumns now k versionID metadata with id := t.nextID} :=
  mem_insert

theorem softDeleteObject_ok (h : softDeleteObject now k t = .ok t') :
    t' = t.update (liveAt k) fun o => {o with deletedAt := some now} := by
  unfold softDeleteObject at h
  split at h
  · exact (Except.ok.inj h).symm
  · cases h

theorem mem_softDeleteObject (h : softDeleteObject now k t = .ok t') :
    o ∈ t'.rows ↔
      (∃ a ∈ t.rows, a.path = k ∧ a.live = true ∧ {a with deletedAt := some now} = o) ∨
        (o ∈ t.rows ∧ ¬ (o.path = k ∧ o.live = true)) := by
  rw [softDeleteObject_ok h]
  exact mem_update_live fun _ => rfl

theorem setObjectRetention_ok {id till : Nat} {metadata : GoMap} (h : setObjectRetention id till metadata t = .ok t') :
    t' = t.update (fun o => o.id == id) fun o => {o with lockedUntil := some till, metadata := metadata} := by
  unfold setObjectRetention at h
  split at h
  · cases h
  · exact (Except.ok.inj h).symm

theorem setObjectACL_ok {acl : String} (h : setObjectACL k acl t = .ok t') :
    t' = t.update (liveAt k) fun o => {o with acl := acl} := by
  unfold setObjectACL at h
  split at h
  · exact (Except.ok.inj h).symm
  · cases h

/-- A row has its own ACL or the new one, and is otherwise what it was. -/
theorem mem_setObjectACL {acl : String} (h : setObjectACL k acl t = .ok t') (ho : o ∈ t'.rows) :
    ∃ a ∈ t.rows, ∃ acl', {a with acl := acl'} = o := by
  rw [setObjectACL_ok h] at ho
  obtain ⟨a, ha, -, rfl⟩ | ⟨ho, -⟩ := (mem_update (fun _ => by rfl)).mp ho
  · exact ⟨a, ha, acl, rfl⟩
  · exact ⟨o, ho, o.acl, rfl⟩

/-- What a hard delete leaves: every row of the other keys. -/
theorem mem_hardDelete : o ∈ (t.delete (atPath k)).rows ↔ o ∈ t.rows ∧ o.path ≠ k := by
  rw [mem_delete]
  simp [atPath]

theorem mem_delete_row : o ∈ (t.delete fun a => a.id == row.id).rows ↔ o ∈ t.rows ∧ o.id ≠ row.id := by
  rw [mem_delete]
  simp

/-! ### The live row after a statement -/

/-- An update that makes no row of the key live, and none of its live rows dead. -/
theorem getObject_update {p : Object → Bool} (hid : ∀ o, (f o).id = o.id)
    (hf : ∀ o ∈ t.rows, p o = true → liveAt k (f o) = liveAt k o) :
    getObject (t.update p f) k = (getObject t k).map fun o => if p o then f o else o := by
  have hl : ∀ o ∈ t.rows, (liveAt k ∘ fun o => if p o then f o else o) o = liveAt k o := by
    intro o ho
    by_cases hp : p o = true
    · simp [hp, hf o ho hp]
    · simp [hp]
  rw [getObject, rows_update hid, updateWhere, find?_map, getObject]
  exact congrArg _ (find?_congr hl)

theorem getObject_insert (obj : Object) :
    getObject (t.insert obj) k =
      (getObject t k).or (if liveAt k obj then some {obj with id := t.nextID} else none) := by
  show (t.rows ++ [{obj with id := t.nextID}]).find? (liveAt k) = _
  rw [find?_append]
  rw [find?_singleton]
  rfl

theorem getObject_delete_ne {j : Path} (h : k ≠ j) : getObject (t.delete (atPath j)) k = getObject t k := by
  show (t.rows.filter fun o => !atPath j o).find? (liveAt k) = t.rows.find? (liveAt k)
  rw [find?_filter]
  congr
  funext o
  by_cases hk : o.path = k
  · simp [atPath, hk, h]
  · simp [liveAt, atPath, hk]

theorem liveAt_insertColumns (now : Nat) (obj : Object) : liveAt obj.path (insertColumns now obj) = true := by
  simp [liveAt, atPath, insertColumns, Object.live]

theorem liveAt_insertColumns_ne (now : Nat) (hk : k ≠ obj.path) :
    liveAt k (insertColumns now obj) = false := by
  simp [liveAt, atPath, insertColumns, hk.symm]

theorem liveAt_retired (now : Nat) (k : Path) (o : Object) : liveAt k (retired now o) = false := by
  simp [liveAt, retired, Object.live]

theorem getObject_retireLive_self (now : Nat) (k : Path) (t : Objects) :
    getObject (retireLive now k t) k = none := by
  refine find?_eq_none.mpr fun o ho => ?_
  obtain ⟨a, -, -, -, rfl⟩ | ⟨-, hnot⟩ := mem_retireLive.mp ho
  · simp [liveAt_retired]
  · simpa [liveAt, atPath] using hnot

theorem getObject_retireLive_ne (now : Nat) {j : Path} (hk : k ≠ j) (t : Objects) :
    getObject (retireLive now j t) k = getObject t k := by
  have hother : ∀ o : Object, liveAt k o = true → liveAt j o = false := by
    intro o ho
    simp only [liveAt, atPath, Bool.and_eq_true, beq_iff_eq] at ho
    simp [liveAt, atPath, ho.1, hk]
  have hup : getObject (retireLive now j t) k =
      (getObject t k).map fun o => if liveAt j o then retired now o else o := by
    refine getObject_update (fun _ => rfl) fun o _ ho => ?_
    rw [liveAt_retired]
    by_cases hl : liveAt k o = true
    · rw [hother o hl] at ho
      cases ho
    · exact (Bool.eq_false_iff.mpr hl).symm
  rw [hup]
  cases hl : getObject t k with
  | none => rfl
  | some a => simp [hother a (find?_some hl)]

/-- The columns that every write of a row takes from the object. -/
structure WrittenAs (obj r : Object) : Prop where
  versionID : r.versionID = obj.versionID
  storageKey : r.storageKey = obj.storageKey
  metadata : r.metadata = obj.metadata

theorem live_insert (h : getObject t obj.path = none) :
    ∃ r, getObject (t.insert (insertColumns now obj)) obj.path = some r ∧ WrittenAs obj r := by
  refine ⟨{insertColumns now obj with id := t.nextID}, ?_, rfl, rfl, rfl⟩
  rw [getObject_insert, h, if_pos (liveAt_insertColumns now obj)]
  rfl

theorem getObject_upsertObject_some (now : Nat) (hrow : getObject t obj.path = some row) :
    getObject (upsertObject now obj t).2 k =
      (getObject t k).map fun o => if o.id == row.id then overwriteColumns now obj o else o := by
  simp only [upsertObject, hrow]
  exact getObject_update (fun _ => rfl) fun _ _ _ => rfl

/-- An upserted row is the live one of its key. -/
theorem live_upsertObject (now : Nat) (obj : Object) (t : Objects) :
    ∃ r, getObject (upsertObject now obj t).2 obj.path = some r ∧ WrittenAs obj r := by
  cases hrow : getObject t obj.path with
  | some row =>
    refine ⟨overwriteColumns now obj row, ?_, rfl, rfl, rfl⟩
    rw [getObject_upsertObject_some now hrow, hrow]
    simp
  | none =>
    simp only [upsertObject, hrow]
    exact live_insert hrow

/-- A version that is inserted is the live row of its key. -/
theorem live_insertObjectVersion (now : Nat) (obj : Object) (t : Objects) :
    ∃ r, getObject (insertObjectVersion now obj t).2 obj.path = some r ∧ WrittenAs obj r :=
  live_insert (getObject_retireLive_self now obj.path t)

end AeroVault.Repository
