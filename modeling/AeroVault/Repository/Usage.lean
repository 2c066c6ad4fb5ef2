import AeroVault.Lib.Totals
import AeroVault.Repository.Statements

/-! What the statements do to a tenant's usage.

A row that is live or a historical version counts with its size and as one object.
`Shifts` says by how much a statement changes what a tenant's rows count for. The
writes rely on there being at most one live row of a key, and on live rows not
being flagged as historical (`LiveSound`), which every statement preserves. -/
namespace AeroVault.Repository
open Lib

variable {t t' t'' : Objects} {k : Path} {o row : Object}

/-! ### Weights -/

/-- Bytes and number that a row counts for. -/
def rowUsage (o : Object) : Int × Int := if o.counted then (o.size, 1) else 0

def weight (tenant : String) (o : Object) : Int × Int :=
  if o.path.tenantID = tenant then rowUsage o else 0

theorem rowUsage_nonneg : 0 ≤ rowUsage o := by
  unfold rowUsage
  split
  · exact ⟨Int.natCast_nonneg _, Int.one_nonneg⟩
  · exact le_refl _

theorem weight_nonneg (tenant : String) (o : Object) : 0 ≤ weight tenant o := by
  unfold weight
  split
  · exact rowUsage_nonneg
  · exact le_refl _

theorem rowUsage_live (h : o.live = true) : rowUsage o = ((o.size : Int), 1) := by
  simp [rowUsage, Object.counted, h]

theorem rowUsage_tombstone (h : o.versionTombstone = true) : rowUsage o = ((o.size : Int), 1) := by
  simp [rowUsage, Object.counted, h]

theorem rowUsage_uncounted (hl : o.live = false) (ht : o.versionTombstone = false) : rowUsage o = 0 := by
  simp [rowUsage, Object.counted, hl, ht]

theorem weight_congr {a : Object} (hpath : a.path = o.path) (hus : rowUsage a = rowUsage o)
    {tenant : String} : weight tenant a = weight tenant o := by
  simp [weight, hpath, hus]

/-! ### Shifts -/

/-- The usage of `tenant` changes by `d`, that of the other tenants not at all. -/
def Shifts (tenant : String) (d : Int × Int) (t t' : Objects) : Prop :=
  ∀ x, t'.total (weight x) = t.total (weight x) + if tenant = x then d else 0

theorem Shifts.refl (tenant : String) (t : Objects) : Shifts tenant 0 t t := by
  intro x
  simp

theorem Shifts.trans {tenant : String} {d d' : Int × Int} (h : Shifts tenant d t t')
    (h' : Shifts tenant d' t' t'') : Shifts tenant (d + d') t t'' := by
  intro x
  rw [h' x, h x]
  split
  · rw [add_assoc]
  · rw [add_zero]

variable {p : Object → Bool} {f : Object → Object}

theorem shifts_update_eq {tenant : String} (hf : ∀ o, (f o).id = o.id)
    (h : ∀ o ∈ t.rows, p o = true → (f o).path = o.path ∧ rowUsage (f o) = rowUsage o) :
    Shifts tenant 0 t (t.update p f) := by
  intro x
  rw [ite_self, add_zero]
  exact Table.total_update_eq hf fun o ho hp => weight_congr (h o ho hp).1 (h o ho hp).2

theorem shifts_insert (t : Objects) (obj : Object) :
    Shifts obj.path.tenantID (rowUsage obj) t (t.insert obj) := by
  intro x
  rw [Table.total_insert]
  rfl

theorem shifts_update_one (hf : ∀ o, (f o).id = o.id)
    (hrow : row ∈ t.rows) (hp : ∀ o ∈ t.rows, p o = true ↔ o = row) (hpath : (f row).path = row.path) :
    Shifts row.path.tenantID (rowUsage (f row) - rowUsage row) t (t.update p f) := by
  intro x
  rw [Table.total_update_one hf hrow hp]
  simp only [weight, hpath]
  split
  · abel
  · abel

theorem shifts_delete_one (hrow : row ∈ t.rows) (hp : ∀ o ∈ t.rows, p o = true ↔ o = row) :
    Shifts row.path.tenantID (-rowUsage row) t (t.delete p) := by
  intro x
  rw [Table.total_delete_one hrow hp]
  unfold weight
  split
  · abel
  · abel

/-- All rows of one key. -/
theorem shifts_delete_path (t : Objects) (k : Path) :
    Shifts k.tenantID (-totalOf rowUsage (versionsAt t k)) t (t.delete (atPath k)) := by
  intro x
  rw [Table.total_delete]
  have hwg : totalOf (weight x) (versionsAt t k) =
      if k.tenantID = x then totalOf rowUsage (versionsAt t k) else 0 := by
    have hm : (versionsAt t k).map (weight x) =
        (versionsAt t k).map fun o => if k.tenantID = x then rowUsage o else 0 :=
      List.map_congr_left fun o ho => by rw [weight, (mem_versionsAt.mp ho).2]
    unfold totalOf
    rw [hm]
    split
    · rfl
    · simp
  show _ - totalOf (weight x) (versionsAt t k) = _
  rw [hwg]
  split
  · abel
  · abel

theorem id_eq_iff (hrow : row ∈ t.rows) : ∀ o ∈ t.rows, (o.id == row.id) = true ↔ o = row := by
  intro o ho
  rw [beq_iff_eq]
  exact ⟨eq_of_id ho hrow, fun h => by rw [h]⟩

/-! ### Live rows -/

structure LiveSound (t : Objects) : Prop where
  once : ∀ a ∈ t.rows, ∀ b ∈ t.rows, a.live = true → b.live = true → a.path = b.path → a = b
  current : ∀ a ∈ t.rows, a.live = true → a.versionTombstone = false

theorem liveSound_empty : LiveSound .empty where
  once := nofun
  current := nofun

/-- What a statement does to live rows: those of `k` are one row `i`, those of the
other keys were live before. -/
theorem LiveSound.step (h : LiveSound t) (k : Path) (i : Nat)
    (hrw : ∀ o' ∈ t'.rows, o'.live = true → o'.versionTombstone = false ∧
      ((o'.path = k ∧ o'.id = i) ∨
        (o'.path ≠ k ∧ ∃ o ∈ t.rows, o.live = true ∧ o.path = o'.path ∧ o.id = o'.id))) :
    LiveSound t' where
  once a ha b hb hla hlb hpath := by
    refine eq_of_id ha hb ?_
    obtain ⟨-, ⟨hak, hai⟩ | ⟨hak, a₀, ha₀, hla₀, hpa₀, hida₀⟩⟩ := hrw a ha hla <;>
      obtain ⟨-, ⟨hbk, hbi⟩ | ⟨hbk, b₀, hb₀, hlb₀, hpb₀, hidb₀⟩⟩ := hrw b hb hlb
    · rw [hai, hbi]
    · exact absurd (hpath.symm.trans hak) hbk
    · exact absurd (hpath.trans hbk) hak
    · have heq : a₀ = b₀ := h.once a₀ ha₀ b₀ hb₀ hla₀ hlb₀ (by rw [hpa₀, hpb₀, hpath])
      rw [← hida₀, ← hidb₀, heq]
  current a ha hl := (hrw a ha hl).1

/-- A statement after which a row is live only if it was live before. -/
theorem LiveSound.demote (h : LiveSound t) (hrw : ∀ o' ∈ t'.rows, o'.live = true →
      ∃ o ∈ t.rows, o.live = true ∧ o.path = o'.path ∧ o.id = o'.id ∧
        o'.versionTombstone = o.versionTombstone) : LiveSound t' where
  once a ha b hb hla hlb hpath := by
    obtain ⟨a₀, ha₀, hla₀, hpa₀, hida₀, -⟩ := hrw a ha hla
    obtain ⟨b₀, hb₀, hlb₀, hpb₀, hidb₀, -⟩ := hrw b hb hlb
    have heq : a₀ = b₀ := h.once a₀ ha₀ b₀ hb₀ hla₀ hlb₀ (by rw [hpa₀, hpb₀, hpath])
    exact eq_of_id ha hb (by rw [← hida₀, ← hidb₀, heq])
  current a ha hl := by
    obtain ⟨o, ho, hlo, -, -, ht⟩ := hrw a ha hl
    rw [ht]
    exact h.current o ho hlo

theorem LiveSound.subset (h : LiveSound t) (hsub : ∀ o ∈ t'.rows, o ∈ t.rows) : LiveSound t' :=
  h.demote fun o ho hl => ⟨o, hsub o ho, hl, rfl, rfl, rfl⟩

/-- Assignments to columns that do not say whether a row is live. -/
theorem LiveSound.update (h : LiveSound t)
    (hf : ∀ o, (f o).id = o.id ∧ (f o).path = o.path ∧ (f o).live = o.live ∧
      (f o).versionTombstone = o.versionTombstone) : LiveSound (t.update p f) := by
  refine h.demote fun o' ho' hl => ?_
  obtain ⟨o, ho, -, rfl⟩ | ⟨ho, -⟩ := (Table.mem_update fun o => (hf o).1).mp ho'
  · obtain ⟨hid, hpath, hlv, ht⟩ := hf o
    exact ⟨o, ho, hlv.symm.trans hl, hpath.symm, hid.symm, ht⟩
  · exact ⟨o', ho, hl, rfl, rfl, rfl⟩

/-- The row of a key that is assigned to becomes its live row. -/
theorem LiveSound.revive (h : LiveSound t) (hf : ∀ o, (f o).id = o.id)
    (hrow : row ∈ t.rows) (hnone : t.rows.any (liveAt row.path) = false)
    (hpath : (f row).path = row.path) (ht : (f row).versionTombstone = false) :
    LiveSound (t.update (fun o => o.id == row.id) f) := by
  refine h.step row.path row.id fun o' ho' hl => ?_
  obtain rfl | ⟨ho, -⟩ := (mem_update_row hf hrow).mp ho'
  · exact ⟨ht, .inl ⟨hpath, hf row⟩⟩
  · refine ⟨h.current o' ho hl, .inr ⟨fun hk => ?_, o', ho, hl, rfl, rfl⟩⟩
    rw [not_any_liveAt hnone ho hk] at hl
    cases hl

/-! ### Statements -/

/-- A live row that becomes a historical version still counts. -/
theorem shifts_retireLive (tenant : String) (now : Nat) (k : Path) (t : Objects) :
    Shifts tenant 0 t (retireLive now k t) := by
  refine shifts_update_eq (fun _ => rfl) fun o _ hp => ⟨rfl, ?_⟩
  have hl : o.live = true := by
    simp only [liveAt, Bool.and_eq_true] at hp
    exact hp.2
  rw [rowUsage_live hl, rowUsage_tombstone rfl]
  rfl

variable {now : Nat}

theorem live_retireLive (ho : o ∈ (retireLive now k t).rows) (hl : o.live = true) :
    o ∈ t.rows ∧ o.path ≠ k := by
  obtain ⟨a, -, -, -, rfl⟩ | ⟨ho, hnot⟩ := mem_retireLive.mp ho
  · cases hl
  · exact ⟨ho, fun hk => hnot ⟨hk, hl⟩⟩

theorem shifts_insertObjectVersion (now : Nat) (obj : Object) (t : Objects) :
    Shifts obj.path.tenantID ((obj.size : Int), 1) t (insertObjectVersion now obj t).2 := by
  have h := (shifts_retireLive obj.path.tenantID now obj.path t).trans
    (shifts_insert (retireLive now obj.path t) (insertColumns now obj))
  rw [zero_add, rowUsage_live rfl] at h
  exact h

theorem LiveSound.insertObjectVersion (h : LiveSound t) (now : Nat) (obj : Object) :
    LiveSound (insertObjectVersion now obj t).2 := by
  refine h.step obj.path t.nextID fun o ho hl => ?_
  obtain ho | rfl := mem_insertObjectVersion.mp ho
  · obtain ⟨ho, hk⟩ := live_retireLive ho hl
    exact ⟨h.current o ho hl, .inr ⟨hk, o, ho, hl, rfl, rfl⟩⟩
  · exact ⟨rfl, .inl ⟨rfl, rfl⟩⟩

theorem shifts_upsertObject_none (now : Nat) {obj : Object} (h : getObject t obj.path = none) :
    Shifts obj.path.tenantID ((obj.size : Int), 1) t (upsertObject now obj t).2 := by
  have hins := shifts_insert t (insertColumns now obj)
  simp only [upsertObject, h]
  exact hins

theorem shifts_upsertObject_some (now : Nat) {obj : Object} (h : getObject t obj.path = some row) :
    Shifts obj.path.tenantID ((obj.size : Int) - row.size, 0) t (upsertObject now obj t).2 := by
  obtain ⟨hrow, hpath, hl⟩ := getObject_some h
  have hupd := shifts_update_one (f := overwriteColumns now obj) (fun _ => rfl) hrow
    (id_eq_iff hrow) rfl
  have hnew : rowUsage (overwriteColumns now obj row) = ((obj.size : Int), 1) :=
    rowUsage_live hl
  rw [hnew, rowUsage_live hl, hpath, Prod.mk_sub_mk, sub_self] at hupd
  simp only [upsertObject, h]
  exact hupd

theorem LiveSound.upsertObject (h : LiveSound t) (now : Nat) (obj : Object) :
    LiveSound (upsertObject now obj t).2 := by
  cases hrow : getObject t obj.path with
  | none =>
    refine h.step obj.path t.nextID fun o ho hl => ?_
    obtain ho | rfl := (mem_upsertObject_none now hrow).mp ho
    · refine ⟨h.current o ho hl, .inr ⟨fun hk => ?_, o, ho, hl, rfl, rfl⟩⟩
      rw [getObject_none hrow ho hk] at hl
      cases hl
    · exact ⟨rfl, .inl ⟨rfl, rfl⟩⟩
  | some row =>
    obtain ⟨hm, hpath, hlv⟩ := getObject_some hrow
    refine h.step obj.path row.id fun o ho hl => ?_
    obtain rfl | ⟨ho, hid⟩ := (mem_upsertObject_some now hrow).mp ho
    · exact ⟨h.current row hm hlv, .inl ⟨hpath, rfl⟩⟩
    · refine ⟨h.current o ho hl, .inr ⟨fun hk => hid ?_, o, ho, hl, rfl, rfl⟩⟩
      rw [h.once o ho row hm hl hlv (hk.trans hpath.symm)]

theorem shifts_insertDeleteMarker (now : Nat) (k : Path) (versionID : String) (metadata : GoMap)
    (t : Objects) : Shifts k.tenantID 0 t (insertDeleteMarker now k versionID metadata t).2 := by
  have h := (shifts_retireLive k.tenantID now k t).trans
    (shifts_insert (retireLive now k t) (markerColumns now k versionID metadata))
  exact h

theorem LiveSound.insertDeleteMarker (h : LiveSound t) (now : Nat) (k : Path) (versionID : String)
    (metadata : GoMap) : LiveSound (insertDeleteMarker now k versionID metadata t).2 := by
  refine h.demote fun o ho hl => ?_
  obtain ho | rfl := mem_insertDeleteMarker.mp ho
  · obtain ⟨ho, -⟩ := live_retireLive ho hl
    exact ⟨o, ho, hl, rfl, rfl, rfl⟩
  · cases hl

theorem liveAt_iff (h : LiveSound t) (hrow : getObject t k = some row) :
    ∀ o ∈ t.rows, liveAt k o = true ↔ o = row := by
  obtain ⟨hm, hpath, hlv⟩ := getObject_some hrow
  intro o ho
  simp only [liveAt, atPath, Bool.and_eq_true, beq_iff_eq]
  constructor
  · exact fun hl => h.once o ho row hm hl.2 hlv (hl.1.trans hpath.symm)
  · intro heq
    rw [heq]
    exact ⟨hpath, hlv⟩

theorem shifts_softDeleteObject (h : LiveSound t) (hrow : getObject t k = some row)
    (hok : softDeleteObject now k t = .ok t') : Shifts k.tenantID (-((row.size : Int), 1)) t t' := by
  obtain ⟨hm, hpath, hl⟩ := getObject_some hrow
  obtain rfl := softDeleteObject_ok hok
  have hupd := shifts_update_one (f := fun o => {o with deletedAt := some now}) (fun _ => rfl) hm
    (liveAt_iff h hrow) rfl
  have hg : rowUsage {row with deletedAt := some now} = 0 :=
    rowUsage_uncounted rfl (h.current row hm hl)
  rw [hg, rowUsage_live hl, hpath, zero_sub] at hupd
  exact hupd

theorem LiveSound.softDeleteObject (h : LiveSound t)
    (hok : softDeleteObject now k t = .ok t') : LiveSound t' := by
  refine h.demote fun o ho hl => ?_
  obtain ⟨a, -, -, -, rfl⟩ | ⟨ho, -⟩ := (mem_softDeleteObject hok).mp ho
  · cases hl
  · exact ⟨o, ho, hl, rfl, rfl, rfl⟩

theorem shifts_setObjectACL {acl : String} (tenant : String) (hok : setObjectACL k acl t = .ok t') :
    Shifts tenant 0 t t' := by
  obtain rfl := setObjectACL_ok hok
  exact shifts_update_eq (fun _ => rfl) fun _ _ _ => ⟨rfl, rfl⟩

theorem LiveSound.setObjectACL {acl : String} (h : LiveSound t) (hok : setObjectACL k acl t = .ok t') :
    LiveSound t' := by
  obtain rfl := setObjectACL_ok hok
  exact h.update fun _ => ⟨rfl, rfl, rfl, rfl⟩

theorem shifts_setObjectRetention {id till : Nat} {metadata : GoMap} (tenant : String)
    (hok : setObjectRetention id till metadata t = .ok t') : Shifts tenant 0 t t' := by
  obtain rfl := setObjectRetention_ok hok
  exact shifts_update_eq (fun _ => rfl) fun _ _ _ => ⟨rfl, rfl⟩

theorem LiveSound.setObjectRetention {id till : Nat} {metadata : GoMap} (h : LiveSound t)
    (hok : setObjectRetention id till metadata t = .ok t') : LiveSound t' := by
  obtain rfl := setObjectRetention_ok hok
  exact h.update fun _ => ⟨rfl, rfl, rfl, rfl⟩

/-- The row that a promotion makes live again. -/
def promotedRow (k : Path) (t : Objects) : Option Object :=
  if t.rows.any (liveAt k) then none
  else (latest newer (versionsAt t k)).filter fun row => !row.isDeleteMarker

theorem promoteLatestObjectVersion_eq (k : Path) (t : Objects) :
    promoteLatestObjectVersion k t =
      match promotedRow k t with
      | none => t
      | some row => t.update (fun o => o.id == row.id) revived := by
  unfold promoteLatestObjectVersion promotedRow
  split
  · rfl
  · cases hl : latest newer (versionsAt t k) with
    | none => rfl
    | some row => cases hm : row.isDeleteMarker <;> simp [Option.filter, hm]

theorem promotedRow_some (h : promotedRow k t = some row) :
    row ∈ t.rows ∧ row.path = k ∧ t.rows.any (liveAt k) = false := by
  unfold promotedRow at h
  split at h
  · cases h
  next hlv =>
    obtain ⟨hl, -⟩ := Option.filter_eq_some_iff.mp h
    obtain ⟨hrow, hk⟩ := mem_versionsAt.mp (latest_mem hl)
    exact ⟨hrow, hk, by simpa using hlv⟩

/-- What a promotion adds: nothing, if the row was a historical version, and the
whole row, if a user had deleted it. -/
def promotedUsage (k : Path) (t : Objects) : Int × Int :=
  match promotedRow k t with
  | none => 0
  | some row => ((row.size : Int), 1) - rowUsage row

theorem shifts_promote (k : Path) (t : Objects) :
    Shifts k.tenantID (promotedUsage k t) t (promoteLatestObjectVersion k t) := by
  rw [promoteLatestObjectVersion_eq, promotedUsage]
  cases h : promotedRow k t with
  | none => exact .refl _ t
  | some row =>
    obtain ⟨hrow, rfl, -⟩ := promotedRow_some h
    exact shifts_update_one (fun _ => rfl) hrow (id_eq_iff hrow) rfl

theorem LiveSound.promote (h : LiveSound t) (k : Path) : LiveSound (promoteLatestObjectVersion k t) := by
  rw [promoteLatestObjectVersion_eq]
  cases hp : promotedRow k t with
  | none => exact h
  | some row =>
    obtain ⟨hrow, rfl, hnone⟩ := promotedRow_some hp
    exact h.revive (fun _ => rfl) hrow hnone rfl rfl

/-- A promotion is free of charge exactly when it revives no row that a user deleted. -/
theorem promotedUsage_eq_zero (k : Path) (t : Objects) :
    promotedUsage k t = 0 ↔ ∀ row ∈ promotedRow k t, row.versionTombstone = true := by
  unfold promotedUsage
  cases h : promotedRow k t with
  | none => simp
  | some row =>
    obtain ⟨hrow, hk, hnone⟩ := promotedRow_some h
    simp only [Option.mem_def, Option.some.injEq, forall_eq']
    cases ht : row.versionTombstone with
    | true => simp [rowUsage_tombstone ht]
    | false => simp [rowUsage_uncounted (not_any_liveAt hnone hrow hk) ht]

/-- The row that `RestoreObject` makes live again. -/
def restoredRow (k : Path) (t : Objects) : Option Object :=
  latest (orderDesc Object.updatedAt fun _ => 0) ((versionsAt t k).filter restorable)

theorem restoredRow_some (h : restoredRow k t = some row) :
    row ∈ t.rows ∧ row.path = k ∧ row.live = false ∧ row.versionTombstone = false := by
  obtain ⟨hm, hrs⟩ := List.mem_filter.mp (latest_mem h)
  obtain ⟨hrow, hk⟩ := mem_versionsAt.mp hm
  simp only [restorable, Bool.and_eq_true, Bool.not_eq_true'] at hrs
  exact ⟨hrow, hk, hrs⟩

theorem restoreObject_shifts (hok : restoreObject k t = .ok t') :
    ∃ row, restoredRow k t = some row ∧ Shifts k.tenantID ((row.size : Int), 1) t t' := by
  obtain ⟨row, hl, -, rfl⟩ := restoreObject_ok hok
  obtain ⟨hrow, rfl, hlv, ht⟩ := restoredRow_some hl
  refine ⟨row, hl, ?_⟩
  have hupd := shifts_update_one (f := fun o => {o with deletedAt := none}) (fun _ => rfl) hrow
    (id_eq_iff hrow) rfl
  have hnew : rowUsage {row with deletedAt := none} = ((row.size : Int), 1) :=
    rowUsage_live rfl
  rw [hnew, rowUsage_uncounted hlv ht, sub_zero] at hupd
  exact hupd

theorem LiveSound.restoreObject (h : LiveSound t) (hok : restoreObject k t = .ok t') : LiveSound t' := by
  obtain ⟨row, hl, hnone, rfl⟩ := restoreObject_ok hok
  obtain ⟨hrow, rfl, -, ht⟩ := restoredRow_some hl
  exact h.revive (fun _ => rfl) hrow hnone rfl ht

end AeroVault.Repository
