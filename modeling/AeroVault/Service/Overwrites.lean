import AeroVault.Service.Staged

/-! Overwrites of one key.

The bucket is not versioned, so that every `Put` of the key overwrites the live row in place, if there
is one, and writes to one storage key. A worker writes tags to the row that has an object's ID. -/
namespace AeroVault.Service
open Lib Repository

variable {k : Path} {t t' : Objects} {p : StagedPut} {v : Vault} {id : Nat}

/-- All rows are of one unversioned key, and one of them at most is live. -/
structure OneKey (k : Path) (t : Objects) : Prop where
  rows : ∀ o ∈ t.rows, o.path = k ∧ o.storageKey = storageKey k ∧ o.versionTombstone = false
  once : ∀ a ∈ t.rows, ∀ b ∈ t.rows, a.live = true → b.live = true → a = b

theorem oneKey_empty (k : Path) : OneKey k .empty where
  rows := nofun
  once := nofun

/-- Rows that a statement keeps, up to their tags and timestamps and to being live. -/
theorem OneKey.carried (h : OneKey k t) (hrw : ∀ o' ∈ t'.rows, ∃ o ∈ t.rows, o'.id = o.id ∧ o'.path = o.path ∧
      o'.storageKey = o.storageKey ∧ o'.versionTombstone = o.versionTombstone ∧
      (o'.live = true → o.live = true)) : OneKey k t' where
  rows o' ho' := by
    obtain ⟨o, ho, -, hpath, hkey, ht, -⟩ := hrw o' ho'
    rw [hpath, hkey, ht]
    exact h.rows o ho
  once a' ha' b' hb' hal hbl := by
    obtain ⟨a, ha, haid, -, -, -, halive⟩ := hrw a' ha'
    obtain ⟨b, hb, hbid, -, -, -, hbliv⟩ := hrw b' hb'
    have hsame := h.once a ha b hb (halive hal) (hbliv hbl)
    exact eq_of_id ha' hb' (by rw [haid, hbid, hsame])

/-- A `Put` of the key that is yet to write its row. -/
structure OverwritesKey (k : Path) (p : StagedPut) : Prop where
  path : p.plan.path = k
  unversioned : p.plan.config.versioning = false
  storageKey : p.plan.storageKey = Service.storageKey k

theorem storePut_overwrites {ctx : Ctx} {req : PutRequest} {s s' : Vault} (h : storePut ctx req s = (.ok p, s'))
    (hpath : defaults req.tenant req.bucket req.key = k) (hv : (s.config k).versioning = false) :
    s'.objects = s.objects ∧ OverwritesKey k p := by
  obtain ⟨plan, hplan, rfl, rfl⟩ := storePut_ok h
  have hp := planned hplan
  have hk : plan.path = k := hp.path.trans hpath
  have hcn : plan.config.versioning = false := by rw [hp.config, hk, hv]
  refine ⟨rfl, hk, hcn, ?_⟩
  rw [hp.storageKey, hcn, hk]
  rfl

/-- The rows after a `Put`: the live one is the one written, and no row has been deleted. -/
structure Overwritten (k : Path) (id : Nat) (t t' : Objects) : Prop where
  rows : ∀ o ∈ t'.rows, o.path = k ∧ o.storageKey = storageKey k ∧ o.versionTombstone = false
  written : ∀ o ∈ t'.rows, o.live = true → o.id = id
  live : (∀ o ∈ t.rows, o.live = true) → ∀ o ∈ t'.rows, o.live = true

theorem Overwritten.oneKey (h : Overwritten k id t t') : OneKey k t' where
  rows := h.rows
  once a ha b hb hal hbl := eq_of_id ha hb ((h.written a ha hal).trans (h.written b hb hbl).symm)

theorem overwritten_upsertObject (h : OneKey k t) {now : Nat} {obj : Object} (hpath : obj.path = k)
    (hkey : obj.storageKey = storageKey k) :
    Overwritten k (upsertObject now obj t).1.id t (upsertObject now obj t).2 := by
  cases hrow : getObject t obj.path with
  | some row =>
    obtain ⟨hm, hrp, hlv⟩ := getObject_some hrow
    have hid : (upsertObject now obj t).1.id = row.id := by simp [upsertObject, hrow]
    refine ⟨fun o ho => ?_, fun o ho hl => ?_, fun hall o ho => ?_⟩
    all_goals obtain rfl | ⟨ho, hne⟩ := (mem_upsertObject_some now hrow).mp ho
    · exact ⟨hrp.trans hpath, hkey, (h.rows row hm).2.2⟩
    · exact h.rows o ho
    · exact hid.symm
    · exact absurd (congrArg Object.id (h.once o ho row hm hl hlv)) hne
    · exact hlv
    · exact hall o ho
  | none =>
    have hid : (upsertObject now obj t).1.id = t.nextID := by simp [upsertObject, hrow]
    refine ⟨fun o ho => ?_, fun o ho hl => ?_, fun hall o ho => ?_⟩
    all_goals obtain ho | rfl := (mem_upsertObject_none now hrow).mp ho
    · exact h.rows o ho
    · exact ⟨hpath, hkey, rfl⟩
    · rw [getObject_none hrow ho ((h.rows o ho).1.trans hpath.symm)] at hl
      cases hl
    · exact hid.symm
    · exact hall o ho
    · rfl

theorem Overwritten.setObjectACL {t'' : Objects} {acl : String} {j : Path} (h : Overwritten k id t t')
    (hok : setObjectACL j acl t' = .ok t'') : Overwritten k id t t'' := by
  refine ⟨fun o ho => ?_, fun o ho => ?_, fun hall o ho => ?_⟩
  all_goals obtain ⟨a, ha, acl', rfl⟩ := mem_setObjectACL hok ho
  · exact h.rows a ha
  · exact h.written a ha
  · exact h.live hall a ha

theorem overwritten_writePutObject (h : OneKey k v.objects) (hp : OverwritesKey k p) (now : Nat) :
    Overwritten k (writePutObject {p.ctx with now := now} p.req p.plan v).1.id v.objects
      (writePutObject {p.ctx with now := now} p.req p.plan v).2.objects := by
  unfold writePutObject
  rw [hp.unversioned]
  refine saveObject_rule ?_ fun t t' ht hok => ht.setObjectACL hok
  exact overwritten_upsertObject h hp.path hp.storageKey

/-! ### Rows that stay -/

/-- No row is taken away. -/
def KeepsIDs (t t' : Objects) : Prop := ∀ o ∈ t.rows, ∃ o' ∈ t'.rows, o'.id = o.id

theorem KeepsIDs.refl (t : Objects) : KeepsIDs t t := fun o ho => ⟨o, ho, rfl⟩

theorem KeepsIDs.trans {t'' : Objects} (h : KeepsIDs t t') (h' : KeepsIDs t' t'') : KeepsIDs t t'' := by
  intro o ho
  obtain ⟨o', ho', hid⟩ := h o ho
  obtain ⟨o'', ho'', hid'⟩ := h' o' ho'
  exact ⟨o'', ho'', hid'.trans hid⟩

theorem keepsIDs_update {p : Object → Bool} {f : Object → Object}
    (hf : ∀ o, (f o).id = o.id) : KeepsIDs t (t.update p f) := by
  intro o ho
  cases hp : p o with
  | true => exact ⟨f o, (Table.mem_update hf).mpr (.inl ⟨o, ho, hp, rfl⟩), hf o⟩
  | false => exact ⟨o, (Table.mem_update hf).mpr (.inr ⟨ho, hp⟩), rfl⟩

theorem keepsIDs_upsertObject {now : Nat} {obj : Object} :
    KeepsIDs t (upsertObject now obj t).2 := by
  intro o ho
  cases hrow : getObject t obj.path with
  | some row =>
    by_cases hid : o.id = row.id
    · exact ⟨_, (mem_upsertObject_some now hrow).mpr (.inl rfl), hid.symm⟩
    · exact ⟨o, (mem_upsertObject_some now hrow).mpr (.inr ⟨ho, hid⟩), rfl⟩
  | none => exact ⟨o, (mem_upsertObject_none now hrow).mpr (.inl ho), rfl⟩

theorem keepsIDs_writePutObject (hp : OverwritesKey k p) {now : Nat} :
    KeepsIDs v.objects (writePutObject {p.ctx with now := now} p.req p.plan v).2.objects := by
  unfold writePutObject
  rw [hp.unversioned]
  refine saveObject_rule keepsIDs_upsertObject fun t t' ht hok => ?_
  obtain rfl := setObjectACL_ok hok
  exact ht.trans (keepsIDs_update fun _ => rfl)

/-! ### Tags by ID -/

def setObjectTagsByID (ctx : Ctx) (id : Nat) (tags : GoMap) (s : Vault) : Except ServiceError Vault :=
  match getObjectByID s.objects id with
  | none => .error .notFound
  | some o =>
    match authorizeObject ctx .write o with
    | .error err => .error err
    | .ok () =>
      match updateObjectTagsByID ctx.now id tags s.objects with
      | .error err => .error (.repo err)
      | .ok objects => .ok {s with objects := objects}

section
variable {ctx : Ctx} {tags : GoMap} {v' : Vault} (h : setObjectTagsByID ctx id tags v = .ok v')
include h

theorem setObjectTagsByID_eq :
    v' = {v with
      objects := v.objects.update (fun o => o.id == id)
        fun o => {o with tags := tags, updatedAt := ctx.now}} := by
  unfold setObjectTagsByID at h
  split at h
  · cases h
  · split at h
    · cases h
    · split at h
      · cases h
      next objects hup =>
        cases h
        obtain ⟨row, -, rfl⟩ := updateObjectTagsByID_ok hup
        rfl

theorem setObjectTagsByID_ok :
    v'.blobs = v.blobs ∧ ∀ o' ∈ v'.objects.rows,
      (∃ o ∈ v.objects.rows, o.id = id ∧ o' = {o with tags := tags, updatedAt := ctx.now}) ∨
        (o' ∈ v.objects.rows ∧ o'.id ≠ id) := by
  obtain rfl := setObjectTagsByID_eq h
  refine ⟨rfl, fun o' ho' => ?_⟩
  obtain ⟨o, ho, hid, rfl⟩ | ⟨ho, hid⟩ := (Table.mem_update (fun _ => by rfl)).mp ho'
  · exact .inl ⟨o, ho, by simpa using hid, rfl⟩
  · exact .inr ⟨ho, by simpa using hid⟩

theorem keepsIDs_setObjectTagsByID : KeepsIDs v.objects v'.objects := by
  obtain rfl := setObjectTagsByID_eq h
  exact keepsIDs_update fun _ => rfl

end

/-- Rows that are kept up to their tags are of the one key. -/
theorem OneKey.retagged (h : OneKey k t) (hrw : ∀ o' ∈ t'.rows, o' ∈ t.rows ∨
      ∃ o ∈ t.rows, ∃ tags now, o' = {o with tags := tags, updatedAt := now}) : OneKey k t' := by
  refine h.carried fun o' ho' => ?_
  obtain ho | ⟨o, ho, tags, now, rfl⟩ := hrw o' ho'
  · exact ⟨o', ho, rfl, rfl, rfl, rfl, id⟩
  · exact ⟨o, ho, rfl, rfl, rfl, rfl, id⟩

end AeroVault.Service
