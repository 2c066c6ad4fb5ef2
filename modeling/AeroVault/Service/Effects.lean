import AeroVault.Service.Calls

/-! Every call has the effect that `Call.effect` computes.

An effect on the `objects` table is `Rewritten`: the rows that are not removed are
carried over, with their key, version and storage key, and a row that was not
there before is the one added. `call_outcome` says this of every call, together
with what becomes of the blobs. -/
namespace AeroVault.Service
open Lib Repository Access Vault

variable {t t' t'' : Objects} {o o' row : Object}

/-! ### Rows carried over -/

/-- What no statement changes in a row that it keeps. -/
structure SameRow (o o' : Object) : Prop where
  id : o'.id = o.id
  path : o'.path = o.path
  versionID : o'.versionID = o.versionID
  storageKey : o'.storageKey = o.storageKey
  marker : o'.isDeleteMarker = o.isDeleteMarker

theorem SameRow.refl (o : Object) : SameRow o o := ⟨rfl, rfl, rfl, rfl, rfl⟩

theorem SameRow.trans {a b c : Object} (h : SameRow a b) (h' : SameRow b c) : SameRow a c where
  id := h'.id.trans h.id
  path := h'.path.trans h.path
  versionID := h'.versionID.trans h.versionID
  storageKey := h'.storageKey.trans h.storageKey
  marker := h'.marker.trans h.marker

/-- The same rows, up to what a statement may change in them. -/
structure Carried (t t' : Objects) : Prop where
  kept : ∀ o ∈ t.rows, ∃ o' ∈ t'.rows, SameRow o o'
  arises : ∀ o' ∈ t'.rows, ∃ o ∈ t.rows, SameRow o o'

theorem Carried.refl (t : Objects) : Carried t t where
  kept o ho := ⟨o, ho, SameRow.refl o⟩
  arises o ho := ⟨o, ho, SameRow.refl o⟩

theorem carried_update {p : Object → Bool} {f : Object → Object} (hid : ∀ o, (f o).id = o.id)
    (hf : ∀ o ∈ t.rows, p o = true → SameRow o (f o)) : Carried t (t.update p f) where
  kept o ho := by
    cases hp : p o with
    | true => exact ⟨f o, (Table.mem_update hid).mpr (.inl ⟨o, ho, hp, rfl⟩), hf o ho hp⟩
    | false => exact ⟨o, (Table.mem_update hid).mpr (.inr ⟨ho, hp⟩), SameRow.refl o⟩
  arises o' ho' := by
    obtain ⟨o, ho, hp, rfl⟩ | ⟨ho, -⟩ := (Table.mem_update hid).mp ho'
    · exact ⟨o, ho, hf o ho hp⟩
    · exact ⟨o', ho, .refl o'⟩

theorem carried_retireLive (now : Nat) (k : Path) (t : Objects) : Carried t (retireLive now k t) :=
  carried_update (fun _ => rfl) fun _ _ _ => ⟨rfl, rfl, rfl, rfl, rfl⟩

variable {k : Path}

theorem carried_softDeleteObject {now : Nat} (h : softDeleteObject now k t = .ok t') : Carried t t' := by
  obtain rfl := softDeleteObject_ok h
  exact carried_update (fun _ => rfl) fun _ _ _ => ⟨rfl, rfl, rfl, rfl, rfl⟩

variable {acl : String}

theorem carried_setObjectACL (h : setObjectACL k acl t = .ok t') : Carried t t' := by
  obtain rfl := setObjectACL_ok h
  exact carried_update (fun _ => rfl) fun _ _ _ => ⟨rfl, rfl, rfl, rfl, rfl⟩

theorem carried_restoreObject (h : restoreObject k t = .ok t') : Carried t t' := by
  obtain ⟨row, -, -, rfl⟩ := restoreObject_ok h
  exact carried_update (fun _ => rfl) fun _ _ _ => ⟨rfl, rfl, rfl, rfl, rfl⟩

theorem carried_promoteLatestObjectVersion :
    Carried t (promoteLatestObjectVersion k t) := by
  obtain h | ⟨row, -, h⟩ := promoteLatestObjectVersion_eq_or k t
  · rw [h]
    exact .refl t
  · rw [h]
    exact carried_update (fun _ => rfl) fun _ _ _ => ⟨rfl, rfl, rfl, rfl, rfl⟩

/-- The metadata that a retention is written with are the row's own, but for the mode. -/
theorem carried_setObjectRetention {till : Nat} {mode : String} (ho : o ∈ t.rows)
    (h : setObjectRetention o.id till (o.metadata.set retentionModeMetadataKey mode) t =
      .ok t') : Carried t t' := by
  obtain rfl := setObjectRetention_ok h
  refine carried_update (fun _ => rfl) fun a ha hid => ⟨rfl, rfl, rfl, rfl, ?_⟩
  obtain rfl := eq_of_id ha ho (by simpa using hid)
  have hg := GoMap.get_set_ne (m := a.metadata) (k := retentionModeMetadataKey)
    (j := "_aero_delete_marker") mode (by decide)
  simp only [Object.isDeleteMarker, hg]

/-! ### Rows removed and added -/

def NewRow.Describes (r : NewRow) (o : Object) : Prop :=
  o.id = r.id ∧ o.versionID = r.versionID ∧ o.storageKey = r.storageKey ∧
    o.isDeleteMarker = r.content.isNone

variable {r : NewRow}

theorem NewRow.Describes.same (h : r.Describes o) (hs : SameRow o o') : r.Describes o' :=
  ⟨hs.id.trans h.1, hs.versionID.trans h.2.1, hs.storageKey.trans h.2.2.1, hs.marker.trans h.2.2.2⟩

structure Rewritten (removes : List Nat) (adds : Option NewRow) (t t' : Objects) : Prop where
  kept : ∀ o ∈ t.rows, o.id ∉ removes → ∃ o' ∈ t'.rows, SameRow o o'
  arises : ∀ o' ∈ t'.rows,
    (∃ o ∈ t.rows, o.id ∉ removes ∧ SameRow o o') ∨ ∃ r, adds = some r ∧ r.Describes o'
  added : ∀ r, adds = some r → ∃ o' ∈ t'.rows, r.Describes o'
  /-- The row added is a new one, or takes the place of one removed. -/
  fresh : ∀ r, adds = some r → ∀ o ∈ t.rows, o.id = r.id → r.id ∈ removes

variable {removes : List Nat} {adds : Option NewRow}

theorem Carried.rewritten (h : Carried t t') : Rewritten [] none t t' where
  kept o ho _ := h.kept o ho
  arises o' ho' := by
    obtain ⟨o, ho, hs⟩ := h.arises o' ho'
    exact .inl ⟨o, ho, List.not_mem_nil, hs⟩
  added := nofun
  fresh := nofun

theorem Rewritten.carried (h : Rewritten removes adds t t') (hc : Carried t' t'') :
    Rewritten removes adds t t'' where
  kept o ho hst := by
    obtain ⟨o', ho', hs⟩ := h.kept o ho hst
    obtain ⟨o'', ho'', hs'⟩ := hc.kept o' ho'
    exact ⟨o'', ho'', hs.trans hs'⟩
  arises o'' ho'' := by
    obtain ⟨o', ho', hs'⟩ := hc.arises o'' ho''
    obtain ⟨o, ho, hst, hs⟩ | ⟨r, hr, hd⟩ := h.arises o' ho'
    · exact .inl ⟨o, ho, hst, hs.trans hs'⟩
    · exact .inr ⟨r, hr, hd.same hs'⟩
  added r hr := by
    obtain ⟨o', ho', hd⟩ := h.added r hr
    obtain ⟨o'', ho'', hs'⟩ := hc.kept o' ho'
    exact ⟨o'', ho'', hd.same hs'⟩
  fresh := h.fresh

variable {obj : Object}

/-- An insertion after the rows were carried over, under the next ID. -/
theorem Carried.insert (h : Carried t t') (hnx : t'.nextID = t.nextID)
    (hr : r.Describes {obj with id := t.nextID}) : Rewritten [] (some r) t (t'.insert obj) where
  kept o ho _ := by
    obtain ⟨o', ho', hs⟩ := h.kept o ho
    exact ⟨o', Table.mem_insert.mpr (.inl ho'), hs⟩
  arises o' ho' := by
    obtain ho' | rfl := Table.mem_insert.mp ho'
    · obtain ⟨o, ho, hs⟩ := h.arises o' ho'
      exact .inl ⟨o, ho, List.not_mem_nil, hs⟩
    · exact .inr ⟨r, rfl, hnx ▸ hr⟩
  added _ heq := by
    cases heq
    exact ⟨_, Table.mem_insert.mpr (.inr rfl), hnx ▸ hr⟩
  fresh _ heq o ho hid := by
    cases heq
    have hlt : o.id < t.nextID := t.bound o ho
    have hr' : t.nextID = r.id := hr.1
    omega

/-- An overwrite of one row in place. -/
theorem rewritten_overwrite {f : Object → Object} (hf : ∀ o, (f o).id = o.id)
    (hrow : row ∈ t.rows) (hr : r.Describes (f row)) :
    Rewritten [row.id] (some r) t (t.update (fun o => o.id == row.id) f) where
  kept o ho hst := ⟨o, (mem_update_row hf hrow).mpr (.inr ⟨ho, by simpa using hst⟩), SameRow.refl o⟩
  arises o' ho' := by
    obtain rfl | ⟨ho', hne⟩ := (mem_update_row hf hrow).mp ho'
    · exact .inr ⟨r, rfl, hr⟩
    · exact .inl ⟨o', ho', by simpa using hne, .refl o'⟩
  added _ heq := by
    cases heq
    exact ⟨f row, (mem_update_row hf hrow).mpr (.inl rfl), hr⟩
  fresh _ heq _ _ _ := by
    cases heq
    rw [← hr.1, hf]
    exact List.mem_singleton_self _

theorem rewritten_delete {p : Object → Bool} (h : ∀ o ∈ t.rows, p o = true ↔ o.id ∈ removes) :
    Rewritten removes none t (t.delete p) where
  kept o ho hst := by
    have hp : p o = false := Bool.eq_false_iff.mpr fun hp => hst ((h o ho).mp hp)
    exact ⟨o, Table.mem_delete.mpr ⟨ho, hp⟩, .refl o⟩
  arises o' ho' := by
    obtain ⟨ho, hp⟩ := Table.mem_delete.mp ho'
    exact .inl ⟨o', ho, fun hid => by simp [(h o' ho).mpr hid] at hp, .refl o'⟩
  added := nofun
  fresh := nofun

/-! ### Writes -/

theorem rewritten_insertObjectVersion {now : Nat} (hm : obj.isDeleteMarker = false)
    {data : Bytes} :
    Rewritten [] (some ⟨t.nextID, obj.versionID, obj.storageKey, some data⟩) t
      (insertObjectVersion now obj t).2 :=
  (carried_retireLive now obj.path t).insert rfl ⟨rfl, rfl, rfl, hm⟩

theorem rewritten_upsertObject_some {now : Nat} (hm : obj.isDeleteMarker = false)
    {data : Bytes} (hrow : getObject t obj.path = some row) :
    Rewritten [row.id] (some ⟨row.id, obj.versionID, obj.storageKey, some data⟩) t
      (upsertObject now obj t).2 := by
  simp only [upsertObject, hrow]
  exact rewritten_overwrite (fun _ => rfl) (getObject_some hrow).1 ⟨rfl, rfl, rfl, hm⟩

theorem rewritten_upsertObject_none {now : Nat} (hm : obj.isDeleteMarker = false)
    {data : Bytes} (hrow : getObject t obj.path = none) :
    Rewritten [] (some ⟨t.nextID, obj.versionID, obj.storageKey, some data⟩) t
      (upsertObject now obj t).2 := by
  simp only [upsertObject, hrow]
  exact (Carried.refl t).insert rfl ⟨rfl, rfl, rfl, hm⟩

/-- The table after the row of a save is written, before its ACL is set. -/
def writtenRows (now : Nat) (obj : Object) (versioning : Bool) (t : Objects) : Objects :=
  if versioning then (insertObjectVersion now obj t).2 else (upsertObject now obj t).2

variable {s : Vault}

/-- What holds of the rows written, and is kept by setting an ACL, holds after a save. -/
theorem saveObject_rule {P : Objects → Prop} {ctx : Ctx} {versioning : Bool}
    {hold : Bool} {reason : String} (hw : P (writtenRows ctx.now obj versioning s.objects))
    (hacl : ∀ t t', P t → setObjectACL obj.path acl t = .ok t' → P t') :
    P (saveObject ctx s obj versioning acl hold reason).2.objects := by
  have ho : (saveObject ctx s obj versioning acl hold reason).2.objects =
      (saveObject ctx s obj versioning acl false reason).2.objects := by
    cases hold <;> rfl
  rw [ho]
  simp only [saveObject, apply_ite Prod.snd, Bool.false_eq_true]
  by_cases hem : acl = ""
  · rw [if_pos hem]
    exact hw
  · rw [if_neg hem]
    exact committed_cases hw fun t' h => hacl _ t' hw h

theorem rewritten_saveObject (ctx : Ctx) (s : Vault) (hm : obj.isDeleteMarker = false)
    (versioning : Bool) (acl : String) (hold : Bool) (reason : String) (data : Bytes) :
    Rewritten (replacedIDs s obj.path versioning)
      (some ⟨writtenID s obj.path versioning, obj.versionID, obj.storageKey, some data⟩) s.objects
      (saveObject ctx s obj versioning acl hold reason).2.objects := by
  refine saveObject_rule ?_ fun t t' h hok => h.carried (carried_setObjectACL hok)
  cases versioning with
  | true => exact rewritten_insertObjectVersion hm
  | false =>
    cases hrow : getObject s.objects obj.path with
    | some row =>
      simp only [replacedIDs, writtenID, replacedRow, hrow]
      exact rewritten_upsertObject_some hm hrow
    | none =>
      simp only [replacedIDs, writtenID, replacedRow, hrow]
      exact rewritten_upsertObject_none hm hrow

/-- The sessions, and the parts that they have received. -/
def Vault.sessions (s : Vault) : List Upload × List PartRecord × (String → Int → Option Bytes) :=
  (s.uploads, s.parts, s.staged)

section
variable (ctx : Ctx) (s : Vault) (obj : Object) (versioning : Bool) (acl : String) (hold : Bool) (reason : String)

theorem saveObject_blobs : (saveObject ctx s obj versioning acl hold reason).2.blobs = s.blobs := by
  cases hold <;> rfl

theorem saveObject_quotas : (saveObject ctx s obj versioning acl hold reason).2.quotas = s.quotas := by
  cases hold <;> rfl

theorem saveObject_sessions : (saveObject ctx s obj versioning acl hold reason).2.sessions = s.sessions := by
  cases hold <;> rfl

theorem saveObject_storageKey :
    (saveObject ctx s obj versioning acl hold reason).1.storageKey = obj.storageKey := by
  cases versioning with
  | true => rfl
  | false =>
    simp only [saveObject, upsertObject, Bool.false_eq_true, if_false]
    split <;> rfl

theorem saveObject_size : (saveObject ctx s obj versioning acl hold reason).1.size = obj.size := by
  cases versioning with
  | true => rfl
  | false =>
    simp only [saveObject, upsertObject, Bool.false_eq_true, if_false]
    split <;> rfl

end

theorem storeCompletion_eq (ctx : Ctx) {plan : CompletionPlan} (hu : UploadSound plan.upload)
    (data : Bytes) (s : Vault) : ∃ cleaned acl hold, storeCompletion ctx plan data s =
      saveObject ctx ((accountCompletion plan s).putBlob (uploadStorageKey plan.upload) data ctx.now) cleaned
        plan.config.versioning acl hold "s3 multipart upload" ∧
      cleaned.isDeleteMarker = false ∧ cleaned.path = plan.upload.path ∧
      cleaned.versionID = plan.upload.versionID ∧ cleaned.storageKey = plan.upload.storageKey ∧
      cleaned.size = (buildObjectFromUpload ctx plan data).size := by
  have hm : Unmarked (buildObjectFromUpload ctx plan data).metadata :=
    unmarked_withGeneration hu.unmarked ctx.generation
  unfold storeCompletion saveMultipartObject
  dsimp only
  split
  · refine ⟨_, _, _, rfl, Unmarked.isDeleteMarker ?_, rfl, rfl, rfl, rfl⟩
    exact (hm.delete (by decide)).delete (by decide)
  · exact ⟨_, _, _, rfl, hm.isDeleteMarker, rfl, rfl, rfl, rfl⟩

/-! ### Calls -/

def Vault.bytes (s : Vault) (key : String) : Option Bytes := (s.blobs key).map Blob.data

@[simp] theorem bytes_putBlob_self (s : Vault) (key : String) (data : Bytes) (now : Nat) :
    (s.putBlob key data now).bytes key = some data := by
  simp [bytes, putBlob]

variable {key : String}

theorem bytes_putBlob_ne (s : Vault) {j : String} (data : Bytes) (now : Nat) (h : j ≠ key) :
    (s.putBlob key data now).bytes j = s.bytes j := by
  simp [bytes, putBlob, h]

@[simp] theorem bytes_deleteBlob_self : (s.deleteBlob key).bytes key = none := by
  simp [bytes, deleteBlob]

theorem bytes_deleteBlob_ne (s : Vault) {j : String} (h : j ≠ key) :
    (s.deleteBlob key).bytes j = s.bytes j := by
  simp [bytes, deleteBlob, h]

/-- The call has had the effect `e`. -/
structure Outcome (e : Effect) (s s' : Vault) : Prop where
  rows : Rewritten e.removes e.adds s.objects s'.objects
  touched : ∀ x ∈ e.touches, s'.bytes x.1 = x.2
  untouched : ∀ key, (∀ x ∈ e.touches, x.1 ≠ key) → s'.bytes key = s.bytes key
  written : ∀ r data, e.adds = some r → r.content = some data →
    (r.storageKey, some data) ∈ e.touches

variable {s' : Vault}

theorem outcome_quiet (hrw : Carried s.objects s'.objects)
    (hbl : s'.blobs = s.blobs) : Outcome .quiet s s' where
  rows := hrw.rewritten
  touched := nofun
  untouched key _ := congrArg (fun b => (b key).map Blob.data) hbl
  written := nofun

theorem outcome_unchanged : Outcome .quiet s s := outcome_quiet (Carried.refl _) rfl

/-- What a call has executed on the `objects` table. -/
inductive Statement (t : Objects) : Objects → Prop
  | unchanged : Statement t t
  | save (now : Nat) (obj : Object) (versioning : Bool) : Statement t (writtenRows now obj versioning t)
  | setACL {t' t'' : Objects} {k : Path} {acl : String} (hsaved : Statement t t')
      (h : setObjectACL k acl t' = .ok t'') : Statement t t''
  | softDelete {t' : Objects} {now : Nat} {k : Path} (h : softDeleteObject now k t = .ok t') : Statement t t'
  | hardDelete (k : Path) : Statement t (t.delete (atPath k))
  | deleteVersion (k : Path) (id : Nat) :
      Statement t (promoteLatestObjectVersion k (t.delete fun o => o.id == id))
  | restore {t' : Objects} {k : Path} (h : restoreObject k t = .ok t') : Statement t t'
  | mark (now : Nat) (k : Path) (versionID : String) (metadata : GoMap) :
      Statement t (insertDeleteMarker now k versionID metadata t).2
  | retain {t' : Objects} {id till : Nat} {metadata : GoMap}
      (h : setObjectRetention id till metadata t = .ok t') : Statement t t'

/-- The call has had the effect `e` by one statement, has left the upload sessions alone, and a version ID that
it has added is the one drawn for it. -/
structure Recorded (ctx : Ctx) (e : Effect) (s s' : Vault) : Prop extends Outcome e s s' where
  statement : Statement s.objects s'.objects
  sessions : s'.sessions = s.sessions
  drawn : ∀ r, e.adds = some r → r.versionID = ctx.newVersionID

variable {ctx : Ctx}

theorem recorded_unchanged : Recorded ctx .quiet s s :=
  ⟨outcome_unchanged, .unchanged, rfl, nofun⟩

theorem recorded_quiet (hrw : Carried s.objects s'.objects) (hst : Statement s.objects s'.objects)
    (hbl : s'.blobs = s.blobs) (hss : s'.sessions = s.sessions) : Recorded ctx .quiet s s' :=
  ⟨outcome_quiet hrw hbl, hst, hss, nofun⟩

/-- A call that writes or deletes one blob. -/
theorem outcome_touch {data : Option Bytes} (hrw : Rewritten removes adds s.objects s'.objects)
    (hself : s'.bytes key = data) (hother : ∀ j, j ≠ key → s'.bytes j = s.bytes j)
    (hwr : ∀ r content, adds = some r → r.content = some content → r.storageKey = key ∧ data = some content) :
    Outcome ⟨[(key, data)], removes, adds⟩ s s' where
  rows := hrw
  touched x hx := by
    obtain rfl := List.mem_singleton.mp hx
    exact hself
  untouched j hj := hother j fun heq => hj _ (List.mem_singleton_self _) heq.symm
  written r content hr hcn := by
    obtain ⟨hkey, hd⟩ := hwr r content hr hcn
    rw [hkey, hd]
    exact List.mem_singleton_self _

/-- A body that is refused has been stored, and its blob deleted again. -/
theorem recorded_refused {data : Bytes} {now : Nat} :
    Recorded ctx ⟨[(key, none)], [], none⟩ s ((s.putBlob key data now).deleteBlob key) where
  toOutcome := outcome_touch (Carried.refl _).rewritten bytes_deleteBlob_self
    (fun _ hj => (bytes_deleteBlob_ne _ hj).trans (bytes_putBlob_ne s data now hj)) nofun
  statement := .unchanged
  sessions := rfl
  drawn := nofun

/-- A blob that is stored, and the row saved for it. -/
theorem outcome_saveObject (s stored : Vault)
    {data : Bytes} (now : Nat) {versioning : Bool} {hold : Bool} {reason : String}
    (ho : stored.objects = s.objects) (hbl : stored.blobs = (s.putBlob key data now).blobs)
    (hm : obj.isDeleteMarker = false) (hkey : obj.storageKey = key)
    (hrows : s'.objects = (saveObject ctx stored obj versioning acl hold reason).2.objects)
    (hkp : s'.blobs = stored.blobs) :
    Outcome
      { touches := [(key, some data)]
        removes := replacedIDs s obj.path versioning
        adds := some ⟨writtenID s obj.path versioning, obj.versionID, obj.storageKey, some data⟩ }
      s s' := by
  have hby (j : String) : s'.bytes j = (s.putBlob key data now).bytes j :=
    congrArg (fun b => (b j).map Blob.data) (hkp.trans hbl)
  have hrw := rewritten_saveObject ctx stored hm versioning acl hold reason data
  simp only [replacedIDs, writtenID, replacedRow, ho] at hrw
  rw [← hrows] at hrw
  refine outcome_touch hrw ?_ (fun j hj => ?_) fun r content hr hcn => ?_
  · rw [hby, bytes_putBlob_self]
  · rw [hby, bytes_putBlob_ne s data now hj]
  · cases hr
    exact ⟨hkey, hcn⟩

variable {req : PutRequest}

theorem put_recorded : Recorded ctx (putEffect ctx req s) s (put ctx req s).2 := by
  unfold putEffect put
  cases hplan : preparePut ctx req s with
  | error err => exact recorded_unchanged
  | ok plan =>
    dsimp only
    by_cases hsz : req.body.length ≠ plan.size
    · have hac : plan.accepts ctx req.body = false := by simp [PutPlan.accepts, hsz]
      rw [if_pos hsz, hac]
      exact recorded_refused
    · rw [if_neg hsz]
      cases hd : plan.digestMatches ctx req.body with
      | false =>
        have hac : plan.accepts ctx req.body = false := by simp [PutPlan.accepts, hd]
        rw [hac]
        exact recorded_refused
      | true =>
        have hac : plan.accepts ctx req.body = true := by
          simp [PutPlan.accepts, hd, not_not.mp hsz]
        rw [hac]
        have hm : (buildPutObject ctx req plan).isDeleteMarker = false :=
          Unmarked.isDeleteMarker (unmarked_withGeneration (planned hplan).unmarked ctx.generation)
        refine ⟨outcome_saveObject s (s.putBlob plan.storageKey req.body ctx.now) ctx.now rfl rfl hm rfl rfl
          (saveObject_blobs ..), ?_, saveObject_sessions .., fun r hr => ?_⟩
        · exact saveObject_rule (.save ..) fun _ _ hsaved hok => hsaved.setACL hok
        · cases hr
          rfl

theorem storeCompletion_outcome {plan : CompletionPlan} (hu : UploadSound plan.upload) {data : Bytes}
    {saved : Object} :
    Outcome
      { touches := [(uploadStorageKey plan.upload, some data)]
        removes := replacedIDs s plan.upload.path plan.config.versioning
        adds := some ⟨writtenID s plan.upload.path plan.config.versioning, plan.upload.versionID,
          plan.upload.storageKey, some data⟩ }
      s (closeUpload (storeCompletion ctx plan data s).2 plan.upload saved) := by
  obtain ⟨cleaned, acl, hold, hsv, hm, hpath, hversion, hkey, -⟩ := storeCompletion_eq ctx hu data s
  have hst : cleaned.storageKey = uploadStorageKey plan.upload := hkey.trans (if_neg hu.storageKey).symm
  rw [← hpath, ← hversion, ← hkey, hsv]
  exact outcome_saveObject s
    ((accountCompletion plan s).putBlob (uploadStorageKey plan.upload) data ctx.now) ctx.now rfl rfl hm
    hst rfl (saveObject_blobs ..)

theorem complete_outcome {scope : MultipartScope} {uploadID : String} {manifest : Option (List PartRecord)}
    (hs : ∀ u ∈ s.uploads, UploadSound u) :
    Outcome (completeEffect ctx scope uploadID manifest s) s
      (completeMultipart ctx scope uploadID manifest s).2 := by
  unfold completeEffect completeMultipart
  cases cachedCompletion s scope uploadID with
  | some completion => exact outcome_unchanged
  | none =>
    cases hplan : prepareCompletion ctx scope uploadID manifest s with
    | error err => exact outcome_unchanged
    | ok plan =>
      dsimp only [finishMultipartCompletion]
      cases mergeParts s plan.upload plan.parts with
      | none => exact outcome_quiet (.refl _) rfl
      | some data =>
        exact storeCompletion_outcome (hs _ (completionPlanned hplan).upload.1)

/-! ### Removals -/

variable {versions : List Object}

theorem mem_deletedBlobs {data : Option Bytes} :
    (key, data) ∈ deletedBlobs versions ↔ data = none ∧ versions.any (ownsBlob key) = true := by
  simp only [deletedBlobs, ownsBlob, List.mem_map, List.mem_filter, List.any_eq_true,
    Bool.and_eq_true, beq_iff_eq, Prod.mk.injEq]
  constructor
  · intro h
    obtain ⟨o, ⟨ho, hm⟩, hkey, hd⟩ := h
    exact ⟨hd.symm, o, ho, hm, hkey⟩
  · intro h
    obtain ⟨hd, o, ho, hm, hkey⟩ := h
    exact ⟨o, ⟨ho, hm⟩, hkey, hd.symm⟩

theorem bytes_deleteVersionBlobs :
    ∀ x ∈ deletedBlobs versions, (deleteVersionBlobs versions s).bytes x.1 = x.2 := by
  intro x hx
  obtain ⟨hd, ho⟩ := mem_deletedBlobs.mp hx
  rw [bytes, deleteVersionBlobs_blobs, if_pos ho, hd]
  rfl

theorem bytes_deleteVersionBlobs_of_ne (h : ∀ x ∈ deletedBlobs versions, x.1 ≠ key) :
    (deleteVersionBlobs versions s).bytes key = s.bytes key := by
  have ho : ¬ versions.any (ownsBlob key) = true := fun ho =>
    h _ (mem_deletedBlobs.mpr ⟨rfl, ho⟩) rfl
  rw [bytes, deleteVersionBlobs_blobs, if_neg ho, bytes]

/-- A removal: the blobs of `versions` go, and the rows as given. -/
theorem recorded_remove (hrw : Rewritten removes none s.objects s'.objects)
    (hst : Statement s.objects s'.objects) (hbl : s'.blobs = (deleteVersionBlobs versions s).blobs)
    (hss : s'.sessions = s.sessions) : Recorded ctx ⟨deletedBlobs versions, removes, none⟩ s s' where
  rows := hrw
  touched x hx := (congrArg (fun b => (b x.1).map Blob.data) hbl).trans (bytes_deleteVersionBlobs x hx)
  untouched key hkey :=
    (congrArg (fun b => (b key).map Blob.data) hbl).trans (bytes_deleteVersionBlobs_of_ne hkey)
  written := nofun
  statement := hst
  sessions := hss
  drawn := nofun

theorem deleteVersionBlobs_sessions : (deleteVersionBlobs versions s).sessions = s.sessions := by
  rw [deleteVersionBlobs_frame]
  rfl

/-- The blobs of `versions` are gone, but not the rows. -/
theorem recorded_blobs :
    Recorded ctx ⟨deletedBlobs versions, [], none⟩ s (deleteVersionBlobs versions s) := by
  have ho := deleteVersionBlobs_objects versions s
  refine recorded_remove ?_ ?_ rfl deleteVersionBlobs_sessions
  · rw [ho]
    exact (Carried.refl _).rewritten
  · rw [ho]
    exact .unchanged

theorem rewritten_hardDelete :
    Rewritten ((listObjectVersions t k).map Object.id) none t (t.delete (atPath k)) := by
  refine rewritten_delete fun o ho => ?_
  simp only [atPath, beq_iff_eq, List.mem_map, mem_listObjectVersions]
  constructor
  · intro hk
    exact ⟨o, ⟨ho, hk⟩, rfl⟩
  · intro h
    obtain ⟨a, ⟨ha, hk⟩, hid⟩ := h
    rw [← eq_of_id ha ho hid, hk]

theorem hardDeleteObjectWithEvent_ok {held : Nat → Bool}
    (h : hardDeleteObjectWithEvent held k t = .ok t') : t' = t.delete (atPath k) := by
  unfold hardDeleteObjectWithEvent at h
  split at h
  · cases h
  · split at h
    · exact (Except.ok.inj h).symm
    · cases h

theorem versionsForHardDelete_ok {now : Nat} (h : versionsForHardDelete s now k = .ok versions) :
    versions = listObjectVersions s.objects k ∧ checkAllUnprotected s now versions = .ok () := by
  unfold versionsForHardDelete at h
  split at h
  · cases h
  next hch =>
    cases h
    exact ⟨rfl, hch⟩

variable {hard : Bool}

theorem remove_recorded : Recorded ctx (removeEffect ctx o hard s) s (removeObject ctx o hard s).2 := by
  unfold removeEffect removeObject
  cases hard with
  | false =>
    unfold softDeleteObjectWithRefs
    cases hsf : softDeleteObject ctx.now o.path s.objects with
    | error err => exact recorded_unchanged
    | ok objects => exact recorded_quiet (carried_softDeleteObject hsf) (.softDelete hsf) rfl rfl
  | true =>
    cases hv : versionsForHardDelete s ctx.now o.path with
    | error err => exact recorded_unchanged
    | ok versions =>
      obtain ⟨rfl, -⟩ := versionsForHardDelete_ok hv
      dsimp only [hardDeleteObjectWithVersions]
      rw [deleteVersionBlobs_held, deleteVersionBlobs_objects]
      cases hh : hardDeleteObjectWithEvent s.held o.path s.objects with
      | error err => exact recorded_blobs
      | ok objects =>
        obtain rfl := hardDeleteObjectWithEvent_ok hh
        exact recorded_remove rewritten_hardDelete (.hardDelete o.path) rfl
          deleteVersionBlobs_sessions

variable {tenant bucket versionID : String}

theorem delete_recorded :
    Recorded ctx (deleteEffect ctx tenant bucket key hard s) s (delete ctx tenant bucket key hard s).2 := by
  unfold deleteEffect delete
  cases deletable ctx .delete tenant bucket key s with
  | error err => exact recorded_unchanged
  | ok o =>
    dsimp only
    cases preflightQuota s o.path.tenantID 0 0 with
    | error err => exact recorded_unchanged
    | ok _ => exact remove_recorded

theorem adminDelete_recorded :
    Recorded ctx (adminDeleteEffect ctx tenant bucket key hard s) s
      (adminDelete ctx tenant bucket key hard s).2 := by
  unfold adminDeleteEffect adminDelete
  cases checkedObjectDefaults tenant bucket key >>= admitBucket ctx with
  | error err => exact recorded_unchanged
  | ok _ =>
    cases deletable ctx ctx.adminDeleteAction tenant bucket key s with
    | error err => exact recorded_unchanged
    | ok o => exact remove_recorded

theorem versionDelete_recorded :
    Recorded ctx (versionDeleteEffect ctx tenant bucket key versionID s) s
      (deleteVersion ctx tenant bucket key versionID s).2 := by
  unfold versionDeleteEffect deleteVersion
  cases prepareVersionDelete ctx tenant bucket key versionID s with
  | error err => exact recorded_unchanged
  | ok o =>
    dsimp only
    rw [deleteVersionBlobs_held, deleteVersionBlobs_objects]
    unfold deleteObjectVersion
    cases hrow : getObjectVersion s.objects o.path o.versionID with
    | none => exact recorded_blobs
    | some row =>
      dsimp only
      cases s.held row.id with
      | true => exact recorded_blobs
      | false =>
        refine recorded_remove ?_ (.deleteVersion o.path row.id) rfl deleteVersionBlobs_sessions
        refine .carried ?_ carried_promoteLatestObjectVersion
        exact rewritten_delete fun a _ => by simp

theorem marker_recorded :
    Recorded ctx (markerEffect ctx tenant bucket key s) s (createDeleteMarker ctx tenant bucket key s).2 := by
  unfold markerEffect createDeleteMarker
  cases hmr : prepareDeleteMarker ctx tenant bucket key s with
  | error err => exact recorded_unchanged
  | ok marker =>
    obtain ⟨k, metadata⟩ := marker
    have hm : Object.isDeleteMarker
        {markerColumns ctx.now k ctx.newVersionID metadata with id := s.objects.nextID} = true :=
      beq_iff_eq.mpr (prepareDeleteMarker_marks hmr)
    refine ⟨⟨(carried_retireLive ctx.now k s.objects).insert rfl ⟨rfl, rfl, rfl, hm⟩,
      nofun, fun _ _ => rfl, fun r data hr hcn => ?_⟩, .mark .., rfl, fun r hr => ?_⟩
    · cases hr
      cases hcn
    · cases hr
      rfl

/-! ### The other calls -/

theorem restore_recorded : Recorded ctx .quiet s (restore ctx tenant bucket key s).2 := by
  unfold restore
  cases prepareRestore ctx tenant bucket key s with
  | error err => exact recorded_unchanged
  | ok o =>
    dsimp only
    cases hrs : restoreObject o.path s.objects with
    | error err => exact recorded_unchanged
    | ok objects => exact recorded_quiet (carried_restoreObject hrs) (.restore hrs) rfl rfl

theorem setRetention_recorded {mode : String} {till : Nat} :
    Recorded ctx .quiet s (setRetention ctx tenant bucket key versionID mode till s).2 := by
  unfold setRetention
  cases hpr : prepareRetention ctx tenant bucket key versionID mode till s with
  | error err => exact recorded_unchanged
  | ok found =>
    obtain ⟨o, mode'⟩ := found
    dsimp only
    cases hset : setObjectRetention o.id till
        (o.metadata.set retentionModeMetadataKey mode') s.objects with
    | error err => exact recorded_unchanged
    | ok objects =>
      exact recorded_quiet (carried_setObjectRetention (prepareRetention_found hpr).1 hset) (.retain hset) rfl rfl

/-- The rows, the counters and the blobs. -/
def Vault.stored (s : Vault) : Objects × (String → TenantQuota) × (String → Option Blob) :=
  (s.objects, s.quotas, s.blobs)

theorem outcome_of_stored (h : s'.stored = s.stored) : Outcome .quiet s s' := by
  have ho : s'.objects = s.objects := congrArg Prod.fst h
  exact outcome_quiet (ho ▸ .refl _) (congrArg (fun x => x.2.2) h)

theorem recorded_of_stored (h : s'.stored = s.stored ∧ s'.sessions = s.sessions) : Recorded ctx .quiet s s' := by
  have ho : s'.objects = s.objects := congrArg Prod.fst h.1
  exact ⟨outcome_of_stored h.1, ho ▸ .unchanged, h.2, nofun⟩

theorem initMultipart_stored : (initMultipart ctx req s).2.stored = s.stored := by
  unfold initMultipart
  split <;> rfl

theorem uploadPart_stored {scope : MultipartScope} {uploadID : String} {partNumber : Int} {body : Bytes}
    {size : Option Nat} :
    (uploadPart ctx scope uploadID partNumber body size s).2.stored = s.stored ∧
      (uploadPart ctx scope uploadID partNumber body size s).2.uploads = s.uploads := by
  unfold uploadPart
  split
  · exact ⟨rfl, rfl⟩
  · split
    · exact ⟨rfl, rfl⟩
    · dsimp only
      split_ifs <;> exact ⟨rfl, rfl⟩

/-- The requests that only change a setting. -/
def Request.settings : Request → Bool
  | .setBucketVersioning .. | .setBucketObjectLock .. | .putLegalHold .. => true
  | _ => false

theorem settings_stored (c : Call) (s : Vault) (h : c.request.settings = true) :
    (s.next c).stored = s.stored ∧ (s.next c).sessions = s.sessions := by
  obtain ⟨ctx, request⟩ := c
  cases request with
  | setBucketVersioning tenant bucket enabled =>
    dsimp only [next, setBucketVersioning]
    split <;> exact ⟨rfl, rfl⟩
  | setBucketObjectLock tenant bucket seconds =>
    dsimp only [next, setBucketObjectLock]
    split <;> exact ⟨rfl, rfl⟩
  | putLegalHold tenant bucket key versionID reason =>
    dsimp only [next, placeLegalHold]
    split
    · exact ⟨rfl, rfl⟩
    · split <;> exact ⟨rfl, rfl⟩
  | _ => cases h

/-- The requests that store nothing: settings, and uploads in progress. -/
def Request.storesNothing : Request → Bool
  | .initMultipart _ | .uploadPart .. | .setBucketVersioning .. | .setBucketObjectLock ..
  | .putLegalHold .. => true
  | _ => false

theorem next_stored (c : Call) (s : Vault) (h : c.request.storesNothing = true) :
    (s.next c).stored = s.stored := by
  have hst (h : c.request.settings = true) := (settings_stored c s h).1
  obtain ⟨ctx, request⟩ := c
  cases request with
  | initMultipart => exact initMultipart_stored
  | uploadPart => exact uploadPart_stored.1
  | setBucketVersioning | setBucketObjectLock | putLegalHold => exact hst rfl
  | _ => cases h

/-- The requests that work on an upload session. -/
def Request.multipart : Request → Bool
  | .initMultipart _ | .uploadPart .. | .completeMultipart .. => true
  | _ => false

theorem call_recorded (c : Call) (s : Vault) (h : c.request.multipart = false) :
    Recorded c.ctx (c.effect s) s (s.next c) := by
  have hset (h : c.request.settings = true) : Recorded c.ctx .quiet s (s.next c) :=
    recorded_of_stored (settings_stored c s h)
  obtain ⟨ctx, request⟩ := c
  cases request with
  | put => exact put_recorded
  | delete => exact delete_recorded
  | adminDelete => exact adminDelete_recorded
  | deleteVersion => exact versionDelete_recorded
  | restoreObject => exact restore_recorded
  | createDeleteMarker => exact marker_recorded
  | setObjectRetention => exact setRetention_recorded
  | setBucketVersioning | setBucketObjectLock | putLegalHold => exact hset rfl
  | initMultipart | uploadPart | completeMultipart => cases h

/-- **Every call has the effect that `Call.effect` computes from the state before it.** -/
theorem call_outcome (c : Call) (hs : ∀ u ∈ s.uploads, UploadSound u) :
    Outcome (c.effect s) s (s.next c) := by
  cases hm : c.request.multipart with
  | false => exact (call_recorded c s hm).toOutcome
  | true =>
    obtain ⟨ctx, request⟩ := c
    cases request with
    | initMultipart => exact outcome_of_stored initMultipart_stored
    | uploadPart => exact outcome_of_stored uploadPart_stored.1
    | completeMultipart => exact complete_outcome hs
    | _ => cases hm

end AeroVault.Service
