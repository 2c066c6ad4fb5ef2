import AeroVault.Service.FailedPut

/-! Renaming over WebDAV.

`Rename` copies the source to the destination, deletes the source and, where that
fails, deletes the destination again. Every call can fail part way: where the
repository or the backend gives up is an input of the call (`PutFailure`,
`DeleteFault`), and a call that does not give up is the service's own (`putFailing_none`,
`deleteWith_none`).

A failed rename keeps what was readable at both names exactly when each of its calls
spares it (`failed_rename_keeps_iff`). The rollback is where this goes wrong: it
deletes every row of the destination, not only the copy
(`rollback_deletes_destination`). -/
namespace AeroVault.WebDav
open Lib Repository Access Service

/-- A rename reads, and it writes and deletes. -/
inductive RenameError
  | get (err : GetError)
  | change (err : PutError)
  deriving DecidableEq

/-! ### Deleting -/

/-- Where a hard delete fails that its own checks admit. -/
inductive DeleteFault
  | none
  /-- Before anything is deleted. -/
  | early
  /-- After the blobs of so many versions: at the next one or, if there is none, at the rows. -/
  | after (versions : Nat)
  /-- The rows are gone and the usage is not recorded. -/
  | usage
  deriving DecidableEq

/-- `DeleteWithAction`, up to its effects: the live row, and all rows of the key. -/
def prepareDelete (ctx : Ctx) (action : Action) (tenant bucket key : String) (s : Vault) :
    Except ServiceError (Object × List Object) := do
  let o ← deletable ctx action tenant bucket key s
  preflightQuota s o.path.tenantID 0 0
  let versions ← versionsForHardDelete s ctx.now o.path
  return (o, versions)

/-- `DeleteWithAction` with `hard`. -/
def deleteWith (fault : DeleteFault) (ctx : Ctx) (action : Action) (tenant bucket key : String)
    (s : Vault) : Except PutError Unit × Vault :=
  match prepareDelete ctx action tenant bucket key s with
  | .error err => (.error (.service err), s)
  | .ok (o, versions) =>
    match fault with
    | .early => (.error .failed, s)
    | .after n => (.error .failed, deleteVersionBlobs (versions.take n) s)
    | .usage =>
      let wiped := deleteVersionBlobs versions s
      match hardDeleteObjectWithEvent wiped.held o.path wiped.objects with
      | .error err => (.error (.service (.repo err)), wiped)
      | .ok objects => (.error .failed, wiped.withObjects objects)
    | .none =>
      let deleted := hardDeleteObjectWithVersions o.path versions s
      (deleted.1.mapError .service, deleted.2)

theorem deleteWith_none (ctx : Ctx) (tenant bucket key : String) (s : Vault) :
    deleteWith .none ctx .delete tenant bucket key s =
      ((delete ctx tenant bucket key true s).1.mapError .service,
        (delete ctx tenant bucket key true s).2) := by
  unfold deleteWith prepareDelete delete removeObject
  cases deletable ctx .delete tenant bucket key s with
  | error err => rfl
  | ok o =>
    dsimp only [bind, Except.bind]
    cases preflightQuota s o.path.tenantID 0 0 with
    | error err => rfl
    | ok _ =>
      cases versionsForHardDelete s ctx.now o.path with
      | error | ok => rfl

/-! ### Renaming -/

/-- `Get` without read options. -/
def plainRead (ctx : Ctx) : ReadCall where
  ctx := ctx
  validateSSECRead metadata :=
    if metadata.get "_aero_sse_c_key_md5" ≠ "" then some .sseCustomerKeyRequired else none

/-- A rename, with what each of its calls finds: the time and the authorizer's answers
change between them. -/
structure RenameCall where
  tenant : String
  oldName : String
  newName : String
  /-- `AuthorizeDelete` and `Get`; whether one of them, or the read of the body, fails. -/
  read : Ctx
  unread : Bool
  copy : Ctx
  copyFault : PutFailure
  remove : Ctx
  removeFault : DeleteFault
  rollback : Ctx
  rollbackFault : DeleteFault

namespace RenameCall

/-- `davFS.tenant`. -/
def tenantID (c : RenameCall) : String := defaultTenant c.tenant

def src (c : RenameCall) : String := GoText.trimPrefix c.oldName "/"

def dst (c : RenameCall) : String := GoText.trimPrefix c.newName "/"

def oldPath (c : RenameCall) : Path := defaults c.tenantID "default" c.src

def newPath (c : RenameCall) : Path := defaults c.tenantID "default" c.dst

/-- The object to be copied, which the caller may delete and read. -/
def source (c : RenameCall) (s : Vault) : Except RenameError (Object × Bytes) :=
  match deletable c.read .adminDelete c.tenantID "default" c.src s with
  | .error err => .error (.change (.service err))
  | .ok _ =>
    match getWithOptions (plainRead c.read) c.tenantID "default" c.src s with
    | .error err => .error (.get err)
    | .ok found => if c.unread then .error (.change .failed) else .ok found

/-- The copy carries the content headers, the user's metadata and the tags, and
neither the ACL nor the storage class. -/
def putRequest (c : RenameCall) (found : Object × Bytes) : PutRequest where
  tenant := c.tenantID
  bucket := "default"
  key := c.dst
  body := found.2
  size := some found.2.length
  opts := {
    contentType := found.1.contentType
    contentDisposition := found.1.metadata.get "_aero_content_disposition"
    contentEncoding := found.1.metadata.get "_aero_content_encoding"
    metadata := found.1.metadata.filter fun e => !reservedKey e.1
    tags := found.1.tags
    acl := ""
    legalHold := false
    contentMD5 := found.1.metadata.get "_aero_content_md5"
    storageClass := "" }

def putCopy (c : RenameCall) (found : Object × Bytes) (s : Vault) : Except PutError Object × Vault :=
  putFailing c.copyFault c.copy (c.putRequest found) s

def deleteSource (c : RenameCall) (s : Vault) : Except PutError Unit × Vault :=
  deleteWith c.removeFault c.remove .adminDelete c.tenantID "default" c.src s

/-- An error of the rollback is only logged. -/
def rolledBack (c : RenameCall) (s : Vault) : Vault :=
  (deleteWith c.rollbackFault c.rollback .delete c.tenantID "default" c.dst s).2

end RenameCall

def rename (c : RenameCall) (s : Vault) : Except RenameError Unit × Vault :=
  match c.source s with
  | .error err => (.error err, s)
  | .ok found =>
    match c.putCopy found s with
    | (.error err, stored) => (.error (.change err), stored)
    | (.ok _, copied) =>
      match c.deleteSource copied with
      | (.ok (), moved) => (.ok (), moved)
      | (.error err, left) => (.error (.change err), c.rolledBack left)

/-! ### What stays readable -/

/-- The row is not marked corrupt. -/
abbrev Intact (o : Object) : Prop := o.metadata.get "_aero_scrub_status" ≠ "corrupt"

/-- A row of the key that is read as `data`: the live one by `Get`, the others by
`GetVersion`. -/
structure Readable (s : Vault) (k : Path) (o : Object) (data : Bytes) : Prop where
  mem : o ∈ s.objects.rows
  path : o.path = k
  unmarked : o.isDeleteMarker = false
  intact : Intact o
  bytes : s.bytes o.storageKey = some data

/-- What was readable at a key in `s` is readable in `t`: the live object under its
name, and every version. -/
structure KeptAt (s t : Vault) (k : Path) : Prop where
  live : ∀ o data, Readable s k o data → getObject s.objects k = some o →
    ∃ o', getObject t.objects k = some o' ∧ Readable t k o' data
  versions : ∀ o data, Readable s k o data → ∃ o', o'.id = o.id ∧ Readable t k o' data

variable {s t u : Vault} {k : Path} {o o' : Object} {data : Bytes}

theorem Readable.same (h : Readable s k o data) (ho' : o' ∈ t.objects.rows) (hs : SameContent o o')
    (hby : t.bytes o.storageKey = some data) : Readable t k o' data where
  mem := ho'
  path := hs.path.trans h.path
  unmarked := (isDeleteMarker_congr hs.metadata).trans h.unmarked
  intact := by
    unfold Intact
    rw [hs.metadata]
    exact h.intact
  bytes := hs.storageKey ▸ hby

theorem Readable.unique (h : Readable s k o data) (ho' : o' ∈ s.objects.rows) (hid : o.id = o'.id) :
    s.bytes o'.storageKey = some data := by
  rw [← eq_of_id h.mem ho' hid]
  exact h.bytes

theorem keptAt_refl : KeptAt s s k where
  live o _ h hl := ⟨o, hl, h⟩
  versions o _ h := ⟨o, rfl, h⟩

/-! ### The copy -/

/-- What is readable at `k` and stored under the storage key of `obj` has the bytes left there,
and so has the live object that the row written takes the place of. -/
structure Spared (s : Vault) (obj : Object) (blob : Option (Option Bytes)) (row : Bool) (k : Path) : Prop where
  stored : ∀ left, blob = some left → ∀ o data, Readable s k o data → o.storageKey = obj.storageKey →
    left = some data
  live : row = true → k = obj.path → ∀ o data, Readable s k o data →
    getObject s.objects k = some o → blob = some (some data)

variable {obj : Object} {blob : Option (Option Bytes)} {row : Bool}

theorem readable_bytes_iff (hw : Leaves obj blob row s t) {key : String} (h : s.bytes key = some data) :
    t.bytes key = some data ↔ ∀ left, blob = some left → key = obj.storageKey → left = some data := by
  rw [← h, hw.bytes_iff, h]
  exact forall₃_congr fun _ _ _ => eq_comm

theorem kept_blob_iff (hw : Leaves obj blob false s t) : KeptAt s t k ↔ Spared s obj blob false k := by
  have ho := hw.unwritten rfl
  constructor
  · intro hkp
    refine ⟨fun left hl o data h hkey => ?_, nofun⟩
    obtain ⟨o', hid, h'⟩ := hkp.versions o data h
    exact (readable_bytes_iff hw h.bytes).mp (h'.unique (ho ▸ h.mem) hid) left hl hkey
  · intro hsp
    have hrd (o : Object) (data : Bytes) (h : Readable s k o data) : Readable t k o data :=
      h.same (ho ▸ h.mem) (.refl o)
        ((readable_bytes_iff hw h.bytes).mpr fun left hl hkey => hsp.stored left hl o data h hkey)
    refine ⟨fun o data h hl => ⟨o, ?_, hrd o data h⟩, fun o data h => ⟨o, rfl, hrd o data h⟩⟩
    rw [ho]
    exact hl

/-- The row written reads the body, whatever row it takes the place of. -/
theorem readable_row {r : Object} (hw : Leaves obj (some (some data)) row s t)
    (hun : obj.isDeleteMarker = false) (hin : Intact obj) (hr : r ∈ t.objects.rows) (hpath : r.path = k)
    (hwr : WrittenAs obj r) : Readable t k r data where
  mem := hr
  path := hpath
  unmarked := (isDeleteMarker_congr hwr.metadata).trans hun
  intact := by
    unfold Intact
    rw [hwr.metadata]
    exact hin
  bytes := by
    rw [hw.bytes, if_pos hwr.storageKey]
    rfl

theorem kept_row_iff {body : Bytes} (hw : Leaves obj (some (some body)) true s t)
    (hun : obj.isDeleteMarker = false) (hin : Intact obj) :
    KeptAt s t k ↔ Spared s obj (some (some body)) true k := by
  obtain ⟨⟨r, hlive, hwr⟩, hothers, hkept⟩ := hw.written rfl
  have hat {a : Object} (ha : WrittenAs obj a) : t.bytes a.storageKey = some body := by
    rw [hw.bytes, if_pos ha.storageKey]
    rfl
  constructor
  · intro hkp
    refine ⟨fun left hl o data h hkey => ?_, fun _ hk o data h hget => ?_⟩
    · cases hl
      obtain ⟨o', hid, h'⟩ := hkp.versions o data h
      obtain ⟨a, ha, hs⟩ | ⟨-, a, ha, haid, -, haw⟩ := hkept o h.mem
      · have hby := h'.unique ha (hid.trans hs.id.symm)
        rw [hs.storageKey] at hby
        exact (readable_bytes_iff hw h.bytes).mp hby _ rfl hkey
      · exact (hat haw).symm.trans (h'.unique ha (hid.trans haid.symm))
    · obtain ⟨o', hget', h'⟩ := hkp.live o data h hget
      rw [hk, hlive] at hget'
      cases hget'
      exact congrArg some ((hat hwr).symm.trans h'.bytes)
  · intro hsp
    have hsame {o a : Object} {data : Bytes} (h : Readable s k o data) (ha : a ∈ t.objects.rows)
        (hs : SameContent o a) : Readable t k a data :=
      h.same ha hs ((readable_bytes_iff hw h.bytes).mpr fun left hl hkey => hsp.stored left hl o data h hkey)
    constructor
    · intro o data h hget
      by_cases hk : k = obj.path
      · cases hsp.live rfl hk o data h hget
        have hr := getObject_some hlive
        exact ⟨r, hk ▸ hlive, readable_row hw hun hin hr.1 (hr.2.1.trans hk.symm) hwr⟩
      · have hget' : getObject t.objects k = some o := (hothers k hk).trans hget
        exact ⟨o, hget', hsame h (getObject_some hget').1 (.refl o)⟩
    · intro o data h
      obtain ⟨a, ha, hs⟩ | ⟨hget, a, ha, haid, hap, haw⟩ := hkept o h.mem
      · exact ⟨a, hs.id, hsame h ha hs⟩
      · have hk : k = obj.path := h.path.symm.trans (getObject_some hget).2.1
        cases hsp.live rfl hk o data h (hk ▸ hget)
        exact ⟨a, haid, readable_row hw hun hin ha (hap.trans h.path) haw⟩

variable {ctx : Ctx} {req : PutRequest} {plan : PutPlan}

theorem intact_buildPutObject
    (hplan : preparePut ctx req s = .ok plan) : Intact (buildPutObject ctx req plan) := by
  have hun : plan.metadata.get "_aero_scrub_status" = "" := (planned hplan).metadata _ (by decide) (by decide)
  show (withGeneration ctx.generation plan.metadata).get "_aero_scrub_status" ≠ "corrupt"
  rw [get_withGeneration (by decide), hun]
  decide

/-- What a planned `Put` leaves spares what is readable at `k`. -/
def PutSpares (failure : PutFailure) (ctx : Ctx) (req : PutRequest) (s : Vault) (k : Path) : Prop :=
  ∀ plan, preparePut ctx req s = .ok plan →
    Spared s (buildPutObject ctx req plan) (blobLeft failure (plan.accepts ctx req.body) req.body)
      (rowLeft failure (plan.accepts ctx req.body)) k

/-- **What a `Put` keeps**, wherever it fails. -/
theorem putFailing_keeps_iff {failure : PutFailure} :
    KeptAt s (putFailing failure ctx req s).2 k ↔ PutSpares failure ctx req s k := by
  unfold PutSpares
  cases hplan : preparePut ctx req s with
  | error err =>
    have hsame : (putFailing failure ctx req s).2 = s := by simp only [putFailing, hplan]
    rw [hsame]
    exact iff_of_true keptAt_refl fun _ h => by cases h
  | ok plan =>
    have hl := putFailing_leaves failure hplan
    simp only [Except.ok.injEq, forall_eq']
    cases hrow : rowLeft failure (plan.accepts ctx req.body) with
    | false =>
      rw [hrow] at hl
      exact kept_blob_iff hl
    | true =>
      rw [hrow, blobLeft_of_row hrow] at hl
      rw [blobLeft_of_row hrow]
      have hun : (buildPutObject ctx req plan).isDeleteMarker = false :=
        (unmarked_withGeneration (planned hplan).unmarked _).isDeleteMarker
      exact kept_row_iff hl hun (intact_buildPutObject hplan)

/-! ### The deletions -/

/-- What a hard delete takes away: the blobs of `versions`, and perhaps all rows of the key. -/
structure Removed where
  versions : List Object
  rows : Bool

def removed (fault : DeleteFault) (versions : List Object) : Removed :=
  match fault with
  | .early => ⟨[], false⟩
  | .after n => ⟨versions.take n, false⟩
  | .none | .usage => ⟨versions, true⟩

/-- None of what was readable at `k` in `s`, and still is in `t`, goes: neither the rows
of the key nor a blob that one of them is read from. -/
structure Removed.Spares (r : Removed) (s t : Vault) (path k : Path) : Prop where
  rows : r.rows = true → k = path → ∀ o data, ¬ Readable s k o data
  versions : ∀ o data o', Readable s k o data → Readable t k o' data → o'.id = o.id →
    r.versions.any (ownsBlob o'.storageKey) = false
  live : ∀ o data o', Readable s k o data → getObject s.objects k = some o → Readable t k o' data →
    getObject t.objects k = some o' → r.versions.any (ownsBlob o'.storageKey) = false

/-- The vault after a hard delete that took `r` away. -/
structure Removed.Leaves (r : Removed) (path : Path) (t u : Vault) : Prop where
  bytes : ∀ key, u.bytes key = if r.versions.any (ownsBlob key) then none else t.bytes key
  objects : u.objects = if r.rows then t.objects.delete (atPath path) else t.objects

theorem bytes_wiped (versions : List Object) (t : Vault) (key : String) :
    (deleteVersionBlobs versions t).bytes key =
      if versions.any (ownsBlob key) then none else t.bytes key := by
  rw [Vault.bytes, deleteVersionBlobs_blobs]
  split_ifs
  · rfl
  · rfl

variable {versions : List Object} {action : Action} {tenant bucket key : String} {now : Nat}

theorem prepareDelete_ok (h : prepareDelete ctx action tenant bucket key t = .ok (o, versions)) :
    o.path = defaults tenant bucket key ∧ o ∈ t.objects.rows ∧
      versionsForHardDelete t ctx.now o.path = .ok versions := by
  obtain ⟨found, hfound, h⟩ := passed h
  obtain ⟨-, h⟩ := checked h
  obtain ⟨all, hall, h⟩ := passed h
  cases h
  obtain ⟨hg, hpath⟩ := deletable_ok hfound
  exact ⟨hpath, (getObject_some hg).1, hall⟩

/-- What the checks of a hard delete admit, the repository does not refuse. -/
theorem hardDelete_admitted (ho : o ∈ t.objects.rows)
    (h : versionsForHardDelete t now o.path = .ok versions) :
    hardDeleteObjectWithEvent t.held o.path t.objects = .ok (t.objects.delete (atPath o.path)) := by
  obtain ⟨rfl, hch⟩ := versionsForHardDelete_ok h
  have hh : ¬ (t.objects.rows.any fun a => atPath o.path a && t.held a.id) = true := by
    intro hany
    obtain ⟨a, ha, hbt⟩ := List.any_eq_true.mp hany
    simp only [atPath, Bool.and_eq_true, beq_iff_eq] at hbt
    exact checkAllUnprotected_ok hch a (mem_listObjectVersions.mpr ⟨ha, hbt.1⟩) (.inr hbt.2)
  have hsome : t.objects.rows.any (atPath o.path) = true := List.any_eq_true.mpr ⟨o, ho, by simp [atPath]⟩
  rw [hardDeleteObjectWithEvent, if_neg hh, if_pos hsome]

theorem deleteWith_error {fault : DeleteFault} {err : ServiceError}
    (h : prepareDelete ctx action tenant bucket key t = .error err) :
    (deleteWith fault ctx action tenant bucket key t).2 = t := by
  simp only [deleteWith, h]

theorem deleteWith_leaves {fault : DeleteFault}
    (h : prepareDelete ctx action tenant bucket key t = .ok (o, versions)) :
    (removed fault versions).Leaves (defaults tenant bucket key) t
      (deleteWith fault ctx action tenant bucket key t).2 := by
  obtain ⟨hpath, ho, hv⟩ := prepareDelete_ok h
  have hh := hardDelete_admitted ho hv
  simp only [deleteWith, h]
  rw [← hpath]
  cases fault with
  | early => exact ⟨fun key => by simp [removed], rfl⟩
  | after n => exact ⟨bytes_wiped (versions.take n) t, deleteVersionBlobs_objects _ t⟩
  | usage =>
    simp only [deleteVersionBlobs_held, deleteVersionBlobs_objects, hh]
    exact ⟨bytes_wiped versions t, rfl⟩
  | none =>
    simp only [hardDeleteObjectWithVersions, deleteVersionBlobs_held, deleteVersionBlobs_objects, hh]
    exact ⟨bytes_wiped versions t, rfl⟩

section Removal
variable {r : Removed} {path : Path} (hr : r.Leaves path t u)
include hr

/-- What is readable after a deletion was readable before it. -/
theorem Removed.Leaves.readable_before (h : Readable u k o data) :
    Readable t k o data ∧ (r.rows = true → k ≠ path) ∧ r.versions.any (ownsBlob o.storageKey) = false := by
  have hbyt := h.bytes
  rw [hr.bytes] at hbyt
  have hm := h.mem
  rw [hr.objects] at hm
  have hany : r.versions.any (ownsBlob o.storageKey) = false := by
    by_contra hany
    rw [if_pos (by simpa using hany)] at hbyt
    cases hbyt
  rw [hany, if_neg Bool.false_ne_true] at hbyt
  cases hrw : r.rows with
  | false =>
    rw [hrw, if_neg Bool.false_ne_true] at hm
    exact ⟨⟨hm, h.path, h.unmarked, h.intact, hbyt⟩, nofun, hany⟩
  | true =>
    rw [hrw, if_pos rfl] at hm
    obtain ⟨hm, hne⟩ := mem_hardDelete.mp hm
    exact ⟨⟨hm, h.path, h.unmarked, h.intact, hbyt⟩, fun _ hk => hne (h.path.trans hk), hany⟩

theorem Removed.Leaves.readable_after (h : Readable t k o data) (hrw : r.rows = true → k ≠ path)
    (hany : r.versions.any (ownsBlob o.storageKey) = false) : Readable u k o data := by
  have hm : o ∈ u.objects.rows := by
    rw [hr.objects]
    cases hcs : r.rows with
    | false => exact h.mem
    | true => exact mem_hardDelete.mpr ⟨h.mem, fun hpath => hrw hcs (h.path.symm.trans hpath)⟩
  refine ⟨hm, h.path, h.unmarked, h.intact, ?_⟩
  rw [hr.bytes, hany, if_neg Bool.false_ne_true]
  exact h.bytes

theorem Removed.Leaves.getObject_eq (hrw : r.rows = true → k ≠ path) :
    getObject u.objects k = getObject t.objects k := by
  rw [hr.objects]
  cases hcs : r.rows with
  | false => rfl
  | true => exact getObject_delete_ne (hrw hcs)

/-- A deletion adds nothing, so what it lost stays lost. -/
theorem Removed.Leaves.keeps_iff : KeptAt s u k ↔ KeptAt s t k ∧ r.Spares s t path k := by
  constructor
  · intro hkept
    have hrows (o : Object) (data : Bytes) (h : Readable s k o data) : r.rows = true → k ≠ path := by
      obtain ⟨o', -, h'⟩ := hkept.versions o data h
      exact (hr.readable_before h').2.1
    refine ⟨⟨fun o data h hget => ?_, fun o data h => ?_⟩,
      ⟨fun hy hk o data h => hrows o data h hy hk, fun o data o' h h' hid => ?_,
        fun o data o' h hget h' hget' => ?_⟩⟩
    · obtain ⟨o', hget', h'⟩ := hkept.live o data h hget
      exact ⟨o', hr.getObject_eq (hrows o data h) ▸ hget', (hr.readable_before h').1⟩
    · obtain ⟨o', hid, h'⟩ := hkept.versions o data h
      exact ⟨o', hid, (hr.readable_before h').1⟩
    · obtain ⟨a, haid, ha⟩ := hkept.versions o data h
      have hbf := hr.readable_before ha
      rw [← eq_of_id hbf.1.mem h'.mem (haid.trans hid.symm)]
      exact hbf.2.2
    · obtain ⟨a, hag, ha⟩ := hkept.live o data h hget
      rw [hr.getObject_eq (hrows o data h), hget'] at hag
      cases hag
      exact (hr.readable_before ha).2.2
  · intro h
    obtain ⟨hkept, hsp⟩ := h
    have hrows (o : Object) (data : Bytes) (h : Readable s k o data) : r.rows = true → k ≠ path :=
      fun hy hk => hsp.rows hy hk o data h
    refine ⟨fun o data h hget => ?_, fun o data h => ?_⟩
    · obtain ⟨o', hget', h'⟩ := hkept.live o data h hget
      have hany := hsp.live o data o' h hget h' hget'
      exact ⟨o', (hr.getObject_eq (hrows o data h)).trans hget', hr.readable_after h' (hrows o data h) hany⟩
    · obtain ⟨o', hid, h'⟩ := hkept.versions o data h
      have hany := hsp.versions o data o' h h' hid
      exact ⟨o', hid, hr.readable_after h' (hrows o data h) hany⟩

end Removal

/-- **What a hard delete keeps**, wherever it fails, of what was kept before it. -/
theorem deleteWith_keeps_iff (fault : DeleteFault) (ctx : Ctx) (action : Action)
    (tenant bucket key : String) (s t : Vault) (k : Path) :
    KeptAt s (deleteWith fault ctx action tenant bucket key t).2 k ↔
      KeptAt s t k ∧ ∀ o versions, prepareDelete ctx action tenant bucket key t = .ok (o, versions) →
        (removed fault versions).Spares s t (defaults tenant bucket key) k := by
  cases hpr : prepareDelete ctx action tenant bucket key t with
  | error err =>
    rw [deleteWith_error hpr]
    exact ⟨fun h => ⟨h, nofun⟩, fun h => h.1⟩
  | ok found =>
    obtain ⟨o, versions⟩ := found
    have hl : (removed fault versions).Leaves (defaults tenant bucket key) t
        (deleteWith fault ctx action tenant bucket key t).2 := deleteWith_leaves hpr
    rw [hl.keeps_iff]
    refine and_congr_right fun _ => ⟨fun h o' versions' heq => ?_, fun h => h o versions rfl⟩
    cases heq
    exact h

/-! ### Failed renames -/

namespace RenameCall

/-- The copy spares what is readable at `k`. -/
def CopySpares (c : RenameCall) (found : Object × Bytes) (s : Vault) (k : Path) : Prop :=
  PutSpares c.copyFault c.copy (c.putRequest found) s k

/-- The deletion of the source, in the vault `t`, spares what was readable in `s`. -/
def SourceSpares (c : RenameCall) (s t : Vault) (k : Path) : Prop :=
  ∀ o versions, prepareDelete c.remove .adminDelete c.tenantID "default" c.src t = .ok (o, versions) →
    (removed c.removeFault versions).Spares s t c.oldPath k

/-- The deletion of the destination, in the vault `t`, spares what was readable in `s`. -/
def RollbackSpares (c : RenameCall) (s t : Vault) (k : Path) : Prop :=
  ∀ o versions, prepareDelete c.rollback .delete c.tenantID "default" c.dst t = .ok (o, versions) →
    (removed c.rollbackFault versions).Spares s t c.newPath k

/-- Each call that the rename comes to, in the vault it finds, spares what was readable
at `k` when the rename began. -/
structure Spares (c : RenameCall) (s : Vault) (k : Path) : Prop where
  copy : ∀ found, c.source s = .ok found → c.CopySpares found s k
  source : ∀ found, c.source s = .ok found → (c.putCopy found s).1.isOk = true →
    c.SourceSpares s (c.putCopy found s).2 k
  rollback : ∀ found, c.source s = .ok found → (c.putCopy found s).1.isOk = true →
    c.RollbackSpares s (c.deleteSource (c.putCopy found s).2).2 k

end RenameCall

/-- **A rename that fails keeps what was readable at the two names, the live objects and
all versions, exactly when each of its calls spares it.** -/
theorem failed_rename_keeps_iff (c : RenameCall) (s : Vault) {err : RenameError}
    (h : (rename c s).1 = .error err) :
    (∀ k ∈ [c.oldPath, c.newPath], KeptAt s (rename c s).2 k) ↔
      ∀ k ∈ [c.oldPath, c.newPath], c.Spares s k := by
  refine forall₂_congr fun k _ => ?_
  unfold rename at h ⊢
  cases hsource : c.source s with
  | error err =>
    refine iff_of_true keptAt_refl ⟨?_, ?_, ?_⟩
    all_goals
      intro found hfound
      rw [hsource] at hfound
      cases hfound
  | ok found =>
    have hfound (P : Object × Bytes → Prop) : (∀ f, c.source s = .ok f → P f) ↔ P found := by
      rw [hsource]
      exact ⟨fun hall => hall found rfl, fun hp f hf => Except.ok.inj hf ▸ hp⟩
    have hcp : KeptAt s (c.putCopy found s).2 k ↔ c.CopySpares found s k :=
      putFailing_keeps_iff
    have hsp : c.Spares s k ↔ c.CopySpares found s k ∧ ((c.putCopy found s).1.isOk = true →
        c.SourceSpares s (c.putCopy found s).2 k ∧
          c.RollbackSpares s (c.deleteSource (c.putCopy found s).2).2 k) := by
      constructor
      · intro hs
        exact ⟨hs.copy found hsource, fun hok => ⟨hs.source found hsource hok, hs.rollback found hsource hok⟩⟩
      · intro hs
        exact ⟨(hfound _).mpr hs.1, (hfound _).mpr fun hok => (hs.2 hok).1,
          (hfound _).mpr fun hok => (hs.2 hok).2⟩
    rw [hsp, ← hcp]
    simp only [hsource] at h ⊢
    cases hput : c.putCopy found s with
    | mk result copied =>
      cases result with
      | error err => exact ⟨fun hk => ⟨hk, nofun⟩, fun hk => hk.1⟩
      | ok written =>
        simp only [hput] at h ⊢
        cases hd : c.deleteSource copied with
        | mk deleted left =>
          cases deleted with
          | ok _ => simp only [hd, reduceCtorEq] at h
          | error err =>
            have hl : left = (c.deleteSource copied).2 := by rw [hd]
            have hrm : KeptAt s left k ↔ KeptAt s copied k ∧ c.SourceSpares s copied k := by
              rw [hl]
              exact deleteWith_keeps_iff c.removeFault c.remove .adminDelete _ _ _ s copied k
            have hrl : KeptAt s (c.rolledBack left) k ↔ KeptAt s left k ∧ c.RollbackSpares s left k :=
              deleteWith_keeps_iff c.rollbackFault c.rollback .delete _ _ _ s left k
            rw [hrl, hrm, and_assoc]
            simp [Except.toBool]

/-- A rename by a user to whom everything is allowed, with nothing failing. -/
def plainRename (tenant oldName newName : String) : RenameCall where
  tenant := tenant
  oldName := oldName
  newName := newName
  read := allowedUser 10 "" ""
  unread := false
  copy := allowedUser 11 "copy" ""
  copyFault := .none
  remove := allowedUser 12 "" ""
  removeFault := .none
  rollback := allowedUser 13 "" ""
  rollbackFault := .none

/-- Two objects of an unversioned bucket, with a legal hold on the first. -/
def heldVault : Vault :=
  run Vault.next .empty
    [⟨allowedUser 1 "v1" "", .put (plainPut "acme" "default" "a" [1])⟩,
      ⟨allowedUser 2 "v2" "", .put (plainPut "acme" "default" "b" [2])⟩,
      ⟨allowedUser 3 "" "", .putLegalHold "acme" "default" "a" "" "audit"⟩]

/-- The move of the held object to a name that is free. -/
def moveToFree : RenameCall := plainRename "acme" "/a" "/c"

/-- What the move's calls find: the copy is stored by itself, the hold stops the delete of the
source, and the rollback deletes the copy. -/
theorem moveToFree_spares : ∀ k ∈ [moveToFree.oldPath, moveToFree.newPath], moveToFree.Spares heldVault k := by
  have hfree : ∀ o ∈ heldVault.objects.rows, o.path ≠ moveToFree.newPath := by decide +kernel
  have hplan : ∀ found, moveToFree.source heldVault = .ok found → ∀ plan,
      preparePut moveToFree.copy (moveToFree.putRequest found) heldVault = .ok plan →
      plan.path = moveToFree.newPath ∧ ∀ o ∈ heldVault.objects.rows, o.storageKey ≠ plan.storageKey := by
    decide +kernel
  have hheld : ∀ found, moveToFree.source heldVault = .ok found →
      prepareDelete moveToFree.remove .adminDelete moveToFree.tenantID "default" moveToFree.src
        (moveToFree.putCopy found heldVault).2 = .error .legalHold := by
    decide +kernel
  have hcopy : ∀ found, moveToFree.source heldVault = .ok found → ∀ deleted,
      prepareDelete moveToFree.rollback .delete moveToFree.tenantID "default" moveToFree.dst
        (moveToFree.deleteSource (moveToFree.putCopy found heldVault).2).2 = .ok deleted →
      ∀ o' ∈ (moveToFree.deleteSource (moveToFree.putCopy found heldVault).2).2.objects.rows,
        o'.path ≠ moveToFree.newPath → deleted.2.any (ownsBlob o'.storageKey) = false := by
    decide +kernel
  intro k _
  refine ⟨fun found hf plan hp => ?_, fun found hf _ o versions hd => ?_, fun found hf _ o versions hd => ?_⟩
  · exact ⟨fun _ _ o _ h hkey => absurd hkey ((hplan found hf plan hp).2 o h.mem),
      fun _ hk o _ h _ => absurd (h.path.trans (hk.trans (hplan found hf plan hp).1)) (hfree o h.mem)⟩
  · cases (hheld found hf).symm.trans hd
  · have hspare (o o' : Object) (data data' : Bytes) (h : Readable heldVault k o data)
        (h' : Readable _ k o' data') : versions.any (ownsBlob o'.storageKey) = false :=
      hcopy found hf _ hd o' h'.mem fun hpath =>
        hfree o h.mem (h.path.trans (h'.path.symm.trans hpath))
    exact ⟨fun _ hk o _ h => hfree o h.mem (h.path.trans hk), fun o _ o' h h' _ => hspare o o' _ _ h h',
      fun o _ o' h _ h' _ => hspare o o' _ _ h h'⟩

/-- The source is under a hold, and the name it would be moved to is free: nothing is lost. -/
theorem held_source_to_free_name :
    (rename moveToFree heldVault).1 = .error (.change (.service .legalHold)) ∧
      ∀ k ∈ [moveToFree.oldPath, moveToFree.newPath], KeptAt heldVault (rename moveToFree heldVault).2 k := by
  have herror : (rename moveToFree heldVault).1 = .error (.change (.service .legalHold)) := by
    decide +kernel
  exact ⟨herror, (failed_rename_keeps_iff moveToFree heldVault herror).mpr moveToFree_spares⟩

/-- Over an object that exists: the copy has replaced it when the hold on the source is
found, and the rollback deletes what is left. -/
theorem rollback_deletes_destination :
    (rename (plainRename "acme" "/a" "/b") heldVault).1 = .error (.change (.service .legalHold)) ∧
      ¬ KeptAt heldVault (rename (plainRename "acme" "/a" "/b") heldVault).2 ⟨"acme", "default", "b"⟩ := by
  refine ⟨by decide +kernel, fun hkp => ?_⟩
  have hl : ∃ o, getObject heldVault.objects ⟨"acme", "default", "b"⟩ = some o ∧
      o.isDeleteMarker = false ∧ Intact o ∧ heldVault.bytes o.storageKey = some [2] :=
    ⟨((getObject heldVault.objects ⟨"acme", "default", "b"⟩).get (by decide +kernel)), by decide +kernel⟩
  obtain ⟨o, hg, hun, hin, hby⟩ := hl
  have ho := getObject_some hg
  obtain ⟨o', hg', -⟩ := hkp.live o [2] ⟨ho.1, ho.2.1, hun, hin, hby⟩ hg
  cases hg'

end AeroVault.WebDav
