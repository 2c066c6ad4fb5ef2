import AeroVault.Repository.Usage
import AeroVault.Service.Sessions

/-! Whether a tenant's counters say what its rows count for.

Each call charges a tenant for what it has computed beforehand, and its statements
shift what the tenant's rows count for. The two agree for every call but two:
`DeleteVersion` may revive a row that a user had deleted and that was no longer
counted, and `RestoreObject` charges for the row that the service picked, not for
the one that the repository restores. `usage_balanced_iff` says that these are the
only ways for the counters to go wrong. -/
namespace AeroVault.Service
open Lib Repository Access Function List Vault

/-! ### Counters and rows -/

/-- What the rows of a tenant count for, counted as `BucketUsage` counts a bucket. -/
def tenantUsage (s : Vault) (tenant : String) : Int × Int :=
  countedObjectUsage (s.objects.rows.filter fun o => o.path.tenantID == tenant)

def usedQuota (s : Vault) (tenant : String) : Int × Int :=
  ((s.quotas tenant).usedBytes, (s.quotas tenant).usedObjects)

/-- The counters of every tenant are what its rows count for. -/
def Balanced (s : Vault) : Prop := ∀ tenant, usedQuota s tenant = tenantUsage s tenant

theorem countedObjectUsage_eq (rows : List Object) : countedObjectUsage rows = totalOf rowUsage rows := by
  induction rows with
  | nil => rfl
  | cons o rest ih =>
    rw [totalOf_cons, ← ih]
    cases h : o.counted with
    | false => simp [countedObjectUsage, rowUsage, h]
    | true =>
      simp only [countedObjectUsage, rowUsage, h, filter_cons_of_pos, map_cons,
        sum_cons, length_cons, if_true, Prod.mk_add_mk]
      rw [Nat.cast_succ, add_comm (1 : Int)]

theorem tenantUsage_eq (s : Vault) (tenant : String) :
    tenantUsage s tenant = s.objects.total (weight tenant) := by
  rw [tenantUsage, countedObjectUsage_eq, Table.total]
  induction s.objects.rows with
  | nil => rfl
  | cons o rest ih =>
    rw [totalOf_cons, ← ih]
    by_cases h : o.path.tenantID = tenant
    · simp [h, weight]
    · simp [h, weight]

theorem tenantUsage_nonneg (s : Vault) (tenant : String) : 0 ≤ tenantUsage s tenant := by
  rw [tenantUsage_eq]
  exact totalOf_nonneg fun o _ => weight_nonneg tenant o

/-- A call charges `tenant` for `charged`, and its rows shift by `shifted`. -/
structure Charged (tenant : String) (charged shifted : Int × Int) (s s' : Vault) : Prop where
  quotas : s'.quotas = (s.addTenantUsage tenant charged.1 charged.2).quotas
  rows : Shifts tenant shifted s.objects s'.objects
  /-- The counters do not stop at zero. -/
  covered : 0 ≤ tenantUsage s tenant + charged

theorem addTenantUsage_quotas {s s' : Vault} (h : s'.quotas = s.quotas) (tenant : String)
    (deltaBytes deltaObjects : Int) :
    (s'.addTenantUsage tenant deltaBytes deltaObjects).quotas =
      (s.addTenantUsage tenant deltaBytes deltaObjects).quotas := by
  simp only [addTenantUsage, h]

variable {s s' : Vault} {tenant : String} {charged shifted : Int × Int}

theorem usedQuota_charged (hb : Balanced s) (h : Charged tenant charged shifted s s') {x : String} :
    usedQuota s' x = tenantUsage s x + if tenant = x then charged else 0 := by
  have hus := hb x
  unfold usedQuota at hus ⊢
  rw [h.quotas]
  by_cases hx : tenant = x
  · subst hx
    have hcv := h.covered
    rw [← hb tenant, Prod.le_def] at hcv
    rw [if_pos rfl, ← hb tenant]
    simp only [addTenantUsage, update_self, Prod.ext_iff]
    exact ⟨max_eq_right hcv.1, max_eq_right hcv.2⟩
  · rw [if_neg hx, add_zero, ← hus]
    simp only [addTenantUsage, update_of_ne (Ne.symm hx)]

/-- The counters stay right exactly when a call charges for the shift. -/
theorem Charged.balanced_iff (h : Charged tenant charged shifted s s') (hb : Balanced s) :
    Balanced s' ↔ charged = shifted := by
  have hsh (x : String) : tenantUsage s' x = tenantUsage s x + if tenant = x then shifted else 0 := by
    rw [tenantUsage_eq, tenantUsage_eq]
    exact h.rows x
  constructor
  · intro hb'
    have heq := (usedQuota_charged hb h).symm.trans ((hb' tenant).trans (hsh tenant))
    simpa using heq
  · intro heq x
    rw [usedQuota_charged hb h, hsh x, heq]

/-- A charge for the shift is covered, since rows never count for less than nothing. -/
theorem charged_shift (hq : s'.quotas = (s.addTenantUsage tenant shifted.1 shifted.2).quotas)
    (hrw : Shifts tenant shifted s.objects s'.objects) : Charged tenant shifted shifted s s' where
  quotas := hq
  rows := hrw
  covered := by
    have hnn := tenantUsage_nonneg s' tenant
    rw [tenantUsage_eq, hrw tenant, if_pos rfl, ← tenantUsage_eq] at hnn
    exact hnn

/-- A call that changes neither the counters nor what rows count for. -/
theorem balanced_of_frame (hb : Balanced s) (hq : s'.quotas = s.quotas)
    (hrw : Shifts tenant 0 s.objects s'.objects) : Balanced s' := by
  intro x
  have hus : usedQuota s' x = usedQuota s x := by rw [usedQuota, usedQuota, hq]
  rw [hus, hb x, tenantUsage_eq, tenantUsage_eq, hrw x, ite_self, add_zero]

/-! ### Parts -/

/-- Every recorded part is staged, with the recorded size. -/
def PartsSound (s : Vault) : Prop :=
  ∀ p ∈ s.parts, ∃ data, s.staged p.uploadID p.partNumber = some data ∧ data.length = p.size

theorem mapM_flatten_length {parts : List PartRecord} {staged : PartRecord → Option Bytes}
    (hst : ∀ p ∈ parts, ∃ data, staged p = some data ∧ data.length = p.size) {l : List Bytes}
    (h : parts.mapM staged = some l) : l.flatten.length = (parts.map PartRecord.size).sum := by
  induction parts generalizing l with
  | nil =>
    obtain rfl : [] = l := by simpa using h
    rfl
  | cons p rest ih =>
    obtain ⟨data, hd, hl⟩ := hst p mem_cons_self
    simp only [mapM_cons, hd, bind, Option.bind_some, pure, Option.bind_eq_some_iff,
      Option.some.injEq] at h
    obtain ⟨l', hl', rfl⟩ := h
    have hrs := ih (fun q hq => hst q (mem_cons_of_mem _ hq)) hl'
    rw [flatten_cons, length_append, map_cons, sum_cons, hrs, hl]

variable {ctx : Ctx} {uploadID : String}

/-- The parts merge to as many bytes as their records say. -/
theorem mergeParts_length {plan : CompletionPlan} {data : Bytes}
    (hs : SessionsSound s) (hp : PartsSound s) (hplan : CompletionPlanned ctx s uploadID plan)
    (h : mergeParts s plan.upload plan.parts = some data) : data.length = plan.total := by
  obtain ⟨l, hl, rfl⟩ := Option.map_eq_some_iff.mp h
  refine mapM_flatten_length (fun p hpr => ?_) hl
  obtain ⟨hm, hid⟩ := hplan.parts p hpr
  obtain ⟨data, hd, hln⟩ := hp p hm
  refine ⟨data, ?_, hln⟩
  rw [(hs _ hplan.upload.1).backend, hplan.upload.2, ← hid]
  exact hd

theorem partsSound_of_frame (hp : PartsSound s) (h : s'.sessions = s.sessions) : PartsSound s' := by
  have hpr : s'.parts = s.parts := congrArg (fun x => x.2.1) h
  have hst : s'.staged = s.staged := congrArg (fun x => x.2.2) h
  intro p hpart
  rw [hst]
  exact hp p (hpr ▸ hpart)

/-- A part that was received takes the place of an earlier one with its number. -/
theorem partsSound_record (hp : PartsSound s) {number : Int} {etag : String}
    {body : Bytes} :
    PartsSound (recordPart (stagePart s uploadID number body) ⟨uploadID, number, etag, body.length⟩) := by
  intro p hpr
  obtain rfl | hpr := mem_cons.mp hpr
  · exact ⟨body, by simp [recordPart, stagePart], rfl⟩
  · obtain ⟨hpr, hother⟩ := mem_filter.mp hpr
    obtain ⟨data, hd, hl⟩ := hp p hpr
    refine ⟨data, ?_, hl⟩
    rw [← hd]
    show update s.staged uploadID _ p.uploadID p.partNumber = _
    by_cases hid : p.uploadID = uploadID
    · have hnm : p.partNumber ≠ number := fun hn => by simp [hid, hn] at hother
      rw [hid, update_self, update_of_ne hnm]
    · rw [update_of_ne hid]

variable {scope : MultipartScope}

theorem uploadPart_partsSound
    {partNumber : Int} {body : Bytes} {size : Option Nat} (hs : SessionsSound s) (hp : PartsSound s)
    (hok : (uploadPart ctx scope uploadID partNumber body size s).1.isOk = true) :
    PartsSound (uploadPart ctx scope uploadID partNumber body size s).2 := by
  unfold uploadPart at hok ⊢
  split at hok
  · cases hok
  next u hu =>
    obtain ⟨hm, hid⟩ := loadMultipartUpload_ok hu
    split at hok
    · cases hok
    · dsimp only at hok ⊢
      split at hok
      · cases hok
      next hnm =>
        split at hok
        · cases hok
        next hsz =>
          rw [if_neg hnm, if_neg hsz, ← not_not.mp hsz, (hs u hm).backend, hid]
          exact partsSound_record hp

variable {manifest : Option (List PartRecord)}

/-- A completion that succeeds is a replay, or stores the merged parts. -/
theorem completeMultipart_ok (hok : (completeMultipart ctx scope uploadID manifest s).1.isOk = true) :
    (completeMultipart ctx scope uploadID manifest s).2 = s ∨
      ∃ plan data, prepareCompletion ctx scope uploadID manifest s = .ok plan ∧
        mergeParts s plan.upload plan.parts = some data ∧
        (completeMultipart ctx scope uploadID manifest s).2 =
          closeUpload (storeCompletion ctx plan data s).2 plan.upload
            (storeCompletion ctx plan data s).1 := by
  unfold completeMultipart at hok ⊢
  split at hok
  · exact .inl rfl
  · split at hok
    · cases hok
    next plan hplan =>
      unfold finishMultipartCompletion at hok ⊢
      split at hok
      · cases hok
      next data hd => exact .inr ⟨plan, data, hplan, hd, rfl⟩

theorem complete_partsSound (hs : SessionsSound s) (hp : PartsSound s)
    (hok : (completeMultipart ctx scope uploadID manifest s).1.isOk = true) :
    PartsSound (completeMultipart ctx scope uploadID manifest s).2 := by
  obtain h | ⟨plan, data, hplan, -, h⟩ := completeMultipart_ok hok
  · rw [h]
    exact hp
  · have hf := storeCompletion_frame ctx plan data s
    have hpart : (storeCompletion ctx plan data s).2.parts = s.parts := congrArg (fun x => x.2.1) hf
    have hst : (storeCompletion ctx plan data s).2.staged =
        update s.staged plan.upload.backendUID fun _ => none :=
      congrArg (fun x => x.2.2) hf
    have hbc := (hs _ (completionPlanned hplan).upload.1).backend
    rw [h]
    intro p hpr
    obtain ⟨hpr, hother⟩ := mem_filter.mp hpr
    rw [hpart] at hpr
    obtain ⟨data', hd', hl⟩ := hp p hpr
    refine ⟨data', ?_, hl⟩
    show (storeCompletion ctx plan data s).2.staged p.uploadID p.partNumber = some data'
    have hne : p.uploadID ≠ plan.upload.backendUID := fun heq => by simp [heq, hbc] at hother
    rw [hst, update_of_ne hne]
    exact hd'

variable {c : Call}

theorem partsSound_next (hs : SessionsSound s) (hp : PartsSound s)
    (hok : c.succeeds s = true) : PartsSound (s.next c) := by
  cases hm : c.request.multipart with
  | false => exact partsSound_of_frame hp (call_recorded c s hm).sessions
  | true =>
    obtain ⟨ctx, request⟩ := c
    cases request with
    | initMultipart req =>
      show PartsSound (initMultipart ctx req s).2
      unfold initMultipart
      split <;> exact hp
    | uploadPart scope uploadID partNumber body size => exact uploadPart_partsSound hs hp hok
    | completeMultipart scope uploadID manifest => exact complete_partsSound hs hp hok
    | _ => cases hm

/-! ### Writes -/

theorem shifts_saveObject (ctx : Ctx) (s : Vault) (obj : Object) (versioning : Bool) (acl : String)
    (hold : Bool) (reason : String) :
    Shifts obj.path.tenantID ((objectWriteUsage s obj.path versioning).deltas obj.size) s.objects
      (saveObject ctx s obj versioning acl hold reason).2.objects := by
  refine saveObject_rule ?_ fun t t' h hok => ?_
  · cases versioning with
    | true => exact shifts_insertObjectVersion ctx.now obj s.objects
    | false =>
      cases hrow : getObject s.objects obj.path with
      | none =>
        simp only [objectWriteUsage, hrow]
        exact shifts_upsertObject_none ctx.now hrow
      | some row =>
        simp only [objectWriteUsage, hrow]
        exact shifts_upsertObject_some ctx.now hrow
  · have ht := h.trans (shifts_setObjectACL obj.path.tenantID hok)
    rw [add_zero] at ht
    exact ht

theorem liveSound_writtenRows {t : Objects} {now : Nat} {obj : Object} {versioning : Bool} (h : LiveSound t) :
    LiveSound (writtenRows now obj versioning t) := by
  cases versioning with
  | true => exact h.insertObjectVersion now obj
  | false => exact h.upsertObject now obj

variable {req : PutRequest}

theorem put_ok (hok : (put ctx req s).1.isOk = true) :
    ∃ plan, preparePut ctx req s = .ok plan ∧
      (put ctx req s).2 = (writePutObject ctx req plan (s.putBlob plan.storageKey req.body ctx.now)).2 := by
  unfold put at hok ⊢
  split at hok
  · cases hok
  next plan hplan =>
    split at hok
    · cases hok
    next hsz =>
      split at hok
      · cases hok
      next hd => exact ⟨plan, hplan, by rw [if_neg hsz, if_neg hd]⟩

theorem put_charged (hok : (put ctx req s).1.isOk = true) :
    ∃ tenant d, Charged tenant d d s (put ctx req s).2 := by
  obtain ⟨plan, hplan, h⟩ := put_ok hok
  have hrw := shifts_saveObject ctx (s.putBlob plan.storageKey req.body ctx.now)
    (buildPutObject ctx req plan) plan.config.versioning req.opts.acl req.opts.legalHold "s3 upload"
  have hsz := saveObject_size ctx (s.putBlob plan.storageKey req.body ctx.now)
    (buildPutObject ctx req plan) plan.config.versioning req.opts.acl req.opts.legalHold "s3 upload"
  rw [h]
  refine ⟨plan.path.tenantID, plan.usage.deltas req.body.length, charged_shift ?_ ?_⟩
  · simp only [writePutObject, hsz]
    exact addTenantUsage_quotas (saveObject_quotas ..) ..
  · rw [(planned hplan).usage]
    exact hrw

theorem complete_balanced (hs : SessionsSound s) (hp : PartsSound s) (hb : Balanced s)
    (hok : (completeMultipart ctx scope uploadID manifest s).1.isOk = true) :
    Balanced (completeMultipart ctx scope uploadID manifest s).2 := by
  obtain h | ⟨plan, data, hplan, hd, h⟩ := completeMultipart_ok hok
  · rw [h]
    exact hb
  · have hplanned := completionPlanned hplan
    have hl := mergeParts_length hs hp hplanned hd
    have hsz : (buildObjectFromUpload ctx plan data).size = plan.total := by
      show (if data.length = 0 then plan.total else data.length) = plan.total
      rw [hl, ite_self]
    obtain ⟨cleaned, acl, hold, hst, -, hpath, -, -, hcl⟩ :=
      storeCompletion_eq ctx (hs _ hplanned.upload.1) data s
    have hrw := shifts_saveObject ctx
      ((accountCompletion plan s).putBlob (uploadStorageKey plan.upload) data ctx.now) cleaned
      plan.config.versioning acl hold "s3 multipart upload"
    rw [hpath, hcl, hsz] at hrw
    have hch : Charged plan.upload.path.tenantID (plan.usage.deltas plan.total)
        (plan.usage.deltas plan.total) s (completeMultipart ctx scope uploadID manifest s).2 := by
      refine charged_shift ?_ ?_
      · rw [h, hst]
        exact saveObject_quotas ..
      · rw [h, hst, hplanned.usage]
        exact hrw
    exact (hch.balanced_iff hb).mpr rfl

/-! ### Removals -/

theorem deleteVersionBlobs_quotas {versions : List Object} :
    (deleteVersionBlobs versions s).quotas = s.quotas := by
  rw [deleteVersionBlobs_frame]

variable {bucket key : String} {o : Object}

theorem softDelete_charged {now : Nat} (hl : LiveSound s.objects) (ho : getObject s.objects o.path = some o)
    (hok : (softDeleteObjectWithRefs now o s).1.isOk = true) :
    Charged o.path.tenantID (-((o.size : Int), 1)) (-((o.size : Int), 1)) s
      (softDeleteObjectWithRefs now o s).2 := by
  unfold softDeleteObjectWithRefs at hok ⊢
  split at hok
  · cases hok
  next objects hsf => exact charged_shift rfl (shifts_softDeleteObject hl ho hsf)

theorem countedObjectUsage_listObjectVersions (t : Objects) (k : Path) :
    countedObjectUsage (listObjectVersions t k) = totalOf rowUsage (versionsAt t k) := by
  rw [countedObjectUsage_eq]
  exact ((perm_insertionSort newer (versionsAt t k)).map rowUsage).sum_eq

theorem hardDelete_charged {k : Path}
    (hok : (hardDeleteObjectWithVersions k (listObjectVersions s.objects k) s).1.isOk = true) :
    Charged k.tenantID (-countedObjectUsage (listObjectVersions s.objects k))
      (-countedObjectUsage (listObjectVersions s.objects k)) s
      (hardDeleteObjectWithVersions k (listObjectVersions s.objects k) s).2 := by
  unfold hardDeleteObjectWithVersions at hok ⊢
  dsimp only at hok ⊢
  rw [deleteVersionBlobs_held, deleteVersionBlobs_objects] at hok ⊢
  split at hok
  · cases hok
  next objects hh =>
    obtain rfl := hardDeleteObjectWithEvent_ok hh
    refine charged_shift ?_ ?_
    · exact addTenantUsage_quotas deleteVersionBlobs_quotas ..
    · rw [countedObjectUsage_listObjectVersions]
      exact shifts_delete_path s.objects k

variable {hard : Bool}

theorem removeObject_charged (hl : LiveSound s.objects)
    (ho : getObject s.objects o.path = some o) (hok : (removeObject ctx o hard s).1.isOk = true) :
    ∃ d, Charged o.path.tenantID d d s (removeObject ctx o hard s).2 := by
  unfold removeObject at hok ⊢
  cases hard with
  | false => exact ⟨_, softDelete_charged hl ho hok⟩
  | true =>
    rw [if_pos rfl] at hok ⊢
    split at hok
    · cases hok
    next versions hv =>
      obtain ⟨rfl, -⟩ := versionsForHardDelete_ok hv
      exact ⟨_, hardDelete_charged hok⟩

theorem delete_charged (hl : LiveSound s.objects)
    (hok : (delete ctx tenant bucket key hard s).1.isOk = true) :
    ∃ T d, Charged T d d s (delete ctx tenant bucket key hard s).2 := by
  unfold delete at hok ⊢
  split at hok
  · cases hok
  next o ho =>
    split at hok
    · cases hok
    · exact ⟨o.path.tenantID, removeObject_charged hl (deletable_ok ho).1 hok⟩

theorem adminDelete_charged
    (hl : LiveSound s.objects) (hok : (adminDelete ctx tenant bucket key hard s).1.isOk = true) :
    ∃ T d, Charged T d d s (adminDelete ctx tenant bucket key hard s).2 := by
  unfold adminDelete at hok ⊢
  split at hok
  · cases hok
  · split at hok
    · cases hok
    next o ho => exact ⟨o.path.tenantID, removeObject_charged hl (deletable_ok ho).1 hok⟩

variable {versionID : String}

/-- `DeleteVersion` charges for the version, whatever the promotion adds. -/
theorem deleteVersion_charged
    (hv : VersionsDistinct s) (ho : prepareVersionDelete ctx tenant bucket key versionID s = .ok o)
    (hok : (deleteVersion ctx tenant bucket key versionID s).1.isOk = true) :
    Charged o.path.tenantID (-rowUsage o)
      (-rowUsage o + promotedUsage o.path (s.objects.delete fun a => a.id == o.id)) s
      (deleteVersion ctx tenant bucket key versionID s).2 := by
  have hm := (prepareVersionDelete_ok ho).1
  unfold deleteVersion at hok ⊢
  simp only [ho, deleteVersionBlobs_objects] at hok ⊢
  split at hok
  · cases hok
  next objects hd =>
    obtain ⟨row, hfound, -, rfl⟩ := deleteObjectVersion_ok hd
    obtain ⟨hrow, -, hversion⟩ := getObjectVersion_some hfound
    obtain rfl := hv.rows row hrow o hm hversion
    have hone := shifts_delete_one hrow (id_eq_iff hrow)
    refine ⟨?_, hone.trans (shifts_promote row.path _), ?_⟩
    · have hus : countedObjectUsage [row] = rowUsage row := by
        rw [countedObjectUsage_eq, totalOf_cons, totalOf_nil, add_zero]
      rw [hus]
      exact addTenantUsage_quotas deleteVersionBlobs_quotas ..
    · have hl : 0 ≤ (s.objects.delete fun a => a.id == row.id).total (weight row.path.tenantID) :=
        totalOf_nonneg fun a _ => weight_nonneg _ a
      rw [hone row.path.tenantID, if_pos rfl, ← tenantUsage_eq] at hl
      exact hl

/-! ### Restore -/

/-- `RestoreObject` charges for the service's pick, and restores the repository's. -/
theorem restore_charged (ho : prepareRestore ctx tenant bucket key s = .ok o)
    (hok : (restore ctx tenant bucket key s).1.isOk = true) :
    ∃ row, restoredRow o.path s.objects = some row ∧
      Charged o.path.tenantID ((o.size : Int), 1) ((row.size : Int), 1) s
        (restore ctx tenant bucket key s).2 := by
  unfold restore at hok ⊢
  simp only [ho] at hok ⊢
  split at hok
  · cases hok
  next objects hrs =>
    obtain ⟨row, hrow, hsh⟩ := restoreObject_shifts hrs
    refine ⟨row, hrow, ?_, ?_, ?_⟩
    · rfl
    · exact hsh
    · exact add_nonneg (tenantUsage_nonneg s _) ⟨Int.natCast_nonneg _, Int.one_nonneg⟩

/-! ### Live rows -/

theorem Statement.liveSound {t t' : Objects} (h : Statement t t') (hl : LiveSound t) : LiveSound t' := by
  induction h with
  | unchanged => exact hl
  | save now obj versioning => exact liveSound_writtenRows hl
  | setACL _ hok ih => exact ih.setObjectACL hok
  | softDelete h => exact hl.softDeleteObject h
  | hardDelete k => exact hl.subset fun a ha => (mem_hardDelete.mp ha).1
  | deleteVersion k id => exact (hl.subset fun a ha => (Table.mem_delete.mp ha).1).promote _
  | restore h => exact hl.restoreObject h
  | mark now k versionID metadata => exact hl.insertDeleteMarker ..
  | retain h => exact hl.setObjectRetention h

theorem complete_liveSound (h : LiveSound s.objects) :
    LiveSound (completeMultipart ctx scope uploadID manifest s).2.objects := by
  unfold completeMultipart
  split
  · exact h
  · split
    · exact h
    · unfold finishMultipartCompletion
      split
      · exact h
      · exact saveObject_rule (liveSound_writtenRows h) fun t t' ht hok => ht.setObjectACL hok

theorem liveSound_next (h : LiveSound s.objects) : LiveSound (s.next c).objects := by
  have hnt (hn : c.request.storesNothing = true) : LiveSound (s.next c).objects := by
    have ho : (s.next c).objects = s.objects := congrArg Prod.fst (next_stored c s hn)
    rw [ho]
    exact h
  cases hm : c.request.multipart with
  | false => exact (call_recorded c s hm).statement.liveSound h
  | true =>
    obtain ⟨ctx, request⟩ := c
    cases request with
    | completeMultipart scope uploadID manifest => exact complete_liveSound h
    | initMultipart | uploadPart => exact hnt rfl
    | _ => cases hm

/-! ### Runs -/

/-- `DeleteVersion` revives no row that a user had deleted: if it leaves the key
without a live row, the newest one left is a delete marker or a historical version. -/
def AccountsVersionDelete (ctx : Ctx) (tenant bucket key versionID : String) (s : Vault) : Prop :=
  ∀ o, prepareVersionDelete ctx tenant bucket key versionID s = .ok o →
    ∀ row ∈ promotedRow o.path (s.objects.delete fun a => a.id == o.id), row.versionTombstone = true

/-- The row that the repository restores, by time alone, has the size of the one
that the service picked, by time and ID. -/
def AccountsRestore (ctx : Ctx) (tenant bucket key : String) (s : Vault) : Prop :=
  ∀ o, prepareRestore ctx tenant bucket key s = .ok o →
    ∀ row ∈ restoredRow o.path s.objects, row.size = o.size

def Call.Accounts (c : Call) (s : Vault) : Prop :=
  match c.request with
  | .deleteVersion tenant bucket key versionID =>
    AccountsVersionDelete c.ctx tenant bucket key versionID s
  | .restoreObject tenant bucket key => AccountsRestore c.ctx tenant bucket key s
  | _ => True

instance (c : Call) (s : Vault) : Decidable (c.Accounts s) := by
  obtain ⟨ctx, request⟩ := c
  cases request <;> dsimp only [Call.Accounts, AccountsVersionDelete, AccountsRestore] <;> infer_instance

structure UsageSound (s : Vault) : Prop where
  sessions : SessionsSound s
  versions : VersionsDistinct s
  parts : PartsSound s
  live : LiveSound s.objects

theorem deleteVersion_balanced_iff (hv : VersionsDistinct s) (hb : Balanced s)
    (hok : (deleteVersion ctx tenant bucket key versionID s).1.isOk = true) :
    Balanced (deleteVersion ctx tenant bucket key versionID s).2 ↔
      AccountsVersionDelete ctx tenant bucket key versionID s := by
  cases ho : prepareVersionDelete ctx tenant bucket key versionID s with
  | error err =>
    simp only [deleteVersion, ho] at hok
    cases hok
  | ok o =>
    rw [(deleteVersion_charged hv ho hok).balanced_iff hb, left_eq_add, promotedUsage_eq_zero]
    unfold AccountsVersionDelete
    simp only [ho, Except.ok.injEq, forall_eq']

theorem restore_balanced_iff (hb : Balanced s) (hok : (restore ctx tenant bucket key s).1.isOk = true) :
    Balanced (restore ctx tenant bucket key s).2 ↔ AccountsRestore ctx tenant bucket key s := by
  cases ho : prepareRestore ctx tenant bucket key s with
  | error err =>
    simp only [restore, ho] at hok
    cases hok
  | ok o =>
    obtain ⟨row, hrow, hch⟩ := restore_charged ho hok
    rw [hch.balanced_iff hb]
    unfold AccountsRestore
    simp only [ho, hrow, Except.ok.injEq, Option.mem_def, Option.some.injEq, forall_eq', Prod.mk.injEq, and_true,
      Nat.cast_inj]
    exact eq_comm

theorem createDeleteMarker_balanced (hb : Balanced s) :
    Balanced (createDeleteMarker ctx tenant bucket key s).2 := by
  unfold createDeleteMarker
  split
  · exact hb
  next k metadata _ =>
    exact balanced_of_frame hb rfl
      (shifts_insertDeleteMarker ctx.now k ctx.newVersionID metadata s.objects)

theorem setRetention_balanced {mode : String} {till : Nat}
    (hb : Balanced s) : Balanced (setRetention ctx tenant bucket key versionID mode till s).2 := by
  unfold setRetention
  split
  · exact hb
  · split
    · exact hb
    next objects hset => exact balanced_of_frame hb rfl (shifts_setObjectRetention tenant hset)

theorem balanced_next_iff (hs : UsageSound s) (hb : Balanced s)
    (hok : c.succeeds s = true) : Balanced (s.next c) ↔ c.Accounts s := by
  have hnoth (hn : c.request.storesNothing = true) : Balanced (s.next c) := by
    have hst := next_stored c s hn
    have ho : (s.next c).objects = s.objects := congrArg Prod.fst hst
    have hrw : Shifts "" 0 s.objects (s.next c).objects := by
      rw [ho]
      exact .refl "" _
    exact balanced_of_frame hb (congrArg (fun x => x.2.1) hst) hrw
  have hch {s' : Vault} (h : ∃ T d, Charged T d d s s') : Balanced s' ↔ True := by
    obtain ⟨T, d, h⟩ := h
    exact iff_true_intro ((h.balanced_iff hb).mpr rfl)
  obtain ⟨ctx, request⟩ := c
  cases request with
  | put req => exact hch (put_charged hok)
  | completeMultipart scope uploadID manifest =>
    exact iff_true_intro (complete_balanced hs.sessions hs.parts hb hok)
  | delete tenant bucket key hard => exact hch (delete_charged hs.live hok)
  | adminDelete tenant bucket key hard => exact hch (adminDelete_charged hs.live hok)
  | deleteVersion tenant bucket key versionID => exact deleteVersion_balanced_iff hs.versions hb hok
  | restoreObject tenant bucket key => exact restore_balanced_iff hb hok
  | createDeleteMarker tenant bucket key => exact iff_true_intro (createDeleteMarker_balanced hb)
  | setObjectRetention tenant bucket key versionID mode till =>
    exact iff_true_intro (setRetention_balanced hb)
  | initMultipart | uploadPart | setBucketVersioning | setBucketObjectLock | putLegalHold =>
    exact iff_true_intro (hnoth rfl)

theorem balanced_empty {buckets : String → String → BucketConfig} {maxBytes maxObjects : String → Int} :
    Balanced (.empty buckets maxBytes maxObjects) := fun _ => rfl

theorem usageSound_empty {buckets : String → String → BucketConfig}
    {maxBytes maxObjects : String → Int} : UsageSound (.empty buckets maxBytes maxObjects) where
  sessions := sessionsSound_empty buckets maxBytes maxObjects
  versions := versionsDistinct_empty ..
  parts := nofun
  live := liveSound_empty

/-- The calls of the run succeed, and draw version IDs that are not in use. -/
abbrev Call.Completes (c : Call) (s : Vault) : Prop := c.succeeds s = true ∧ c.DrawsFresh s

theorem usageSound_next (hs : UsageSound s) (hc : c.Completes s) : UsageSound (s.next c) where
  sessions := sessionsSound_next c hs.sessions
  versions := versionsDistinct_next hs.sessions hs.versions hc.2
  parts := partsSound_next hs.sessions hs.parts hc.1
  live := liveSound_next hs.live

/-- **Along a run of successful calls from the empty vault, every tenant's counters are
what its rows count for, exactly when no `DeleteVersion` revives a row that a user
had deleted and every `RestoreObject` charges for the size it restores.** -/
theorem usage_balanced_iff (buckets : String → String → BucketConfig)
    (maxBytes maxObjects : String → Int) (calls : List Call)
    (hcalls : Each next (fun s c => c.Completes s) (.empty buckets maxBytes maxObjects) calls) :
    Always next Balanced (.empty buckets maxBytes maxObjects) calls ↔
      Each next (fun s c => c.Accounts s) (.empty buckets maxBytes maxObjects) calls :=
  always_iff_each (fun _ _ hs hc => usageSound_next hs hc)
    (fun _ _ hs hb hc => balanced_next_iff hs hb hc.1) usageSound_empty
    balanced_empty hcalls

/-- Two versions, of which the second is deleted and the first promoted, deleted by
the user and restored. -/
theorem usage_balanced_promoted_and_restored :
    Always next Balanced
      (.empty (fun _ _ => ⟨true, 0, 0, 0, 0⟩))
      [⟨allowedUser 1 "v1" "u1", .put (plainPut "acme" "docs" "a" [1])⟩,
        ⟨allowedUser 2 "v2" "u2", .put (plainPut "acme" "docs" "a" [2, 2])⟩,
        ⟨allowedUser 3 "v3" "u3", .deleteVersion "acme" "docs" "a" "v2"⟩,
        ⟨allowedUser 4 "v4" "u4", .delete "acme" "docs" "a" false⟩,
        ⟨allowedUser 5 "v5" "u5", .restoreObject "acme" "docs" "a"⟩] := by
  refine (usage_balanced_iff _ _ _ _ ?_).mpr ?_ <;> decide +kernel

/-- A version that the user deletes, a second one, and the deletion of the second:
the first is live again, and not counted. -/
theorem promoted_after_soft_delete_uncounted :
    let start : Vault := .empty (fun _ _ => ⟨true, 0, 0, 0, 0⟩)
    let calls : List Call :=
      [⟨allowedUser 1 "v1" "u1", .put (plainPut "acme" "docs" "a" [1])⟩,
        ⟨allowedUser 2 "v2" "u2", .delete "acme" "docs" "a" false⟩,
        ⟨allowedUser 3 "v3" "u3", .put (plainPut "acme" "docs" "a" [2, 2])⟩,
        ⟨allowedUser 4 "v4" "u4", .deleteVersion "acme" "docs" "a" "v3"⟩]
    Each next (fun s c => c.Completes s) start calls ∧ ¬ Always next Balanced start calls := by
  intro start calls
  refine ⟨by decide +kernel, fun h => ?_⟩
  have hl : usedQuota (run next start calls) "acme" =
      tenantUsage (run next start calls) "acme" := h.last "acme"
  revert hl
  decide +kernel

end AeroVault.Service
