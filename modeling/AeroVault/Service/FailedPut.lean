import AeroVault.Service.Effects

/-! A `Put` that may fail, what it leaves (`putFailing_leaves`), and what is read of its key
afterwards.

Where a `Put` gives up is an input of the call (`PutFailure`): the source stores the
blob, then writes the row and then, one after the other, the ACL, the legal hold and the
usage, and it undoes none of these but the blob of a body it refuses. Without a failure
it is `put` (`putFailing_none`).

A failed `Put` keeps what `Get` and `GetVersion` return exactly when it has not come to
write its row and leaves, under its storage key, what every row stored there was read as
(`failed_put_keeps_reads_iff`). In an unversioned bucket that is the object which was to
be replaced: its blob is overwritten before anything is checked, and deleted afterwards
as if it were an orphan (`bad_digest_destroys_object`). -/
namespace AeroVault.Service
open Lib Repository Access

/-! ### Reading -/

/-- The errors of a read. -/
inductive GetError
  | service (err : ServiceError)
  /-- `ErrObjectCorrupt`. -/
  | objectCorrupt
  /-- An object encrypted with the customer's key is not read without it. -/
  | sseCustomerKeyRequired
  deriving DecidableEq

/-- A read: the caller, and what `validateSSECRead` answers to an object's metadata, by
the customer key that the call brings. -/
structure ReadCall where
  ctx : Ctx
  validateSSECRead : GoMap → Option GetError

def checkCorrupt (o : Object) : Except GetError Unit :=
  if o.metadata.get "_aero_scrub_status" = "corrupt" then .error .objectCorrupt else .ok ()

/-- The last checks of a read, and the stream. A verifier of the ETag that is put around the
stream sees nothing but the object and these bytes. -/
def openObject (call : ReadCall) (s : Vault) (o : Object) : Except GetError (Object × Bytes) := do
  (authorizeObject call.ctx .read o).mapError .service
  match call.validateSSECRead o.metadata with
  | some err => throw err
  | none =>
    (acceptObjectKey o.storageKey).mapError .service
    match s.bytes o.storageKey with
    | none => throw (.service .notFound)
    | some data => return (o, data)

def getWithOptions (call : ReadCall) (tenant bucket key : String) (s : Vault) :
    Except GetError (Object × Bytes) := do
  let k ← (checkedObjectDefaults tenant bucket key).mapError .service
  match getObject s.objects k with
  | none => throw (.service .notFound)
  | some o =>
    checkCorrupt o
    openObject call s o

def getVersionWithOptions (call : ReadCall) (tenant bucket key versionID : String) (s : Vault) :
    Except GetError (Object × Bytes) := do
  let o ← (objectVersion s tenant bucket key versionID).mapError .service
  checkCorrupt o
  if o.isDeleteMarker then throw (.service .notFound)
  openObject call s o

/-- Every read of the key gives in `t` what it gives in `s`, and so does every read of a version
that `s` has. -/
structure SameReads (s t : Vault) (tenant bucket key : String) : Prop where
  live : ∀ call, getWithOptions call tenant bucket key t = getWithOptions call tenant bucket key s
  versions : ∀ call versionID o, objectVersion s tenant bucket key versionID = .ok o →
    getVersionWithOptions call tenant bucket key versionID t =
      getVersionWithOptions call tenant bucket key versionID s

/-! ### Writing -/

/-- Where a `Put` fails that its own checks admit. -/
inductive PutFailure
  | none
  /-- Before the backend has touched the blob. -/
  | early
  /-- In the backend, after it has touched the blob; what is read there now. A failed `Put` of the
  local backend leaves the old sidecar with the new content or with none. -/
  | storage (left : Option Bytes)
  /-- The blob of a refused body is not deleted again; this is only logged. -/
  | cleanup
  | row
  | acl
  | hold
  | usage
  deriving DecidableEq

inductive PutError
  | service (err : ServiceError)
  /-- The repository, the backend or a stream failed. -/
  | failed
  deriving DecidableEq

/-- The blob as the backend leaves it when it fails. -/
def Vault.leaveBlob (s : Vault) (key : String) (now : Nat) : Option Bytes → Vault
  | some data => s.putBlob key data now
  | none => s.deleteBlob key

/-- `Put` once the backend has stored the body. -/
def finishPut (failure : PutFailure) (ctx : Ctx) (req : PutRequest) (plan : PutPlan) (s : Vault) :
    Except PutError Object × Vault :=
  let stored := s.putBlob plan.storageKey req.body ctx.now
  let cleaned := if failure = .cleanup then stored else stored.deleteBlob plan.storageKey
  let save (acl : String) (hold : Bool) :=
    saveObject ctx stored (buildPutObject ctx req plan) plan.config.versioning acl hold "s3 upload"
  if req.body.length ≠ plan.size then
    (.error (.service (.sizeMismatch plan.size req.body.length)), cleaned)
  else if !plan.digestMatches ctx req.body then (.error (.service .badDigest), cleaned)
  else if failure = .row then (.error .failed, stored)
  else if failure = .acl ∧ req.opts.acl ≠ "" then (.error .failed, (save "" false).2)
  else if failure = .hold ∧ req.opts.legalHold = true then (.error .failed, (save req.opts.acl false).2)
  else
    let saved := save req.opts.acl req.opts.legalHold
    if failure = .usage then (.error .failed, saved.2)
    else (.ok saved.1, accountObjectUsage saved.2 plan.path.tenantID plan.usage saved.1.size)

def putFailing (failure : PutFailure) (ctx : Ctx) (req : PutRequest) (s : Vault) :
    Except PutError Object × Vault :=
  match preparePut ctx req s with
  | .error err => (.error (.service err), s)
  | .ok plan =>
    match failure with
    | .early => (.error .failed, s)
    | .storage left => (.error .failed, s.leaveBlob plan.storageKey ctx.now left)
    | _ => finishPut failure ctx req plan s

theorem putFailing_none (ctx : Ctx) (req : PutRequest) (s : Vault) :
    putFailing .none ctx req s = ((put ctx req s).1.mapError .service, (put ctx req s).2) := by
  unfold putFailing put
  cases preparePut ctx req s with
  | error err => rfl
  | ok plan =>
    dsimp only [finishPut]
    by_cases hsz : req.body.length ≠ plan.size
    · simp only [if_pos hsz]
      rfl
    · by_cases hd : (!plan.digestMatches ctx req.body) = true
      · simp only [if_neg hsz, if_pos hd]
        rfl
      · simp only [if_neg hsz, if_neg hd]
        rfl

/-! ### What a failed `Put` leaves -/

/-- What is read under the storage key, if it was touched. -/
def blobLeft (failure : PutFailure) (accepted : Bool) (body : Bytes) : Option (Option Bytes) :=
  match failure with
  | .early => none
  | .storage left => some left
  | _ => some (if failure = .cleanup ∨ accepted = true then some body else none)

/-- Whether the row was written. -/
def rowLeft (failure : PutFailure) (accepted : Bool) : Bool :=
  match failure with
  | .early | .storage _ | .row => false
  | _ => accepted

theorem rowLeft_refused (failure : PutFailure) : rowLeft failure false = false := by cases failure <;> rfl

/-- A row is written only for a body that was accepted, and is then stored. -/
theorem blobLeft_of_row {failure : PutFailure} {accepted : Bool} {body : Bytes}
    (h : rowLeft failure accepted = true) : blobLeft failure accepted body = some (some body) := by
  cases accepted with
  | false => simp [rowLeft_refused] at h
  | true => cases failure <;> first | rfl | cases h

/-- A row with its content where it was. -/
structure SameContent (o o' : Object) : Prop where
  id : o'.id = o.id
  path : o'.path = o.path
  storageKey : o'.storageKey = o.storageKey
  metadata : o'.metadata = o.metadata

theorem SameContent.refl (o : Object) : SameContent o o := ⟨rfl, rfl, rfl, rfl⟩

/-- The rows after a row of `obj` was written: it is the live one of its key, and every
other row is as it was, or historical. -/
structure RowWritten (obj : Object) (rows rows' : Objects) : Prop where
  live : ∃ r, getObject rows' obj.path = some r ∧ WrittenAs obj r
  others : ∀ k, k ≠ obj.path → getObject rows' k = getObject rows k
  kept : ∀ o ∈ rows.rows, (∃ o' ∈ rows'.rows, SameContent o o') ∨
    getObject rows obj.path = some o ∧ ∃ r ∈ rows'.rows, r.id = o.id ∧ r.path = o.path ∧ WrittenAs obj r

section Rows
variable {obj : Object} {rows rows' : Objects} {now : Nat}

theorem rowWritten_upsert_some {row : Object} (hrow : getObject rows obj.path = some row) :
    RowWritten obj rows (upsertObject now obj rows).2 := by
  refine ⟨live_upsertObject now obj rows, fun k hk => ?_, fun o ho => ?_⟩
  · rw [getObject_upsertObject_some now hrow]
    cases hl : getObject rows k with
    | none => rfl
    | some a =>
      have hne : a.id ≠ row.id := by
        intro hid
        have ha := getObject_some hl
        rw [eq_of_id ha.1 (getObject_some hrow).1 hid] at ha
        exact hk (ha.2.1.symm.trans (getObject_some hrow).2.1)
      simp [hne]
  · by_cases hid : o.id = row.id
    · obtain rfl := eq_of_id ho (getObject_some hrow).1 hid
      exact .inr ⟨hrow, overwriteColumns now obj o, (mem_upsertObject_some now hrow).mpr (.inl rfl),
        rfl, rfl, rfl, rfl, rfl⟩
    · exact .inl ⟨o, (mem_upsertObject_some now hrow).mpr (.inr ⟨ho, hid⟩), .refl o⟩

theorem rowWritten_upsert_none (hrow : getObject rows obj.path = none) :
    RowWritten obj rows (upsertObject now obj rows).2 := by
  have hrw : (upsertObject now obj rows).2 = rows.insert (insertColumns now obj) := by
    simp only [upsertObject, hrow]
  refine ⟨live_upsertObject now obj rows, fun k hk => ?_, fun o ho => ?_⟩
  · rw [hrw, getObject_insert, liveAt_insertColumns_ne now hk]
    simp
  · exact .inl ⟨o, (mem_upsertObject_none now hrow).mpr (.inl ho), .refl o⟩

theorem rowWritten_insertVersion : RowWritten obj rows (insertObjectVersion now obj rows).2 := by
  have hrw : (insertObjectVersion now obj rows).2 =
      (retireLive now obj.path rows).insert (insertColumns now obj) := rfl
  refine ⟨live_insertObjectVersion now obj rows, fun k hk => ?_, fun o ho => ?_⟩
  · rw [hrw, getObject_insert, liveAt_insertColumns_ne now hk, getObject_retireLive_ne now hk]
    simp
  · by_cases hl : o.path = obj.path ∧ o.live = true
    · refine .inl ⟨retired now o, mem_insertObjectVersion.mpr (.inl ?_), rfl, rfl, rfl, rfl⟩
      exact mem_retireLive.mpr (.inl ⟨o, ho, hl.1, hl.2, rfl⟩)
    · exact .inl ⟨o, mem_insertObjectVersion.mpr (.inl (mem_retireLive.mpr (.inr ⟨ho, hl⟩))), .refl o⟩

/-- The ACL of the row changes nothing that a read finds. -/
theorem RowWritten.setObjectACL {acl : String} {t : Objects} (h : RowWritten obj rows rows')
    (hacl : setObjectACL obj.path acl rows' = .ok t) : RowWritten obj rows t := by
  have hrows := setObjectACL_ok hacl
  have hget (k : Path) : getObject t k =
      (getObject rows' k).map fun o => if liveAt obj.path o then {o with acl := acl} else o := by
    rw [hrows]
    exact getObject_update (fun _ => rfl) fun _ _ _ => rfl
  have hmem {o : Object} (ho : o ∈ rows'.rows) :
      (if liveAt obj.path o then {o with acl := acl} else o) ∈ t.rows := by
    have hid (o : Object) : Row.id {o with acl := acl} = Row.id o := rfl
    rw [hrows, Table.mem_update hid]
    split_ifs with hl
    exacts [.inl ⟨o, ho, hl, rfl⟩, .inr ⟨ho, Bool.eq_false_iff.mpr hl⟩]
  refine ⟨?_, fun k hk => ?_, fun o ho => ?_⟩
  · obtain ⟨r, hr, hwr⟩ := h.live
    refine ⟨_, (hget _).trans (congrArg _ hr), ?_⟩
    dsimp only
    split_ifs
    exacts [⟨hwr.versionID, hwr.storageKey, hwr.metadata⟩, hwr]
  · rw [hget, ← h.others k hk]
    cases hg : getObject rows' k with
    | none => rfl
    | some o =>
      have hnot : liveAt obj.path o = false := by simp [liveAt, atPath, (getObject_some hg).2.1, hk]
      simp [hnot]
  · obtain ⟨o', ho', hs⟩ | ⟨hg, r, hr, hid, hp, hwr⟩ := h.kept o ho
    · refine .inl ⟨_, hmem ho', ?_⟩
      split_ifs
      exacts [⟨hs.id, hs.path, hs.storageKey, hs.metadata⟩, hs]
    · refine .inr ⟨hg, _, hmem hr, ?_⟩
      split_ifs
      exacts [⟨hid, hp, hwr.versionID, hwr.storageKey, hwr.metadata⟩, ⟨hid, hp, hwr⟩]

/-- The row that a save writes, whatever it does to it afterwards. -/
theorem rowWritten_saveObject (ctx : Ctx) (s : Vault) (obj : Object) (versioning : Bool) (acl : String)
    (hold : Bool) (reason : String) :
    RowWritten obj s.objects (saveObject ctx s obj versioning acl hold reason).2.objects := by
  refine saveObject_rule ?_ fun t t' h hacl => h.setObjectACL hacl
  cases versioning with
  | true => exact rowWritten_insertVersion
  | false =>
    cases hrow : getObject s.objects obj.path with
    | some row => exact rowWritten_upsert_some hrow
    | none => exact rowWritten_upsert_none hrow

end Rows

/-- The vault after a `Put` of `obj` that failed or not. -/
structure Leaves (obj : Object) (blob : Option (Option Bytes)) (row : Bool) (s t : Vault) : Prop where
  bytes : ∀ key, t.bytes key = if key = obj.storageKey then blob.getD (s.bytes key) else s.bytes key
  unwritten : row = false → t.objects = s.objects
  written : row = true → RowWritten obj s.objects t.objects

/-- The blob that a key is read from changes only under the key of the object. -/
theorem Leaves.bytes_iff {obj : Object} {blob : Option (Option Bytes)} {row : Bool} {s t : Vault} {key : String}
    (h : Leaves obj blob row s t) : t.bytes key = s.bytes key ↔
      ∀ left, blob = some left → key = obj.storageKey → s.bytes key = left := by
  rw [h.bytes]
  by_cases hkey : key = obj.storageKey
  · cases blob with
    | none => simp
    | some left => simp [eq_comm]
  · simp [hkey]

section Failed
variable {failure : PutFailure} {ctx : Ctx} {req : PutRequest} {s t : Vault} {plan : PutPlan} {o : Object}

theorem bytes_leaveBlob (s : Vault) (key : String) (now : Nat) (left : Option Bytes) (j : String) :
    (s.leaveBlob key now left).bytes j = if j = key then left else s.bytes j := by
  by_cases hj : j = key
  · cases left <;> simp [Vault.leaveBlob, hj]
  · cases left with
    | none => simp [Vault.leaveBlob, hj, bytes_deleteBlob_ne s hj]
    | some data => simp [Vault.leaveBlob, hj, bytes_putBlob_ne s data now hj]

theorem leaves_untouched {obj : Object} : Leaves obj none false s s where
  bytes key := by simp
  unwritten _ := rfl
  written := nofun

theorem leaves_blob (obj : Object) (s : Vault) (now : Nat) (left : Option Bytes) :
    Leaves obj (some left) false s (s.leaveBlob obj.storageKey now left) where
  bytes := bytes_leaveBlob s obj.storageKey now left
  unwritten _ := by cases left <;> rfl
  written := nofun

theorem leaves_cleaned (obj : Object) (s : Vault) (body : Bytes) (now : Nat) :
    Leaves obj (some none) false s ((s.putBlob obj.storageKey body now).deleteBlob obj.storageKey) where
  bytes key := by
    by_cases hkey : key = obj.storageKey
    · simp [hkey]
    · simp [hkey, bytes_deleteBlob_ne _ hkey, bytes_putBlob_ne s body now hkey]
  unwritten _ := rfl
  written := nofun

theorem leaves_refused {obj : Object} {body : Bytes} {now : Nat} :
    Leaves obj (some (if failure = .cleanup ∨ false = true then some body else none)) (rowLeft failure false) s
      (if failure = .cleanup then s.putBlob obj.storageKey body now
        else (s.putBlob obj.storageKey body now).deleteBlob obj.storageKey) := by
  rw [rowLeft_refused]
  by_cases hcl : failure = .cleanup
  · rw [if_pos hcl, if_pos (.inl hcl)]
    exact leaves_blob obj s now (some body)
  · rw [if_neg hcl, if_neg (by simp [hcl])]
    exact leaves_cleaned obj s body now

theorem leaves_saved (ctx : Ctx) (s : Vault) (obj : Object) (body : Bytes) (versioning : Bool)
    (acl : String) (hold : Bool) (reason : String) :
    Leaves obj (some (some body)) true s
      (saveObject ctx (s.putBlob obj.storageKey body ctx.now) obj versioning acl hold reason).2 where
  bytes key := by
    have hbl : ∀ t u : Vault, t.blobs = u.blobs → t.bytes key = u.bytes key := fun t u h => by
      simp only [Vault.bytes, h]
    rw [hbl _ _ (saveObject_blobs ctx _ obj versioning acl hold reason)]
    exact bytes_leaveBlob s obj.storageKey ctx.now (some body) key
  unwritten := nofun
  written _ := rowWritten_saveObject ctx (s.putBlob obj.storageKey body ctx.now) obj versioning acl hold reason

theorem finishPut_leaves (hearly : failure ≠ .early) (hst : ∀ left, failure ≠ .storage left) :
    Leaves (buildPutObject ctx req plan)
      (some (if failure = .cleanup ∨ plan.accepts ctx req.body = true then some req.body else none))
      (rowLeft failure (plan.accepts ctx req.body)) s (finishPut failure ctx req plan s).2 := by
  have hsaved (acl : String) (hold : Bool) := leaves_saved ctx s (buildPutObject ctx req plan) req.body
    plan.config.versioning acl hold "s3 upload"
  unfold finishPut
  by_cases hsz : req.body.length ≠ plan.size
  · have hrf : plan.accepts ctx req.body = false := by simp [PutPlan.accepts, hsz]
    rw [hrf, if_pos hsz]
    exact leaves_refused
  · by_cases hd : (!plan.digestMatches ctx req.body) = true
    · have hrf : plan.accepts ctx req.body = false := by simpa [PutPlan.accepts] using fun _ => hd
      rw [hrf, if_neg hsz, if_pos hd]
      exact leaves_refused
    · have hac : plan.accepts ctx req.body = true := by
        simp only [PutPlan.accepts, Bool.and_eq_true, beq_iff_eq]
        exact ⟨not_not.mp hsz, by simpa using hd⟩
      simp only [if_neg hsz, if_neg hd]
      rw [hac, if_pos (.inr rfl)]
      by_cases hrow : failure = .row
      · rw [if_pos hrow, hrow]
        exact leaves_blob (buildPutObject ctx req plan) s ctx.now (some req.body)
      · have hrl : rowLeft failure true = true := by cases failure <;> simp_all [rowLeft]
        rw [if_neg hrow, hrl]
        split_ifs
        · exact hsaved "" false
        · exact hsaved req.opts.acl false
        · exact hsaved req.opts.acl req.opts.legalHold
        -- The usage is recorded in a table of its own.
        · obtain ⟨hbytes, -, hwritten⟩ := hsaved req.opts.acl req.opts.legalHold
          exact ⟨hbytes, fun h => absurd h (by decide), hwritten⟩

/-- What every `Put` leaves that its checks have admitted. -/
theorem putFailing_leaves (failure : PutFailure) (hplan : preparePut ctx req s = .ok plan) :
    Leaves (buildPutObject ctx req plan) (blobLeft failure (plan.accepts ctx req.body) req.body)
      (rowLeft failure (plan.accepts ctx req.body)) s (putFailing failure ctx req s).2 := by
  simp only [putFailing, hplan]
  cases failure with
  | early => exact leaves_untouched
  | storage left => exact leaves_blob (buildPutObject ctx req plan) s ctx.now left
  | none | cleanup | row | acl | hold | usage => exact finishPut_leaves nofun nofun

/-! ### What is read afterwards -/

/-- The rows whose blob a read of the key opens, if it is allowed to. -/
structure Opened (s : Vault) (k : Path) (o : Object) : Prop where
  found : getObject s.objects k = some o ∨ ∃ versionID, versionID ≠ "" ∧
    getObjectVersion s.objects k versionID = some o ∧ o.isDeleteMarker = false
  intact : o.metadata.get "_aero_scrub_status" ≠ "corrupt"
  accepted : validObjectKey o.storageKey = true

theorem Opened.mem {k : Path} (h : Opened s k o) : o ∈ s.objects.rows := by
  obtain hl | ⟨versionID, -, hfound, -⟩ := h.found
  · exact (getObject_some hl).1
  · exact (getObjectVersion_some hfound).1

/-- A read to which everything is allowed. -/
def allowedRead : ReadCall := ⟨allowedUser 0 "" "", fun _ => none⟩

theorem openObject_allowed (h : validObjectKey o.storageKey = true) :
    openObject allowedRead s o =
      match s.bytes o.storageKey with
      | none => .error (.service .notFound)
      | some data => .ok (o, data) := by
  simp only [openObject, allowedRead, acceptObjectKey, h]
  rfl

theorem openObject_congr {call : ReadCall}
    (h : validObjectKey o.storageKey = true → t.bytes o.storageKey = s.bytes o.storageKey) :
    openObject call t o = openObject call s o := by
  by_cases hv : validObjectKey o.storageKey = true
  · simp only [openObject, h hv]
  · simp only [openObject, acceptObjectKey, hv]
    rfl

theorem bytes_of_openObject (hv : validObjectKey o.storageKey = true)
    (h : openObject allowedRead t o = openObject allowedRead s o) :
    t.bytes o.storageKey = s.bytes o.storageKey := by
  rw [openObject_allowed hv, openObject_allowed hv] at h
  cases ht : t.bytes o.storageKey with
  | none => cases hs : s.bytes o.storageKey <;> simp [ht, hs] at h ⊢
  | some data => cases hs : s.bytes o.storageKey <;> simp [ht, hs] at h ⊢; exact h

/-- What is read is the row that was opened. -/
theorem row_of_openObject {call : ReadCall} {r : Object} {data : Bytes}
    (h : openObject call s o = .ok (r, data)) : r = o := by
  obtain ⟨-, h⟩ := checked h
  split at h
  · cases h
  · obtain ⟨-, h⟩ := checked h
    split at h
    · cases h
    · exact (congrArg Prod.fst (Except.ok.inj h)).symm

section Key
variable {tenant bucket key versionID : String} {k : Path}

theorem getWithOptions_eq {call : ReadCall} (hk : checkedObjectDefaults tenant bucket key = .ok k)
    (ho : getObject s.objects k = some o) (hin : o.metadata.get "_aero_scrub_status" ≠ "corrupt") :
    getWithOptions call tenant bucket key s = openObject call s o := by
  simp only [getWithOptions, hk, Except.mapError, bind, Except.bind, ho, checkCorrupt, if_neg hin]

theorem live_of_getWithOptions {call : ReadCall} {data : Bytes}
    (hk : checkedObjectDefaults tenant bucket key = .ok k)
    (h : getWithOptions call tenant bucket key s = .ok (o, data)) : getObject s.objects k = some o := by
  simp only [getWithOptions, hk, Except.mapError, bind, Except.bind] at h
  split at h
  · cases h
  next row hrow =>
    obtain ⟨-, h⟩ := checked h
    rw [hrow, row_of_openObject h]

theorem getVersionWithOptions_eq {call : ReadCall} (ho : objectVersion s tenant bucket key versionID = .ok o)
    (hin : o.metadata.get "_aero_scrub_status" ≠ "corrupt") (hm : o.isDeleteMarker = false) :
    getVersionWithOptions call tenant bucket key versionID s = openObject call s o := by
  simp only [getVersionWithOptions, ho, Except.mapError, bind, Except.bind, checkCorrupt, if_neg hin, hm,
    Bool.false_eq_true, if_false]

section
variable (hk : checkedObjectDefaults tenant bucket key = .ok k)
include hk

theorem objectVersion_eq (hid : versionID ≠ "") (ho : getObjectVersion s.objects k versionID = some o) :
    objectVersion s tenant bucket key versionID = .ok o := by
  simp only [objectVersion, hk, bind, Except.bind, if_neg hid, ho]
  rfl

/-- A version that is found without a delete marker on it is a row that a read opens. -/
theorem found_of_objectVersion (ho : objectVersion s tenant bucket key versionID = .ok o)
    (hm : o.isDeleteMarker = false) :
    getObject s.objects k = some o ∨ ∃ versionID, versionID ≠ "" ∧
      getObjectVersion s.objects k versionID = some o ∧ o.isDeleteMarker = false := by
  simp only [objectVersion, hk, bind, Except.bind] at ho
  split at ho
  next found hfound =>
    cases ho
    split_ifs at hfound with hid
    · exact .inl hfound
    · exact .inr ⟨versionID, hid, hfound, hm⟩
  · cases ho

/-- Over the same rows, reads are the same if the blobs are that they open. -/
theorem sameReads_iff (hobj : t.objects = s.objects) :
    SameReads s t tenant bucket key ↔ ∀ o, Opened s k o → t.bytes o.storageKey = s.bytes o.storageKey := by
  have hversion (versionID : String) :
      objectVersion t tenant bucket key versionID = objectVersion s tenant bucket key versionID := by
    simp only [objectVersion, hobj]
  constructor
  · intro h o ho
    refine bytes_of_openObject ho.accepted ?_
    obtain hl | ⟨versionID, hid, hfound, hm⟩ := ho.found
    · rw [← getWithOptions_eq hk (hobj ▸ hl) ho.intact, ← getWithOptions_eq hk hl ho.intact]
      exact h.live allowedRead
    · have hs := objectVersion_eq hk hid hfound
      rw [← getVersionWithOptions_eq ((hversion versionID).trans hs) ho.intact hm,
        ← getVersionWithOptions_eq hs ho.intact hm]
      exact h.versions allowedRead versionID o hs
  · intro h
    constructor
    · intro call
      cases hl : getObject s.objects k with
      | none => simp only [getWithOptions, hk, Except.mapError, bind, Except.bind, hobj, hl]
      | some o =>
        by_cases hint : o.metadata.get "_aero_scrub_status" ≠ "corrupt"
        · rw [getWithOptions_eq hk (hobj ▸ hl) hint, getWithOptions_eq hk hl hint]
          exact openObject_congr fun hv => h o ⟨.inl hl, hint, hv⟩
        · simp only [getWithOptions, hk, Except.mapError, bind, Except.bind, hobj, hl, checkCorrupt,
            not_not.mp hint, if_true]
    · intro call versionID o ho
      by_cases hrd : o.metadata.get "_aero_scrub_status" ≠ "corrupt" ∧ o.isDeleteMarker = false
      · rw [getVersionWithOptions_eq ((hversion versionID).trans ho) hrd.1 hrd.2,
          getVersionWithOptions_eq ho hrd.1 hrd.2]
        exact openObject_congr fun hv =>
          h o ⟨found_of_objectVersion hk ho hrd.2, hrd.1, hv⟩
      · simp only [getVersionWithOptions, hversion, ho, Except.mapError, bind, Except.bind, checkCorrupt]
        by_cases hint : o.metadata.get "_aero_scrub_status" ≠ "corrupt"
        · have hm : o.isDeleteMarker = true := by simpa [hint] using hrd
          simp only [hm]
          rfl
        · simp only [not_not.mp hint, if_true]

end

end Key

/-- A row that a `Put` has written is read in place of the one it replaces. -/
theorem not_sameReads_of_row (hplan : preparePut ctx req s = .ok plan) {blob : Bytes}
    (hfresh : ∀ o, getObject s.objects plan.path = some o → o.versionID ≠ ctx.newVersionID)
    (hlv : Leaves (buildPutObject ctx req plan) (some (some blob)) true s t) :
    ¬ SameReads s t req.tenant req.bucket req.key := by
  intro hsame
  have hp := planned hplan
  obtain ⟨r, hl, hr⟩ := (hlv.written rfl).live
  have hl' : getObject t.objects plan.path = some r := hl
  have hint : r.metadata.get "_aero_scrub_status" ≠ "corrupt" := by
    have hm : r.metadata = withGeneration ctx.generation plan.metadata := hr.metadata
    rw [hm, get_withGeneration (by decide), hp.metadata _ (by decide) (by decide)]
    decide
  have hby : t.bytes r.storageKey = some blob := by
    rw [hlv.bytes, if_pos hr.storageKey]
    rfl
  have haf : getWithOptions allowedRead req.tenant req.bucket req.key t = .ok (r, blob) := by
    rw [getWithOptions_eq hp.key hl' hint, openObject_allowed (hr.storageKey ▸ hp.valid), hby]
  have hbf := (hsame.live allowedRead).symm.trans haf
  exact hfresh r (live_of_getWithOptions hp.key hbf) hr.versionID

/-- **A `Put`, wherever it fails, keeps what is read of its key exactly when its row was not written
and what it leaves under its storage key is what every row stored there was read as.** -/
theorem failed_put_keeps_reads_iff (failure : PutFailure) (ctx : Ctx) (req : PutRequest) (s : Vault)
    (hfresh : ∀ o, getObject s.objects (defaults req.tenant req.bucket req.key) = some o →
      o.versionID ≠ ctx.newVersionID) :
    SameReads s (putFailing failure ctx req s).2 req.tenant req.bucket req.key ↔
      ∀ plan, preparePut ctx req s = .ok plan →
        rowLeft failure (plan.accepts ctx req.body) = false ∧
          ∀ left, blobLeft failure (plan.accepts ctx req.body) req.body = some left →
            ∀ o, Opened s plan.path o → o.storageKey = plan.storageKey → s.bytes o.storageKey = left := by
  cases hplan : preparePut ctx req s with
  | error refused =>
    have hsame : (putFailing failure ctx req s).2 = s := by simp only [putFailing, hplan]
    rw [hsame]
    exact ⟨nofun, fun _ => ⟨fun _ => rfl, fun _ _ _ _ => rfl⟩⟩
  | ok plan =>
    have hlv := putFailing_leaves failure hplan
    have hpath := (planned hplan).path
    simp only [Except.ok.injEq, forall_eq']
    cases hrow : rowLeft failure (plan.accepts ctx req.body) with
    | true =>
      rw [hrow, blobLeft_of_row hrow] at hlv
      have hnot := not_sameReads_of_row hplan (hpath ▸ hfresh) hlv
      simp [hnot]
    | false =>
      rw [hrow] at hlv
      rw [sameReads_iff (planned hplan).key (hlv.unwritten rfl)]
      constructor
      · intro h
        exact ⟨rfl, fun left hl o ho hkey => hlv.bytes_iff.mp (h o ho) left hl hkey⟩
      · intro h o ho
        exact hlv.bytes_iff.mpr fun left hl hkey => h.2 left hl o ho hkey

end Failed

/-- A `Put` with a declared digest, which is decoded to `digest`. -/
def digestPut (now : Nat) (versionID key : String) (body digest : Bytes) : Ctx × PutRequest :=
  let req := plainPut "acme" "docs" key body
  ({allowedUser now versionID "" with decodeBase64 := fun _ => some digest},
    {req with opts := {req.opts with contentMD5 := "CQ=="}})

/-- One object, in a bucket with or without versions. -/
def oneObject (versioning : Bool) : Vault :=
  (put (allowedUser 1 "v1" "") (plainPut "acme" "docs" "a" [1])
    (.empty (fun _ _ => ⟨versioning, 0, 0, 0, 0⟩))).2

/-- In a versioned bucket the body of a bad digest is stored beside the version before it. -/
theorem bad_digest_beside_version :
    (putFailing .none (digestPut 2 "v2" "a" [2] [9]).1 (digestPut 2 "v2" "a" [2] [9]).2 (oneObject true)).1 =
        .error (.service .badDigest) ∧
      SameReads (oneObject true)
        (putFailing .none (digestPut 2 "v2" "a" [2] [9]).1 (digestPut 2 "v2" "a" [2] [9]).2 (oneObject true)).2
        "acme" "docs" "a" := by
  have herr : (putFailing .none (digestPut 2 "v2" "a" [2] [9]).1 (digestPut 2 "v2" "a" [2] [9]).2
      (oneObject true)).1 = .error (.service .badDigest) := by decide +kernel
  have hap : ∀ plan, preparePut (digestPut 2 "v2" "a" [2] [9]).1 (digestPut 2 "v2" "a" [2] [9]).2
      (oneObject true) = .ok plan → rowLeft .none (plan.accepts (digestPut 2 "v2" "a" [2] [9]).1 [2]) = false ∧
        ∀ o ∈ (oneObject true).objects.rows, o.storageKey ≠ plan.storageKey := by
    decide +kernel
  refine ⟨herr, (failed_put_keeps_reads_iff _ _ _ _ (by decide +kernel)).mpr fun plan hplan => ?_⟩
  exact ⟨(hap plan hplan).1, fun left _ o ho hkey => absurd hkey ((hap plan hplan).2 o ho.mem)⟩

/-- In an unversioned bucket the body of a bad digest replaces the object, and is deleted. -/
theorem bad_digest_destroys_object :
    (getWithOptions allowedRead "acme" "docs" "a" (oneObject false)).map Prod.snd = .ok [1] ∧
      (putFailing .none (digestPut 2 "v2" "a" [2] [9]).1 (digestPut 2 "v2" "a" [2] [9]).2 (oneObject false)).1 =
        .error (.service .badDigest) ∧
      getWithOptions allowedRead "acme" "docs" "a"
        (putFailing .none (digestPut 2 "v2" "a" [2] [9]).1 (digestPut 2 "v2" "a" [2] [9]).2 (oneObject false)).2 =
          .error (.service .notFound) := by
  decide +kernel

end AeroVault.Service
