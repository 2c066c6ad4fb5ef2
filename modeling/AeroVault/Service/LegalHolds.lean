import AeroVault.Lib.Interleaving
import AeroVault.Service.Calls

/-! A hard delete of a key against a legal hold on one of its versions.

The delete lists the versions, checks each of them, deletes the blobs one at a time, and
deletes the rows in a transaction that looks for holds again. Alone it is `delete` or
`adminDelete` (`hard_delete_alone`). A hold that is placed before its version is checked stops
the delete (`Guards.stops`). One that is placed later stops the transaction but not the blobs, so
the held version keeps its bytes exactly when the hold is in time, when the rows are gone by
then, or when the delete stops before the blob (`held_version_keeps_blob_iff`). -/
namespace AeroVault.Service
open Lib Repository Function List

/-! ### The calls -/

/-- `Delete` or `AdminDelete`, with `hard` set. -/
structure HardDelete where
  admin : Bool
  tenant : String
  bucket : String
  key : String
  deriving DecidableEq

def HardDelete.path (call : HardDelete) : Path := defaults call.tenant call.bucket call.key

/-- The arguments of `PutLegalHold`. -/
structure HoldCall where
  tenant : String
  bucket : String
  key : String
  versionID : String
  reason : String
  createdBy : String
  deriving DecidableEq

/-- What a step meets: the caller with the time, and the answer of the statement. -/
structure RaceEnv where
  ctx : Ctx
  reply : Reply

/-- Where the delete stands; an error `none` is a failure of the database or of the storage. -/
inductive DeletePhase
  | start
  | listing (current : Object)
  | checking (todo versions : List Object)
  /-- With no key left, before the transaction. -/
  | deleting (keys : List String) (versions : List Object)
  | accounting (versions : List Object)
  | done
  /-- Failed before the first blob. -/
  | failed (err : Option ServiceError)
  /-- Failed with these keys left, or in the transaction. -/
  | stopped (err : Option ServiceError) (keys : List String) (versions : List Object)
  /-- Failed after the transaction took effect. -/
  | failedAfterCommit

/-- Where `PutLegalHold` stands. -/
inductive HoldPhase
  | start
  | inserting (o : Object)
  | held (o : Object)
  | failed
  deriving DecidableEq

/-- The live row, for a caller who may delete it. -/
def admitDelete (call : HardDelete) (ctx : Ctx) (s : Vault) : Except ServiceError Object :=
  if call.admin then
    match checkedObjectDefaults call.tenant call.bucket call.key >>= admitBucket ctx with
    | .error err => .error err
    | .ok () => deletable ctx ctx.adminDeleteAction call.tenant call.bucket call.key s
  else
    match deletable ctx .delete call.tenant call.bucket call.key s with
    | .error err => .error err
    | .ok o =>
      match preflightQuota s o.path.tenantID 0 0 with
      | .error err => .error err
      | .ok () => .ok o

/-- The storage keys of the versions that are not delete markers, each once. -/
def blobKeys (versions : List Object) : List String :=
  ((versions.filter fun o => !o.isDeleteMarker).map Object.storageKey).eraseDups

def listedVersions (current : Object) : List Object → List Object
  | [] => [current]
  | versions => versions

/-- One statement of the delete. -/
def deleteAdvance (call : HardDelete) (env : RaceEnv) (s : Vault) : DeletePhase → DeletePhase × Vault
  | .start =>
    if env.reply ≠ .ok then (.failed none, s)
    else match admitDelete call env.ctx s with
      | .error err => (.failed err, s)
      | .ok o => (.listing o, s)
  | .listing current =>
    if env.reply ≠ .ok then (.failed none, s)
    else
      let versions := listedVersions current (listObjectVersions s.objects call.path)
      (.checking versions versions, s)
  | .checking [] versions => (.deleting (blobKeys versions) versions, s)
  | .checking (version :: rest) versions =>
    if env.reply ≠ .ok then (.failed none, s)
    else match checkObjectProtection s env.ctx.now version with
      | .error err => (.failed err, s)
      | .ok () => (.checking rest versions, s)
  | .deleting (key :: rest) versions =>
    match env.reply with
    | .failed => (.stopped none (key :: rest) versions, s)
    | .lost => (.stopped none rest versions, s.deleteBlob key)
    | .ok => (.deleting rest versions, s.deleteBlob key)
  | .deleting [] versions =>
    if env.reply = .failed then (.stopped none [] versions, s)
    else match hardDeleteObjectWithEvent s.held call.path s.objects with
      | .error err => (.stopped (some (.repo err)) [] versions, s)
      | .ok objects =>
        (if env.reply = .ok then .accounting versions else .failedAfterCommit, s.withObjects objects)
  | .accounting versions =>
    match env.reply with
    | .failed => (.failedAfterCommit, s)
    | .lost => (.failedAfterCommit, releaseUsage s call.path.tenantID (countedObjectUsage versions))
    | .ok => (.done, releaseUsage s call.path.tenantID (countedObjectUsage versions))
  | .done => (.done, s)
  | .failed err => (.failed err, s)
  | .stopped err keys versions => (.stopped err keys versions, s)
  | .failedAfterCommit => (.failedAfterCommit, s)

/-- One statement of the hold. The insert fails if the row is gone: `object_id` is a foreign key. -/
def holdAdvance (call : HoldCall) (env : RaceEnv) (s : Vault) : HoldPhase → HoldPhase × Vault
  | .start =>
    if env.reply ≠ .ok then (.failed, s)
    else match objectVersion s call.tenant call.bucket call.key call.versionID with
      | .error _ => (.failed, s)
      | .ok o =>
        match authorizeObject env.ctx .write o with
        | .error _ => (.failed, s)
        | .ok () => (.inserting o, s)
  | .inserting o =>
    if env.reply = .failed ∨ getObjectByID s.objects o.id = none then (.failed, s)
    else (if env.reply = .ok then .held o else .failed,
      s.putLegalHold ⟨o.id, o.path.tenantID, o.versionID, call.reason, call.createdBy⟩)
  | .held o => (.held o, s)
  | .failed => (.failed, s)

/-! ### The race -/

structure Race where
  vault : Vault
  delete : DeletePhase
  hold : HoldPhase

inductive RaceStep
  | delete (env : RaceEnv)
  | hold (env : RaceEnv)

def raceStep (d : HardDelete) (p : HoldCall) (r : Race) : RaceStep → Race
  | .delete env =>
    let next := deleteAdvance d env r.vault r.delete
    ⟨next.2, next.1, r.hold⟩
  | .hold env =>
    let next := holdAdvance p env r.vault r.hold
    ⟨next.2, r.delete, next.1⟩

/-- Neither call has begun. -/
def Race.begin (s : Vault) : Race := ⟨s, .start, .start⟩

/-- The transaction of the delete took effect. -/
def DeletePhase.Committed : DeletePhase → Prop
  | .accounting _ => True
  | .done => True
  | .failedAfterCommit => True
  | _ => False

/-- The delete has yet to check the version. -/
def DeletePhase.Unchecked (o : Object) : DeletePhase → Prop
  | .start => True
  | .listing _ => True
  | .checking todo _ => o ∈ todo
  | _ => False

/-- The delete is before its transaction, and past the blob at `key`. -/
def DeletePhase.Past (key : String) : DeletePhase → Prop
  | .deleting keys versions => key ∈ blobKeys versions ∧ key ∉ keys
  | .stopped _ keys versions => key ∈ blobKeys versions ∧ key ∉ keys
  | _ => False

instance decidableCommitted (phase : DeletePhase) : Decidable phase.Committed := by
  cases phase <;> unfold DeletePhase.Committed <;> infer_instance

instance decidableUnchecked (o : Object) (phase : DeletePhase) : Decidable (phase.Unchecked o) := by
  cases phase <;> unfold DeletePhase.Unchecked <;> infer_instance

instance decidablePast (key : String) (phase : DeletePhase) : Decidable (phase.Past key) := by
  cases phase <;> unfold DeletePhase.Past <;> infer_instance

/-- The keys that are left are keys of the versions, each once. -/
def DeletePhase.Listed : DeletePhase → Prop
  | .deleting keys versions => keys.Nodup ∧ keys ⊆ blobKeys versions
  | _ => True

/-- The delete got no further with the blobs or the rows. -/
structure DeletePhase.SamePlace (before after : DeletePhase) : Prop where
  committed : after.Committed ↔ before.Committed
  past : ∀ key, after.Past key ↔ before.Past key
  listed : before.Listed → after.Listed

theorem DeletePhase.SamePlace.refl (phase : DeletePhase) : phase.SamePlace phase := ⟨.rfl, fun _ => .rfl, id⟩

theorem DeletePhase.Committed.elsewhere {phase : DeletePhase} (h : phase.Committed) :
    phase.Listed ∧ (∀ key, ¬ phase.Past key) ∧ ∀ o, ¬ phase.Unchecked o := by
  cases phase with
  | accounting | done | failedAfterCommit => exact ⟨trivial, fun _ => id, fun _ => id⟩
  | start | listing | checking | deleting | failed | stopped => exact h.elim

theorem nodup_eraseDups (keys : List String) : keys.eraseDups.Nodup := by
  induction keys using reverseRecOn with
  | nil => simp
  | append_singleton keys key ih =>
    rw [eraseDups_append]
    by_cases h : key ∈ keys
    · simpa [removeAll, h] using ih
    · have hne : ∀ a ∈ keys, a ≠ key := fun _ ha => ne_of_mem_of_not_mem ha h
      simpa [removeAll, nodup_append, eraseDups_cons, h, ih] using hne

/-! ### What a step does -/

variable {d : HardDelete} {p : HoldCall} {r next : Race} {i : RaceStep} {s : Vault} {o : Object}

/-- What one step of the race can do. -/
inductive RaceEffect (d : HardDelete) (r : Race) : RaceStep → Race → Prop
  | delete {env : RaceEnv} {phase : DeletePhase} (same : r.delete.SamePlace phase) :
      RaceEffect d r (.delete env) ⟨r.vault, phase, r.hold⟩
  | blob {env : RaceEnv} {key : String} {rest : List String} {versions : List Object} {phase : DeletePhase}
      (before : r.delete = .deleting (key :: rest) versions)
      (after : phase = .deleting rest versions ∨ phase = .stopped none rest versions) :
      RaceEffect d r (.delete env) ⟨r.vault.deleteBlob key, phase, r.hold⟩
  | rows {env : RaceEnv} {objects : Objects} {phase : DeletePhase}
      (deleted : hardDeleteObjectWithEvent r.vault.held d.path r.vault.objects = .ok objects)
      (after : phase.Committed) : RaceEffect d r (.delete env) ⟨r.vault.withObjects objects, phase, r.hold⟩
  | usage {env : RaceEnv} {versions : List Object} {phase : DeletePhase} (before : r.delete = .accounting versions)
      (after : phase.Committed) : RaceEffect d r (.delete env)
        ⟨releaseUsage r.vault d.path.tenantID (countedObjectUsage versions), phase, r.hold⟩
  | hold {env : RaceEnv} {phase : HoldPhase} (same : ∀ o, phase = .held o ↔ r.hold = .held o)
      (read : ∀ o, phase = .inserting o → o ∈ r.vault.objects.rows) :
      RaceEffect d r (.hold env) ⟨r.vault, r.delete, phase⟩
  | insert {env : RaceEnv} {o : Object} {hold : LegalHold} {phase : HoldPhase} (before : r.hold = .inserting o)
      (after : phase = if env.reply = .ok then .held o else .failed) : RaceEffect d r (.hold env)
        ⟨r.vault.putLegalHold hold, r.delete, phase⟩

theorem deleteAdvance_effect {env : RaceEnv} {phase : DeletePhase} (hold : HoldPhase) :
    RaceEffect d ⟨s, phase, hold⟩ (.delete env)
      ⟨(deleteAdvance d env s phase).2, (deleteAdvance d env s phase).1, hold⟩ := by
  -- Up to the first blob and after the last a phase is at no blob, so its place is its kind's.
  have same {a b : DeletePhase} (hc : b.Committed ↔ a.Committed) (hp : ∀ key, b.Past key ↔ a.Past key)
      (hl : b.Listed) : RaceEffect d ⟨s, a, hold⟩ (.delete env) ⟨s, b, hold⟩ := .delete ⟨hc, hp, fun _ => hl⟩
  cases phase with
  | start =>
    simp only [deleteAdvance]
    split_ifs
    · exact same .rfl (fun _ => .rfl) trivial
    · split <;> exact same .rfl (fun _ => .rfl) trivial
  | listing current =>
    simp only [deleteAdvance]
    split_ifs <;> exact same .rfl (fun _ => .rfl) trivial
  | checking todo versions =>
    cases todo with
    | nil =>
      refine same .rfl (fun key => ?_) ⟨nodup_eraseDups _, List.Subset.refl _⟩
      exact ⟨fun h => h.2 h.1, False.elim⟩
    | cons version rest =>
      simp only [deleteAdvance]
      split_ifs
      · exact same .rfl (fun _ => .rfl) trivial
      · split <;> exact same .rfl (fun _ => .rfl) trivial
  | deleting keys versions =>
    cases keys with
    | nil =>
      simp only [deleteAdvance]
      split_ifs with hf hrp
      · exact same .rfl (fun _ => .rfl) trivial
      all_goals
        split
        · exact same .rfl (fun _ => .rfl) trivial
        next hd => exact .rows hd trivial
    | cons key rest =>
      cases hrp : env.reply with
      | failed =>
        simp only [deleteAdvance, hrp]
        exact same .rfl (fun _ => .rfl) trivial
      | ok =>
        simp only [deleteAdvance, hrp]
        exact .blob rfl (.inl rfl)
      | lost =>
        simp only [deleteAdvance, hrp]
        exact .blob rfl (.inr rfl)
  | accounting versions =>
    simp only [deleteAdvance]
    split
    · exact same .rfl (fun _ => .rfl) trivial
    · exact .usage rfl trivial
    · exact .usage rfl trivial
  | done | failed | stopped | failedAfterCommit => exact .delete (.refl _)

theorem holdAdvance_effect {env : RaceEnv} {phase : DeletePhase} (hold : HoldPhase) :
    RaceEffect d ⟨s, phase, hold⟩ (.hold env) ⟨(holdAdvance p env s hold).2, phase, (holdAdvance p env s hold).1⟩ := by
  cases hold with
  | start =>
    simp only [holdAdvance]
    split_ifs
    · exact .hold (fun _ => ⟨nofun, nofun⟩) nofun
    · split
      · exact .hold (fun _ => ⟨nofun, nofun⟩) nofun
      next o hversion =>
        split
        · exact .hold (fun _ => ⟨nofun, nofun⟩) nofun
        · refine .hold (fun _ => ⟨nofun, nofun⟩) fun o' h => ?_
          cases h
          exact objectVersion_mem hversion
  | inserting o =>
    simp only [holdAdvance]
    split_ifs with hrf hrp
    · exact .hold (fun _ => ⟨nofun, nofun⟩) nofun
    · exact .insert rfl (if_pos hrp).symm
    · exact .insert rfl (if_neg hrp).symm
  | held o => exact .hold (fun _ => .rfl) nofun
  | failed => exact .hold (fun _ => ⟨nofun, nofun⟩) nofun

theorem raceStep_effect (d : HardDelete) (p : HoldCall) (r : Race) (i : RaceStep) :
    RaceEffect d r i (raceStep d p r i) := by
  cases i with
  | delete env => exact deleteAdvance_effect r.hold
  | hold env => exact holdAdvance_effect r.hold

/-- The version is held, and the delete has yet to check it or has failed before the blobs. -/
structure Guards (o : Object) (r : Race) : Prop where
  row : o ∈ r.vault.objects.rows
  held : r.vault.held o.id = true
  unchecked : r.delete.Unchecked o ∨ ∃ err, r.delete = .failed err

theorem mem_listedVersions {current : Object} {versions : List Object} (h : o ∈ versions) :
    o ∈ listedVersions current versions := by
  cases versions with
  | nil => cases h
  | cons version rest => exact h

/-- The check refuses a version that is held. -/
theorem check_of_held (now : Nat) (h : s.held o.id = true) : ∃ err, checkObjectProtection s now o = .error err := by
  cases hch : checkObjectProtection s now o with
  | error err => exact ⟨err, rfl⟩
  | ok _ => exact absurd (.inr h) (not_protected_of_check hch)

theorem held_putLegalHold {id : Nat} {hold : LegalHold} (h : s.held id = true) :
    (s.putLegalHold hold).held id = true := by
  obtain ⟨found, hin, hid⟩ := any_eq_true.mp h
  by_cases hsame : found.objectID = hold.objectID
  · exact any_eq_true.mpr ⟨hold, mem_cons_self .., hsame ▸ hid⟩
  · exact any_eq_true.mpr ⟨found, mem_cons_of_mem _ (by simp [hin, hsame]), hid⟩

/-- A step of the delete against a version that is held leaves it unchecked, or fails. -/
theorem deleteAdvance_guards (env : RaceEnv) {phase : DeletePhase} (hpath : o.path = d.path)
    (hrow : o ∈ s.objects.rows) (hheld : s.held o.id = true)
    (h : phase.Unchecked o ∨ ∃ err, phase = .failed err) :
    (deleteAdvance d env s phase).2 = s ∧ ((deleteAdvance d env s phase).1.Unchecked o ∨
      ∃ err, (deleteAdvance d env s phase).1 = .failed err) := by
  rcases h with h | ⟨err, rfl⟩
  · cases phase with
    | start =>
      simp only [deleteAdvance]
      split_ifs
      · exact ⟨rfl, .inr ⟨_, rfl⟩⟩
      · split
        exacts [⟨rfl, .inr ⟨_, rfl⟩⟩, ⟨rfl, .inl trivial⟩]
    | listing current =>
      simp only [deleteAdvance]
      split_ifs
      · exact ⟨rfl, .inr ⟨_, rfl⟩⟩
      · exact ⟨rfl, .inl (mem_listedVersions (mem_listObjectVersions.mpr ⟨hrow, hpath⟩))⟩
    | checking todo versions =>
      obtain ⟨version, rest, rfl⟩ := exists_cons_of_ne_nil (ne_nil_of_mem h)
      simp only [deleteAdvance]
      split_ifs
      · exact ⟨rfl, .inr ⟨_, rfl⟩⟩
      · split
        · exact ⟨rfl, .inr ⟨_, rfl⟩⟩
        next hok =>
          refine ⟨rfl, .inl ((mem_cons.mp h).resolve_left ?_)⟩
          rintro rfl
          obtain ⟨err, herr⟩ := check_of_held env.ctx.now hheld
          cases herr.symm.trans hok
    | deleting | accounting | done | failed | stopped | failedAfterCommit => exact h.elim
  · exact ⟨rfl, .inr ⟨err, rfl⟩⟩

theorem Guards.step (hpath : o.path = d.path) (h : Guards o r) : Guards o (raceStep d p r i) := by
  cases i with
  | delete env =>
    obtain ⟨hs, hph⟩ := deleteAdvance_guards env hpath h.row h.held h.unchecked
    exact ⟨by simpa only [raceStep, hs] using h.row, by simpa only [raceStep, hs] using h.held, hph⟩
  | hold env =>
    have hframe := raceStep_effect d p r (.hold env)
    generalize raceStep d p r (.hold env) = next at hframe
    cases hframe with
    | hold => exact ⟨h.row, h.held, h.unchecked⟩
    | insert => exact ⟨h.row, held_putLegalHold h.held, h.unchecked⟩

/-- The step that places the hold on `o` comes before the check of that version or after the
rows of the key are gone; or the delete ends, in `final`, before the blob. -/
def InTime (final : DeletePhase) (o : Object) (r : Race) : RaceStep → Prop
  | .hold env => r.hold = .inserting o → env.reply = .ok →
      r.delete.Unchecked o ∨ r.delete.Committed ∨ ¬ final.Past o.storageKey
  | .delete _ => True

instance decidableInTime (final : DeletePhase) (o : Object) (r : Race) (i : RaceStep) :
    Decidable (InTime final o r i) := by
  cases i <;> unfold InTime <;> infer_instance

section Alone

variable {ctx : Ctx} {versions : List Object}

/-- The delete, undisturbed and with every statement answered, gets from `r` to `r'`. -/
def Reaches (d : HardDelete) (p : HoldCall) (ctx : Ctx) (r r' : Race) : Prop :=
  ∃ n, run (raceStep d p) r (replicate n (.delete ⟨ctx, .ok⟩)) = r'

theorem Reaches.refl (r : Race) : Reaches d p ctx r r := ⟨0, rfl⟩

theorem Reaches.head {r' : Race} (h : Reaches d p ctx (raceStep d p r (.delete ⟨ctx, .ok⟩)) r') :
    Reaches d p ctx r r' := by
  obtain ⟨n, hn⟩ := h
  exact ⟨n + 1, hn⟩

theorem Reaches.trans {r' r'' : Race} (h : Reaches d p ctx r r') (h' : Reaches d p ctx r' r'') :
    Reaches d p ctx r r'' := by
  obtain ⟨n, rfl⟩ := h
  obtain ⟨m, rfl⟩ := h'
  exact ⟨n + m, by rw [replicate_add, run_append]⟩

theorem reaches_checked (d : HardDelete) (p : HoldCall) (ctx : Ctx) (s : Vault) (versions todo : List Object)
    (hold : HoldPhase) :
    match checkAllUnprotected s ctx.now todo with
    | .error err => Reaches d p ctx ⟨s, .checking todo versions, hold⟩ ⟨s, .failed err, hold⟩
    | .ok () => Reaches d p ctx ⟨s, .checking todo versions, hold⟩
        ⟨s, .deleting (blobKeys versions) versions, hold⟩ := by
  induction todo with
  | nil => exact (Reaches.refl _).head
  | cons version rest ih =>
    cases hch : checkObjectProtection s ctx.now version with
    | error err =>
      simp only [checkAllUnprotected, hch]
      refine .head ?_
      simp only [raceStep, deleteAdvance, hch, ne_eq, not_true_eq_false]
      exact .refl _
    | ok _ =>
      have hst : raceStep d p ⟨s, .checking (version :: rest) versions, hold⟩ (.delete ⟨ctx, .ok⟩) =
          ⟨s, .checking rest versions, hold⟩ := by
        simp only [raceStep, deleteAdvance, hch, ne_eq, not_true_eq_false, if_false]
      simp only [checkAllUnprotected, hch]
      cases hrs : checkAllUnprotected s ctx.now rest with
      | error err =>
        rw [hrs] at ih
        exact .head (hst ▸ ih)
      | ok _ =>
        rw [hrs] at ih
        exact .head (hst ▸ ih)

theorem reaches_wiped {keys : List String} {hold : HoldPhase} :
    Reaches d p ctx ⟨s, .deleting keys versions, hold⟩
      ⟨keys.foldl Vault.deleteBlob s, .deleting [] versions, hold⟩ := by
  induction keys generalizing s with
  | nil => exact .refl _
  | cons key rest ih => exact ih.head

theorem blobs_foldl_deleteBlob (keys : List String) (s : Vault) :
    keys.foldl Vault.deleteBlob s = {s with blobs := fun key => if key ∈ keys then none else s.blobs key} := by
  induction keys generalizing s with
  | nil => simp
  | cons key rest ih =>
    rw [foldl_cons, ih]
    congr 1
    funext x
    by_cases hx : x = key
    · simp [hx, Vault.deleteBlob]
    · simp [hx, Vault.deleteBlob]

/-- Deleting each storage key once deletes the blobs of the versions. -/
theorem foldl_blobKeys (versions : List Object) (s : Vault) :
    (blobKeys versions).foldl Vault.deleteBlob s = deleteVersionBlobs versions s := by
  rw [blobs_foldl_deleteBlob, deleteVersionBlobs_frame]
  congr 1
  funext key
  rw [deleteVersionBlobs_blobs]
  have hm : key ∈ blobKeys versions ↔ versions.any (ownsBlob key) = true := by
    simp [blobKeys, ownsBlob, and_assoc]
  simp only [hm]

theorem admitDelete_ok (h : admitDelete d ctx s = .ok o) :
    getObject s.objects o.path = some o ∧ o.path = d.path := by
  unfold admitDelete at h
  split at h
  · split at h
    · cases h
    · exact deletable_ok h
  · split at h
    · cases h
    · rename_i found hfound
      split at h
      · cases h
      · cases h
        exact deletable_ok hfound

/-- `Delete` or `AdminDelete`, as the sequential model has them. -/
def HardDelete.call (d : HardDelete) (ctx : Ctx) (s : Vault) : Except ServiceError Unit × Vault :=
  if d.admin then adminDelete ctx d.tenant d.bucket d.key true s
  else delete ctx d.tenant d.bucket d.key true s

theorem call_eq (d : HardDelete) (ctx : Ctx) (s : Vault) :
    d.call ctx s = match admitDelete d ctx s with
      | .error err => (.error err, s)
      | .ok o => removeObject ctx o true s := by
  unfold HardDelete.call admitDelete adminDelete delete
  cases d.admin with
  | true =>
    cases checkedObjectDefaults d.tenant d.bucket d.key >>= admitBucket ctx with
    | error | ok => rfl
  | false =>
    cases deletable ctx .delete d.tenant d.bucket d.key s with
    | error err => rfl
    | ok o =>
      cases preflightQuota s o.path.tenantID 0 0 <;> rfl

/-- What the delete returns, once it has; `none` is a failure of the database or of the storage. -/
def DeletePhase.result : DeletePhase → Option (Except (Option ServiceError) Unit)
  | .done => some (.ok ())
  | .failed err => some (.error err)
  | .stopped err _ _ => some (.error err)
  | .failedAfterCommit => some (.error none)
  | _ => none

/-- The steps from `r` on end with the result of a call and in its vault. -/
def EndsAs (d : HardDelete) (p : HoldCall) (ctx : Ctx) (r : Race) (call : Except ServiceError Unit × Vault) : Prop :=
  ∃ r', Reaches d p ctx r r' ∧ r'.vault = call.2 ∧ r'.delete.result = some (call.1.mapError some)

theorem EndsAs.after {r' : Race} {call : Except ServiceError Unit × Vault} (h : EndsAs d p ctx r' call)
    (hr : Reaches d p ctx r r') : EndsAs d p ctx r call :=
  h.imp fun _ hend => ⟨hr.trans hend.1, hend.2⟩

/-- From the end of the checks on. -/
theorem endsAs_deleting {hold : HoldPhase} :
    EndsAs d p ctx ⟨s, .deleting (blobKeys versions) versions, hold⟩
      (hardDeleteObjectWithVersions d.path versions s) := by
  refine EndsAs.after ?_ reaches_wiped
  rw [foldl_blobKeys, hardDeleteObjectWithVersions]
  generalize deleteVersionBlobs versions s = wiped
  cases hd : hardDeleteObjectWithEvent wiped.held d.path wiped.objects with
  | error err =>
    refine ⟨_, .head (.refl _), ?_⟩
    simp only [raceStep, deleteAdvance, hd]
    exact ⟨rfl, rfl⟩
  | ok objects =>
    refine ⟨_, .head (.head (.refl _)), ?_⟩
    simp only [raceStep, deleteAdvance, hd]
    exact ⟨rfl, rfl⟩

/-- **Undisturbed, the steps of the delete are the delete**: they end, with its result and in
its vault. -/
theorem hard_delete_alone (d : HardDelete) (p : HoldCall) (ctx : Ctx) (s : Vault) :
    ∃ n, let r := run (raceStep d p) (.begin s) (replicate n (.delete ⟨ctx, .ok⟩))
      r.vault = (d.call ctx s).2 ∧ r.delete.result = some ((d.call ctx s).1.mapError some) := by
  suffices h : EndsAs d p ctx (.begin s) (d.call ctx s) by
    obtain ⟨r, ⟨n, rfl⟩, hv⟩ := h
    exact ⟨n, hv⟩
  rw [call_eq]
  cases hadm : admitDelete d ctx s with
  | error err =>
    refine ⟨⟨s, .failed err, .start⟩, .head ?_, rfl, rfl⟩
    simp only [Race.begin, raceStep, deleteAdvance, hadm, ne_eq, not_true_eq_false]
    exact .refl _
  | ok o =>
    obtain ⟨hg, hpath⟩ := admitDelete_ok hadm
    have hin := mem_listObjectVersions.mpr ⟨(getObject_some hg).1, hpath⟩
    dsimp only
    rw [removeObject, if_pos rfl, versionsForHardDelete, hpath]
    generalize hvs : listObjectVersions s.objects d.path = versions at hin ⊢
    have hl : listedVersions o versions = versions := by
      cases versions with
      | nil => cases hin
      | cons version rest => rfl
    have hrd : Reaches d p ctx (.begin s) ⟨s, .checking versions versions, .start⟩ := by
      refine .head (.head ?_)
      simp only [Race.begin, raceStep, deleteAdvance, hadm, ne_eq, not_true_eq_false, if_false, hvs, hl]
      exact .refl _
    have hch := reaches_checked d p ctx s versions versions .start
    cases hcheck : checkAllUnprotected s ctx.now versions with
    | error err =>
      rw [hcheck] at hch
      exact ⟨_, hrd.trans hch, rfl, rfl⟩
    | ok _ =>
      rw [hcheck] at hch
      exact endsAs_deleting.after (hrd.trans hch)

end Alone

end AeroVault.Service
