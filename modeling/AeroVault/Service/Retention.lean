import AeroVault.Lib.Interleaving
import AeroVault.Service.Calls

/-! Concurrent retention calls: `SetObjectRetention` and `LockObject`.

A call reads the version, refuses a date before the stored one, and then writes its own date
to the row without looking again. Alone it is `setRetention` (`retention_alone`). Among other
calls, the stored date of a version never moves back exactly when no write is overtaken: no
call with a later date writes between the read and the write of a call with an earlier one
(`retention_never_shrinks_iff`). -/
namespace AeroVault.Service
open Lib Repository

/-- The arguments of `SetObjectRetention`. -/
structure RetentionCall where
  tenant : String
  bucket : String
  key : String
  versionID : String
  mode : String
  till : Nat
  deriving DecidableEq

/-- `LockObject`: retention of the current version. -/
def lockObject (tenant bucket key : String) (till : Nat) : RetentionCall :=
  ⟨tenant, bucket, key, "", "GOVERNANCE", till⟩

/-- Where a call stands; `none` is a failure of the database. -/
inductive RetentionPhase
  | start
  | writing (id : Nat) (metadata : GoMap)
  | done
  | failed (err : Option ServiceError)

structure RetentionEnv where
  ctx : Ctx
  reply : Reply

def retentionAdvance (call : RetentionCall) (env : RetentionEnv) (s : Vault) :
    RetentionPhase → RetentionPhase × Vault
  | .start =>
    if env.reply ≠ .ok then (.failed none, s)
    else match prepareRetention env.ctx call.tenant call.bucket call.key call.versionID call.mode call.till s with
      | .error err => (.failed err, s)
      | .ok (o, mode) => (.writing o.id (o.metadata.set retentionModeMetadataKey mode), s)
  | .writing id metadata =>
    if env.reply = .failed then (.failed none, s)
    else match setObjectRetention id call.till metadata s.objects with
      | .error err => (.failed (some (.repo err)), s)
      | .ok objects => (if env.reply = .ok then .done else .failed none, {s with objects := objects})
  | .done => (.done, s)
  | .failed err => (.failed err, s)

/-- The two steps of a call, one right after the other, are the call. -/
theorem retention_alone (call : RetentionCall) (ctx : Ctx) (s : Vault) :
    let read := retentionAdvance call ⟨ctx, .ok⟩ s .start
    (retentionAdvance call ⟨ctx, .ok⟩ read.2 read.1).2 =
      (setRetention ctx call.tenant call.bucket call.key call.versionID call.mode call.till s).2 := by
  simp only [retentionAdvance, setRetention, ne_eq, not_true_eq_false, if_false]
  cases prepareRetention ctx call.tenant call.bucket call.key call.versionID call.mode call.till s with
  | error err => rfl
  | ok found =>
    dsimp only
    cases setObjectRetention found.1.id call.till (found.1.metadata.set retentionModeMetadataKey found.2)
      s.objects <;> rfl

/-! ### The stored date -/

/-- The version has a row. -/
def HasRow (id : Nat) (s : Vault) : Prop := (getObjectByID s.objects id).isSome = true

/-- The date stored for a version. -/
def lockOf (id : Nat) (s : Vault) : Option Nat := (getObjectByID s.objects id).bind (·.lockedUntil)

/-- The stored date is at most `till`. -/
def LockedBy (id till : Nat) (s : Vault) : Prop := ∀ v, lockOf id s = some v → v ≤ till

variable {call : RetentionCall} {env : RetentionEnv} {s : Vault} {id till : Nat}

/-- A date that passed the check is not before the stored one. -/
theorem prepareRetention_ok {ctx : Ctx} {tenant bucket key versionID mode mode' : String} {o : Object}
    (h : prepareRetention ctx tenant bucket key versionID mode till s = .ok (o, mode')) :
    HasRow o.id s ∧ LockedBy o.id till s := by
  obtain ⟨hm, hnot⟩ := prepareRetention_found h
  have hg := getObjectByID_of_mem hm
  refine ⟨by rw [HasRow, hg]; rfl, fun v hv => ?_⟩
  rw [lockOf, hg] at hv
  change o.lockedUntil = some v at hv
  by_contra hlt
  exact hnot (by simpa [hv] using hlt)

theorem getObjectByID_setRetention {metadata : GoMap} {objects : Objects}
    (h : setObjectRetention id till metadata s.objects = .ok objects) (id' : Nat) :
    getObjectByID objects id' = (getObjectByID s.objects id').map fun o =>
      if o.id == id then {o with lockedUntil := some till, metadata := metadata} else o := by
  rw [setObjectRetention_ok h]
  exact getObjectByID_update (fun _ => by rfl) id'

/-- What the write of a call leaves. -/
structure Wrote (id till : Nat) (s s' : Vault) : Prop where
  rows : ∀ id', HasRow id' s → HasRow id' s'
  date : HasRow id s → lockOf id s' = some till
  others : ∀ id', id' ≠ id → lockOf id' s' = lockOf id' s

theorem wrote_of_set {metadata : GoMap} {objects : Objects}
    (h : setObjectRetention id till metadata s.objects = .ok objects) :
    Wrote id till s {s with objects := objects} where
  rows id' hrow := by
    rw [HasRow, getObjectByID_setRetention h, Option.isSome_map]
    exact hrow
  date hrow := by
    obtain ⟨o, ho⟩ := Option.isSome_iff_exists.mp hrow
    have hid := (getObjectByID_some ho).2
    rw [lockOf, getObjectByID_setRetention h, ho]
    simp [hid]
  others id' hne := by
    rw [lockOf, lockOf, getObjectByID_setRetention h]
    cases hg : getObjectByID s.objects id' with
    | none => rfl
    | some o =>
      have hid := (getObjectByID_some hg).2
      simp [hid, hne]

/-- A step that leaves the vault alone: if it brings the call to its write, the call has just
read a date that its own one does not shorten. -/
structure Looked (call : RetentionCall) (s : Vault) (phase : RetentionPhase)
    (next : RetentionPhase × Vault) : Prop where
  vault : next.2 = s
  checked : ∀ id metadata, next.1 = .writing id metadata →
    phase = .start ∧ HasRow id s ∧ LockedBy id call.till s

theorem retentionAdvance_cases (call : RetentionCall) (env : RetentionEnv) (s : Vault)
    (phase : RetentionPhase) :
    Looked call s phase (retentionAdvance call env s phase) ∨
      ∃ id metadata, phase = .writing id metadata ∧ env.reply ≠ .failed ∧
        Wrote id call.till s (retentionAdvance call env s phase).2 ∧
        ∀ id' metadata', (retentionAdvance call env s phase).1 ≠ .writing id' metadata' := by
  cases phase with
  | start =>
    simp only [retentionAdvance]
    split_ifs
    · exact .inl ⟨rfl, nofun⟩
    · split
      · exact .inl ⟨rfl, nofun⟩
      · rename_i hpr
        refine .inl ⟨rfl, fun id metadata h => ?_⟩
        cases h
        exact ⟨rfl, prepareRetention_ok hpr⟩
  | writing id metadata =>
    by_cases hf : env.reply = .failed
    · simp only [retentionAdvance, if_pos hf]
      exact .inl ⟨rfl, nofun⟩
    · cases hset : setObjectRetention id call.till metadata s.objects with
      | error err =>
        simp only [retentionAdvance, if_neg hf, hset]
        exact .inl ⟨rfl, nofun⟩
      | ok objects =>
        simp only [retentionAdvance, if_neg hf, hset]
        refine .inr ⟨id, metadata, rfl, hf, wrote_of_set hset, fun _ _ => ?_⟩
        split_ifs <;> exact nofun
  | done | failed => exact .inl ⟨rfl, nofun⟩

theorem hasRow_advance {phase : RetentionPhase} (h : HasRow id s) :
    HasRow id (retentionAdvance call env s phase).2 := by
  obtain hl | ⟨_, _, -, -, hwr, -⟩ := retentionAdvance_cases call env s phase
  · rw [hl.vault]
    exact h
  · exact hwr.rows id h

/-- A write that is not refused takes effect. -/
theorem lockOf_advance {metadata : GoMap} (hrow : HasRow id s) (hrp : env.reply ≠ .failed) :
    lockOf id (retentionAdvance call env s (.writing id metadata)).2 = some call.till := by
  simp only [retentionAdvance, if_neg hrp]
  split
  · rename_i hset
    unfold setObjectRetention at hset
    split at hset
    · rename_i hnone
      rw [HasRow, hnone] at hrow
      cases hrow
    · cases hset
  · rename_i hset
    exact (wrote_of_set hset).date hrow

/-! ### Runs -/

section Runs

variable {ι : Type*} [DecidableEq ι] (calls : ι → RetentionCall)

def retentionStep (w : World Vault RetentionPhase ι) (i : ι × RetentionEnv) : World Vault RetentionPhase ι :=
  World.step (fun c env s phase => retentionAdvance (calls c) env s phase) w i

/-- The step does not move the stored date of the version back. -/
def NeverShrinks (id : Nat) (w : World Vault RetentionPhase ι) (i : ι × RetentionEnv) : Prop :=
  ∀ v, lockOf id w.shared = some v → ∃ v', lockOf id (retentionStep calls w i).shared = some v' ∧ v ≤ v'

/-- While `c` was between its read and its write, a call with a later date wrote to the
version. -/
def Overtaken (w : World Vault RetentionPhase ι) (before : List (ι × RetentionEnv)) (c : ι) (id : Nat) : Prop :=
  ∃ a c' env' b metadata metadata', before = a ++ (c', env') :: b ∧
    (run (retentionStep calls) w a).phase c = .writing id metadata ∧
    (run (retentionStep calls) w a).phase c' = .writing id metadata' ∧
    env'.reply ≠ .failed ∧ (calls c).till < (calls c').till

/-- No write to the version is overtaken. -/
def WritesInOrder (w : World Vault RetentionPhase ι) (ins : List (ι × RetentionEnv)) (id : Nat) : Prop :=
  ∀ before c env after metadata, ins = before ++ (c, env) :: after →
    (run (retentionStep calls) w before).phase c = .writing id metadata → env.reply ≠ .failed →
    ¬ Overtaken calls w before c id

variable {calls} {w : World Vault RetentionPhase ι}

/-- A call that is to write has read a row that is still there. -/
def RowsKept : World Vault RetentionPhase ι → Prop :=
  World.Asserts fun s _ phase => ∀ id metadata, phase = .writing id metadata → HasRow id s

theorem rowsKept_run (hst : ∀ c, w.phase c = .start) (ins : List (ι × RetentionEnv)) :
    RowsKept (run (retentionStep calls) w ins) := by
  refine run_keeps (J := RowsKept) (fun w i h => ?_) ?_ ins
  · refine .step h ?_ ?_ i
    · intro c env s phase _ id metadata hnx
      obtain hl | ⟨_, _, -, -, -, hnv⟩ := retentionAdvance_cases (calls c) env s phase
      · rw [hl.vault]
        exact (hl.checked id metadata hnx).2.1
      · exact absurd hnx (hnv id metadata)
    · intro c c' env s phase phase' _ _ hold id metadata hph
      exact hasRow_advance (hold id metadata hph)
  · intro c id metadata h
    rw [hst c] at h
    cases h

theorem run_snoc (w : World Vault RetentionPhase ι) (before : List (ι × RetentionEnv)) (i : ι × RetentionEnv) :
    run (retentionStep calls) w (before ++ [i]) = retentionStep calls (run (retentionStep calls) w before) i :=
  run_append w before [i]

/-- A call that is to write: the stored date is not later than its own, unless it was overtaken. -/
theorem lockedBy_or_overtaken (hstart : ∀ c, w.phase c = .start) (before : List (ι × RetentionEnv)) (c : ι)
    (metadata : GoMap) (h : (run (retentionStep calls) w before).phase c = .writing id metadata) :
    LockedBy id (calls c).till (run (retentionStep calls) w before).shared ∨ Overtaken calls w before c id := by
  induction before using List.reverseRecOn generalizing metadata with
  | nil =>
    rw [show (run (retentionStep calls) w []).phase c = .start from hstart c] at h
    cases h
  | append_singleton before i ih =>
    obtain ⟨x, env⟩ := i
    rw [run_snoc] at h ⊢
    have hcs := retentionAdvance_cases (calls x) env (run (retentionStep calls) w before).shared
      ((run (retentionStep calls) w before).phase x)
    by_cases hx : c = x
    · subst hx
      rw [retentionStep, World.phase_step_self] at h
      obtain hl | ⟨_, _, -, -, -, hnv⟩ := hcs
      · left
        rw [retentionStep, World.shared_step, hl.vault]
        exact (hl.checked id metadata h).2.2
      · exact absurd h (hnv id metadata)
    · rw [retentionStep, World.phase_step_of_ne hx] at h
      obtain hold | ⟨a, c', env', b, m, m', hsp, hrs⟩ := ih metadata h
      · obtain hl | ⟨id', m', hwr, hrp, hwrot, -⟩ := hcs
        · left
          rw [retentionStep, World.shared_step, hl.vault]
          exact hold
        · by_cases hid : id = id'
          · subst hid
            by_cases hlt : (calls c).till < (calls x).till
            · exact .inr ⟨before, x, env, [], metadata, m', rfl, h, hwr, hrp, hlt⟩
            · left
              intro v hv
              have hrow := rowsKept_run hstart before x id m' hwr
              have hd := (hwrot.date hrow).symm.trans hv
              cases hd
              exact Nat.le_of_not_lt hlt
          · left
            intro v hv
            exact hold v ((hwrot.others id hid).symm.trans hv)
      · right
        exact ⟨a, c', env', b ++ [(x, env)], m, m', by rw [hsp]; simp, hrs⟩

theorem grows_run {ins : List (ι × RetentionEnv)} (h : Each (retentionStep calls) (NeverShrinks calls id) w ins)
    {v : Nat} (hv : lockOf id w.shared = some v) :
    ∃ v', lockOf id (run (retentionStep calls) w ins).shared = some v' ∧ v ≤ v' := by
  induction ins generalizing w v with
  | nil => exact ⟨v, hv, le_refl v⟩
  | cons i rest ih =>
    obtain ⟨v', hv', hle⟩ := h.1 v hv
    obtain ⟨v'', hv'', hle'⟩ := ih h.2 hv'
    exact ⟨v'', hv'', hle.trans hle'⟩

end Runs

/-- **When retention never shrinks.** However the steps of any number of retention calls
interleave, with statements that fail or whose replies are lost: the stored date of a version
never moves back exactly when no write to it is overtaken. -/
theorem retention_never_shrinks_iff {ι : Type*} [DecidableEq ι] (calls : ι → RetentionCall)
    (w : World Vault RetentionPhase ι) (hstart : ∀ c, w.phase c = .start) (ins : List (ι × RetentionEnv))
    (id : Nat) :
    Each (retentionStep calls) (NeverShrinks calls id) w ins ↔ WritesInOrder calls w ins id := by
  constructor
  · intro h before c env after metadata hins hph hreply hover
    obtain ⟨a, c', env', b, m, m', hbf, -, hwrit, hreply', hlt⟩ := hover
    rw [hins, each_append] at h
    obtain ⟨hg, hl, -⟩ := h
    rw [hbf, each_append] at hg
    have hd : lockOf id (retentionStep calls (run (retentionStep calls) w a) (c', env')).shared =
        some (calls c').till := by
      rw [retentionStep, World.shared_step, hwrit]
      exact lockOf_advance (rowsKept_run hstart a c' id m' hwrit) hreply'
    obtain ⟨v, hv, hle⟩ := grows_run hg.2.2 hd
    have hrun : run (retentionStep calls) (retentionStep calls (run (retentionStep calls) w a) (c', env')) b =
        run (retentionStep calls) w before := by
      rw [hbf, run_append]
      rfl
    rw [hrun] at hv
    obtain ⟨v', hv', hle'⟩ := hl v hv
    have hf : lockOf id (retentionStep calls (run (retentionStep calls) w before) (c, env)).shared =
        some (calls c).till := by
      rw [retentionStep, World.shared_step, hph]
      exact lockOf_advance (rowsKept_run hstart before c id metadata hph) hreply
    rw [hf] at hv'
    cases hv'
    omega
  · intro h
    refine each_iff_split.mpr fun before i after hins v hv => ?_
    obtain ⟨c, env⟩ := i
    obtain hlk | ⟨id', m, hwrit, hreply, hwr, -⟩ := retentionAdvance_cases (calls c) env
      (run (retentionStep calls) w before).shared ((run (retentionStep calls) w before).phase c)
    · refine ⟨v, ?_, le_refl v⟩
      rw [retentionStep, World.shared_step, hlk.vault]
      exact hv
    · by_cases hid : id = id'
      · subst hid
        refine ⟨(calls c).till, hwr.date (rowsKept_run hstart before c id m hwrit), ?_⟩
        obtain hold | hover := lockedBy_or_overtaken hstart before c m hwrit
        · exact hold v hv
        · exact absurd hover (h before c env after m hins hwrit hreply)
      · exact ⟨v, (hwr.others id hid).trans hv, le_refl v⟩

/-! Two locks of one object, until 10 and until 20. -/

def twoLocks (later : Bool) : RetentionCall := lockObject "acme" "docs" "a" (if later then 20 else 10)

def lockStep (later : Bool) : Bool × RetentionEnv := (later, ⟨allowedUser 2 "v2" "u2", .ok⟩)

/-- Both read; the later date is written first and then replaced by the earlier one. -/
theorem overtaken_lock_shrinks :
    let after := run (retentionStep twoLocks) ⟨onePut, fun _ => .start⟩
    lockOf 1 (after [lockStep false, lockStep true, lockStep true]).shared = some 20 ∧
      lockOf 1 (after [lockStep false, lockStep true, lockStep true, lockStep false]).shared = some 10 := by
  decide +kernel

def RetentionPhase.isWriting : RetentionPhase → Bool
  | .writing .. => true
  | _ => false

/-- One after the other, the later date is kept. -/
theorem locks_in_turn_grow :
    let w : World Vault RetentionPhase Bool := ⟨onePut, fun _ => .start⟩
    let ins := [lockStep false, lockStep false, lockStep true, lockStep true]
    WritesInOrder twoLocks w ins 1 ∧ Each (retentionStep twoLocks) (NeverShrinks twoLocks 1) w ins ∧
      lockOf 1 (run (retentionStep twoLocks) w ins).shared = some 20 := by
  intro w ins
  have hone : ∀ n < 4, ∀ c, ((run (retentionStep twoLocks) w (ins.take n)).phase c).isWriting = true →
      ((run (retentionStep twoLocks) w (ins.take n)).phase !c).isWriting = false := by
    decide +kernel
  have hord : WritesInOrder twoLocks w ins 1 := by
    rintro before c env after metadata hins - - ⟨a, c', env', b, m, m', rfl, hc, hc', -, hlt⟩
    have hother : c' = !c := by
      cases c <;> cases c' <;> first | rfl | exact absurd hlt (lt_irrefl _)
    have ha : ins.take a.length = a := by simp [hins]
    have hl : a.length < 4 := by
      have hlen := congrArg List.length hins
      simp only [ins, List.length_append, List.length_cons, List.length_nil] at hlen
      omega
    have hnot := hone a.length hl c (by rw [ha, hc]; rfl)
    rw [ha, ← hother, hc'] at hnot
    cases hnot
  exact ⟨hord, (retention_never_shrinks_iff twoLocks w (fun _ => rfl) ins 1).mpr hord, by decide +kernel⟩

end AeroVault.Service
