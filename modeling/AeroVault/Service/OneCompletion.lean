import AeroVault.Repository.Idempotency
import AeroVault.Service.Writes

/-! Concurrent `CompleteMultipart` and `AbortMultipart` calls on one upload.

A completion claims `_mp_complete:` and the upload's ID, loads the upload, has the backend merge its
parts, writes the row, and completes the claim with the object as JSON; every error releases the
claim. A call that finds the claim taken replays the object, if the claim is completed. An abort
does the like under `_mp_abort:`. The calls interleave statement by statement. What the reads of a
completion return between its load and the merge, what the checks answer, and the row that the
repository writes are free, and any statement may fail or lose its reply.

The backend completes an upload at most once. So at most one version is ever created from it, and
whoever returns an object returns that one (`one_completion`). -/
namespace AeroVault.Service
open Lib Repository Function

/-- What is known of one upload. `β` is the type of a cached response body. -/
structure UploadState (β : Type*) where
  /-- The row of `multipart_uploads`. -/
  upload : Option Upload
  /-- The idempotency rows of the tenants under the key of the completion. -/
  claims : String → Option (IdempotencyRecord β)
  /-- Those under the key of the abort. -/
  aborts : String → Option (IdempotencyRecord Upload)
  /-- The backend has completed the upload. -/
  consumed : Bool
  /-- The versions created from the upload, in order. -/
  created : List Object

/-- What a call does not control: the reply to its statement, whether the checks of the step pass, and
the row that the repository writes. -/
structure UploadEnv where
  reply : Reply
  passes : Bool
  object : Object

/-- Where a `CompleteMultipart` stands. -/
inductive CompletePhase
  | start
  | reading
  | loading
  | preparing (u : Upload)
  | storing (u : Upload)
  | saving (u : Upload)
  /-- The ACL and the legal hold are set. -/
  | settling (u : Upload) (o : Object)
  | completing (u : Upload) (o : Object)
  | closing (o : Object)
  | releasing
  | returned (o : Object)
  | failed

/-- Where an `AbortMultipart` stands. -/
inductive AbortPhase
  | start
  | reading
  | loading
  | aborting (u : Upload)
  | recording (u : Upload)
  | closing
  | releasing
  | returned
  | failed

section Calls

variable {β : Type*}

def UploadState.setClaim (s : UploadState β) (tenant : String) (row : Option (IdempotencyRecord β)) :
    UploadState β :=
  {s with claims := update s.claims tenant row}

def UploadState.setAbort (s : UploadState β) (tenant : String) (row : Option (IdempotencyRecord Upload)) :
    UploadState β :=
  {s with aborts := update s.aborts tenant row}

/-- `loadMultipartUpload`. -/
def loadUpload (scope : MultipartScope) (env : UploadEnv) (s : UploadState β) : Option Upload :=
  if env.reply = .ok ∧ env.passes = true then s.upload.filter fun u => scope.matchesPath u.path else none

variable (encode : Object → β) (decode : β → Option Object)

/-- `replayMultipartCompletion`: the cached object, if the checks admit it. -/
def replayedObject (scope : MultipartScope) (passes : Bool) (rec : IdempotencyRecord β) : Option Object :=
  (rec.response.bind decode).filter fun o => scope.matchesPath o.path && passes

/-- The next statement of a `CompleteMultipart`, or the checks before it. -/
def completeAdvance (scope : MultipartScope) (env : UploadEnv) (s : UploadState β) :
    CompletePhase → CompletePhase × UploadState β
  | .start =>
    let tenant := defaultTenant scope.tenantID
    let claim := claimIdempotencyKey "" env.reply (s.claims tenant)
    match claim.1 with
    | .claimed => (.loading, s.setClaim tenant claim.2)
    | .taken => (.reading, s.setClaim tenant claim.2)
    | .failed => (.failed, s.setClaim tenant claim.2)
  | .reading =>
    match (getIdempotencyKey env.reply (s.claims (defaultTenant scope.tenantID))).bind
        (replayedObject decode scope env.passes) with
    | some o => (.returned o, s)
    | none => (.failed, s)
  | .loading =>
    match loadUpload scope env s with
    | some u => (.preparing u, s)
    | none => (.releasing, s)
  -- The checks of SSE-C, parts, lock and quotas, and the accounting.
  | .preparing u => (if env.passes then .storing u else .releasing, s)
  | .storing u =>
    if env.passes && !s.consumed then (.saving u, {s with consumed := true}) else (.releasing, s)
  | .saving u =>
    let written := {s with created := s.created ++ [env.object]}
    match env.reply with
    | .ok => (.settling u env.object, written)
    | .lost => (.releasing, written)
    | .failed => (.releasing, s)
  | .settling u o => (if env.passes then .completing u o else .releasing, s)
  | .completing u o =>
    let row := s.claims u.path.tenantID
    (.closing o, s.setClaim u.path.tenantID (env.reply.after row (completeIdempotencyKey (encode o) row)))
  | .closing o => (.returned o, {s with upload := env.reply.after s.upload none})
  | .releasing =>
    let row := s.claims (defaultTenant scope.tenantID)
    (.failed, s.setClaim (defaultTenant scope.tenantID) (env.reply.after row (deleteIdempotencyKey row)))
  | .returned o => (.returned o, s)
  | .failed => (.failed, s)

/-- The next statement of an `AbortMultipart`. -/
def abortAdvance (scope : MultipartScope) (env : UploadEnv) (s : UploadState β) :
    AbortPhase → AbortPhase × UploadState β
  | .start =>
    let tenant := defaultTenant scope.tenantID
    let claim := claimIdempotencyKey "" env.reply (s.aborts tenant)
    match claim.1 with
    | .claimed => (.loading, s.setAbort tenant claim.2)
    | .taken => (.reading, s.setAbort tenant claim.2)
    | .failed => (.failed, s.setAbort tenant claim.2)
  | .reading =>
    match (getIdempotencyKey env.reply (s.aborts (defaultTenant scope.tenantID))).bind
        IdempotencyRecord.response with
    | some u => (if scope.matchesPath u.path && env.passes then .returned else .failed, s)
    | none => (.failed, s)
  | .loading =>
    match loadUpload scope env s with
    | some u => (.aborting u, s)
    | none => (.releasing, s)
  | .aborting u => (if env.passes then .recording u else .releasing, s)
  | .recording u =>
    let row := s.aborts (defaultTenant scope.tenantID)
    (if env.reply = .ok then .closing else .releasing,
      s.setAbort (defaultTenant scope.tenantID) (env.reply.after row (completeIdempotencyKey u row)))
  | .closing =>
    (if env.reply = .ok then .returned else .releasing, {s with upload := env.reply.after s.upload none})
  | .releasing =>
    let row := s.aborts (defaultTenant scope.tenantID)
    (.failed, s.setAbort (defaultTenant scope.tenantID) (env.reply.after row (deleteIdempotencyKey row)))
  | .returned => (.returned, s)
  | .failed => (.failed, s)

end Calls

/-- A call on the upload. -/
inductive UploadPhase
  | complete (p : CompletePhase)
  | abort (p : AbortPhase)

def uploadAdvance {β : Type*} (encode : Object → β) (decode : β → Option Object) (scope : MultipartScope)
    (env : UploadEnv) (s : UploadState β) : UploadPhase → UploadPhase × UploadState β
  | .complete p =>
    let next := completeAdvance encode decode scope env s p
    (.complete next.1, next.2)
  | .abort p =>
    let next := abortAdvance scope env s p
    (.abort next.1, next.2)

section Interleaved

variable {β ι : Type*} [DecidableEq ι] (encode : Object → β) (decode : β → Option Object)
  (scopes : ι → MultipartScope)

/-- One statement of one of the calls. -/
def uploadStep (w : World (UploadState β) UploadPhase ι) (i : ι × UploadEnv) :
    World (UploadState β) UploadPhase ι :=
  World.step (fun c env s p => uploadAdvance encode decode (scopes c) env s p) w i

/-- No call has run, and nothing was claimed or created under the upload's ID. -/
structure Untouched (w : World (UploadState β) UploadPhase ι) : Prop where
  phases : ∀ c, w.phase c = .complete .start ∨ w.phase c = .abort .start
  claims : ∀ tenant, w.shared.claims tenant = none
  consumed : w.shared.consumed = false
  created : w.shared.created = []

end Interleaved

/-! ### What a statement does -/

/-- The versions created so far, as far as a call has to do with them: it has had the backend complete the
upload, and has yet to return. -/
def UploadPhase.kept : UploadPhase → Option (List Object)
  | .complete (.saving _) => some []
  | .complete (.settling _ o) | .complete (.completing _ o) | .complete (.closing o) => some [o]
  | _ => none

section Change

variable {β : Type*} (encode : Object → β) (decode : β → Option Object)

/-- What a statement does to the completions that are cached and to the versions. -/
inductive Change (s s' : UploadState β) (p p' : UploadPhase) : Prop
  /-- It creates nothing. It caches nothing but the version that its call has created, and lets its call
  return nothing else, unless it is cached. -/
  | keeps (created : s'.created = s.created) (consumed : s'.consumed = s.consumed)
      (claims : ∀ tenant f body, s'.claims tenant = some (.completed f body) →
        s.claims tenant = some (.completed f body) ∨ ∃ o, p.kept = some [o] ∧ body = encode o)
      (kept : p'.kept = none ∨ p'.kept = p.kept)
      (returned : ∀ o, p' = .complete (.returned o) → p = .complete (.returned o) ∨ p.kept = some [o] ∨
        ∃ tenant f body, s.claims tenant = some (.completed f body) ∧ decode body = some o)
  /-- The backend completes the upload. -/
  | stores (before : s.consumed = false) (after : s'.consumed = true) (created : s'.created = s.created)
      (claims : s'.claims = s.claims) (old : p.kept = none) (kept : p'.kept = some [])
  /-- The row is written. -/
  | creates (o : Object) (created : s'.created = s.created ++ [o]) (consumed : s'.consumed = s.consumed)
      (claims : s'.claims = s.claims) (old : p.kept = some [])
      (kept : p'.kept = none ∨ p'.kept = some [o]) (returned : ∀ o', p' ≠ .complete (.returned o'))

variable {encode decode} {scope : MultipartScope} {env : UploadEnv} {s s' : UploadState β}

/-- A statement that neither creates nor completes anything. -/
theorem Change.quiet {p p' : UploadPhase} (hcr : s'.created = s.created) (hcn : s'.consumed = s.consumed)
    (hcl : ∀ tenant f body, s'.claims tenant = some (.completed f body) →
      s.claims tenant = some (.completed f body))
    (hkp : p'.kept = none ∨ p'.kept = p.kept) (hrt : ∀ o, p' ≠ .complete (.returned o)) :
    Change encode decode s s' p p' :=
  .keeps hcr hcn (fun tenant f body h => .inl (hcl tenant f body h)) hkp
    fun o h => absurd h (hrt o)

theorem setClaim_completed {tenant t f : String} {body : β} {row : Option (IdempotencyRecord β)}
    (hrow : row = some (.completed f body) → s.claims tenant = some (.completed f body))
    (h : (s.setClaim tenant row).claims t = some (.completed f body)) :
    s.claims t = some (.completed f body) := by
  have h : update s.claims tenant row t = some (.completed f body) := h
  by_cases ht : t = tenant
  · rw [ht, update_self] at h
    rw [ht]
    exact hrow h
  · rwa [update_of_ne ht] at h

/-- An abort does not touch the completions and the versions. -/
theorem abortAdvance_frame {p : AbortPhase} :
    (abortAdvance scope env s p).2.claims = s.claims ∧
      (abortAdvance scope env s p).2.consumed = s.consumed ∧
      (abortAdvance scope env s p).2.created = s.created := by
  cases p with
  | start =>
    simp only [abortAdvance]
    split <;> exact ⟨rfl, rfl, rfl⟩
  | reading =>
    simp only [abortAdvance]
    split <;> exact ⟨rfl, rfl, rfl⟩
  | loading =>
    simp only [abortAdvance]
    split <;> exact ⟨rfl, rfl, rfl⟩
  | aborting | recording | closing | releasing | returned | failed => exact ⟨rfl, rfl, rfl⟩

theorem completeAdvance_change {p : CompletePhase} :
    Change encode decode s (completeAdvance encode decode scope env s p).2 (.complete p)
      (.complete (completeAdvance encode decode scope env s p).1) := by
  cases p with
  | start =>
    simp only [completeAdvance]
    split <;>
      exact .quiet rfl rfl (fun _ _ _ h => setClaim_completed claimIdempotencyKey_completed h) (.inl rfl) nofun
  | reading =>
    simp only [completeAdvance]
    split
    next o hrd =>
      refine .keeps rfl rfl (fun _ _ _ h => .inl h) (.inl rfl) fun o' ho' => .inr (.inr ?_)
      cases ho'
      obtain ⟨rec, hrec, ho⟩ := Option.bind_eq_some_iff.mp hrd
      obtain ⟨body, hbody, hd⟩ := Option.bind_eq_some_iff.mp (Option.filter_eq_some_iff.mp ho).1
      refine ⟨defaultTenant scope.tenantID, rec.fingerprint, body, ?_, hd⟩
      rw [getIdempotencyKey_eq_some hrec, ← IdempotencyRecord.eq_completed hbody]
    · exact .quiet rfl rfl (fun _ _ _ h => h) (.inl rfl) nofun
  | loading =>
    simp only [completeAdvance]
    split <;> exact .quiet rfl rfl (fun _ _ _ h => h) (.inl rfl) nofun
  | preparing u =>
    simp only [completeAdvance]
    split <;> exact .quiet rfl rfl (fun _ _ _ h => h) (.inl rfl) nofun
  | storing u =>
    simp only [completeAdvance]
    split
    next hst =>
      rw [Bool.and_eq_true, Bool.not_eq_true'] at hst
      exact .stores hst.2 rfl rfl rfl rfl rfl
    · exact .quiet rfl rfl (fun _ _ _ h => h) (.inl rfl) nofun
  | saving u =>
    simp only [completeAdvance]
    cases env.reply with
    | ok => exact .creates env.object rfl rfl rfl rfl (.inr rfl) nofun
    | lost => exact .creates env.object rfl rfl rfl rfl (.inl rfl) nofun
    | failed => exact .quiet rfl rfl (fun _ _ _ h => h) (.inl rfl) nofun
  | settling u o =>
    simp only [completeAdvance]
    split
    · exact .quiet rfl rfl (fun _ _ _ h => h) (.inr rfl) nofun
    · exact .quiet rfl rfl (fun _ _ _ h => h) (.inl rfl) nofun
  | completing u o =>
    refine .keeps rfl rfl (fun tenant f body h => ?_) (.inr rfl) nofun
    by_cases hbody : body = encode o
    · exact .inr ⟨o, rfl, hbody⟩
    · refine .inl (setClaim_completed (fun hrow => ?_) h)
      by_cases hrp : env.reply = .failed
      · exact (if_pos hrp).symm.trans hrow
      · exact absurd (completeIdempotencyKey_completed ((if_neg hrp).symm.trans hrow)) hbody
  | closing o =>
    refine .keeps rfl rfl (fun _ _ _ h => .inl h) (.inl rfl) fun o' ho' => .inr (.inl ?_)
    cases ho'
    rfl
  | releasing =>
    refine .quiet rfl rfl (fun _ _ _ h => setClaim_completed (fun hrow => ?_) h) (.inl rfl) nofun
    by_cases hrp : env.reply = .failed
    · exact (if_pos hrp).symm.trans hrow
    · cases (if_neg hrp).symm.trans hrow
  | returned o => exact .keeps rfl rfl (fun _ _ _ h => .inl h) (.inl rfl) fun _ ho' => .inl ho'
  | failed => exact .quiet rfl rfl (fun _ _ _ h => h) (.inl rfl) nofun

theorem uploadAdvance_change (scope : MultipartScope) (env : UploadEnv) (s : UploadState β) (p : UploadPhase) :
    Change encode decode s (uploadAdvance encode decode scope env s p).2 p
      (uploadAdvance encode decode scope env s p).1 := by
  cases p with
  | complete p => exact completeAdvance_change
  | abort p =>
    obtain ⟨hcl, hcn, hcr⟩ := abortAdvance_frame
    refine .quiet hcr hcn (fun _ _ _ h => ?_) (.inl rfl) nofun
    exact hcl ▸ h

end Change

/-! ### Runs -/

section Runs

variable {β ι : Type*} {encode : Object → β} {decode : β → Option Object} {scopes : ι → MultipartScope}
  {w : World (UploadState β) UploadPhase ι}

/-- A call that has had the upload completed has it to itself, and knows what was created. -/
def Knows (s : UploadState β) (_ : ι) (p : UploadPhase) : Prop := s.consumed = true ∧ p.kept = some s.created

structure OneVersion (encode : Object → β) (w : World (UploadState β) UploadPhase ι) : Prop where
  owned : World.Owned (fun p => p.kept ≠ none) Knows w
  unconsumed : w.shared.consumed = false → w.shared.created = []
  single : w.shared.created = [] ∨ ∃ o, w.shared.created = [o]
  cached : ∀ tenant f body, w.shared.claims tenant = some (.completed f body) →
    ∃ o, w.shared.created = [o] ∧ body = encode o
  returned : ∀ c o, w.phase c = .complete (.returned o) → w.shared.created = [o]

theorem Untouched.oneVersion (h : Untouched w) : OneVersion encode w := by
  have hkp (c : ι) : (w.phase c).kept = none := by
    obtain hc | hc := h.phases c <;> rw [hc] <;> rfl
  refine ⟨⟨fun c _ hc => absurd (hkp c) hc, fun c hc => absurd (hkp c) hc⟩, fun _ => h.created,
    .inl h.created, fun tenant f body hrow => ?_, fun c o hc => ?_⟩
  · rw [h.claims tenant] at hrow
    cases hrow
  · obtain hst | hst := h.phases c <;> cases hst.symm.trans hc

/-- Nothing was created yet when a call comes to write its row. -/
theorem OneVersion.created_nil (h : OneVersion encode w) {c : ι} (hc : (w.phase c).kept = some []) :
    w.shared.consumed = true ∧ w.shared.created = [] := by
  obtain ⟨hcn, hcr⟩ := h.owned.holds c (by rw [hc]; nofun)
  exact ⟨hcn, Option.some.inj (hcr.symm.trans hc)⟩

variable [DecidableEq ι]

section
variable (h : OneVersion encode w)
include h

theorem OneVersion.owned_step (c : ι) (env : UploadEnv) :
    World.Owned (fun p => p.kept ≠ none) Knows (uploadStep encode decode scopes w (c, env)) := by
  have hchange : Change encode decode _ _ _ _ := uploadAdvance_change (scopes c) env w.shared (w.phase c)
  refine h.owned.step (fun hp hp' hknows => ?_) (fun hp hp' => ?_) (fun hp c' hknows => ?_)
  · cases hchange with
    | keeps hcreat hcn _ hkp _ =>
      refine ⟨hcn.trans hknows.1, ?_⟩
      rw [hkp.resolve_left hp', hcreat]
      exact hknows.2
    | stores _ _ _ _ hold _ => exact absurd hold hp
    | creates o hcreat hcn _ hold hkp _ =>
      refine ⟨hcn.trans hknows.1, ?_⟩
      rw [hkp.resolve_left hp', hcreat, (h.created_nil hold).2]
      rfl
  · have hp := not_not.mp hp
    cases hchange with
    | keeps _ _ _ hkp _ => exact absurd (hkp.elim id fun hsame => hsame.trans hp) hp'
    | stores hbf haf hcreat _ _ hkp =>
      refine ⟨fun c' hknows => ?_, haf, ?_⟩
      · rw [Knows, hbf] at hknows
        cases hknows.1
      · rw [hkp, hcreat, h.unconsumed hbf]
    | creates o _ _ _ hold _ _ => cases hp.symm.trans hold
  · have hp := not_not.mp hp
    cases hchange with
    | keeps hcreat hcn _ _ _ => exact ⟨hcn.trans hknows.1, by rw [hcreat]; exact hknows.2⟩
    | stores _ haf hcreat _ _ _ => exact ⟨haf, by rw [hcreat]; exact hknows.2⟩
    | creates o _ _ _ hold _ _ => cases hp.symm.trans hold

/-- What was created stays. -/
theorem OneVersion.created_step (c : ι) (env : UploadEnv) {o : Object}
    (ho : w.shared.created = [o]) : (uploadStep encode decode scopes w (c, env)).shared.created = [o] := by
  have hch : Change encode decode _ _ _ _ := uploadAdvance_change (scopes c) env w.shared (w.phase c)
  cases hch with
  | keeps hcr _ _ _ _ => exact hcr.trans ho
  | stores _ _ hcr _ _ _ => exact hcr.trans ho
  | creates o' _ _ _ hold _ _ => cases (h.created_nil hold).2.symm.trans ho

variable (hj : ∀ o o', decode (encode o) = some o' → o' = o)
include hj

theorem OneVersion.returned_step (c : ι) (env : UploadEnv) {c' : ι} {o : Object}
    (hc' : (uploadStep encode decode scopes w (c, env)).phase c' = .complete (.returned o)) :
    w.shared.created = [o] := by
  by_cases hself : c' = c
  · subst hself
    have hch : Change encode decode _ _ _ _ := uploadAdvance_change (scopes c') env w.shared (w.phase c')
    rw [uploadStep, World.phase_step_self] at hc'
    cases hch with
    | keeps _ _ _ _ hrt =>
      obtain hold | hkp | ⟨tenant, f, body, hrow, hd⟩ := hrt o hc'
      · exact h.returned c' o hold
      · obtain ⟨-, hcr⟩ := h.owned.holds c' (by rw [hkp]; nofun)
        exact Option.some.inj (hcr.symm.trans hkp)
      · obtain ⟨o', hcr, rfl⟩ := h.cached tenant f body hrow
        rwa [hj o' o hd]
    | stores _ _ _ _ _ hkp =>
      rw [hc'] at hkp
      cases hkp
    | creates o' _ _ _ _ _ hrt => exact absurd hc' (hrt o)
  · rw [uploadStep, World.phase_step_of_ne hself] at hc'
    exact h.returned c' o hc'

theorem OneVersion.step (c : ι) (env : UploadEnv) :
    OneVersion encode (uploadStep encode decode scopes w (c, env)) := by
  have hch : Change encode decode _ _ _ _ := uploadAdvance_change (scopes c) env w.shared (w.phase c)
  refine ⟨h.owned_step c env, fun hun => ?_, ?_, fun tenant f body hrow => ?_,
    fun c' o hc' => h.created_step c env (h.returned_step hj c env hc')⟩
  · cases hch with
    | keeps hcreat hcn _ _ _ => exact hcreat.trans (h.unconsumed (hcn.symm.trans hun))
    | stores _ haf _ _ _ _ => cases haf.symm.trans hun
    | creates o _ hcn _ hold _ _ =>
      cases (h.created_nil hold).1.symm.trans (hcn.symm.trans hun)
  · cases hch with
    | keeps hcreat _ _ _ _ =>
      rw [uploadStep, World.shared_step, hcreat]
      exact h.single
    | stores _ _ hcreat _ _ _ =>
      rw [uploadStep, World.shared_step, hcreat]
      exact h.single
    | creates o hcreat _ _ hold _ _ =>
      rw [uploadStep, World.shared_step, hcreat, (h.created_nil hold).2]
      exact .inr ⟨o, rfl⟩
  · have hold : (∃ o, w.shared.created = [o] ∧ body = encode o) := by
      cases hch with
      | keeps _ _ hcl _ _ =>
        obtain hold | ⟨o, hkp, hbd⟩ := hcl tenant f body hrow
        · exact h.cached tenant f body hold
        · obtain ⟨-, hcreat⟩ := h.owned.holds c (by rw [hkp]; nofun)
          exact ⟨o, Option.some.inj (hcreat.symm.trans hkp), hbd⟩
      | stores _ _ _ hcl _ _ => exact h.cached tenant f body (hcl ▸ hrow)
      | creates o _ _ hcl _ _ _ => exact h.cached tenant f body (hcl ▸ hrow)
    obtain ⟨o, hcreat, hbd⟩ := hold
    exact ⟨o, h.created_step c env hcreat, hbd⟩

end

/-- **However the statements of any number of completions and aborts of one upload interleave, and wherever
they fail, at most one version is created from the upload, and every completion that returns an object returns
that version.** -/
theorem one_completion (encode : Object → β) (decode : β → Option Object)
    (hjson : ∀ o o', decode (encode o) = some o' → o' = o) (scopes : ι → MultipartScope)
    (w : World (UploadState β) UploadPhase ι) (hw : Untouched w) (ins : List (ι × UploadEnv)) :
    (run (uploadStep encode decode scopes) w ins).shared.created.length ≤ 1 ∧
      ∀ c o, (run (uploadStep encode decode scopes) w ins).phase c = .complete (.returned o) →
        (run (uploadStep encode decode scopes) w ins).shared.created = [o] := by
  have h : OneVersion encode (run (uploadStep encode decode scopes) w ins) :=
    run_keeps (fun w i h => h.step hjson i.1 i.2) hw.oneVersion ins
  refine ⟨?_, h.returned⟩
  obtain hnone | ⟨o, ho⟩ := h.single
  · rw [hnone]
    exact Nat.zero_le 1
  · rw [ho]
    exact le_rfl

end Runs

section Example

private def uploadedPath : Path := ⟨"t", "b", "k"⟩

private def uploadScope : MultipartScope := ⟨"t", "b", "k"⟩

private def uploadedObject : Object :=
  {id := 1, path := uploadedPath, versionID := "v", backend := "local", storageKey := "s", size := 3, etag := "e"}

/-- Two completions of an upload, before they run. -/
private def twoCompletions : World (UploadState Object) UploadPhase Bool where
  shared :=
    {upload := some ⟨"u", uploadedPath, "v", "local", "bu", "s", "", [], [], ""⟩, claims := fun _ => none,
      aborts := fun _ => none, consumed := false, created := []}
  phase _ := .complete .start

/-- The first completion runs to its end, then the second one. -/
private def oneAfterTheOther : List (Bool × UploadEnv) :=
  List.replicate 8 (true, ⟨.ok, true, uploadedObject⟩) ++ List.replicate 2 (false, ⟨.ok, true, uploadedObject⟩)

theorem second_completion_replays :
    (run (uploadStep id some fun _ => uploadScope) twoCompletions oneAfterTheOther).phase false =
        .complete (.returned uploadedObject) ∧
      (run (uploadStep id some fun _ => uploadScope) twoCompletions oneAfterTheOther).shared.created =
        [uploadedObject] := by
  have hrp : (run (uploadStep id some fun _ => uploadScope) twoCompletions oneAfterTheOther).phase false =
      .complete (.returned uploadedObject) := by rfl
  refine ⟨hrp, (one_completion id some ?_ _ _ ?_ _).2 false _ hrp⟩
  · intro o o' h
    exact (Option.some.inj h).symm
  · exact ⟨fun _ => .inl rfl, fun _ => rfl, rfl, rfl⟩

end Example

end AeroVault.Service
