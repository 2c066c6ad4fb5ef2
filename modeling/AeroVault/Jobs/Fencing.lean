import AeroVault.Jobs.Queue
import AeroVault.Lib.Interleaving

/-! Workers that report on jobs they may no longer hold.

A worker claims a job, runs its handler, and reports by the job's ID; meanwhile the reaper may
have returned the job to the queue and another worker may have claimed it. The statements of
the reports look at the status alone. Beside the queue, each claim of a job is numbered
(`Board.claims`, which nothing reads), so that the attempt a worker reports on can be told from
the current one. Reports change the current running attempt only, exactly when no report that
comes after another claim of its job finds the job in a status that it accepts
(`reports_fenced_iff`). -/
namespace AeroVault.Jobs
open Lib Function Table

/-- The queue, and how often each job has been claimed. -/
structure Board (π : Type) where
  queue : Queue π
  claims : Nat → Nat

/-- What came of the handler; `failed` with its error and the backoff. -/
inductive Outcome
  | done
  | failed (err : String) (delay : Nat)
  | noHandler

structure WorkEnv where
  now : Nat
  outcome : Outcome
  reply : Reply

/-- A working worker has its copy of the job, from its claim with the number `claim`. -/
inductive WorkerPhase (π : Type)
  | idle
  | working (job : Job π) (claim : Nat)

variable {π : Type}

/-- `runOne`, once the handler is through. -/
def report (now : Nat) (job : Job π) : Outcome → Queue π → Queue π
  | .done => completeJob now job.id ""
  | .failed err delay => settleFailure now job err delay
  | .noHandler => failJob now job.id ("no handler registered for type " ++ job.type)

/-- `runOne`, up to the handler and after it. -/
def workAdvance (worker : String) (env : WorkEnv) (b : Board π) : WorkerPhase π → WorkerPhase π × Board π
  | .idle =>
    if env.reply = .failed then (.idle, b)
    else match claimJob env.now worker b.queue with
      | none => (.idle, b)
      | some (job, queue) =>
        let claim := b.claims job.id + 1
        (if env.reply = .ok then .working job claim else .idle,
          ⟨queue, update b.claims job.id claim⟩)
  | .working job _ =>
    (.idle, if env.reply = .failed then b else {b with queue := report env.now job env.outcome b.queue})

inductive PoolStep (ι : Type*)
  | work (c : ι) (env : WorkEnv)
  | reap (now cutoff : Nat)

abbrev Pool (π : Type) (ι : Type*) := World (Board π) (WorkerPhase π) ι

section Steps

variable {ι : Type*} [DecidableEq ι] (name : ι → String)

/-- Workers named `name c`, and the reaper. -/
def poolStep (w : Pool π ι) : PoolStep ι → Pool π ι
  | .work c env => World.step (fun c env b phase => workAdvance (name c) env b phase) w (c, env)
  | .reap now cutoff => ⟨{w.shared with queue := reapStuckJobs now cutoff w.shared.queue}, w.phase⟩

/-- The attempt with the number `claim` is the running attempt of the job. -/
def Current (b : Board π) (id claim : Nat) : Prop :=
  b.claims id = claim ∧ ∃ row, b.queue.get? id = some row ∧ row.status = .running

/-- A report changes the queue only if its attempt is the job's current running one. -/
def Fenced (w : Pool π ι) (i : PoolStep ι) : Prop :=
  ∀ c env job claim, i = .work c env → w.phase c = .working job claim →
    (poolStep name w i).shared.queue.rows ≠ w.shared.queue.rows → Current w.shared job.id claim

end Steps

/-- The statuses in which the statement of the report changes the job: a report that asks for
another attempt also accepts a failed job. -/
def Outcome.accepts (outcome : Outcome) (job : Job π) (status : Status) : Bool :=
  status == .running || (status == .failed && match outcome with
    | .failed _ _ => !job.exhausted
    | _ => false)

/-- A report that comes after another claim of its job does not find it in a status that it
accepts. -/
def OnTime {ι : Type*} (w : Pool π ι) (i : PoolStep ι) : Prop :=
  ∀ c env job claim row, i = .work c env → w.phase c = .working job claim → env.reply ≠ .failed →
    w.shared.claims job.id ≠ claim → w.shared.queue.get? job.id = some row →
    env.outcome.accepts job row.status = false

/-! ### Statements, job by job -/

variable {q q' : Queue π} {job row : Job π} {now id : Nat}

/-- A statement on the job with the ID, if its status is among `c`, that gives it another status. -/
def Restates (id : Nat) (c : Status → Bool) (q q' : Queue π) : Prop :=
  ∃ f : Job π → Job π, (∀ j, (f j).id = j.id) ∧ (∀ j, (f j).maxAttempts = j.maxAttempts) ∧
    (∀ j, c j.status = true → (f j).status ≠ j.status) ∧ q' = q.update (fun j => j.id == id && c j.status) f

theorem completeJob_restates {result : String} :
    Restates id (· == .running) q (completeJob now id result q) := by
  refine ⟨_, ?_, ?_, ?_, rfl⟩
  · exact fun _ => rfl
  · exact fun _ => rfl
  · intro j hrunning
    simp [beq_iff_eq.mp hrunning]

theorem failJob_restates {err : String} :
    Restates id (· == .running) q (failJob now id err q) := by
  refine ⟨_, ?_, ?_, ?_, rfl⟩
  · exact fun _ => rfl
  · exact fun _ => rfl
  · intro j hrunning
    simp [beq_iff_eq.mp hrunning]

theorem retryJob_restates {err : String} {runAfter : Nat} :
    Restates id (fun status => status == .running || status == .failed) q (retryJob now id err runAfter q) := by
  refine ⟨_, ?_, ?_, ?_, rfl⟩
  · exact fun _ => rfl
  · exact fun _ => rfl
  · intro j hst hsame
    simp [← hsame] at hst

theorem report_restates (now : Nat) (job : Job π) (outcome : Outcome) (q : Queue π) :
    Restates job.id (outcome.accepts job) q (report now job outcome q) := by
  have hrunning : (fun status : Status => status == .running || (status == .failed && false)) =
      (· == .running) := by
    simp
  cases outcome with
  | done =>
    show Restates _ (fun status => status == .running || (status == .failed && false)) _ _
    rw [hrunning]
    exact completeJob_restates
  | noHandler =>
    show Restates _ (fun status => status == .running || (status == .failed && false)) _ _
    rw [hrunning]
    exact failJob_restates
  | failed err delay =>
    show Restates _ (fun status => status == .running || (status == .failed && !job.exhausted)) _
      (settleFailure now job err delay q)
    unfold settleFailure
    cases job.exhausted with
    | true =>
      rw [Bool.not_true, hrunning]
      exact failJob_restates
    | false =>
      simp only [Bool.not_false, Bool.and_true]
      exact retryJob_restates

section Restates
variable {c : Status → Bool} (h : Restates id c q q')
include h

theorem Restates.get_of_ne {other : Nat} (hne : other ≠ id) : q'.get? other = q.get? other := by
  obtain ⟨f, hid, -, -, rfl⟩ := h
  rw [get?_update hid]
  cases hg : q.get? other with
  | none => rfl
  | some a =>
    have ha : a.id = other := (get?_eq_some.mp hg).2
    simp [ha, hne]

theorem Restates.get (hrow : q.get? id = some row) :
    ∃ row', q'.get? id = some row' ∧ row'.maxAttempts = row.maxAttempts := by
  obtain ⟨f, hid, hm, -, rfl⟩ := h
  rw [get?_update hid, hrow]
  refine ⟨_, Option.map_some _ _, ?_⟩
  split_ifs
  · exact hm row
  · rfl

/-- The statement changes the table exactly if the job has one of the statuses. -/
theorem Restates.changes_iff (hrow : q.get? id = some row) : q'.rows ≠ q.rows ↔ c row.status = true := by
  obtain ⟨f, hid, -, hst, rfl⟩ := h
  constructor
  · intro hch
    by_contra hrf
    refine hch ?_
    refine updateWhere_of_forall_not fun a ha => ?_
    by_cases hj : a.id = id
    · have hsame : a = row := Option.some.inj ((get?_eq_some.mpr ⟨ha, hj⟩).symm.trans hrow)
      rw [hsame, Bool.eq_false_iff.mpr hrf, Bool.and_false]
    · simp [hj]
  · intro hac hsame
    have hg : (q.update (fun j => j.id == id && c j.status) f).get? id = q.get? id := by
      rw [get?, get?, hsame]
    have hrw : row.id = id := (get?_eq_some.mp hrow).2
    rw [get?_update hid, hrow, Option.map_some, hrw, hac] at hg
    simp only [beq_self_eq_true, Bool.and_self, Option.some.injEq] at hg
    exact hst row hac (congrArg Job.status hg)

end Restates

/-- What a claim does: the copy is the row as it is then. -/
theorem claimJob_some {worker : String} (h : claimJob now worker q = some (job, q')) :
    ∃ a, q.get? job.id = some a ∧ job = runningJob now worker a ∧ q'.get? job.id = some job ∧
      ∀ id, id ≠ job.id → q'.get? id = q.get? id := by
  unfold claimJob at h
  split at h
  · cases h
  next a ha =>
    cases h
    have hg : q.get? a.id = some a := get?_eq_some.mpr ⟨(List.mem_filter.mp (latest_mem ha)).1, rfl⟩
    refine ⟨a, hg, rfl, ?_, fun id hid => ?_⟩
    · show (q.update _ _).get? a.id = _
      rw [get?_update (f := runningJob now worker) fun _ => rfl, hg, Option.map_some, beq_self_eq_true, if_pos rfl]
    · rw [get?_update (f := runningJob now worker) fun _ => rfl]
      cases hold : q.get? id with
      | none => rfl
      | some b =>
        have hb : b.id ≠ a.id := fun heq => hid ((get?_eq_some.mp hold).2.symm.trans heq)
        simp [hb]

/-- What the reaper makes of a job. -/
structure Reaped (j j' : Job π) : Prop where
  maxAttempts : j'.maxAttempts = j.maxAttempts
  attempts : j'.attempts = j.attempts
  running : j'.status = .running → j.status = .running
  failed : j'.status = .failed → j.status = .failed ∨ j.status = .running ∧ j.maxAttempts ≤ j.attempts

theorem get_reap {cutoff : Nat} (hrow : q.get? id = some row) :
    ∃ row', (reapStuckJobs now cutoff q).get? id = some row' ∧ Reaped row row' := by
  unfold reapStuckJobs
  rw [get?_update, get?_update, hrow]
  · refine ⟨_, rfl, ?_⟩
    by_cases hf : (row.status == .running && decide (row.maxAttempts ≤ row.attempts) &&
        row.startedBy cutoff) = true
    · simp only [hf]
      simp only [Bool.and_eq_true, beq_iff_eq, decide_eq_true_eq] at hf
      exact ⟨rfl, rfl, nofun, fun _ => .inr hf.1⟩
    · simp only [hf, Bool.false_eq_true, if_false]
      split_ifs
      · exact ⟨rfl, rfl, nofun, nofun⟩
      · exact ⟨rfl, rfl, fun hrunning => hrunning, .inl⟩
  · exact fun _ => rfl
  · exact fun _ => rfl

/-- A failed job is accepted by a retry only, and then the copy has an attempt left. -/
theorem Outcome.running_of_accepts {outcome : Outcome} {status : Status}
    (h : outcome.accepts job status = true) (hf : status = .failed → job.exhausted = true) :
    status = .running := by
  unfold Outcome.accepts at h
  cases status with
  | running => rfl
  | pending | succeeded => cases h
  | failed =>
    rw [hf rfl] at h
    cases outcome with
    | done | noHandler | failed => cases h

/-! ### What a worker's copy says of its job -/

/-- While the attempt is the latest one, the row has the attempts of the copy as long as it runs,
and has failed only if the copy had no attempt left. -/
structure Tracks (b : Board π) (job : Job π) (claim : Nat) (row : Job π) : Prop where
  get : b.queue.get? job.id = some row
  maxAttempts : row.maxAttempts = job.maxAttempts
  running : b.claims job.id = claim → row.status = .running → row.attempts = job.attempts
  failed : b.claims job.id = claim → row.status = .failed → job.exhausted = true

/-- The working workers have claims of their own, and copies that track their jobs. -/
structure Sound {ι : Type*} (w : Pool π ι) : Prop where
  claimed : ∀ c job claim, w.phase c = .working job claim → claim ≤ w.shared.claims job.id
  tracks : ∀ c job claim, w.phase c = .working job claim → ∃ row, Tracks w.shared job claim row
  apart : ∀ c c' job job' claim, w.phase c = .working job claim → w.phase c' = .working job' claim →
    job.id = job'.id → c = c'

section Invariant
variable {ι : Type*} {w : Pool π ι} {c : ι} {env : WorkEnv} {claim : Nat}

theorem sound_of_idle (h : ∀ c, w.phase c = .idle) : Sound w where
  claimed c _ _ hc := by
    rw [h c] at hc
    cases hc
  tracks c _ _ hc := by
    rw [h c] at hc
    cases hc
  apart c _ _ _ _ hc := by
    rw [h c] at hc
    cases hc

theorem Sound.reap (h : Sound w) (now cutoff : Nat) :
    Sound ⟨{w.shared with queue := reapStuckJobs now cutoff w.shared.queue}, w.phase⟩ where
  claimed := h.claimed
  apart := h.apart
  tracks c job claim hc := by
    obtain ⟨row, ht⟩ := h.tracks c job claim hc
    obtain ⟨row', hg, hrp⟩ := get_reap ht.get
    refine ⟨row', hg, hrp.maxAttempts.trans ht.maxAttempts, fun hl hrunning => ?_, fun hl hf => ?_⟩
    · exact hrp.attempts.trans (ht.running hl (hrp.running hrunning))
    · obtain hf | ⟨hrunning, hsp⟩ := hrp.failed hf
      · exact ht.failed hl hf
      · rw [ht.maxAttempts, ht.running hl hrunning] at hsp
        exact decide_eq_true hsp

/-- A claim is a new attempt: no other worker's is the latest of that job any more. -/
theorem Sound.tracks_claim (h : Sound w) {worker : String} {queue : Queue π}
    (hcl : claimJob now worker w.shared.queue = some (job, queue)) (c' : ι) (job' : Job π) (claim' : Nat)
    (hc' : w.phase c' = .working job' claim') :
    ∃ row, Tracks ⟨queue, update w.shared.claims job.id (w.shared.claims job.id + 1)⟩ job' claim' row := by
  obtain ⟨row, ht⟩ := h.tracks c' job' claim' hc'
  obtain ⟨a, ha, hcp, hg, ho⟩ := claimJob_some hcl
  by_cases hid : job'.id = job.id
  · have hlt : update w.shared.claims job.id (w.shared.claims job.id + 1) job'.id ≠ claim' := by
      have hle := h.claimed c' job' claim' hc'
      rw [hid] at hle ⊢
      rw [update_self]
      omega
    have hrow : row = a := Option.some.inj (ht.get.symm.trans (hid ▸ ha))
    refine ⟨job, hid ▸ hg, ?_, fun hl => absurd hl hlt, fun hl => absurd hl hlt⟩
    rw [hcp, ← ht.maxAttempts, hrow]
    rfl
  · have hsame : update w.shared.claims job.id (w.shared.claims job.id + 1) job'.id =
        w.shared.claims job'.id := update_of_ne hid _ _
    refine ⟨row, (ho job'.id hid).trans ht.get, ht.maxAttempts, fun hl => ?_, fun hl => ?_⟩
    · exact ht.running (hsame.symm.trans hl)
    · exact ht.failed (hsame.symm.trans hl)

/-- A report on time keeps track of the other workers' jobs. -/
theorem Sound.tracks_report (h : Sound w) (hc : w.phase c = .working job claim) (hrp : env.reply ≠ .failed)
    (ho : OnTime w (.work c env)) (c' : ι) (job' : Job π) (claim' : Nat) (hne : c' ≠ c)
    (hc' : w.phase c' = .working job' claim') :
    ∃ row, Tracks {w.shared with queue := report env.now job env.outcome w.shared.queue} job' claim' row := by
  obtain ⟨row, ht⟩ := h.tracks c' job' claim' hc'
  have hrep := report_restates env.now job env.outcome w.shared.queue
  by_cases hid : job'.id = job.id
  · have hg : w.shared.queue.get? job.id = some row := hid ▸ ht.get
    by_cases hlat : w.shared.claims job.id = claim'
    · -- The report is a late one, so it is not accepted.
      have hl : w.shared.claims job.id ≠ claim := fun heq =>
        hne (h.apart c' c job' job claim (by rw [hc', ← hlat, heq]) hc hid)
      have hrf := ho c env job claim row rfl hc hrp hl hg
      have hrw : (report env.now job env.outcome w.shared.queue).rows = w.shared.queue.rows := by
        by_contra hch
        rw [(hrep.changes_iff hg).mp hch] at hrf
        cases hrf
      refine ⟨row, ?_, ht.maxAttempts, ht.running, ht.failed⟩
      rw [← ht.get, get?, get?, hrw]
    · obtain ⟨row', hg', hm⟩ := hrep.get hg
      rw [← hid] at hg' hlat
      exact ⟨row', hg', hm.trans ht.maxAttempts, fun heq => absurd heq hlat, fun heq => absurd heq hlat⟩
  · exact ⟨row, (hrep.get_of_ne hid).trans ht.get, ht.maxAttempts, ht.running, ht.failed⟩

variable [DecidableEq ι] {name : ι → String}

theorem update_eq_iff {l : Type*} {phase : ι → l} {c' : ι} {p p' : l} :
    update phase c p c' = p' ↔ c' = c ∧ p = p' ∨ c' ≠ c ∧ phase c' = p' := by
  rw [update_apply, ite_eq_iff]

/-- A worker that comes to rest, while the others keep track. -/
theorem Sound.rest (h : Sound w) {b : Board π} (hcl : ∀ id, w.shared.claims id ≤ b.claims id)
    (ht : ∀ c' job claim, c' ≠ c → w.phase c' = .working job claim → ∃ row, Tracks b job claim row) :
    Sound ⟨b, update w.phase c .idle⟩ := by
  have hother {c' : ι} {job : Job π} {claim : Nat}
      (hc' : update w.phase c .idle c' = .working job claim) :
      c' ≠ c ∧ w.phase c' = .working job claim :=
    (update_eq_iff.mp hc').resolve_left fun hself => (nomatch hself.2)
  refine ⟨fun c' job claim hc' => ?_, fun c' job claim hc' => ?_, fun c₁ c₂ job job' claim h₁ h₂ => ?_⟩
  · exact (h.claimed c' job claim (hother hc').2).trans (hcl job.id)
  · exact ht c' job claim (hother hc').1 (hother hc').2
  · exact h.apart c₁ c₂ job job' claim (hother h₁).2 (hother h₂).2

theorem le_update_succ (claims : Nat → Nat) (n id : Nat) :
    claims id ≤ update claims n (claims n + 1) id := by
  by_cases hid : id = n
  · rw [hid, update_self]
    exact Nat.le_succ _
  · rw [update_of_ne hid]

/-- A worker that has claimed a job. -/
theorem Sound.take (h : Sound w) {worker : String} {queue : Queue π}
    (hcl : claimJob now worker w.shared.queue = some (job, queue)) :
    Sound ⟨⟨queue, update w.shared.claims job.id (w.shared.claims job.id + 1)⟩,
      update w.phase c (.working job (w.shared.claims job.id + 1))⟩ := by
  obtain ⟨a, -, hcp, hg, -⟩ := claimJob_some hcl
  -- Every other worker has an earlier claim of the job.
  have hearl {c' : ι} {job' : Job π} {claim' : Nat} (hc' : w.phase c' = .working job' claim')
      (hid : job'.id = job.id) : claim' ≠ w.shared.claims job.id + 1 := by
    have hle := h.claimed c' job' claim' hc'
    rw [hid] at hle
    omega
  refine ⟨fun c' job' claim' hc' => ?_, fun c' job' claim' hc' => ?_, fun c₁ c₂ job₁ job₂ claim' h₁ h₂ hid => ?_⟩
  · obtain ⟨-, heq⟩ | ⟨-, hc'⟩ := update_eq_iff.mp hc'
    · cases heq
      exact (update_self job.id _ w.shared.claims).ge
    · exact (h.claimed c' job' claim' hc').trans (le_update_succ _ _ _)
  · obtain ⟨-, heq⟩ | ⟨-, hc'⟩ := update_eq_iff.mp hc'
    · cases heq
      refine ⟨job, hg, rfl, fun _ _ => rfl, fun _ hf => ?_⟩
      rw [hcp] at hf
      cases hf
    · exact h.tracks_claim hcl c' job' claim' hc'
  · obtain ⟨hc₁, heq₁⟩ | ⟨-, hother₁⟩ := update_eq_iff.mp h₁ <;>
      obtain ⟨hc₂, heq₂⟩ | ⟨-, hother₂⟩ := update_eq_iff.mp h₂
    · exact hc₁.trans hc₂.symm
    · cases heq₁
      exact absurd rfl (hearl hother₂ hid.symm)
    · cases heq₂
      exact absurd rfl (hearl hother₁ hid)
    · exact h.apart c₁ c₂ job₁ job₂ claim' hother₁ hother₂ hid

theorem Sound.step (h : Sound w) {i : PoolStep ι} (ho : OnTime w i) : Sound (poolStep name w i) := by
  have hidle (c : ι) : Sound ⟨w.shared, update w.phase c .idle⟩ :=
    h.rest (fun _ => le_rfl) fun c' job claim _ hc' => h.tracks c' job claim hc'
  cases i with
  | reap now cutoff => exact h.reap now cutoff
  | work c env =>
    show Sound ⟨(workAdvance (name c) env w.shared (w.phase c)).2,
      update w.phase c (workAdvance (name c) env w.shared (w.phase c)).1⟩
    cases hc : w.phase c with
    | working job claim =>
      simp only [workAdvance]
      by_cases hrp : env.reply = .failed
      · rw [if_pos hrp]
        exact hidle c
      · rw [if_neg hrp]
        exact h.rest (fun _ => le_rfl) (h.tracks_report hc hrp ho)
    | idle =>
      simp only [workAdvance]
      by_cases hrp : env.reply = .failed
      · simp only [if_pos hrp]
        exact hidle c
      · simp only [if_neg hrp]
        cases hcl : claimJob env.now (name c) w.shared.queue with
        | none => exact hidle c
        | some claimed =>
          by_cases hok : env.reply = .ok
          · simp only [if_pos hok]
            exact h.take hcl
          · simp only [if_neg hok]
            exact h.rest (le_update_succ _ _) fun c' job claim _ hc' => h.tracks_claim hcl c' job claim hc'

/-! ### Fencing -/

theorem queue_of_report (hc : w.phase c = .working job claim) (hrp : env.reply ≠ .failed) :
    (poolStep name w (.work c env)).shared.queue = report env.now job env.outcome w.shared.queue := by
  rw [poolStep, World.shared_step, hc]
  simp only [workAdvance, if_neg hrp]

theorem Sound.fenced_iff_onTime (h : Sound w) (i : PoolStep ι) : Fenced name w i ↔ OnTime w i := by
  constructor
  · intro hf c env job claim row hi hc hrp hlt hg
    by_contra hac
    subst hi
    refine hlt (hf c env job claim rfl hc ?_).1
    rw [queue_of_report hc hrp]
    exact ((report_restates _ _ _ _).changes_iff hg).mpr (Bool.eq_true_of_not_eq_false hac)
  · intro ho c env job claim hi hc hch
    subst hi
    have hrp : env.reply ≠ .failed := by
      intro hfl
      refine hch ?_
      rw [poolStep, World.shared_step, hc]
      simp only [workAdvance, if_pos hfl]
    obtain ⟨row, ht⟩ := h.tracks c job claim hc
    rw [queue_of_report hc hrp] at hch
    have hac := ((report_restates _ _ _ _).changes_iff ht.get).mp hch
    have hl : w.shared.claims job.id = claim := by
      by_contra hlt
      rw [ho c env job claim row rfl hc hrp hlt ht.get] at hac
      cases hac
    exact ⟨hl, row, ht.get, Outcome.running_of_accepts hac (ht.failed hl)⟩

/-- **Reports are fenced exactly when they are on time.** In a run of workers and the reaper, from
idle workers and any queue, every report that changes the queue is about the current running
attempt of its job, exactly when no report that comes after another claim of its job finds the job
in a status that it accepts. -/
theorem reports_fenced_iff (w : Pool π ι) (hidle : ∀ c, w.phase c = .idle) (ins : List (PoolStep ι)) :
    Each (poolStep name) (Fenced name) w ins ↔ Each (poolStep name) OnTime w ins :=
  each_iff_each_of_kept (fun _ _ h ho => h.step ho)
    (fun _ i h => h.fenced_iff_onTime i) (sound_of_idle hidle)

/-! One job, two workers, and a reaper that gives a job up after one second. -/

def oneJob : Queue String :=
  empty.insert (pendingJob 1 ⟨0, "", "index", "a.txt", .pending, 0, 0, 2, 0, "", "", "", "", 0, 0, none, none⟩)

def idlePool : Pool String Bool := ⟨⟨oneJob, fun _ => 0⟩, fun _ => .idle⟩

def workerNames (c : Bool) : String := if c then "w1" else "w2"

def atTime (now : Nat) : WorkEnv := ⟨now, .done, .ok⟩

/-- The first worker is reaped, the second claims the job, and the first worker's completion ends
the attempt of the second. -/
theorem stale_report_completes :
    let w := run (poolStep workerNames) idlePool
      [.work true (atTime 1), .reap 3 2, .work false (atTime 4)]
    (∃ row, w.shared.queue.get? 1 = some row ∧ row.status = .running ∧ row.worker = "w2") ∧
    (∃ job, w.phase true = .working job 1) ∧ w.shared.claims 1 = 2 ∧
    (∃ row, (poolStep workerNames w (.work true (atTime 5))).shared.queue.get? 1 = some row ∧
      row.status = .succeeded) ∧
    ¬ Fenced workerNames w (.work true (atTime 5)) := by
  refine ⟨⟨_, rfl, rfl, rfl⟩, ⟨_, rfl⟩, rfl, ⟨_, rfl, rfl⟩, fun hf => ?_⟩
  have hcr := hf true (atTime 5) _ 1 rfl rfl fun hrw =>
    (nomatch congrArg (fun rows => rows.map Job.status) hrw)
  exact (nomatch hcr.1)

/-- A reaper between the claim and the report, and no other claim in between. -/
theorem report_to_reaped_job_fenced :
    Each (poolStep workerNames) (Fenced workerNames) idlePool
      [.work true (atTime 1), .reap 3 2, .work true (atTime 4), .work false (atTime 5),
        .work false (atTime 6)] := by
  refine (reports_fenced_iff idlePool (fun _ => rfl) _).mpr ⟨?_, ?_, ?_, ?_, ?_, .intro⟩
  · intro c env job claim row hi hc
    cases hc
  · intro c env job claim row hi
    cases hi
  · intro c env job claim row hi hc hrp hl
    cases hi
    cases hc
    exact absurd rfl hl
  · intro c env job claim row hi hc
    cases hi
    cases hc
  · intro c env job claim row hi hc hrp hl
    cases hi
    cases hc
    exact absurd rfl hl

end Invariant

end AeroVault.Jobs
