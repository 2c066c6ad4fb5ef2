import AeroVault.Service.Vault

/-! The durable job queue: the statements on `jobs`, and how a pool settles a job.

The payload is interpreted by the handler alone, so it is a type of its own here.
What the queue promises to those that enqueue is `LiveOnce`: of the jobs with one
dedupe key at most one is pending or running. -/
namespace AeroVault.Jobs
open Lib

inductive Status
  | pending
  | running
  | succeeded
  | failed
  deriving DecidableEq

/-- A row of `jobs`; a job to be enqueued leaves out most of it. -/
structure Job (π : Type) where
  id : Nat := 0
  tenantID : String
  type : String
  payload : π
  status : Status := .pending
  priority : Int := 0
  attempts : Int := 0
  maxAttempts : Int := 0
  runAfter : Nat := 0
  lastError : String := ""
  worker : String := ""
  result : String := ""
  /-- Empty if the job is not to be deduplicated. -/
  dedupeKey : String
  createdAt : Nat := 0
  updatedAt : Nat := 0
  startedAt : Option Nat := none
  finishedAt : Option Nat := none
  deriving DecidableEq

instance {π : Type} : Row (Job π) where
  id := Job.id
  withID j n := {j with id := n}
  id_withID _ _ := rfl
  withID_id _ := rfl

abbrev Queue (π : Type) := Table (Job π)

variable {π : Type}

/-- Pending or running. -/
def Job.live (j : Job π) : Bool := j.status == .pending || j.status == .running

/-! ### Statements -/

/-- The row that `EnqueueJob` inserts, with its defaults. -/
def pendingJob (now : Nat) (j : Job π) : Job π :=
  {j with
    tenantID := Repository.defaultTenant j.tenantID
    maxAttempts := if j.maxAttempts ≤ 0 then 5 else j.maxAttempts
    runAfter := if j.runAfter = 0 then now else j.runAfter
    status := .pending, attempts := 0, lastError := "", worker := "", result := ""
    createdAt := now, updatedAt := now, startedAt := none, finishedAt := none}

/-- The live job with the dedupe key, if there is one. -/
def duplicate (q : Queue π) (dedupeKey : String) : Option (Job π) :=
  if dedupeKey = "" then none else q.rows.find? fun j => j.dedupeKey == dedupeKey && j.live

/-- `EnqueueJob`: the ID of the job, and whether it was there already. -/
def enqueueJob (now : Nat) (j : Job π) (q : Queue π) : (Nat × Bool) × Queue π :=
  match duplicate q j.dedupeKey with
  | some existing => ((existing.id, true), q)
  | none => ((q.nextID, false), q.insert (pendingJob now j))

/-- `ORDER BY priority DESC, id ASC`. -/
abbrev runsBefore (a b : Job π) : Prop := b.priority < a.priority ∨ b.priority = a.priority ∧ a.id ≤ b.id

def runningJob (now : Nat) (worker : String) (j : Job π) : Job π :=
  {j with
    status := .running, attempts := j.attempts + 1, worker := worker, startedAt := some now
    updatedAt := now}

/-- `ClaimJob`: the next runnable job, as it is after the claim. -/
def claimJob (now : Nat) (worker : String) (q : Queue π) : Option (Job π × Queue π) :=
  match latest runsBefore (q.rows.filter fun j => j.status == .pending && j.runAfter ≤ now) with
  | none => none
  | some j => some (runningJob now worker j, q.update (fun a => a.id == j.id) (runningJob now worker))

def completeJob (now id : Nat) (result : String) (q : Queue π) : Queue π :=
  q.update (fun j => j.id == id && j.status == .running) fun j =>
    {j with
      status := .succeeded, result := result, lastError := "", finishedAt := some now
      updatedAt := now}

/-- `RetryJob`: a job that had failed for good gets a fresh budget of attempts. -/
def retryJob (now id : Nat) (lastErr : String) (runAfter : Nat) (q : Queue π) : Queue π :=
  q.update (fun j => j.id == id && (j.status == .running || j.status == .failed)) fun j =>
    {j with
      status := .pending, lastError := lastErr, runAfter := runAfter, worker := ""
      attempts := if j.status = .failed then 0 else j.attempts
      startedAt := none, finishedAt := none, updatedAt := now}

def failJob (now id : Nat) (lastErr : String) (q : Queue π) : Queue π :=
  q.update (fun j => j.id == id && j.status == .running) fun j =>
    {j with status := .failed, lastError := lastErr, finishedAt := some now, updatedAt := now}

/-- `started_at <= cutoff`, which is not true of `NULL`. -/
def Job.startedBy (cutoff : Nat) (j : Job π) : Bool := j.startedAt.any (· ≤ cutoff)

/-- `ReapStuckJobs`: of the jobs that have been running since before the cutoff, those with no
attempt left fail and the others are pending again. -/
def reapStuckJobs (now cutoff : Nat) (q : Queue π) : Queue π :=
  let failed := q.update
    (fun j => j.status == .running && decide (j.maxAttempts ≤ j.attempts) && j.startedBy cutoff)
    fun j => {j with
      status := .failed, worker := "", lastError := "worker lease expired after maximum attempts"
      finishedAt := some now, updatedAt := now}
  failed.update
    (fun j => j.status == .running && decide (j.attempts < j.maxAttempts) && j.startedBy cutoff)
    fun j => {j with status := .pending, worker := "", updatedAt := now}

/-- The job, as it was claimed, has no attempt left. -/
def Job.exhausted (j : Job π) : Bool := decide (j.maxAttempts ≤ j.attempts)

/-- `runOne`, after a handler that failed: another attempt later, or none. -/
def settleFailure (now : Nat) (job : Job π) (err : String) (delay : Nat) (q : Queue π) : Queue π :=
  if job.exhausted then failJob now job.id err q else retryJob now job.id err (now + delay) q

/-! ### Rows after a statement -/

variable {q q' : Queue π} {j a : Job π} {now : Nat}

theorem duplicate_some {key : String} (h : duplicate q key = some j) :
    j ∈ q.rows ∧ j.dedupeKey = key ∧ j.live = true := by
  unfold duplicate at h
  split at h
  · cases h
  · have hfound := List.find?_some h
    simp only [Bool.and_eq_true, beq_iff_eq] at hfound
    exact ⟨List.mem_of_find?_eq_some h, hfound⟩

theorem duplicate_none {key : String} (hkey : key ≠ "") (h : duplicate q key = none) :
    ∀ a ∈ q.rows, a.dedupeKey = key → a.live = false := by
  intro a ha hk
  unfold duplicate at h
  rw [if_neg hkey] at h
  have hno := List.find?_eq_none.mp h a ha
  simpa [hk] using hno

/-- One job changes, and what does not change about it. -/
structure Moved (q q' : Queue π) (a a' : Job π) : Prop where
  mem : a ∈ q.rows
  rows : ∀ b, b ∈ q'.rows ↔ b = a' ∨ (b ∈ q.rows ∧ b ≠ a)
  id : a'.id = a.id
  dedupeKey : a'.dedupeKey = a.dedupeKey
  payload : a'.payload = a.payload

theorem moved_update {p : Job π → Bool} {f : Job π → Job π} (ha : a ∈ q.rows)
    (hp : ∀ b ∈ q.rows, p b = true ↔ b = a)
    (hf : ∀ b, (f b).id = b.id ∧ (f b).dedupeKey = b.dedupeKey ∧ (f b).payload = b.payload) :
    Moved q (q.update p f) a (f a) where
  mem := ha
  rows _ := Table.mem_update_one (fun b => (hf b).1) ha hp
  id := (hf a).1
  dedupeKey := (hf a).2.1
  payload := (hf a).2.2

theorem claimJob_moved {worker : String} (h : claimJob now worker q = some (j, q')) :
    ∃ a, Moved q q' a j ∧ a.status = .pending ∧ j.status = .running := by
  unfold claimJob at h
  split at h
  · cases h
  next a ha =>
    obtain ⟨hm, hrn⟩ := List.mem_filter.mp (latest_mem ha)
    simp only [Bool.and_eq_true, beq_iff_eq] at hrn
    cases h
    refine ⟨a, moved_update hm (fun b hb => ?_) fun _ => ⟨rfl, rfl, rfl⟩, hrn.1, rfl⟩
    rw [beq_iff_eq]
    exact ⟨Table.eq_of_id hb hm, fun heq => by rw [heq]⟩

/-- The statements that name a job by its ID and its status. -/
theorem moved_update_status {c : Job π → Bool} {f : Job π → Job π} (ha : a ∈ q.rows) (hc : c a = true)
    (hf : ∀ b, (f b).id = b.id ∧ (f b).dedupeKey = b.dedupeKey ∧ (f b).payload = b.payload) :
    Moved q (q.update (fun b => b.id == a.id && c b) f) a (f a) := by
  refine moved_update ha (fun b hb => ?_) hf
  rw [Bool.and_eq_true, beq_iff_eq]
  constructor
  · exact fun hm => Table.eq_of_id hb ha hm.1
  · intro heq
    rw [heq]
    exact ⟨rfl, hc⟩

section Settled
variable (ha : a ∈ q.rows) (hrunning : a.status = .running) (now : Nat)
include ha hrunning

theorem completeJob_moved (result : String) :
    ∃ a', Moved q (completeJob now a.id result q) a a' ∧ a'.live = false :=
  ⟨_, moved_update_status ha (by simp [hrunning]) fun _ => ⟨rfl, rfl, rfl⟩, rfl⟩

theorem failJob_moved (err : String) : ∃ a', Moved q (failJob now a.id err q) a a' ∧ a'.live = false :=
  ⟨_, moved_update_status ha (by simp [hrunning]) fun _ => ⟨rfl, rfl, rfl⟩, rfl⟩

theorem retryJob_moved (err : String) (runAfter : Nat) :
    ∃ a', Moved q (retryJob now a.id err runAfter q) a a' ∧ a'.live = true :=
  ⟨_, moved_update_status ha (by simp [hrunning]) fun _ => ⟨rfl, rfl, rfl⟩, rfl⟩

/-- A job whose handler failed is live again, unless its attempts are used up. -/
theorem settleFailure_moved (hid : j.id = a.id) (err : String) (delay : Nat) :
    ∃ a', Moved q (settleFailure now j err delay q) a a' ∧ a'.live = !j.exhausted := by
  unfold settleFailure
  rw [hid]
  cases j.exhausted with
  | true => exact failJob_moved ha hrunning now err
  | false => exact retryJob_moved ha hrunning now err (now + delay)

end Settled

/-! ### One live job for each key -/

/-- Of the jobs with one dedupe key at most one is live. -/
def LiveOnce (q : Queue π) : Prop :=
  ∀ a ∈ q.rows, ∀ b ∈ q.rows, a.live = true → b.live = true → a.dedupeKey = b.dedupeKey →
    a.dedupeKey ≠ "" → a = b

theorem liveOnce_empty : LiveOnce (π := π) .empty := nofun

theorem LiveOnce.moved {a' : Job π} (h : LiveOnce q) (hm : Moved q q' a a') (hlv : a.live = true) :
    LiveOnce q' := by
  -- A live job other than `a` does not have its key, before or after.
  have hother (b : Job π) (hb : b ∈ q.rows) (hne : b ≠ a) (hl : b.live = true)
      (hkey : b.dedupeKey = a.dedupeKey) : b.dedupeKey = "" := by
    by_contra hset
    exact hne (h b hb a hm.mem hl hlv hkey hset)
  intro b hb c hc hbl hcl hkey hset
  obtain rfl | ⟨hb, hbne⟩ := (hm.rows b).mp hb <;> obtain rfl | ⟨hc, hcne⟩ := (hm.rows c).mp hc
  · rfl
  · exact absurd (hkey.trans (hother c hc hcne hcl (hkey.symm.trans hm.dedupeKey))) hset
  · exact absurd (hother b hb hbne hbl (hkey.trans hm.dedupeKey)) hset
  · exact h b hb c hc hbl hcl hkey hset

theorem LiveOnce.enqueueJob (h : LiveOnce q) (now : Nat) (j : Job π) : LiveOnce (enqueueJob now j q).2 := by
  unfold Jobs.enqueueJob
  cases hd : duplicate q j.dedupeKey with
  | some existing => exact h
  | none =>
    have hnew (b : Job π) (hb : b ∈ q.rows) (hl : b.live = true) (hkey : b.dedupeKey = j.dedupeKey) :
        b.dedupeKey = "" := by
      by_contra hset
      rw [duplicate_none (hkey ▸ hset) hd b hb hkey] at hl
      cases hl
    intro b hb c hc hbl hcl hkey hset
    obtain hb | rfl := Table.mem_insert.mp hb <;> obtain hc | rfl := Table.mem_insert.mp hc
    · exact h b hb c hc hbl hcl hkey hset
    · exact absurd (hnew b hb hbl hkey) hset
    · exact absurd (hkey.trans (hnew c hc hcl hkey.symm)) hset
    · rfl

end AeroVault.Jobs
