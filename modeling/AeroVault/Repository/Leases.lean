import AeroVault.Lib.Interleaving

/-! Singleton leases: `AcquireLease`.

A call reads the clock, then tries to update the row of the lease (its own, or expired at
that time), and if no row was affected to insert one. It is granted the interval from the
time it read to the expiry it wrote. A renewal overwrites the expiry, whatever it was, so an
interval granted earlier can outlast what is stored (`shorter_renewal_overlaps`). Apart from
that, the intervals of different holders are disjoint in every interleaving
(`leases_exclude`). -/
namespace AeroVault.Repository
open Lib Function

/-- A row of `leases`, without its name. -/
structure Lease where
  holder : String
  expiresAt : Nat
  deriving DecidableEq

structure LeaseCall where
  name : String
  holder : String
  ttl : Nat
  deriving DecidableEq

/-- The `leases` table, by name (its primary key), and the clock that all calls read. -/
structure LeaseStore where
  rows : String → Option Lease
  clock : Nat

/-- Where a call stands, with the time it read. -/
inductive LeasePhase
  | start
  | updating (now : Nat)
  | inserting (now : Nat)
  | granted (now : Nat)
  | refused
  | failed
  /-- Failed after its statement took effect. -/
  | failedAfterGrant (now : Nat)
  deriving DecidableEq

/-- What a step does not control: how much time has passed, and the reply to its statement. -/
structure LeaseEnv where
  elapsed : Nat
  reply : Reply
  deriving DecidableEq

namespace LeaseCall

variable (call : LeaseCall)

/-- The row that the call writes. -/
def lease (now : Nat) : Lease := ⟨call.holder, now + call.ttl⟩

/-- `holder=$4 OR expires_at < $5`. -/
def mayTake (now : Nat) (row : Lease) : Bool := row.holder == call.holder || decide (row.expiresAt < now)

def write (now : Nat) (s : LeaseStore) : LeaseStore :=
  {s with rows := update s.rows call.name (some (call.lease now))}

end LeaseCall

/-- Granted, unless the reply is lost. -/
def answered (now : Nat) : Reply → LeasePhase
  | .ok => .granted now
  | _ => .failedAfterGrant now

/-- No row was affected: the call goes on if it learns so. -/
def unanswered (next : LeasePhase) : Reply → LeasePhase
  | .ok => next
  | _ => .failed

/-- `AcquireLease`, one step at a time. -/
def leaseAdvance (call : LeaseCall) (env : LeaseEnv) (before : LeaseStore) :
    LeasePhase → LeasePhase × LeaseStore :=
  let s := {before with clock := before.clock + env.elapsed}
  fun
  | .start => (.updating s.clock, s)
  | .updating now =>
    if env.reply = .failed then (.failed, s)
    else match s.rows call.name with
      | some row =>
        if call.mayTake now row then (answered now env.reply, call.write now s)
        else (unanswered (.inserting now) env.reply, s)
      | none => (unanswered (.inserting now) env.reply, s)
  | .inserting now =>
    if env.reply = .failed then (.failed, s)
    else match s.rows call.name with
      | some _ => (unanswered .refused env.reply, s)
      | none => (answered now env.reply, call.write now s)
  | .granted now => (.granted now, s)
  | .refused => (.refused, s)
  | .failed => (.failed, s)
  | .failedAfterGrant now => (.failedAfterGrant now, s)

namespace LeasePhase

/-- The call time of a call that took effect. -/
def since : LeasePhase → Option Nat
  | .granted now => some now
  | .failedAfterGrant now => some now
  | _ => none

@[simp] theorem since_answered {now : Nat} {reply : Reply} : (answered now reply).since = some now := by
  cases reply <;> rfl

theorem since_unanswered {next : LeasePhase} (h : next.since = none) {reply : Reply} :
    (unanswered next reply).since = none := by
  cases reply with
  | ok => exact h
  | failed | lost => rfl

end LeasePhase

/-- What a step of a call does: nothing to the leases, or it writes the call's lease over a
row that it may take, or where there was none. -/
theorem leaseAdvance_cases {call : LeaseCall} {env : LeaseEnv} {s : LeaseStore} {phase : LeasePhase} :
    ((leaseAdvance call env s phase).2.rows = s.rows ∧
      (leaseAdvance call env s phase).1.since = phase.since) ∨
    ∃ now, phase.since = none ∧ (leaseAdvance call env s phase).1.since = some now ∧
      (leaseAdvance call env s phase).2.rows = update s.rows call.name (some (call.lease now)) ∧
      (s.rows call.name = none ∨
        ∃ row, phase = .updating now ∧ s.rows call.name = some row ∧ call.mayTake now row = true) := by
  cases phase with
  | updating now =>
    simp only [leaseAdvance]
    split_ifs with hf
    · exact .inl ⟨rfl, rfl⟩
    · cases hrow : s.rows call.name with
      | none => exact .inl ⟨rfl, LeasePhase.since_unanswered rfl⟩
      | some row =>
        dsimp only
        split_ifs with ht
        · exact .inr ⟨now, rfl, LeasePhase.since_answered, rfl, .inr ⟨row, rfl, rfl, ht⟩⟩
        · exact .inl ⟨rfl, LeasePhase.since_unanswered rfl⟩
  | inserting now =>
    simp only [leaseAdvance]
    split_ifs with hf
    · exact .inl ⟨rfl, rfl⟩
    · cases hrow : s.rows call.name with
      | none => exact .inr ⟨now, rfl, LeasePhase.since_answered, rfl, .inl rfl⟩
      | some row => exact .inl ⟨rfl, LeasePhase.since_unanswered rfl⟩
  | _ => exact .inl ⟨rfl, rfl⟩

/-! ### Runs -/

section Runs

variable {ι : Type*} (calls : ι → LeaseCall)

def leaseStep [DecidableEq ι] (w : World LeaseStore LeasePhase ι) (i : ι × LeaseEnv) : World LeaseStore LeasePhase ι :=
  World.step (fun c env s phase => leaseAdvance (calls c) env s phase) w i

/-- The call has taken effect with the call time `now`. -/
def Took (w : World LeaseStore LeasePhase ι) (c : ι) (now : Nat) : Prop := (w.phase c).since = some now

/-- A call that would renew its holder's lease was made no earlier, and ends no earlier, than
every call of the holder that has taken effect. -/
def RenewsInOrder (w : World LeaseStore LeasePhase ι) (i : ι × LeaseEnv) : Prop :=
  ∀ now row, w.phase i.1 = .updating now → w.shared.rows (calls i.1).name = some row →
    row.holder = (calls i.1).holder →
    ∀ c now', (calls c).name = (calls i.1).name → (calls c).holder = (calls i.1).holder → Took w c now' →
      now' ≤ now ∧ now' + (calls c).ttl ≤ now + (calls i.1).ttl

/-- No instant lies in the intervals of both calls. -/
def Apart (w : World LeaseStore LeasePhase ι) (c c' : ι) : Prop :=
  ∀ now now', Took w c now → Took w c' now' →
    ¬ ∃ t, (now ≤ t ∧ t ≤ now + (calls c).ttl) ∧ (now' ≤ t ∧ t ≤ now' + (calls c').ttl)

variable {calls} {w : World LeaseStore LeasePhase ι}

/-- The invariant: what is stored outlasts every interval, and the intervals of other holders
ended before the stored one's last began. -/
structure Excluded (calls : ι → LeaseCall) (w : World LeaseStore LeasePhase ι) : Prop where
  stored : ∀ c now, Took w c now →
    ∃ row, w.shared.rows (calls c).name = some row ∧ now + (calls c).ttl ≤ row.expiresAt
  older : ∀ c now row, Took w c now → w.shared.rows (calls c).name = some row →
    row.holder ≠ (calls c).holder →
    ∃ c' now', Took w c' now' ∧ (calls c').name = (calls c).name ∧ (calls c').holder = row.holder ∧
      now + (calls c).ttl < now'
  apart : ∀ c c', (calls c).name = (calls c').name → (calls c).holder ≠ (calls c').holder → Apart calls w c c'

/-- Steps that change neither the leases nor what has taken effect. -/
theorem excluded_of_same {w' : World LeaseStore LeasePhase ι} (hrw : w'.shared.rows = w.shared.rows)
    (htk : ∀ c now, Took w' c now ↔ Took w c now) (h : Excluded calls w) : Excluded calls w' where
  stored c now ht := by
    rw [hrw]
    exact h.stored c now ((htk c now).mp ht)
  older c now row ht hrow hne := by
    rw [hrw] at hrow
    obtain ⟨c', now', ht', hrs⟩ := h.older c now row ((htk c now).mp ht) hrow hne
    exact ⟨c', now', (htk c' now').mpr ht', hrs⟩
  apart c c' hnm hne now now' ht ht' :=
    h.apart c c' hnm hne now now' ((htk c now).mp ht) ((htk c' now').mp ht')

/-- A grant is safe if nothing granted outlasts it and what others were granted is over. -/
theorem excluded_of_grant {w' : World LeaseStore LeasePhase ι} {c : ι} {now : Nat}
    (hrw : w'.shared.rows = update w.shared.rows (calls c).name (some ((calls c).lease now)))
    (htook : ∀ x t, Took w' x t ↔ (x = c ∧ t = now) ∨ (x ≠ c ∧ Took w x t)) (h : Excluded calls w)
    (hends : ∀ x t, Took w x t → (calls x).name = (calls c).name →
      t + (calls x).ttl ≤ now + (calls c).ttl ∧
        ((calls x).holder ≠ (calls c).holder → t + (calls x).ttl < now)) : Excluded calls w' := by
  have hmn : Took w' c now := (htook c now).mpr (.inl ⟨rfl, rfl⟩)
  refine ⟨?_, ?_, ?_⟩
  · intro x t hx
    rw [hrw]
    obtain ⟨rfl, rfl⟩ | ⟨hxc, hx⟩ := (htook x t).mp hx
    · exact ⟨_, update_self .., le_refl _⟩
    · by_cases hname : (calls x).name = (calls c).name
      · rw [hname]
        exact ⟨_, update_self .., (hends x t hx hname).1⟩
      · rw [update_of_ne hname]
        exact h.stored x t hx
  · intro x t row hx hrow hne
    rw [hrw] at hrow
    by_cases hname : (calls x).name = (calls c).name
    · rw [hname, update_self] at hrow
      cases hrow
      obtain ⟨rfl, rfl⟩ | ⟨hxc, hx⟩ := (htook x t).mp hx
      · exact absurd rfl hne
      · exact ⟨c, now, hmn, hname.symm, rfl, (hends x t hx hname).2 (.symm hne)⟩
    · rw [update_of_ne hname] at hrow
      obtain ⟨rfl, rfl⟩ | ⟨hxc, hx⟩ := (htook x t).mp hx
      · exact absurd rfl hname
      · obtain ⟨y, u, hy, hyn, hyh, hlt⟩ := h.older x t row hx hrow hne
        have hyc : y ≠ c := fun hyc => hname (hyn ▸ hyc ▸ rfl)
        exact ⟨y, u, (htook y u).mpr (.inr ⟨hyc, hy⟩), hyn, hyh, hlt⟩
  · intro x y hname hne t u hx hy
    obtain ⟨rfl, rfl⟩ | ⟨hxc, hx⟩ := (htook x t).mp hx
    · obtain ⟨rfl, rfl⟩ | ⟨hyc, hy⟩ := (htook y u).mp hy
      · exact absurd rfl hne
      · have ho := (hends y u hy hname.symm).2 (.symm hne)
        intro hm
        omega
    · obtain ⟨rfl, rfl⟩ | ⟨hyc, hy⟩ := (htook y u).mp hy
      · have ho := (hends x t hx hname).2 hne
        intro hm
        omega
      · exact h.apart x y hname hne t u hx hy

theorem excluded_step [DecidableEq ι] (h : Excluded calls w) {i : ι × LeaseEnv} (hi : RenewsInOrder calls w i) :
    Excluded calls (leaseStep calls w i) := by
  obtain ⟨c, env⟩ := i
  have hph : ∀ x, x ≠ c → (leaseStep calls w (c, env)).phase x = w.phase x := fun x hx =>
    World.phase_step_of_ne hx
  have hself : (leaseStep calls w (c, env)).phase c =
      (leaseAdvance (calls c) env w.shared (w.phase c)).1 := World.phase_step_self
  obtain ⟨hrw, hsn⟩ | ⟨now, hnone, hsn, hrw, hg⟩ := leaseAdvance_cases
  · refine excluded_of_same hrw (fun x t => ?_) h
    by_cases hx : x = c
    · rw [hx, Took, Took, hself, hsn]
    · rw [Took, Took, hph x hx]
  · refine excluded_of_grant hrw (fun x t => ?_) h ?_
    · by_cases hx : x = c
      · rw [hx, Took, hself, hsn]
        simp [eq_comm]
      · rw [Took, hph x hx]
        simp [hx, Took]
    · intro x t hx hnm
      obtain ⟨row', hrow', hend⟩ := h.stored x t hx
      rw [hnm] at hrow'
      obtain hem | ⟨row, hup, hrow, ht⟩ := hg
      · rw [hem] at hrow'
        cases hrow'
      · rw [hrow, Option.some.injEq] at hrow'
        rw [← hrow'] at hend
        -- A renewal follows the holder's own calls; a takeover waits for the stored expiry.
        by_cases ho : row.holder = (calls c).holder
        · by_cases hh : (calls x).holder = (calls c).holder
          · exact ⟨(hi now row hup hrow ho x t hnm hh hx).2, absurd hh⟩
          · obtain ⟨y, u, hy, hyn, hyh, hlt⟩ :=
              h.older x t row hx (hnm ▸ hrow) (fun heq => hh (heq ▸ ho))
            have hl := (hi now row hup hrow ho y u (hyn.trans hnm) (hyh.trans ho) hy).1
            exact ⟨by omega, fun _ => by omega⟩
        · have hex : row.expiresAt < now := by simpa [LeaseCall.mayTake, ho] using ht
          exact ⟨by omega, fun _ => by omega⟩

end Runs

/-- **Leases exclude.** However the steps of any number of calls interleave, on one clock and
with statements that fail or whose replies are lost: if each renewal is in order, then no
instant lies in intervals granted to two holders of one name. -/
theorem leases_exclude {ι : Type*} [DecidableEq ι] (calls : ι → LeaseCall)
    (w : World LeaseStore LeasePhase ι) (hstart : ∀ c, w.phase c = .start) (ins : List (ι × LeaseEnv))
    (horder : Each (leaseStep calls) (RenewsInOrder calls) w ins) (c c' : ι) (now now' : Nat)
    (hname : (calls c).name = (calls c').name) (hholder : (calls c).holder ≠ (calls c').holder)
    (hc : (run (leaseStep calls) w ins).phase c = .granted now)
    (hc' : (run (leaseStep calls) w ins).phase c' = .granted now') :
    ¬ ∃ t, (now ≤ t ∧ t ≤ now + (calls c).ttl) ∧ (now' ≤ t ∧ t ≤ now' + (calls c').ttl) := by
  have hnone : ∀ c now, ¬ Took w c now := by
    intro c now ht
    rw [Took, hstart c] at ht
    cases ht
  have hin : Excluded calls w :=
    ⟨fun c now ht => absurd ht (hnone c now), fun c now _ ht => absurd ht (hnone c now),
      fun c _ _ _ now _ ht => absurd ht (hnone c now)⟩
  have hall := always_of_each (J := Excluded calls) (fun _ i h hi => excluded_step h hi) hin horder
  exact hall.last.apart c c' hname hholder now now' (by rw [Took, hc]; rfl) (by rw [Took, hc']; rfl)

/-! Three calls for one lease: `a` takes it, renews it for a shorter time, and `b` takes over. -/

def renewalCalls (renewal : Nat) : Fin 3 → LeaseCall
  | 0 => ⟨"sweep", "a", 10⟩
  | 1 => ⟨"sweep", "a", renewal⟩
  | 2 => ⟨"sweep", "b", 10⟩

/-- `a` inserts at time 0 and renews at time 1; `b` tries at time `1 + wait`. -/
def renewalRun (wait : Nat) : List (Fin 3 × LeaseEnv) :=
  [(0, ⟨0, .ok⟩), (0, ⟨0, .ok⟩), (0, ⟨0, .ok⟩), (1, ⟨1, .ok⟩), (1, ⟨0, .ok⟩), (2, ⟨wait, .ok⟩), (2, ⟨0, .ok⟩)]

def noLeases : World LeaseStore LeasePhase (Fin 3) := ⟨⟨fun _ => none, 0⟩, fun _ => .start⟩

theorem shorter_renewal_overlaps :
    let after := run (leaseStep (renewalCalls 1)) noLeases (renewalRun 2)
    after.phase 0 = .granted 0 ∧ after.phase 2 = .granted 3 ∧
      (0 ≤ 3 ∧ 3 ≤ 0 + (renewalCalls 1 0).ttl) ∧ (3 ≤ 3 ∧ 3 ≤ 3 + (renewalCalls 1 2).ttl) := by
  decide

theorem longer_renewal_excludes :
    let after := run (leaseStep (renewalCalls 10)) noLeases (renewalRun 20)
    after.phase 0 = .granted 0 ∧ after.phase 2 = .granted 21 ∧
      ¬ ∃ t, (0 ≤ t ∧ t ≤ 0 + 10) ∧ (21 ≤ t ∧ t ≤ 21 + 10) := by
  have hz : (run (leaseStep (renewalCalls 10)) noLeases (renewalRun 20)).phase 0 = .granted 0 := by decide
  have htwo : (run (leaseStep (renewalCalls 10)) noLeases (renewalRun 20)).phase 2 = .granted 21 := by decide
  refine ⟨hz, htwo, leases_exclude (renewalCalls 10) noLeases (fun _ => rfl) (renewalRun 20) ?_ 0 2 0 21
    rfl (by decide) hz htwo⟩
  refine ⟨?_, ?_, ?_, ?_, ?_, ?_, ?_, trivial⟩
  · exact nofun
  · exact nofun
  · exact nofun
  · exact nofun
  · intro now row hph _ _ c now' _ hh ht
    cases hph
    match c, hh, ht with
    | 0, _, ht =>
      cases ht
      decide
    | 1, _, ht => cases ht
    | 2, hh, _ => exact absurd hh (by decide)
  · exact nofun
  · intro now row _ hrow ho
    cases hrow
    exact absurd ho (by decide)

end AeroVault.Repository
