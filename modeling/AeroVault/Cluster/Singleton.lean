import AeroVault.Repository.Leases

/-! Work that is to run on one replica at a time: `Singleton.Guard`.

Each replica calls `Guard` round after round. A call acquires the lease and, if that is granted, runs
`fn`, which takes as long as it takes; the lease is not renewed meanwhile. Another replica is granted
the lease only after it has expired, so that two replicas run `fn` at the same time just when a
replica takes the lease while another is at work past the expiry of its own (`exclusive_iff`). -/
namespace AeroVault.Cluster
open Lib Repository Function

structure Singleton where
  lease : String
  holder : String
  enabled : Bool
  deriving DecidableEq

/-- Where a replica stands in `Guard`; `starting`, `updating` and `inserting` are in `AcquireLease`. -/
inductive GuardPhase
  | idle
  | starting
  | updating (now : Nat)
  | inserting (now : Nat)
  /-- In `fn`, with the call time of the lease. -/
  | running (since : Nat)
  deriving DecidableEq

structure GuardEnv where
  lease : LeaseEnv
  /-- `fn` returns. -/
  returns : Bool
  deriving DecidableEq

/-- What follows from how far `AcquireLease` has come. -/
def afterAcquire : LeasePhase → GuardPhase
  | .start => .starting
  | .updating now => .updating now
  | .inserting now => .inserting now
  | .granted now => .running now
  | .refused | .failed | .failedAfterGrant _ => .idle

/-- A step of `AcquireLease`. -/
def acquire (s : Singleton) (ttl : Nat) (env : LeaseEnv) (store : LeaseStore) (phase : LeasePhase) :
    GuardPhase × LeaseStore :=
  let next := leaseAdvance ⟨s.lease, s.holder, ttl⟩ env store phase
  (afterAcquire next.1, next.2)

/-- `Guard`, one step at a time. -/
def guardAdvance (s : Singleton) (ttl : Nat) (env : GuardEnv) (store : LeaseStore) :
    GuardPhase → GuardPhase × LeaseStore :=
  let passed := {store with clock := store.clock + env.lease.elapsed}
  fun
  | .idle => (if s.enabled then .starting else .running passed.clock, passed)
  | .starting => acquire s ttl env.lease store .start
  | .updating now => acquire s ttl env.lease store (.updating now)
  | .inserting now => acquire s ttl env.lease store (.inserting now)
  | .running since => (if env.returns then .idle else .running since, passed)

/-- The time that a call to `AcquireLease` has read. -/
def GuardPhase.callTime : GuardPhase → Option Nat
  | .updating now => some now
  | .inserting now => some now
  | _ => none

/-! ### Steps -/

section Step

variable {s : Singleton} {ttl : Nat} {env : GuardEnv} {store : LeaseStore} {phase : GuardPhase}

/-- A step that writes no lease, and starts no work. -/
structure Quiet (store : LeaseStore) (phase : GuardPhase) (next : GuardPhase × LeaseStore) : Prop where
  rows : next.2.rows = store.rows
  running : ∀ t, next.1 = .running t → phase = .running t
  callTime : ∀ now, next.1.callTime = some now → phase.callTime = some now ∨ now = next.2.clock

/-- A step that writes the lease, over a row that it may take or where there is none. Work starts
unless the reply is lost. -/
structure Writes (s : Singleton) (ttl : Nat) (env : GuardEnv) (store : LeaseStore) (phase : GuardPhase)
    (next : GuardPhase × LeaseStore) (now : Nat) : Prop where
  callTime : phase.callTime = some now
  rows : next.2.rows = update store.rows s.lease (some ⟨s.holder, now + ttl⟩)
  next : next.1 = if env.lease.reply = .ok then .running now else .idle
  free : store.rows s.lease = none ∨ ∃ row, phase = .updating now ∧ store.rows s.lease = some row ∧
    (row.holder = s.holder ∨ row.expiresAt < now)

theorem afterAcquire_answered {now : Nat} {reply : Reply} :
    afterAcquire (answered now reply) = if reply = .ok then .running now else .idle := by
  cases reply <;> rfl

/-- A statement without effect: the call goes on, or it has failed. -/
theorem quiet_unanswered {next : LeasePhase} {clock : Nat} {reply : Reply}
    (hnx : next = .refused ∨ ∃ now, next = .inserting now ∧ phase.callTime = some now) :
    Quiet store phase (afterAcquire (unanswered next reply), {store with clock}) := by
  cases reply with
  | ok =>
    rcases hnx with rfl | ⟨now, rfl, hcl⟩
    · exact ⟨rfl, nofun, nofun⟩
    · exact ⟨rfl, nofun, fun _ h => .inl (hcl.trans h)⟩
  | failed | lost => exact ⟨rfl, nofun, nofun⟩

/-- What a step of a replica whose work is gated does. -/
theorem guardAdvance_cases
    (hen : s.enabled = true) :
    (guardAdvance s ttl env store phase).2.clock = store.clock + env.lease.elapsed ∧
      (Quiet store phase (guardAdvance s ttl env store phase) ∨
        ∃ now, Writes s ttl env store phase (guardAdvance s ttl env store phase) now) := by
  cases phase with
  | idle =>
    refine ⟨rfl, .inl ⟨rfl, fun t h => ?_, fun now h => ?_⟩⟩
    · simp [guardAdvance, hen] at h
    · simp [guardAdvance, hen, GuardPhase.callTime] at h
  | starting => exact ⟨rfl, .inl ⟨rfl, (fun _ h => by cases h), fun now h => .inr (Option.some.inj h).symm⟩⟩
  | running since =>
    refine ⟨rfl, .inl ⟨rfl, fun t h => ?_, fun now h => ?_⟩⟩
    · dsimp only [guardAdvance] at h
      split at h
      · cases h
      · exact h
    · dsimp only [guardAdvance] at h
      split at h <;> cases h
  | updating now =>
    simp only [guardAdvance, acquire, leaseAdvance]
    split
    · exact ⟨rfl, .inl ⟨rfl, (fun _ h => by cases h), (fun _ h => by cases h)⟩⟩
    · cases hrow : store.rows s.lease with
      | none => exact ⟨rfl, .inl (quiet_unanswered (.inr ⟨now, rfl, rfl⟩))⟩
      | some row =>
        dsimp only
        split
        next ht =>
          refine ⟨rfl, .inr ⟨now, rfl, rfl, afterAcquire_answered, .inr ⟨row, rfl, hrow, ?_⟩⟩⟩
          simpa [LeaseCall.mayTake] using ht
        · exact ⟨rfl, .inl (quiet_unanswered (.inr ⟨now, rfl, rfl⟩))⟩
  | inserting now =>
    simp only [guardAdvance, acquire, leaseAdvance]
    split
    · exact ⟨rfl, .inl ⟨rfl, (fun _ h => by cases h), (fun _ h => by cases h)⟩⟩
    · cases hrow : store.rows s.lease with
      | none => exact ⟨rfl, .inr ⟨now, rfl, rfl, afterAcquire_answered, .inl hrow⟩⟩
      | some row => exact ⟨rfl, .inl (quiet_unanswered (.inl rfl))⟩

end Step

/-! ### Runs -/

section Runs

variable {ι : Type*} (lease : String) (holder : ι → String) (ttl : Nat)

/-- The replicas gate their work by one lease. -/
def gated (c : ι) : Singleton := ⟨lease, holder c, true⟩

def guardStep [DecidableEq ι] (w : World LeaseStore GuardPhase ι) (i : ι × GuardEnv) : World LeaseStore GuardPhase ι :=
  World.step (fun c env store phase => guardAdvance (gated lease holder c) ttl env store phase) w i

/-- No two replicas are in `fn`. -/
def Exclusive (w : World LeaseStore GuardPhase ι) : Prop :=
  ∀ c c' t t', w.phase c = .running t → w.phase c' = .running t' → c = c'

/-- The replica of the step is about to be granted the lease, over its own row or one that had expired at
the time of its call. -/
def Takes (w : World LeaseStore GuardPhase ι) (i : ι × GuardEnv) (now : Nat) : Prop :=
  w.phase i.1 = .updating now ∧ i.2.lease.reply = .ok ∧
    ∃ row, w.shared.rows lease = some row ∧ (row.holder = holder i.1 ∨ row.expiresAt < now)

/-- Whoever is granted the lease finds no other replica in `fn` past the expiry of its own lease. -/
def FindsNoneOverdue (w : World LeaseStore GuardPhase ι) (i : ι × GuardEnv) : Prop :=
  ∀ now, Takes lease holder w i now → ∀ c t, c ≠ i.1 → w.phase c = .running t → now ≤ t + ttl

/-- The lease of a replica in `fn` is stored, or was taken by a call made after its expiry. -/
def Fenced (w : World LeaseStore GuardPhase ι) (c : ι) (t : Nat) : Prop :=
  ∃ row, w.shared.rows lease = some row ∧ t + ttl ≤ row.expiresAt ∧
    (row.holder ≠ holder c → ∃ u, t + ttl < u ∧ u ≤ w.shared.clock ∧
      ∀ c' now, holder c' = row.holder → (w.phase c').callTime = some now → u ≤ now)

structure Inv (w : World LeaseStore GuardPhase ι) : Prop where
  calls : ∀ c now, (w.phase c).callTime = some now → now ≤ w.shared.clock
  fenced : ∀ c t, w.phase c = .running t → Fenced lease holder ttl w c t

variable {lease holder ttl} {w : World LeaseStore GuardPhase ι}

/-- A replica in `fn` has lost its lease by the time that another is granted one. -/
theorem Inv.expired (h : Inv lease holder ttl w) (hinj : Injective holder) {c c' : ι} {now t : Nat}
    {row : Lease} (hrow : w.shared.rows lease = some row) (hcall : (w.phase c).callTime = some now)
    (ht : row.holder = holder c ∨ row.expiresAt < now) (hne : c' ≠ c) (hrunning : w.phase c' = .running t) :
    t + ttl < now := by
  obtain ⟨row', hrow', hend, hother⟩ := h.fenced c' t hrunning
  cases hrow.symm.trans hrow'
  rcases ht with ho | hex
  · obtain ⟨u, hu, -, hcl⟩ := hother fun hh => hne (hinj (hh.symm.trans ho))
    exact hu.trans_le (hcl c now ho.symm hcall)
  · omega

/-- What a step does to the replica that takes it, and that it leaves the others where they are. -/
theorem guardStep_cases [DecidableEq ι] (lease : String) (holder : ι → String) (ttl : Nat)
    (w : World LeaseStore GuardPhase ι) (c : ι) (env : GuardEnv) :
    let next := guardAdvance (gated lease holder c) ttl env w.shared (w.phase c)
    let w' := guardStep lease holder ttl w (c, env)
    (w'.shared = next.2 ∧ w.shared.clock ≤ next.2.clock ∧ w'.phase c = next.1 ∧
      ∀ x, x ≠ c → w'.phase x = w.phase x) ∧
    (Quiet w.shared (w.phase c) next ∨ ∃ now, Writes (gated lease holder c) ttl env w.shared (w.phase c) next now) := by
  have hen : (gated lease holder c).enabled = true := rfl
  obtain ⟨hcl, hcs⟩ := guardAdvance_cases hen
  refine ⟨⟨rfl, hcl ▸ Nat.le_add_right .., World.phase_step_self, fun x hx => ?_⟩, hcs⟩
  exact World.phase_step_of_ne hx

theorem Inv.step [DecidableEq ι] (h : Inv lease holder ttl w) (hinj : Injective holder)
    (i : ι × GuardEnv) : Inv lease holder ttl (guardStep lease holder ttl w i) := by
  obtain ⟨c, env⟩ := i
  obtain ⟨⟨hshar, hclock, hself, hoth⟩, hcs⟩ := guardStep_cases lease holder ttl w c env
  generalize guardStep lease holder ttl w (c, env) = w' at hshar hself hoth ⊢
  rcases hcs with hqt | ⟨now, hwrit⟩
  · have hcal (x : ι) (now : Nat) (hx : (w'.phase x).callTime = some now) :
        (w.phase x).callTime = some now ∨ now = w'.shared.clock := by
      by_cases hxc : x = c
      · subst hxc
        rw [hself] at hx
        rw [hshar]
        exact hqt.callTime now hx
      · rw [hoth x hxc] at hx
        exact .inl hx
    refine ⟨fun x now hx => ?_, fun x t hx => ?_⟩
    · rcases hcal x now hx with hbf | rfl
      · exact (h.calls x now hbf).trans (hshar ▸ hclock)
      · exact le_rfl
    · have hbf : w.phase x = .running t := by
        by_cases hxc : x = c
        · subst hxc
          exact hqt.running t (hself ▸ hx)
        · rwa [hoth x hxc] at hx
      obtain ⟨row, hrow, hend, hother⟩ := h.fenced x t hbf
      refine ⟨row, by rw [hshar, hqt.rows, hrow], hend, fun hne => ?_⟩
      obtain ⟨u, hu, hclock', ht⟩ := hother hne
      refine ⟨u, hu, hclock'.trans (hshar ▸ hclock), fun y now hy hcall => ?_⟩
      rcases hcal y now hcall with hcall | rfl
      · exact ht y now hy hcall
      · exact hclock'.trans (hshar ▸ hclock)
  · have hidle : (w'.phase c).callTime = none := by
      rw [hself, hwrit.next]
      split <;> rfl
    have hrow' : w'.shared.rows lease = some ⟨holder c, now + ttl⟩ := by
      rw [hshar, hwrit.rows]
      exact update_self ..
    refine ⟨fun x time hx => ?_, fun x t hx => ⟨_, hrow', ?_⟩⟩
    · by_cases hxc : x = c
      · rw [hxc, hidle] at hx
        cases hx
      · rw [hoth x hxc] at hx
        exact (h.calls x time hx).trans (hshar ▸ hclock)
    · by_cases hxc : x = c
      · subst hxc
        rw [hself, hwrit.next] at hx
        split at hx
        · cases hx
          exact ⟨le_rfl, fun hne => absurd rfl hne⟩
        · cases hx
      · rw [hoth x hxc] at hx
        have ho : t + ttl < now := by
          rcases hwrit.free with hnone | ⟨row, hph, hrow, htk⟩
          · obtain ⟨row, hrow, -⟩ := h.fenced x t hx
            cases hnone.symm.trans hrow
          · exact h.expired hinj hrow hwrit.callTime htk hxc hx
        have hend : t + ttl ≤ now + ttl := by omega
        refine ⟨hend, fun _ => ⟨now, ho, ?_, fun y time hy hcall => ?_⟩⟩
        · exact (h.calls c now hwrit.callTime).trans (hshar ▸ hclock)
        · rw [hinj hy, hidle] at hcall
          cases hcall

theorem granted_of_takes {c : ι} {env : GuardEnv} {now : Nat} (h : Takes lease holder w (c, env) now) :
    (guardAdvance (gated lease holder c) ttl env w.shared (w.phase c)).1 = .running now := by
  obtain ⟨hph, hrp, row, hrow, ht⟩ := h
  have hm : (LeaseCall.mk lease (holder c) ttl).mayTake now row = true := by
    simpa [LeaseCall.mayTake] using ht
  simp only at hph hrp
  simp [hph, guardAdvance, acquire, leaseAdvance, gated, hrow, hm, hrp, answered, afterAcquire]

/-- One step keeps the work exclusive just when it grants no lease while work is overdue. -/
theorem exclusive_step_iff [DecidableEq ι] (h : Inv lease holder ttl w) (hinj : Injective holder)
    (hexc : Exclusive w) {i : ι × GuardEnv} :
    Exclusive (guardStep lease holder ttl w i) ↔ FindsNoneOverdue lease holder ttl w i := by
  obtain ⟨c, env⟩ := i
  obtain ⟨⟨hsh, hcl, hself, hoth⟩, hcs⟩ := guardStep_cases lease holder ttl w c env
  constructor
  · intro haf now htk x t hx hrunning
    have hg := hself.trans (granted_of_takes htk)
    exact absurd (haf x c t now ((hoth x hx).trans hrunning) hg) hx
  · intro hnone
    -- Work of the replica was in progress already, or nobody else's is.
    have hst (u : Nat) (hu : (guardStep lease holder ttl w (c, env)).phase c = .running u) :
        w.phase c = .running u ∨ ∀ x t, x ≠ c → w.phase x ≠ .running t := by
      rw [hself] at hu
      rcases hcs with hqt | ⟨now, hwr⟩
      · exact .inl (hqt.running u hu)
      · refine .inr fun x t hx hrunning => ?_
        rw [hwr.next] at hu
        split at hu
        next hok =>
          rcases hwr.free with hfree | ⟨row, hph, hrow, ht⟩
          · obtain ⟨row, hrow, -⟩ := h.fenced x t hrunning
            cases hfree.symm.trans hrow
          · have hin := hnone now ⟨hph, hok, row, hrow, ht⟩ x t hx hrunning
            have hex := h.expired hinj hrow hwr.callTime ht hx hrunning
            omega
        · cases hu
    have hap (x : ι) (t u : Nat) (hx : x ≠ c) (hrunning : w.phase x = .running t)
        (hu : (guardStep lease holder ttl w (c, env)).phase c = .running u) : False := by
      rcases hst u hu with hbf | hnb
      · exact hx (hexc x c t u hrunning hbf)
      · exact hnb x t hx hrunning
    intro x y t u hx hy
    by_cases hxc : x = c
    · by_cases hyc : y = c
      · rw [hxc, hyc]
      · rw [hoth y hyc] at hy
        exact (hap y u t hyc hy (hxc ▸ hx)).elim
    · rw [hoth x hxc] at hx
      by_cases hyc : y = c
      · exact (hap x t u hxc hx (hyc ▸ hy)).elim
      · rw [hoth y hyc] at hy
        exact hexc x y t u hx hy

end Runs

/-- **Gated work is exclusive** in every state of a run, whatever the order of the replicas' steps and
however long their work takes, if and only if nobody is granted the lease while another replica is in
`fn` past the expiry of the lease that it was granted. -/
theorem exclusive_iff {ι : Type*} [DecidableEq ι] (lease : String) (holder : ι → String) (ttl : Nat)
    (hinj : Function.Injective holder) (w : World LeaseStore GuardPhase ι) (hstart : ∀ c, w.phase c = .idle)
    (ins : List (ι × GuardEnv)) :
    Always (guardStep lease holder ttl) Exclusive w ins ↔
      Each (guardStep lease holder ttl) (FindsNoneOverdue lease holder ttl) w ins := by
  have hinv : Inv lease holder ttl w := by
    refine ⟨fun c now hcl => ?_, fun c t hrunning => ?_⟩
    · rw [hstart c] at hcl
      cases hcl
    · cases (hstart c).symm.trans hrunning
  have hex : Exclusive w := fun c _ t _ hrunning _ => nomatch (hstart c).symm.trans hrunning
  exact always_iff_each (fun _ i h _ => h.step hinj i) (fun _ i h hP _ => exclusive_step_iff h hinj hP) hinv
    hex (.trivial w ins)

/-! Two replicas: `a` starts its work at time 0, with a lease of 10, and `b` tries at time `later`. -/

def twoReplicas (later : Nat) (returns : Bool) : List (Bool × GuardEnv) :=
  [(false, ⟨⟨0, .ok⟩, false⟩), (false, ⟨⟨0, .ok⟩, false⟩), (false, ⟨⟨0, .ok⟩, false⟩), (false, ⟨⟨0, .ok⟩, false⟩),
    (false, ⟨⟨0, .ok⟩, returns⟩), (true, ⟨⟨0, .ok⟩, false⟩), (true, ⟨⟨later, .ok⟩, false⟩),
    (true, ⟨⟨0, .ok⟩, false⟩)]

def replica (c : Bool) : String := if c then "b" else "a"

def noReplicaWorks : World LeaseStore GuardPhase Bool := ⟨⟨fun _ => none, 0⟩, fun _ => .idle⟩

theorem finished_sweep_excludes :
    Always (guardStep "sweep" replica 10) Exclusive noReplicaWorks (twoReplicas 11 true) := by
  have hinj : Injective replica := by decide
  refine (exclusive_iff "sweep" replica 10 hinj noReplicaWorks (fun _ => rfl) _).mpr ?_
  refine ⟨?_, ?_, ?_, ?_, ?_, ?_, ?_, ?_, trivial⟩
  · exact fun _ ht => nomatch ht.1
  · exact fun _ ht => nomatch ht.1
  · exact fun _ ⟨_, _, _, hrow, _⟩ => nomatch hrow
  · exact fun _ ht => nomatch ht.1
  · exact fun _ ht => nomatch ht.1
  · exact fun _ ht => nomatch ht.1
  · exact fun _ ht => nomatch ht.1
  · intro now _ c t hc hrunning
    cases c with
    | false => cases hrunning
    | true => exact absurd rfl hc

/-- The sweep of `a` is still running when its lease has expired, and `b` starts its own. -/
theorem slow_sweep_overlaps :
    ¬ Always (guardStep "sweep" replica 10) Exclusive noReplicaWorks (twoReplicas 11 false) := by
  intro h
  have hsame := h.last false true 0 11 (by decide) (by decide)
  cases hsame

end AeroVault.Cluster
