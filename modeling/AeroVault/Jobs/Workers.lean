import AeroVault.Jobs.Handlers
import AeroVault.Service.Overwrites

/-! A worker beside the writers of the vault.

The antivirus worker and the replication worker are fed alike: a `Put` that has written
its row emits a created event, `Run` turns the event into a job that is deduplicated by
the object's ID, and a pool claims the job for a handler, which goes through stages of
the worker's own. `Bench` is what they share. A `Promise` is what the tag of a worker says
about the stored bytes: it is `Current` as long as the bytes of every object that is
tagged, or about to be, are as promised, or a handler that has yet to read them is owed.
The steps of the bench keep this but for three: an event merged into a job whose handler
has read older bytes, a job that is given up, and a `Put` that is refused when its bytes
have replaced the old ones. -/
namespace AeroVault.Jobs
open Lib Repository Service List

variable {σ : Type}

structure CreatedEvent where
  tenantID : String
  objectID : Nat
  deriving DecidableEq

/-- The payload of a job about one object. -/
structure ObjectPayload where
  objectID : Nat
  deriving DecidableEq

/-- The job that is enqueued for an object. -/
def objectJob (type tenantID : String) (objectID : Nat) : Job ObjectPayload where
  tenantID := tenantID
  type := type
  payload := ⟨objectID⟩
  dedupeKey := objectKey type objectID

/-- A job that a worker has claimed, as it was then, and how far it has come with it. -/
structure Handling (σ : Type) where
  job : Job ObjectPayload
  stage : σ
  deriving DecidableEq

def Handling.objectID (c : Handling σ) : Nat := c.job.payload.objectID

/-- How a worker handles its jobs. -/
structure Routine (σ : Type) where
  /-- The type of the jobs. -/
  type : String
  claimed : σ
  handled : σ → Bool
  /-- The stages at which the handler may return an error. -/
  mayFail : σ → Bool

structure Bench (σ : Type) where
  vault : Vault
  /-- The `Put`s between their two writes. -/
  staged : List StagedPut
  /-- Events that `Run` has yet to receive. -/
  events : List CreatedEvent
  queue : Queue ObjectPayload
  handlers : List (Handling σ)

namespace Bench

def empty (buckets : String → String → BucketConfig := fun _ _ => ⟨false, 0, 0, 0, 0⟩)
    (maxBytes maxObjects : String → Int := fun _ => 0) : Bench σ where
  vault := .empty buckets maxBytes maxObjects
  staged := []
  events := []
  queue := .empty
  handlers := []

def store (s : Bench σ) (ctx : Ctx) (req : PutRequest) : Bench σ :=
  match storePut ctx req s.vault with
  | (.error _, vault) => {s with vault := vault}
  | (.ok p, vault) => {s with vault := vault, staged := s.staged ++ [p]}

/-- The row is written, and the event emitted if it was. -/
def commit (s : Bench σ) (i now : Nat) : Bench σ :=
  match s.staged[i]? with
  | none => s
  | some p =>
    match p.commit now s.vault with
    | (.error _, vault) => {s with vault := vault, staged := s.staged.eraseIdx i}
    | (.ok saved, vault) =>
      {s with
        vault := vault
        staged := s.staged.eraseIdx i
        events := s.events ++ [⟨saved.path.tenantID, saved.id⟩]}

def enqueue (r : Routine σ) (s : Bench σ) (i now : Nat) : Bench σ :=
  match s.events[i]? with
  | none => s
  | some e =>
    {s with
      events := s.events.eraseIdx i
      queue := (enqueueJob now (objectJob r.type e.tenantID e.objectID) s.queue).2}

def claim (r : Routine σ) (s : Bench σ) (now : Nat) (worker : String) : Bench σ :=
  match claimJob now worker s.queue with
  | none => s
  | some (job, queue) => {s with queue := queue, handlers := s.handlers ++ [⟨job, r.claimed⟩]}

/-- The `i`-th handler goes on to a stage. -/
def advance (s : Bench σ) (i : Nat) (c : Handling σ) (stage : σ) : Bench σ :=
  {s with handlers := s.handlers.set i {c with stage := stage}}

def complete (r : Routine σ) (s : Bench σ) (i now : Nat) : Bench σ :=
  match s.handlers[i]? with
  | none => s
  | some c =>
    if r.handled c.stage then
      {s with queue := completeJob now c.job.id "" s.queue, handlers := s.handlers.eraseIdx i}
    else s

/-- The handler returns an error. -/
def fail (r : Routine σ) (s : Bench σ) (i now : Nat) (err : String) (delay : Nat) : Bench σ :=
  match s.handlers[i]? with
  | none => s
  | some c =>
    if r.mayFail c.stage then
      {s with queue := settleFailure now c.job err delay s.queue, handlers := s.handlers.eraseIdx i}
    else s

/-- A `Put` has yet to write its row, or an event of the object is on its way. -/
def writing (s : Bench σ) (id : Nat) : Bool := !s.staged.isEmpty || s.events.any fun e => e.objectID == id

/-- Nothing is in progress for the object: no write, no job, no handler. -/
abbrev Quiet (s : Bench σ) (id : Nat) : Prop :=
  s.writing id = false ∧ (∀ j ∈ s.queue.rows, j.live = true → j.payload.objectID ≠ id) ∧
    ∀ c ∈ s.handlers, c.objectID ≠ id

/-- The bytes of the key. -/
def stored (s : Bench σ) (k : Path) : Option Bytes := s.vault.bytes (storageKey k)

theorem stored_withVault {s : Bench σ} {v : Vault} (h : v.blobs = s.vault.blobs) (k : Path) :
    {s with vault := v}.stored k = s.stored k := by
  simp only [stored, Vault.bytes, h]

theorem writing_iff {s : Bench σ} {id : Nat} :
    s.writing id = true ↔ s.staged ≠ [] ∨ ∃ e ∈ s.events, ObjectPayload.mk e.objectID = ⟨id⟩ := by
  simp [writing]

end Bench

/-! ### What a tag promises -/

/-- What the tag of a worker says about the bytes of the key, and what the stages of a
handler have to do with it. -/
structure Promise (σ : Type) extends Routine σ where
  key : Path
  /-- The tag is on the row. -/
  tagged : Object → Bool
  /-- The bytes stored are as promised. -/
  kept : Option Bytes → Bool
  /-- The handler is about to write the tag. -/
  vouches : σ → Bool
  /-- The handler has not read the bytes, or has read those stored. -/
  fresh : Option Bytes → σ → Bool
  /-- The handler is about to break the promise. -/
  stale : Option Bytes → σ → Bool
  /-- What a handler of the object has read is of the key. -/
  ofKey : Objects → Nat → σ → Prop
  /-- The worker deletes no object. -/
  undeleted : Prop
  ofKey_kept : ∀ {t t' : Objects} {id : Nat} {stage : σ}, KeepsIDs t t' → ofKey t id stage → ofKey t' id stage
  ofKey_claimed : ∀ (t : Objects) (id : Nat), ofKey t id claimed
  vouches_claimed : vouches claimed = false
  fresh_claimed : ∀ stored, fresh stored claimed = true
  stale_claimed : ∀ stored, stale stored claimed = false
  fresh_handled : ∀ stored stage, handled stage = true → fresh stored stage = false

namespace Promise

section
variable (P : Promise σ) (s : Bench σ)

/-- Tagged, or about to be. -/
abbrev Suspect (o : Object) : Prop :=
  P.tagged o = true ∨ ∃ c ∈ s.handlers, c.objectID = o.id ∧ P.vouches c.stage = true

/-- The bytes are as promised, and no handler is about to change that. -/
abbrev Settled (id : Nat) : Prop :=
  P.kept (s.stored P.key) = true ∧
    ∀ c ∈ s.handlers, c.objectID = id → P.stale (s.stored P.key) c.stage = false

/-- A `Put` that is refused, which deletes the blob, is not one of an object that is
tagged or about to be, unless another write is in progress. -/
abbrev KeepsCommit (i : Nat) : Prop :=
  ∀ p ∈ s.staged[i]?, p.plan.accepts p.ctx p.req.body = false →
    ∀ o ∈ s.vault.objects.rows, o.live = true → P.Suspect s o →
      {s with staged := s.staged.eraseIdx i}.writing o.id = true

/-- An event is not merged into a job whose handler has read other bytes, unless the
object is settled or another write is in progress. -/
abbrev KeepsEnqueue (i : Nat) : Prop :=
  ∀ e ∈ s.events[i]?, ∀ existing ∈ duplicate s.queue (objectKey P.type e.objectID),
    (∀ c ∈ s.handlers, c.job.id = existing.id → P.fresh (s.stored P.key) c.stage = true) ∨
      P.Settled s e.objectID ∨ {s with events := s.events.eraseIdx i}.writing e.objectID = true

/-- A job is not given up whose object is tagged, unless the bytes are as promised or
another write is in progress. -/
abbrev KeepsFail (i : Nat) : Prop :=
  ∀ c ∈ s.handlers[i]?, c.job.exhausted = true →
    ∀ o ∈ s.vault.objects.rows, o.live = true → o.id = c.objectID → P.tagged o = true →
      P.kept (s.stored P.key) = true ∨ s.writing o.id = true

/-- A handler that reads the bytes is still to come. -/
def Owed (id : Nat) : Prop :=
  s.writing id = true ∨
    AwaitsBy Handling.job (fun c => P.fresh (s.stored P.key) c.stage = true) s.queue s.handlers ⟨id⟩

def Current : Prop :=
  ∀ o ∈ s.vault.objects.rows, o.live = true → P.Suspect s o → P.Settled s o.id ∨ P.Owed s o.id

/-- The bench of writers of the one key, and a promise that is current. -/
structure Sound : Prop where
  objects : OneKey P.key s.vault.objects
  live : P.undeleted → ∀ o ∈ s.vault.objects.rows, o.live = true
  staged : ∀ p ∈ s.staged, OverwritesKey P.key p
  tracked : TrackedBy Handling.job (fun p => objectKey P.type p.objectID) s.queue s.handlers
  ofKey : ∀ c ∈ s.handlers, P.ofKey s.vault.objects c.objectID c.stage
  current : P.Current s

end

variable {P : Promise σ} {s s' : Bench σ} {o : Object} {c d : Handling σ} {i now id : Nat} {stage : σ}

theorem sound_empty {buckets : String → String → BucketConfig} {maxBytes maxObjects : String → Int} :
    P.Sound (.empty buckets maxBytes maxObjects) where
  objects := oneKey_empty P.key
  live _ _ ho := nomatch ho
  staged _ hp := nomatch hp
  tracked := trackedBy_empty
  ofKey _ hc := nomatch hc
  current _ ho := nomatch ho

/-- A suspect that a step leaves was one before, or is settled or owed a handler. -/
theorem Current.step (h : P.Current s)
    (hstep : ∀ o' ∈ s'.vault.objects.rows, o'.live = true → P.Suspect s' o' →
      (P.Settled s' o'.id ∨ P.Owed s' o'.id) ∨
        (∃ o ∈ s.vault.objects.rows, o.live = true ∧ o.id = o'.id ∧ P.Suspect s o) ∧
          (P.Settled s o'.id → P.Settled s' o'.id ∨ P.Owed s' o'.id) ∧
          (P.Owed s o'.id → P.Settled s' o'.id ∨ P.Owed s' o'.id)) : P.Current s' := by
  intro o' ho' hl hs
  obtain hd | ⟨⟨o, ho, hol, hid, hos⟩, hst, how⟩ := hstep o' ho' hl hs
  · exact hd
  · have hbf := h o ho hol hos
    rw [hid] at hbf
    exact hbf.elim hst how

theorem objectKey_payload_ne (p : ObjectPayload) : objectKey P.type p.objectID ≠ "" := objectKey_ne _ _

namespace Sound

section
variable (h : P.Sound s)
include h

/-- When all is quiet, the promise of a tag is kept. -/
theorem kept_of_quiet (ho : o ∈ s.vault.objects.rows) (hl : o.live = true) (ht : P.tagged o = true)
    (hq : s.Quiet o.id) : P.kept (s.stored P.key) = true := by
  obtain ⟨hwrit, hjb, -⟩ := hq
  obtain hst | hwr | ⟨j, hj, hjl, hpay, -⟩ := h.current o ho hl (.inl ht)
  · exact hst.1
  · rw [hwrit] at hwr
    cases hwr
  · exact absurd (congrArg ObjectPayload.objectID hpay) (hjb j hj hjl)

/-- The handlers of one object are one. -/
theorem alone (hc : c ∈ s.handlers) (hd : d ∈ s.handlers) (hid : c.objectID = d.objectID) : c = d :=
  h.tracked.alone objectKey_payload_ne hc hd (congrArg (objectKey P.type) hid)

/-- With its handler through, an object has none. -/
theorem ne_of_mem_eraseIdx (hi : s.handlers[i]? = some c) (hd : d ∈ s.handlers.eraseIdx i) :
    d.objectID ≠ c.objectID := by
  intro hid
  obtain ⟨hd, hne⟩ := (h.tracked.mem_settle hi).mp hd
  exact hne (by rw [h.alone hd (mem_of_getElem? hi) hid])

theorem store {ctx : Ctx} {req : PutRequest} (hpath : defaults req.tenant req.bucket req.key = P.key)
    (hv : (s.vault.config P.key).versioning = false) : P.Sound (s.store ctx req) := by
  unfold Bench.store
  split
  next err vault hst =>
    rw [storePut_error hst]
    exact h
  next p vault hst =>
    obtain ⟨ho, hp⟩ := storePut_overwrites hst hpath hv
    refine ⟨ho ▸ h.objects, ho ▸ h.live, fun q hq => ?_, h.tracked, ho ▸ h.ofKey, fun o _ _ _ => ?_⟩
    · obtain hq | hq := mem_append.mp hq
      · exact h.staged q hq
      · rwa [mem_singleton.mp hq]
    · exact .inr (.inl (Bench.writing_iff.mpr (.inl (append_ne_nil_of_right_ne_nil _ (cons_ne_nil p [])))))

/-- The live row is the one written, and its event is on the way. -/
theorem commit (hkp : P.KeepsCommit s i) : P.Sound (s.commit i now) := by
  unfold Bench.commit
  split
  · exact h
  next p hg =>
    have hp := h.staged p (mem_of_getElem? hg)
    have hst : ∀ p ∈ s.staged.eraseIdx i, OverwritesKey P.key p := fun p hm =>
      h.staged p (mem_of_mem_eraseIdx hm)
    cases hac : p.plan.accepts p.ctx p.req.body with
    | true =>
      rw [StagedPut.commit_accepted hac]
      have hwr := overwritten_writePutObject h.objects hp now
      refine ⟨hwr.oneKey, fun hu => hwr.live (h.live hu), hst, h.tracked,
        fun c hc => P.ofKey_kept (keepsIDs_writePutObject hp) (h.ofKey c hc), fun o ho hl _ => ?_⟩
      have hev := congrArg ObjectPayload.mk (hwr.written o ho hl).symm
      exact .inr (.inl (Bench.writing_iff.mpr (.inr ⟨_, mem_append_right _ mem_cons_self, hev⟩)))
    | false =>
      obtain ⟨err, hrf⟩ := StagedPut.commit_refused hac now s.vault
      rw [hrf]
      exact ⟨h.objects, h.live, hst, h.tracked, h.ofKey,
        fun o ho hl hs => .inr (.inl (hkp p hg hac o ho hl hs))⟩

theorem enqueue (hkp : P.KeepsEnqueue s i) : P.Sound (s.enqueue P.toRoutine i now) := by
  unfold Bench.enqueue
  split
  · exact h
  next e hg =>
    refine ⟨h.objects, h.live, h.staged, h.tracked.enqueue now rfl, h.ofKey,
      h.current.step fun o ho hl hs => .inr ⟨⟨o, ho, hl, rfl, hs⟩, .inl, fun how => ?_⟩⟩
    rw [Owed, Bench.writing_iff, or_assoc] at how
    obtain hst | how := how
    · exact .inr (.inl (Bench.writing_iff.mpr (.inl hst)))
    · obtain hev | hawaits | hcv := awaitsBy_of_event h.tracked
        (fun p q hkeys => congrArg ObjectPayload.mk (objectKey_injective hkeys)) now
        (objectJob P.type e.tenantID e.objectID) hg rfl rfl
        (fun existing hd heq => ObjectPayload.mk.inj heq ▸ hkp e hg existing hd) how
      · exact .inr (.inl (Bench.writing_iff.mpr (.inr hev)))
      · exact .inr (.inr hawaits)
      · exact hcv.imp_right .inl

/-- A job more takes nothing away. -/
theorem enqueueJob (tenantID : String) :
    P.Sound {s with queue := (enqueueJob now (objectJob P.type tenantID id) s.queue).2} :=
  ⟨h.objects, h.live, h.staged, h.tracked.enqueue now rfl, h.ofKey, h.current.step fun o ho hl hs =>
    .inr ⟨⟨o, ho, hl, rfl, hs⟩, .inl, fun how =>
      .inr (how.imp_right fun hawaits => hawaits.enqueue now _)⟩⟩

theorem claim (worker : String) : P.Sound (s.claim P.toRoutine now worker) := by
  unfold Bench.claim
  split
  · exact h
  next job queue hcl =>
    have hnew (c : Handling σ) (hc : c ∈ s.handlers ++ [⟨job, P.claimed⟩]) :
        c ∈ s.handlers ∨ c = ⟨job, P.claimed⟩ := (mem_append.mp hc).imp_right mem_singleton.mp
    refine ⟨h.objects, h.live, h.staged, h.tracked.claim hcl rfl, fun c hc => ?_,
      h.current.step fun o ho hl hs =>
        .inr ⟨⟨o, ho, hl, rfl, ?_⟩, fun hset => .inl ⟨hset.1, fun c hc hid => ?_⟩, fun how => .inr ?_⟩⟩
    · obtain hc | rfl := hnew c hc
      · exact h.ofKey c hc
      · exact P.ofKey_claimed _ _
    · obtain ht | ⟨c, hc, hid, hv⟩ := hs
      · exact .inl ht
      · obtain hc | rfl := hnew c hc
        · exact .inr ⟨c, hc, hid, hv⟩
        · rw [P.vouches_claimed] at hv
          cases hv
    · obtain hc | rfl := hnew c hc
      · exact hset.2 c hc hid
      · exact P.stale_claimed _
    · exact how.imp_right fun hawaits => hawaits.claim hcl (P.fresh_claimed _)

end

section Advance
variable (h : P.Sound s) (hi : s.handlers[i]? = some c)
include h hi

theorem ofKey_advance {t : Objects} (hkp : KeepsIDs s.vault.objects t) (hst : P.ofKey t c.objectID stage) :
    ∀ d ∈ s.handlers.set i {c with stage := stage}, P.ofKey t d.objectID d.stage := by
  intro d hd
  obtain rfl | ⟨hd, -⟩ := (h.tracked.mem_advance hi).mp hd
  · exact hst
  · exact P.ofKey_kept hkp (h.ofKey d hd)

theorem suspect_advance (hv : P.vouches stage = false) (hs : P.Suspect (s.advance i c stage) o) :
    P.Suspect s o := by
  obtain ht | ⟨d, hd, hid, hdv⟩ := hs
  · exact .inl ht
  · obtain rfl | ⟨hd, -⟩ := (h.tracked.mem_advance hi).mp hd
    · rw [hv] at hdv
      cases hdv
    · exact .inr ⟨d, hd, hid, hdv⟩

/-- A handler goes on, without having read what is not stored. -/
theorem advance (hof : P.ofKey s.vault.objects c.objectID stage) (hv : P.vouches stage = false)
    (hst : P.stale (s.stored P.key) stage = false)
    (hf : P.fresh (s.stored P.key) c.stage = true → P.fresh (s.stored P.key) stage = true) :
    P.Sound (s.advance i c stage) := by
  refine ⟨h.objects, h.live, h.staged, h.tracked.advance hi rfl, h.ofKey_advance hi (.refl _) hof,
    h.current.step fun o ho hl hs => .inr ⟨⟨o, ho, hl, rfl, h.suspect_advance hi hv hs⟩,
      fun hset => .inl ⟨hset.1, fun d hd hid => ?_⟩, fun how => .inr ?_⟩⟩
  · obtain rfl | ⟨hd, -⟩ := (h.tracked.mem_advance hi).mp hd
    · exact hst
    · exact hset.2 d hd hid
  · exact how.imp_right fun hawaits => hawaits.advance h.tracked hi rfl fun hc _ => hf hc

/-- A handler is through with its job. Its own object is settled by then, or owed another one. -/
theorem settle {q : Queue ObjectPayload} {a a' : Job ObjectPayload} (hm : Moved s.queue q a a')
    (hid : a.id = c.job.id) (hpay : a.payload = c.job.payload)
    (ht : TrackedBy Handling.job (fun p => objectKey P.type p.objectID) q (s.handlers.eraseIdx i))
    (hown : P.fresh (s.stored P.key) c.stage = true → ∀ o ∈ s.vault.objects.rows, o.live = true →
      o.id = c.objectID → P.Suspect {s with queue := q, handlers := s.handlers.eraseIdx i} o →
        P.Settled {s with queue := q, handlers := s.handlers.eraseIdx i} o.id ∨
          P.Owed {s with queue := q, handlers := s.handlers.eraseIdx i} o.id) :
    P.Sound {s with queue := q, handlers := s.handlers.eraseIdx i} := by
  have hold (d : Handling σ) (hd : d ∈ s.handlers.eraseIdx i) : d ∈ s.handlers := mem_of_mem_eraseIdx hd
  refine ⟨h.objects, h.live, h.staged, ht, fun d hd => h.ofKey d (hold d hd),
    h.current.step fun o ho hl hs => ?_⟩
  by_cases hcase : o.id = c.objectID ∧ P.fresh (s.stored P.key) c.stage = true
  · exact .inl (hown hcase.2 o ho hl hcase.1 hs)
  · refine .inr ⟨⟨o, ho, hl, rfl, hs.imp_right fun ⟨d, hd, hv⟩ => ⟨d, hold d hd, hv⟩⟩,
      fun hset => .inl ⟨hset.1, fun d hd => hset.2 d (hold d hd)⟩, fun how => .inr ?_⟩
    exact how.imp_right fun hawaits => hawaits.settle h.tracked hi hm hid hpay fun hf hp =>
      hcase ⟨(congrArg ObjectPayload.objectID hp).symm, hf⟩

end Advance

variable (h : P.Sound s)
include h

theorem complete : P.Sound (s.complete P.toRoutine i now) := by
  unfold Bench.complete
  split
  · exact h
  next c hi =>
    split
    next hhd =>
      obtain ⟨a, a', hm, hid, hpay, ht⟩ := h.tracked.completed hi now ""
      refine h.settle hi hm hid hpay ht fun hf => ?_
      rw [P.fresh_handled _ _ hhd] at hf
      cases hf
    · exact h

theorem fail {err : String} {delay : Nat} (hkp : P.KeepsFail s i) :
    P.Sound (s.fail P.toRoutine i now err delay) := by
  unfold Bench.fail
  split
  · exact h
  next c hi =>
    split
    · obtain ⟨a, a', hm, hid, hpay, hl', ht⟩ := h.tracked.failed hi now err delay
      refine h.settle hi hm hid hpay ht fun _ o ho hl hobject hs => ?_
      cases hex : c.job.exhausted with
      | false =>
        rw [hex] at hl'
        rw [hobject]
        exact .inr (.inr (awaitsBy_retried h.tracked hi hm hid hpay hl'))
      | true =>
        have hno (d : Handling σ) (hd : d ∈ s.handlers.eraseIdx i) : d.objectID ≠ o.id := by
          rw [hobject]
          exact h.ne_of_mem_eraseIdx hi hd
        obtain htag | ⟨d, hd, hdid, -⟩ := hs
        · obtain hk | hwr := hkp c hi hex o ho hl hobject htag
          · exact .inl ⟨hk, fun d hd hdid => absurd hdid (hno d hd)⟩
          · exact .inr (.inl hwr)
        · exact absurd hdid (hno d hd)
    · exact h

end Sound

end Promise

end AeroVault.Jobs
