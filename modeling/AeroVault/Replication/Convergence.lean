import AeroVault.Replication.Worker

/-! Whether an object that is tagged as replicated is.

The copy is made of the bytes that were read, and the tag is written to the row that
has the object's ID, whatever was written since. The tag promises that the replica has
the bytes (`promise`), and this is current as `Jobs/Workers.lean` has it: it is broken by
a handler that is about to write older bytes, and another copy is owed then. The steps
that are not the bench's keep it but for one, an object that is passed over without its
tag being written. `replicated_current` is for runs in which no step takes away what the
tag rests on. -/
namespace AeroVault.Replication
open Lib Repository Service Jobs List Promise

variable {k : Path} {s : System} {o : Object} {c : Handling Stage} {i id : Nat} {v : Vault} {ctx : Ctx}

/-- `Put`s of the key `k` in an unversioned bucket. -/
def Step.Overwrites (k : Path) (s : System) : Step → Prop
  | .store _ req =>
    defaults req.tenant req.bucket req.key = k ∧ (s.vault.config k).versioning = false
  | _ => True

instance (k : Path) (s : System) (e : Step) : Decidable (e.Overwrites k s) := by
  cases e <;> unfold Step.Overwrites <;> infer_instance

/-! ### Recording the status -/

/-- The tagger is there, and takes the tags. -/
def System.takesTags (s : System) (tagger : Bool) (ctx : Ctx) (id : Nat) (tags : GoMap) : Bool :=
  tagger && (setObjectTagsByID ctx id tags s.vault).toBool

theorem tagged_blobs (tagger : Bool) (ctx : Ctx) (id : Nat) (tags : GoMap) :
    (s.tagged tagger ctx id tags).blobs = s.vault.blobs := by
  unfold System.tagged
  split
  · split
    · rfl
    next vault ht => exact (setObjectTagsByID_ok ht).1
  · rfl

theorem mem_tagged {tagger : Bool} {tags : GoMap} {o' : Object}
    (h : o' ∈ (s.tagged tagger ctx id tags).objects.rows) :
    (o' ∈ s.vault.objects.rows ∧ (s.takesTags tagger ctx id tags = true → o'.id ≠ id)) ∨
      ∃ o ∈ s.vault.objects.rows, o.id = id ∧ o' = {o with tags := tags, updatedAt := ctx.now} := by
  unfold System.tagged at h
  unfold System.takesTags
  split at h
  · split at h
    next err ht => exact .inl ⟨h, by simp [ht, Except.toBool]⟩
    next vault ht =>
      obtain ⟨o, ho, hid, rfl⟩ | ⟨ho, hne⟩ := (setObjectTagsByID_ok ht).2 o' h
      · exact .inr ⟨o, ho, hid, rfl⟩
      · exact .inl ⟨ho, fun _ => hne⟩
  next hoff => exact .inl ⟨h, by simp [hoff]⟩

theorem keepsIDs_tagged {tagger : Bool} {tags : GoMap} :
    KeepsIDs s.vault.objects (s.tagged tagger ctx id tags).objects := by
  unfold System.tagged
  split
  · split
    · exact .refl _
    next vault ht => exact keepsIDs_setObjectTagsByID ht
  · exact .refl _

/-- All rows stay live, and of the one key. -/
theorem oneRow_tagged (tagger : Bool) (ctx : Ctx) (id : Nat) (tags : GoMap) (h : OneKey k s.vault.objects)
    (hl : ∀ o ∈ s.vault.objects.rows, o.live = true) :
    OneKey k (s.tagged tagger ctx id tags).objects ∧
      ∀ o ∈ (s.tagged tagger ctx id tags).objects.rows, o.live = true := by
  refine ⟨h.retagged fun o' ho' => ?_, fun o' ho' => ?_⟩
  all_goals obtain ⟨ho, -⟩ | ⟨o, ho, -, rfl⟩ := mem_tagged ho'
  · exact .inl ho
  · exact .inr ⟨o, ho, _, _, rfl⟩
  · exact hl o' ho
  · exact hl o ho

/-! ### What the tag promises -/

/-- The row a handler has loaded is of the key, and its own. -/
def Stage.OfKey (k : Path) (id : Nat) : Stage → Prop
  | .claimed => True
  | .loaded obj => obj.storageKey = storageKey k ∧ obj.id = id
  | .skipping obj => obj.storageKey = storageKey k ∧ obj.id = id
  | .fetched obj _ => obj.storageKey = storageKey k ∧ obj.id = id
  | .copied obj => obj.storageKey = storageKey k ∧ obj.id = id
  | .handled => True

/-- The handler has not read the bytes, or has read those that are stored. -/
def Stage.fresh (stored : Option Bytes) : Stage → Bool
  | .claimed => true
  | .loaded _ => true
  | .skipping _ => true
  | .fetched _ data => stored == some data
  | .copied _ => false
  | .handled => false

/-- The handler is about to write bytes that are not those stored. -/
def Stage.stale (stored : Option Bytes) : Stage → Bool
  | .fetched _ data => stored != some data
  | _ => false

/-- The handler has read bytes, and is going to say that they are replicated. -/
def Stage.vouches : Stage → Bool
  | .fetched _ _ => true
  | .copied _ => true
  | _ => false

/-- The row that is passed over. -/
def Stage.skipped : Stage → Option Object
  | .skipping obj => some obj
  | _ => none

/-- The replica has the bytes, and a handler has loaded a row that is there. -/
def promise (k : Path) (replica : String → Option Bytes) : Promise Stage where
  toRoutine := routine
  key := k
  tagged o := o.tags.get tagStatus == "replicated"
  kept stored := stored.isSome && replica (storageKey k) == stored
  vouches := Stage.vouches
  fresh := Stage.fresh
  stale := Stage.stale
  ofKey t id stage := stage.OfKey k id ∧ (stage ≠ .claimed → ∃ o ∈ t.rows, o.id = id)
  undeleted := True
  ofKey_kept hkp h := by
    refine ⟨h.1, fun hst => ?_⟩
    obtain ⟨o, ho, hid⟩ := h.2 hst
    obtain ⟨o', ho', hid'⟩ := hkp o ho
    exact ⟨o', ho', hid'.trans hid⟩
  ofKey_claimed _ _ := ⟨trivial, fun hst => absurd rfl hst⟩
  vouches_claimed := rfl
  fresh_claimed _ := rfl
  stale_claimed _ := rfl
  fresh_handled _ stage h := by
    rw [beq_iff_eq.mp h]
    rfl

/-- A step takes away nothing that a tag rests on; an object that is passed over loses
its tag, unless the replica has the bytes, or another write is in progress. -/
def Step.KeepsCopies (k : Path) (s : System) : Step → Prop
  | .commit i _ => (promise k s.replica).KeepsCommit s.toBench i
  | .enqueue i _ => (promise k s.replica).KeepsEnqueue s.toBench i
  | .record i tagger ctx =>
    ∀ c ∈ s.handlers[i]?, ∀ obj ∈ c.stage.skipped,
      s.takesTags tagger ctx obj.id (statusTags obj "skipped") = true ∨
        ∀ o ∈ s.vault.objects.rows, o.tags.get tagStatus = "replicated" →
          s.synced (storageKey k) = true ∨ s.writing o.id = true
  | .fail i _ _ _ => (promise k s.replica).KeepsFail s.toBench i
  | _ => True

instance (k : Path) (s : System) (e : Step) : Decidable (e.KeepsCopies k s) := by
  cases e <;> unfold Step.KeepsCopies <;> infer_instance

/-! ### One step -/

abbrev Sound (k : Path) (s : System) : Prop := (promise k s.replica).Sound s.toBench

namespace Sound

section
variable (h : Sound k s)
include h

/-- When all is quiet, no copy is owed. -/
theorem converged : Converged s := by
  intro o ho hl ht hqt
  rw [(h.objects.rows o ho).2.1]
  exact h.kept_of_quiet ho hl (beq_iff_eq.mpr ht) hqt

/-- A handler that has loaded its row is at work on the one row there is. -/
theorem objectID_eq (hc : c ∈ s.handlers) (hst : c.stage ≠ .claimed) (ho : o ∈ s.vault.objects.rows) :
    c.objectID = o.id := by
  obtain ⟨a, ha, hid⟩ := (h.ofKey c hc).2 hst
  rw [← hid]
  exact congrArg Object.id (h.objects.once a ha o ho (h.live trivial a ha) (h.live trivial o ho))

/-- The handler of the one row is fresh, if a copy of it is awaited. -/
theorem fresh_of_owed (hc : c ∈ s.handlers) (hid : c.objectID = id)
    (how : (promise k s.replica).Owed s.toBench id) :
    s.writing id = true ∨ c.stage.fresh (s.stored k) = true :=
  how.imp_right fun hawaits =>
    hawaits.fresh_of_payload h.tracked objectKey_payload_ne hc (congrArg ObjectPayload.mk hid)

theorem resync (id now : Nat) : Sound k (s.resync id now) := by
  unfold System.resync
  split
  · exact h
  · split
    · exact h
    · exact h.enqueueJob _

theorem load (i : Nat) (admits : Object → Bool) : Sound k (s.load i admits) := by
  unfold System.load
  split
  next job hi =>
    split
    · exact h
    next obj hfound =>
      obtain ⟨hm, hid⟩ := getObjectByID_some hfound
      have hof := And.intro (h.objects.rows obj hm).2.1 hid
      have hpr : ∃ o ∈ s.vault.objects.rows, o.id = job.payload.objectID := ⟨obj, hm, hid⟩
      split
      · split
        · exact h.advance hi ⟨hof, fun _ => hpr⟩ rfl rfl fun _ => rfl
        · exact h.advance hi ⟨hof, fun _ => hpr⟩ rfl rfl fun _ => rfl
      · exact h
  · exact h

/-- The bytes just read are the bytes stored, so that the handler is what is owed. -/
theorem fetch (i : Nat) : Sound k (s.fetch i) := by
  unfold System.fetch
  split
  next job obj hi =>
    split
    · exact h
    next data hd =>
      have hc := mem_of_getElem? hi
      obtain ⟨hof, hpr⟩ := h.ofKey _ hc
      have hst : s.stored k = some data := by rw [Bench.stored, ← hof.1, hd]
      have hf : (Stage.fetched obj data).fresh (s.stored k) = true := by simp [Stage.fresh, hst]
      have ht := h.tracked.advance hi (rfl : Handling.job ⟨job, .fetched obj data⟩ = job)
      have hawaits : AwaitsBy Handling.job (fun c => c.stage.fresh (s.stored k) = true) s.queue
          (s.handlers.set i ⟨job, .fetched obj data⟩) job.payload :=
        awaitsBy_handler ht ((h.tracked.mem_advance hi).mpr (.inl rfl)) hf
      refine ⟨h.objects, h.live, h.staged, ht,
        h.ofKey_advance hi (.refl _) ⟨hof, fun _ => hpr (by simp)⟩, fun o ho _ _ => ?_⟩
      rw [← h.objectID_eq hc (by simp) ho]
      exact .inr (.inr hawaits)
  · exact h

theorem copy (i : Nat) : Sound k (s.copy i) := by
  unfold System.copy
  split
  next job obj data hi =>
    have hc := mem_of_getElem? hi
    obtain ⟨hof, hpr⟩ := h.ofKey _ hc
    refine ⟨h.objects, h.live, h.staged, h.tracked.advance hi rfl,
      h.ofKey_advance hi (.refl _) ⟨hof, fun _ => hpr (by simp)⟩, fun o ho hl _ => ?_⟩
    have hid := h.objectID_eq hc (by simp) ho
    by_cases hstor : s.stored k = some data
    · refine .inl ⟨?_, fun d hd hdid => ?_⟩
      · have hby : s.vault.bytes (storageKey k) = some data := hstor
        simp [promise, Bench.stored, Bench.advance, hof.1, hby]
      · obtain rfl | ⟨hd, hne⟩ := (h.tracked.mem_advance hi).mp hd
        · rfl
        · exact absurd (by rw [h.alone hd hc (hdid.trans hid.symm)]) hne
    · -- Older bytes replace those of the replica: what is left is a write in progress.
      obtain hst | how := h.current o ho hl (.inr ⟨_, hc, hid, rfl⟩)
      · exact absurd (hst.2 _ hc hid) (by simp [promise, Stage.stale, hstor])
      · obtain hwr | hf := h.fresh_of_owed hc hid how
        · exact .inr (.inl hwr)
        · exact absurd (by simpa [Stage.fresh] using hf) hstor
  · exact h

end

section Recorded
variable {tagger : Bool} {obj : Object} {status : String} (h : Sound k s) (hi : s.handlers[i]? = some c)
include h hi

/-- With its one handler through, an object whose replica has the bytes is settled. -/
theorem settled_recorded (hid : c.objectID = o.id) (hsy : s.synced (storageKey k) = true) :
    (promise k s.replica).Settled (s.recorded i c tagger ctx obj status).toBench o.id := by
  refine ⟨?_, fun d hd hdid => ?_⟩
  · exact (congrArg (promise k s.replica).kept (Bench.stored_withVault (tagged_blobs ..) k)).trans hsy
  · obtain rfl | ⟨hd, hne⟩ := (h.tracked.mem_advance hi).mp hd
    · rfl
    · exact absurd (by rw [h.alone hd (mem_of_getElem? hi) (hdid.trans hid.symm)]) hne

/-- The one handler is through, so that only a tag makes an object suspect. -/
theorem tag_of_suspect (hid : c.objectID = o.id)
    (hs : (promise k s.replica).Suspect (s.recorded i c tagger ctx obj status).toBench o) :
    o.tags.get tagStatus = "replicated" := by
  obtain ht | ⟨d, hd, hdid, hv⟩ := hs
  · exact beq_iff_eq.mp ht
  · obtain rfl | ⟨hd, hne⟩ := (h.tracked.mem_advance hi).mp hd
    · cases hv
    · exact absurd (by rw [h.alone hd (mem_of_getElem? hi) (hdid.trans hid.symm)]) hne

/-- What is left to show once the row has its status. -/
theorem recorded (hst : c.stage ≠ .claimed)
    (hcur : ∀ o ∈ (s.tagged tagger ctx obj.id (statusTags obj status)).objects.rows, c.objectID = o.id →
      (promise k s.replica).Suspect (s.recorded i c tagger ctx obj status).toBench o →
      s.synced (storageKey k) = true ∨ s.writing o.id = true) :
    Sound k (s.recorded i c tagger ctx obj status) := by
  have hc := mem_of_getElem? hi
  have hkp : KeepsIDs s.vault.objects (s.tagged tagger ctx obj.id (statusTags obj status)).objects :=
    keepsIDs_tagged
  have hrow := oneRow_tagged tagger ctx obj.id (statusTags obj status) h.objects (h.live trivial)
  have hof := ((promise k s.replica).ofKey_kept hkp (h.ofKey c hc)).2 hst
  refine ⟨hrow.1, fun _ => hrow.2, h.staged, h.tracked.advance hi rfl,
    h.ofKey_advance hi hkp ⟨trivial, fun _ => hof⟩, fun o ho hl hs => ?_⟩
  obtain ⟨a, ha, hid⟩ := hof
  have hid : c.objectID = o.id :=
    hid.symm.trans (congrArg Object.id (hrow.1.once a ha o ho (hrow.2 a ha) hl))
  obtain hsy | hwr := hcur o ho hid hs
  · exact .inl (h.settled_recorded hi hid hsy)
  · exact .inr (.inl hwr)

end Recorded

theorem record (h : Sound k s) {tagger : Bool} (hkp : (Step.record i tagger ctx).KeepsCopies k s) :
    Sound k (s.record i tagger ctx) := by
  unfold System.record
  split
  next job obj hi =>
    have hobj : obj.id = job.payload.objectID := (h.ofKey _ (mem_of_getElem? hi)).1.2
    refine h.recorded hi (by simp) fun o ho hid hs => ?_
    have ht := h.tag_of_suspect hi hid hs
    obtain ⟨hold, htk⟩ | ⟨a, -, -, rfl⟩ := mem_tagged ho
    · obtain hy | hcv := hkp _ hi obj rfl
      · exact absurd (hid.symm.trans hobj.symm) (htk hy)
      · exact hcv o hold ht
    · simp [statusTags] at ht
  next job obj hi =>
    refine h.recorded hi (by simp) fun o ho hid _ => ?_
    have hc := mem_of_getElem? hi
    obtain ⟨a, ha, haid⟩ := (h.ofKey _ hc).2 (by simp)
    -- The handler was about to write the tag, so that the row was suspect before.
    obtain hst | how := h.current a ha (h.live trivial a ha) (.inr ⟨_, hc, haid.symm, rfl⟩)
    · exact .inl hst.1
    · obtain hwr | hf := h.fresh_of_owed hc haid.symm how
      · rw [← hid]
        rw [haid] at hwr
        exact .inr hwr
      · cases hf
  · exact h

end Sound

theorem sound_next (h : Sound k s) (e : Step) (hw : e.Overwrites k s) (hkp : e.KeepsCopies k s) :
    Sound k (s.next e) := by
  cases e with
  | store ctx req => exact h.store hw.1 hw.2
  | commit i now => exact h.commit hkp
  | enqueue i now => exact h.enqueue hkp
  | resync id now => exact h.resync id now
  | claim now worker => exact h.claim worker
  | load i admits => exact h.load i admits
  | fetch i => exact h.fetch i
  | copy i => exact h.copy i
  | record i tagger ctx => exact h.record hkp
  | complete i now => exact h.complete
  | fail i now err delay => exact h.fail hkp

/-! ### Runs -/

/-- **An object that is tagged as replicated is**, in every quiet state of every run of
overwrites of one key and of the worker's steps, as long as no step takes away what the
tag rests on. -/
theorem replicated_current (k : Path) (buckets : String → String → BucketConfig)
    (maxBytes maxObjects : String → Int) (steps : List Step)
    (hw : Each System.next (fun s e => e.Overwrites k s) (.empty buckets maxBytes maxObjects) steps)
    (hkeeps : Each System.next (fun s e => e.KeepsCopies k s) (.empty buckets maxBytes maxObjects) steps) :
    Always System.next Converged (.empty buckets maxBytes maxObjects) steps := by
  have hstep (s : System) (e : Step) (h : Sound k s) (he : e.Overwrites k s ∧ e.KeepsCopies k s) :
      Sound k (s.next e) := sound_next h e he.1 he.2
  have hst : Sound k (.empty buckets maxBytes maxObjects) := sound_empty
  exact (always_of_each hstep hst (hw.and hkeeps)).mono fun s h => h.converged

/-- The overwrite's event arrives when the job of the old bytes is done, and the new ones
are copied too. -/
theorem overwrite_copied_again :
    Always System.next Converged .empty
      [.store (allowedUser 1 "v1" "u1") (plainPut "acme" "docs" "a" [1]), .commit 0 1, .enqueue 0 2,
        .claim 3 "w0", .load 0 (fun _ => true), .fetch 0,
        .store (allowedUser 4 "v2" "u2") (plainPut "acme" "docs" "a" [2]), .commit 0 5, .copy 0,
        .record 0 true (allowedUser 6 "v3" "u3"), .complete 0 7, .enqueue 0 8, .claim 9 "w0",
        .load 0 (fun _ => true), .fetch 0, .copy 0, .record 0 true (allowedUser 10 "v4" "u4"),
        .complete 0 11] :=
  replicated_current ⟨"acme", "docs", "a"⟩ _ _ _ _ (by decide +kernel) (by decide +kernel)

end AeroVault.Replication
