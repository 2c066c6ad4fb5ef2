import AeroVault.Antivirus.Worker

/-! Whether a clean verdict is about the bytes that are stored.

The verdict is written to the row that has the object's ID, whatever has been
written there since the bytes were read, and the enqueueing for the new bytes may
have been deduplicated against the job whose scan read the old ones. A clean tag
promises that the bytes are clean (`promise`), and this is current as `Jobs/Workers.lean`
has it, under the steps of the worker too. `clean_verdict_current` is for runs in which
no step takes away what a clean tag rests on. -/
namespace AeroVault.Antivirus
open Lib Repository Service Jobs List Promise

variable {w : Worker} {k : Path} {s : System} {o : Object} {i : Nat} {ctx : Ctx} {v : Vault}

/-- `Put`s of the key `k` in an unversioned bucket, with tags that say nothing of a scan. -/
def Step.Overwrites (k : Path) (s : System) : Step → Prop
  | .store _ req =>
    defaults req.tenant req.bucket req.key = k ∧ (s.vault.config k).versioning = false ∧
      req.opts.tags.get tagStatus = ""
  | _ => True

instance (k : Path) (s : System) (e : Step) : Decidable (e.Overwrites k s) := by
  cases e <;> unfold Step.Overwrites <;> infer_instance

/-! ### What is claimed -/

/-- The bytes at the storage key are there, and clean. -/
def System.cleanAt (w : Worker) (s : System) (key : String) : Bool :=
  (s.vault.bytes key).any fun data => (w.scan data).clean

/-- A live object that is tagged clean has clean bytes, once all is quiet. -/
abbrev VerdictsHold (w : Worker) (s : System) : Prop :=
  ∀ o ∈ s.vault.objects.rows, o.live = true → o.tags.get tagStatus = "clean" → s.Quiet o.id →
    s.cleanAt w o.storageKey = true

/-- The handler has found clean bytes and is about to say so. -/
def Stage.holdsClean : Stage → Bool
  | .scanned _ res => res.clean
  | _ => false

/-- The bytes have not been read, or not been found clean. -/
def Stage.undecided : Stage → Bool
  | .claimed => true
  | .loaded _ => true
  | .scanned _ res => !res.clean
  | .infected => false
  | .handled => false

/-- The row that is to be scanned is of the key. -/
def Stage.OfKey (k : Path) : Stage → Prop
  | .loaded obj => obj.storageKey = storageKey k
  | _ => True

/-- A clean tag says that the bytes are clean. A scan changes no bytes, so that none of
them is stale. -/
def promise (w : Worker) (k : Path) : Promise Stage where
  toRoutine := routine
  key := k
  tagged o := o.tags.get tagStatus == "clean"
  kept stored := stored.any fun data => (w.scan data).clean
  vouches := Stage.holdsClean
  fresh _ := Stage.undecided
  stale _ _ := false
  ofKey _ _ := Stage.OfKey k
  undeleted := False
  ofKey_kept _ h := h
  ofKey_claimed _ _ := trivial
  vouches_claimed := rfl
  fresh_claimed _ := rfl
  stale_claimed _ := rfl
  fresh_handled _ stage h := by
    rw [beq_iff_eq.mp h]
    rfl

/-- A step takes away nothing that a clean tag rests on. -/
def Step.KeepsScans (w : Worker) (k : Path) (s : System) : Step → Prop
  | .commit i _ => (promise w k).KeepsCommit s i
  | .enqueue i _ => (promise w k).KeepsEnqueue s i
  | .fail i _ _ _ => (promise w k).KeepsFail s i
  | _ => True

instance (w : Worker) (k : Path) (s : System) (e : Step) : Decidable (e.KeepsScans w k s) := by
  cases e <;> unfold Step.KeepsScans <;> infer_instance

/-- Without historical versions, a quarantine makes a row not live or does nothing. -/
theorem quarantineObjectByID_spec (h : OneKey k v.objects) (ctx : Ctx) (id : Nat) :
    (quarantineObjectByID ctx id v).2.blobs = v.blobs ∧
      ∀ o' ∈ (quarantineObjectByID ctx id v).2.objects.rows,
        o' ∈ v.objects.rows ∨ ∃ o ∈ v.objects.rows, o' = {o with deletedAt := some ctx.now} := by
  unfold quarantineObjectByID
  split
  · exact ⟨rfl, fun o' ho' => .inl ho'⟩
  next o hfound =>
    split
    · exact ⟨rfl, fun o' ho' => .inl ho'⟩
    · rw [(h.rows o (getObjectByID_some hfound).1).2.2]
      split
      next hf => cases hf
      · split
        · exact ⟨rfl, fun o' ho' => .inl ho'⟩
        · split
          · exact ⟨rfl, fun o' ho' => .inl ho'⟩
          · split
            · exact ⟨rfl, fun o' ho' => .inl ho'⟩
            next objects hd =>
              refine ⟨rfl, fun o' ho' => ?_⟩
              unfold softDeleteObjectByID at hd
              split at hd
              · cases hd
                obtain ⟨a, ha, -, rfl⟩ | ⟨ho, -⟩ := (Table.mem_update (fun _ => by rfl)).mp ho'
                · exact .inr ⟨a, ha, rfl⟩
                · exact .inl ho
              · cases hd

/-! ### One step -/

abbrev Sound (w : Worker) (k : Path) (s : System) : Prop := (promise w k).Sound s

namespace Sound

variable (h : Sound w k s)
include h

/-- When all is quiet, no scan is owed. -/
theorem verdictsHold : VerdictsHold w s := by
  intro o ho hl hcl hqt
  rw [(h.objects.rows o ho).2.1]
  exact h.kept_of_quiet ho hl (beq_iff_eq.mpr hcl) hqt

theorem load (i : Nat) (admits : Object → Bool) : Sound w k (s.load i admits) := by
  unfold System.load
  split
  next job hi =>
    split
    · exact h
    next obj hfound =>
      split
      · exact h.advance hi (h.objects.rows obj (getObjectByID_some hfound).1).2.1 rfl rfl id
      · exact h
  · exact h

theorem scan (i : Nat) : Sound w k (s.scan w i) := by
  unfold System.scan
  split
  next job obj hi =>
    split
    · exact h
    next data hd =>
      cases hcl : (w.scan data).clean with
      | true =>
        -- The bytes just read are the bytes stored.
        refine ⟨h.objects, h.live, h.staged, h.tracked.advance hi rfl, h.ofKey_advance hi (.refl _) trivial,
          fun o _ _ _ => .inl ⟨?_, fun _ _ _ => rfl⟩⟩
        have hkey : obj.storageKey = storageKey k := h.ofKey _ (mem_of_getElem? hi)
        show ((s.vault.bytes (storageKey k)).any fun data => (w.scan data).clean) = true
        rw [← hkey, hd]
        exact hcl
      | false =>
        have hun : (Stage.scanned obj (w.scan data)).undecided = true := by simp [Stage.undecided, hcl]
        exact h.advance hi trivial hcl rfl fun _ => hun
  · exact h

/-- An infected verdict clears the row, a clean one says what was known before. -/
theorem tag (i : Nat) (ctx : Ctx) : Sound w k (s.tag w i ctx) := by
  unfold System.tag
  split
  next job obj res hi =>
    split
    · exact h
    next vault ht =>
      obtain ⟨hbl, hrw⟩ := setObjectTagsByID_ok ht
      have hv : OneKey k vault.objects := by
        refine h.objects.retagged fun o' ho' => ?_
        obtain ⟨o, ho, -, rfl⟩ | ⟨ho, -⟩ := hrw o' ho'
        · exact .inr ⟨o, ho, _, _, rfl⟩
        · exact .inl ho
      generalize hst : (if !res.clean && w.quarantine then Stage.infected else Stage.handled) = stage
      have hstage : stage.holdsClean = false ∧ stage.OfKey k := by
        rw [← hst]
        split <;> exact ⟨rfl, trivial⟩
      have hc := mem_of_getElem? hi
      refine ⟨hv, nofun, h.staged, h.tracked.advance hi rfl,
        h.ofKey_advance hi (keepsIDs_setObjectTagsByID ht) hstage.2, ?_⟩
      refine h.current.step fun o' ho' hlive hs => ?_
      have hset (hset : (promise w k).Settled s o'.id) :
          (promise w k).Settled ({s with vault := vault}.advance i ⟨job, .scanned obj res⟩ stage) o'.id :=
        ⟨(congrArg (promise w k).kept (Bench.stored_withVault hbl k)).trans hset.1, fun _ _ _ => rfl⟩
      obtain ⟨o, ho, hid, rfl⟩ | ⟨ho, hne⟩ := hrw o' ho'
      · cases hres : res.clean with
        | true =>
          refine .inr ⟨⟨o, ho, hlive, rfl, .inr ⟨_, hc, hid.symm, hres⟩⟩, fun h => .inl (hset h), fun how => .inr ?_⟩
          refine how.imp_right fun hawaits => hawaits.advance h.tracked hi rfl fun hun _ => ?_
          simp [promise, Stage.undecided, hres] at hun
        | false =>
          obtain hcl | ⟨d, hd, hdid, hdh⟩ := hs
          · simp [promise, verdictTags, hres, GoMap.get_set_ne, tagStatus, tagSignature] at hcl
          · obtain rfl | ⟨hd, hdne⟩ := (h.tracked.mem_advance hi).mp hd
            · exact absurd hdh (by simp [promise, hstage.1])
            · exact absurd (by rw [h.alone hd hc (hdid.trans hid)]) hdne
      · refine .inr ⟨⟨o', ho, hlive, rfl, h.suspect_advance hi hstage.1 hs⟩, fun h => .inl (hset h),
          fun how => .inr ?_⟩
        exact how.imp_right fun hawaits => hawaits.advance h.tracked hi rfl fun _ hpay =>
          absurd (congrArg ObjectPayload.objectID hpay).symm hne
  · exact h

theorem quarantine (i : Nat) (ctx : Ctx) : Sound w k (s.quarantine i ctx) := by
  unfold System.quarantine
  split
  next job hi =>
    obtain ⟨hbl, hrw⟩ := quarantineObjectByID_spec h.objects ctx job.payload.objectID
    have hv : Sound w k {s with vault := (quarantineObjectByID ctx job.payload.objectID s.vault).2} := by
      refine ⟨h.objects.carried fun o' ho' => ?_, nofun, h.staged, h.tracked, h.ofKey,
        h.current.step fun o ho hl hs => .inr ⟨⟨o, ?_, hl, rfl, hs⟩, fun hset => .inl ⟨?_, hset.2⟩, .inr⟩⟩
      · obtain ho | ⟨o, ho, rfl⟩ := hrw o' ho'
        · exact ⟨o', ho, rfl, rfl, rfl, rfl, id⟩
        · exact ⟨o, ho, rfl, rfl, rfl, rfl, nofun⟩
      · obtain ho | ⟨a, -, rfl⟩ := hrw o ho
        · exact ho
        · cases hl
      · exact (congrArg (promise w k).kept (Bench.stored_withVault hbl k)).trans hset.1
    split
    next err vault hq =>
      rw [hq] at hv
      exact hv
    next done vault hq =>
      rw [hq] at hv
      exact hv.advance hi trivial rfl rfl nofun
  · exact h

end Sound

theorem sound_next (h : Sound w k s) (e : Step) (hw : e.Overwrites k s) (hkp : e.KeepsScans w k s) :
    Sound w k (s.next w e) := by
  cases e with
  | store ctx req => exact h.store hw.1 hw.2.1
  | commit i now => exact h.commit hkp
  | enqueue i now => exact h.enqueue hkp
  | claim now worker => exact h.claim worker
  | load i admits => exact h.load i admits
  | scan i => exact h.scan i
  | tag i ctx => exact h.tag i ctx
  | quarantine i ctx => exact h.quarantine i ctx
  | complete i now => exact h.complete
  | fail i now err delay => exact h.fail hkp

/-! ### Runs -/

/-- **A clean verdict is about the current bytes**, in every state of every run of
overwrites of one key and of the worker's steps, as long as no step takes away what a
clean tag rests on. -/
theorem clean_verdict_current (w : Worker) (k : Path) (buckets : String → String → BucketConfig)
    (maxBytes maxObjects : String → Int) (steps : List Step)
    (hw : Each (System.next w) (fun s e => e.Overwrites k s) (.empty buckets maxBytes maxObjects) steps)
    (hkeeps : Each (System.next w) (fun s e => e.KeepsScans w k s)
      (.empty buckets maxBytes maxObjects) steps) :
    Always (System.next w) (VerdictsHold w) (.empty buckets maxBytes maxObjects) steps := by
  have hstep (s : System) (e : Step) (h : Sound w k s) (he : e.Overwrites k s ∧ e.KeepsScans w k s) :
      Sound w k (s.next w e) := sound_next h e he.1 he.2
  exact (always_of_each hstep sound_empty (hw.and hkeeps)).mono fun s h => h.verdictsHold

/-- Takes bytes that begin with a zero for infected. -/
def zeroScanner (quarantine : Bool) : Worker :=
  ⟨fun data => ⟨data.head? != some 0, "zero"⟩, quarantine⟩

/-- An overwrite while the scan of the old bytes is running, whose event arrives when
the job is done: the new bytes get a scan of their own. They are infected, and the
next overwrite is clean. -/
theorem clean_verdict_rescanned :
    Always (System.next (zeroScanner true)) (VerdictsHold (zeroScanner true))
      .empty
      [.store (allowedUser 1 "v1" "u1") (plainPut "acme" "docs" "a" [1]), .commit 0 1, .enqueue 0 2,
        .claim 3 "w0", .load 0 (fun _ => true), .scan 0,
        .store (allowedUser 4 "v2" "u2") (plainPut "acme" "docs" "a" [0]), .commit 0 5,
        .tag 0 (allowedUser 6 "v3" "u3"), .complete 0 7, .enqueue 0 8, .claim 9 "w0",
        .load 0 (fun _ => true), .scan 0, .tag 0 (allowedUser 10 "v4" "u4"),
        .quarantine 0 (allowedUser 11 "v5" "u5"), .complete 0 12,
        .store (allowedUser 13 "v6" "u6") (plainPut "acme" "docs" "a" [2]), .commit 0 13,
        .enqueue 0 14, .claim 15 "w0", .load 0 (fun _ => true), .scan 0,
        .tag 0 (allowedUser 16 "v7" "u7"), .complete 0 17] :=
  clean_verdict_current (zeroScanner true) ⟨"acme", "docs", "a"⟩ _ _ _ _ (by decide +kernel)
    (by decide +kernel)

/-- The same overwrite, whose event arrives while the job is running: it is merged
into the job, and the old bytes' verdict stays on the new ones. -/
theorem deduplicated_overwrite_tagged_clean :
    ¬ Always (System.next (zeroScanner false)) (VerdictsHold (zeroScanner false))
      .empty
      [.store (allowedUser 1 "v1" "u1") (plainPut "acme" "docs" "a" [1]), .commit 0 1, .enqueue 0 2,
        .claim 3 "w0", .load 0 (fun _ => true), .scan 0,
        .store (allowedUser 4 "v2" "u2") (plainPut "acme" "docs" "a" [0]), .commit 0 5, .enqueue 0 6,
        .tag 0 (allowedUser 7 "v3" "u3"), .complete 0 8] := by
  intro h
  exact absurd h.last (by decide +kernel)

end AeroVault.Antivirus
