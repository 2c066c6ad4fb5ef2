import AeroVault.Reconcile.OrphanSweep

/-! Whether the sweep for orphaned blobs deletes one that is in use.

The age of a blob is measured when it is about to be deleted, against the time that
was listed, while whether it is referenced was decided earlier. A row that came since
is accounted for by the time of its blob: it was written at most `d` before the row,
`d` being the longest time that a `Put` takes between the two, and so no earlier than
`d` before the references were read (`Fresh`). `orphan_sweep_spares` is for runs in
which a blob that is deleted was older than that, and is still the one listed. -/
namespace AeroVault.Reconcile
open Lib Repository Service Function List

variable {d t now i : Nat} {job : OrphanJob} {s : OrphanSystem} {v v' : Vault} {phase : Phase}
  {key : String}

/-! ### What is claimed -/

/-- When the sweep in progress read the references. -/
def Phase.readAt : Phase → Nat
  | .idle => 0
  | .listing l => l.readAt
  | .deleting readAt _ => readAt

/-- The clock does not go back, and a `Put` takes at most `d` from its blob to its row. -/
def OrphanStep.Timely (d : Nat) (s : OrphanSystem) (e : OrphanStep) : Prop :=
  s.clock ≤ e.time ∧
    match e with
    | .commit i now => ∀ p ∈ s.staged[i]?, now ≤ p.ctx.now + d
    | .deleteNext now => ∀ p ∈ s.staged, now ≤ p.ctx.now + d
    | _ => True

instance (d : Nat) (s : OrphanSystem) (e : OrphanStep) : Decidable (e.Timely d s) := by
  cases e <;> unfold OrphanStep.Timely <;> infer_instance

/-- No row references a blob that is deleted, and no `Put` in progress has written it. -/
def OrphanStep.Spares (job : OrphanJob) (s : OrphanSystem) : OrphanStep → Prop
  | .deleteNext now =>
    ∀ e ∈ s.condemned job now, (s.vault.blobs e.1).isSome = true →
      (∀ o ∈ s.vault.objects.rows, o.storageKey ≠ e.1) ∧ ∀ p ∈ s.staged, p.plan.storageKey ≠ e.1
  | _ => True

instance (job : OrphanJob) (s : OrphanSystem) (e : OrphanStep) : Decidable (e.Spares job s) := by
  cases e <;> unfold OrphanStep.Spares <;> infer_instance

/-- A blob that is deleted has not been written since it was listed, and was older
than any `Put` in progress when the references were read. -/
def OrphanStep.Settled (d : Nat) (job : OrphanJob) (s : OrphanSystem) : OrphanStep → Prop
  | .deleteNext now =>
    ∀ e ∈ s.condemned job now,
      (∀ blob ∈ s.vault.blobs e.1, blob.lastModified ≤ e.2) ∧ e.2 + d < s.phase.readAt
  | _ => True

instance (d : Nat) (job : OrphanJob) (s : OrphanSystem) (e : OrphanStep) :
    Decidable (e.Settled d job s) := by
  cases e <;> unfold OrphanStep.Settled <;> infer_instance

/-! ### Blobs and rows over time -/

/-- A blob that was not there before is no older than `t`. -/
def Later (t : Nat) (v v' : Vault) : Prop :=
  ∀ key, ∀ blob ∈ v'.blobs key, blob ∈ v.blobs key ∨ t ≤ blob.lastModified

theorem later_of_blobs (h : v'.blobs = v.blobs) : Later t v v' := by
  intro key blob hbl
  rw [h] at hbl
  exact .inl hbl

theorem later_putBlob (h : t ≤ now) {data : Bytes} :
    Later t v (v.putBlob key data now) := by
  intro j blob hbl
  have hbl : update v.blobs key (some ⟨data, now⟩) j = some blob := hbl
  by_cases hj : j = key
  · rw [hj, update_self] at hbl
    rw [← Option.some.inj hbl]
    exact .inr h
  · rw [update_of_ne hj] at hbl
    exact .inl hbl

theorem later_deleteBlob : Later t v (v.deleteBlob key) := by
  intro j blob hbl
  have hbl : update v.blobs key none j = some blob := hbl
  by_cases hj : j = key
  · rw [hj, update_self] at hbl
    cases hbl
  · rw [update_of_ne hj] at hbl
    exact .inl hbl

/-- The blob at the key, if there is one, was written no earlier than `d` before `t`. -/
def Fresh (d t : Nat) (v : Vault) (key : String) : Prop :=
  ∀ blob ∈ v.blobs key, t ≤ blob.lastModified + d

theorem Fresh.later {r : Nat} (h : Fresh d r v key) (hl : Later t v v') (hr : r ≤ t) : Fresh d r v' key := by
  intro blob hbl
  obtain hold | hnew := hl key blob hbl
  · exact h blob hold
  · omega

/-- A row may have the storage key: it was seen to be referenced, or its blob is fresh. -/
def Phase.Allows (d : Nat) (v : Vault) (phase : Phase) (key : String) : Prop :=
  match phase with
  | .idle => True
  | .listing l => key = "" ∨ key ∈ l.referenced ∨ Fresh d l.readAt v key
  | .deleting readAt stale => (∃ e ∈ stale, e.1 = key) → Fresh d readAt v key

theorem Phase.allows_of_fresh (h : Fresh d phase.readAt v key) : phase.Allows d v key := by
  cases phase with
  | idle => trivial
  | listing l => exact .inr (.inr h)
  | deleting readAt stale => exact fun _ => h

theorem Phase.Allows.later (h : phase.Allows d v key) (hl : Later t v v') (hr : phase.readAt ≤ t) :
    phase.Allows d v' key := by
  cases phase with
  | idle => trivial
  | listing l => exact h.imp id (.imp id fun hf => hf.later hl hr)
  | deleting readAt stale => exact fun hm => (h hm).later hl hr

/-- A row that a `Put` leaves has the storage key of an earlier row, or the `Put`'s. -/
theorem storageKey_saveObject {ctx : Ctx} {obj : Object} {versioning : Bool} {acl : String}
    (hold : Bool) {reason : String} :
    ∀ o' ∈ (saveObject ctx v obj versioning acl hold reason).2.objects.rows,
      o'.storageKey = obj.storageKey ∨ ∃ o ∈ v.objects.rows, o.storageKey = o'.storageKey := by
  refine saveObject_rule (P := fun t => ∀ o' ∈ t.rows, o'.storageKey = obj.storageKey ∨
    ∃ o ∈ v.objects.rows, o.storageKey = o'.storageKey) ?_ fun t t' ht hok o' ho' => ?_
  · cases versioning with
    | true =>
      intro o' ho'
      obtain ho | rfl := mem_insertObjectVersion.mp ho'
      · obtain ⟨o, ho, hsame⟩ := (carried_retireLive ctx.now obj.path v.objects).arises o' ho
        exact .inr ⟨o, ho, hsame.storageKey.symm⟩
      · exact .inl rfl
    | false =>
      intro o' ho'
      cases hrow : getObject v.objects obj.path with
      | some row =>
        obtain rfl | ⟨ho, -⟩ := (mem_upsertObject_some ctx.now hrow).mp ho'
        · exact .inl rfl
        · exact .inr ⟨o', ho, rfl⟩
      | none =>
        obtain ho | rfl := (mem_upsertObject_none ctx.now hrow).mp ho'
        · exact .inr ⟨o', ho, rfl⟩
        · exact .inl rfl
  · obtain ⟨o, ho, hsame⟩ := (carried_setObjectACL hok).arises o' ho'
    rw [hsame.storageKey]
    exact ht o ho

theorem commit_objects {p : StagedPut} :
    ∀ o' ∈ (p.commit now v).2.objects.rows,
      o'.storageKey = p.plan.storageKey ∨ ∃ o ∈ v.objects.rows, o.storageKey = o'.storageKey := by
  unfold StagedPut.commit
  split_ifs
  · exact fun o' ho' => .inr ⟨o', ho', rfl⟩
  · exact fun o' ho' => .inr ⟨o', ho', rfl⟩
  · exact storageKey_saveObject _

theorem later_commit (p : StagedPut) (now : Nat) (v : Vault) : Later t v (p.commit now v).2 := by
  unfold StagedPut.commit
  split_ifs
  · exact later_deleteBlob
  · exact later_deleteBlob
  · exact later_of_blobs (saveObject_blobs ..)

theorem validateStoragePage_scope {scope previous last : String} {page : List (String × Nat)}
    (h : validateStoragePage scope previous page = some last) :
    ∀ e ∈ page, GoText.hasPrefix e.1 scope = true := by
  induction page generalizing previous with
  | nil => exact nofun
  | cons x rest ih =>
    rw [validateStoragePage] at h
    split at h
    · cases h
    next hv =>
      simp only [Bool.or_eq_true, not_or] at hv
      intro e he
      obtain rfl | he := mem_cons.mp he
      · simpa using hv.1.1
      · exact ih h e he

/-- A key in the scope of a tenant is not empty. -/
theorem ne_empty_of_scope {tenant : String} (h : GoText.hasPrefix key (tenant ++ "/") = true) : key ≠ "" := by
  intro hem
  rw [hem] at h
  simp [GoText.hasPrefix] at h

/-! ### The invariant -/

structure Accounted (d : Nat) (s : OrphanSystem) : Prop where
  /-- A blob that a `Put` in progress has written is not older than its write. -/
  written : ∀ p ∈ s.staged, p.ctx.now ≤ s.clock ∧
    ∀ blob ∈ s.vault.blobs p.plan.storageKey, p.ctx.now ≤ blob.lastModified
  started : s.phase.readAt ≤ s.clock
  rows : ∀ o ∈ s.vault.objects.rows, s.phase.Allows d s.vault o.storageKey
  found : ∀ l, s.phase = .listing l → ∀ e ∈ l.found, e.1 ≠ ""

theorem accounted_start {vault : Vault} {clock : Nat} :
    Accounted d (.start vault clock) where
  written _ hp := nomatch hp
  started := Nat.zero_le _
  rows _ _ := trivial
  found _ hl := nomatch hl

namespace Accounted

section
variable (h : Accounted d s)
include h

/-- Time passes, and blobs are written or deleted. -/
theorem later (hl : Later s.clock s.vault v)
    (hrw : ∀ o' ∈ v.objects.rows, Fresh d s.phase.readAt v o'.storageKey ∨
      ∃ o ∈ s.vault.objects.rows, o.storageKey = o'.storageKey)
    (ht : s.clock ≤ t) {staged : List StagedPut}
    (hst : ∀ p ∈ staged, p ∈ s.staged ∨
      (p.ctx.now ≤ t ∧ ∀ blob ∈ v.blobs p.plan.storageKey, p.ctx.now ≤ blob.lastModified)) :
    Accounted d ⟨v, staged, s.phase, t⟩ where
  written p hp := by
    obtain hold | hnew := hst p hp
    · obtain ⟨hcl, hbl⟩ := h.written p hold
      refine ⟨Nat.le_trans hcl ht, fun blob hblob => ?_⟩
      obtain hbf | haf := hl _ blob hblob
      · exact hbl blob hbf
      · exact Nat.le_trans hcl haf
    · exact hnew
  started := Nat.le_trans h.started ht
  rows o' ho' := by
    obtain hf | ⟨o, ho, hkey⟩ := hrw o' ho'
    · exact Phase.allows_of_fresh hf
    · rw [← hkey]
      exact (h.rows o ho).later hl h.started
  found := h.found

theorem wait (ht : s.clock ≤ t) : Accounted d {s with clock := t} :=
  h.later (later_of_blobs rfl) (fun o ho => .inr ⟨o, ho, rfl⟩) ht fun _ hp => .inl hp

theorem store {ctx : Ctx} {req : PutRequest} (ht : s.clock ≤ ctx.now) :
    Accounted d {s.store ctx req with clock := ctx.now} := by
  unfold OrphanSystem.store
  split
  next err vault hst =>
    rw [storePut_error hst]
    exact h.wait ht
  next p vault hst =>
    obtain ⟨plan, -, rfl, rfl⟩ := storePut_ok hst
    refine h.later (later_putBlob ht) (fun o ho => .inr ⟨o, ho, rfl⟩) ht fun p hp => ?_
    obtain hp | hp := mem_append.mp hp
    · exact .inl hp
    · right
      rw [mem_singleton.mp hp]
      refine ⟨Nat.le_refl _, fun blob hbl => ?_⟩
      have hbl : update s.vault.blobs plan.storageKey (some ⟨req.body, ctx.now⟩)
        plan.storageKey = some blob := hbl
      rw [update_self] at hbl
      rw [← Option.some.inj hbl]

/-- The row that a `Put` writes has a blob that is fresh. -/
theorem commit (ht : s.clock ≤ now) (hd : ∀ p ∈ s.staged[i]?, now ≤ p.ctx.now + d) :
    Accounted d {s.commit i now with clock := now} := by
  unfold OrphanSystem.commit
  split
  · exact h.wait ht
  next p hg =>
    have hl := later_commit (t := s.clock) p now s.vault
    refine h.later hl (fun o' ho' => ?_) ht fun p hp => .inl (mem_of_mem_eraseIdx hp)
    obtain hkey | hold := commit_objects o' ho'
    · left
      intro blob hbl
      rw [hkey] at hbl
      have hp := h.written p (mem_of_getElem? hg)
      have hwt := hd p hg
      have hst := h.started
      obtain hbf | haf := hl _ blob hbl
      · have hwr := hp.2 blob hbf
        omega
      · omega
    · exact .inr hold

theorem readReferences (ht : s.clock ≤ now) (covered : Bool) :
    Accounted d {s.readReferences job now covered with clock := now} := by
  have hnow := h.wait ht
  unfold OrphanSystem.readReferences
  split
  · split
    · refine ⟨hnow.written, Nat.le_refl now, fun o ho => ?_, fun l hl e he => ?_⟩
      · by_cases hem : o.storageKey = ""
        · exact .inl hem
        · refine .inr (.inl ?_)
          simp only [listStorageKeys, mem_dedup, mem_filter, mem_map]
          exact ⟨⟨o, ho, rfl⟩, by simpa using hem⟩
      · rw [← Phase.listing.inj hl] at he
        cases he
    · exact hnow
  · exact hnow

theorem idle : Accounted d {s with phase := .idle} where
  written := h.written
  started := Nat.zero_le _
  rows _ _ := trivial
  found := nofun

theorem listPage (ht : s.clock ≤ now) (keys : List String) (nextMarker : Option String) (covered : Bool) :
    Accounted d {s.listPage job keys nextMarker covered with clock := now} := by
  have hnow := h.wait ht
  unfold OrphanSystem.listPage
  split
  next l hph =>
    have hstart := hnow.started
    have hrows := hnow.rows
    rw [hph] at hstart hrows
    dsimp only
    split
    · exact hnow.idle
    next previous hv =>
      have hfound : ∀ e ∈ l.found ++ pageObjects s.vault keys, e.1 ≠ "" := by
        intro e he
        obtain he | he := mem_append.mp he
        · exact h.found l hph e he
        · exact ne_empty_of_scope (validateStoragePage_scope hv e he)
      split
      · split
        · exact hnow.idle
        · refine ⟨hnow.written, hstart, hrows, fun l' hl' => ?_⟩
          rw [← Phase.listing.inj hl']
          exact hfound
      · split
        · refine ⟨hnow.written, hstart, fun o ho hst => ?_, nofun⟩
          obtain ⟨e, he, hkey⟩ := hst
          obtain ⟨hls, hun⟩ := mem_filter.mp he
          obtain hem | hrf | hf := hrows o ho
          · exact absurd (hkey.trans hem) (hfound e hls)
          · simp [hkey, hrf] at hun
          · exact hf
        · exact hnow.idle
  · exact hnow

/-- One blob less to go through. -/
theorem pass {readAt : Nat} {e : String × Nat} {rest : List (String × Nat)}
    (hph : s.phase = .deleting readAt (e :: rest)) :
    Accounted d {s with phase := .deleting readAt rest} := by
  have hst := h.started
  have hrw := h.rows
  rw [hph] at hst hrw
  refine ⟨h.written, hst, fun o ho hstal => ?_, nofun⟩
  obtain ⟨x, hx, hkey⟩ := hstal
  exact hrw o ho ⟨x, mem_cons_of_mem _ hx, hkey⟩

theorem deleteNext (ht : s.clock ≤ now) : Accounted d {s.deleteNext job now with clock := now} := by
  unfold OrphanSystem.deleteNext
  split
  next readAt e rest hph =>
    have hcr (v : Vault) (hob : v.objects = s.vault.objects) (hl : Later s.clock s.vault v) :
        Accounted d ⟨v, s.staged, .deleting readAt rest, now⟩ := by
      have hlt := h.later hl (fun o ho => .inr ⟨o, hob ▸ ho, rfl⟩) ht fun _ hp => .inl hp
      exact hlt.pass hph
    split
    · exact hcr _ rfl (later_of_blobs rfl)
    · exact hcr _ rfl later_deleteBlob
  · exact (h.wait ht).idle
  · exact h.wait ht

end

end Accounted

theorem accounted_next (h : Accounted d s) {e : OrphanStep} (he : e.Timely d s) :
    Accounted d (s.next job e) := by
  obtain ⟨ht, hd⟩ := he
  cases e with
  | store ctx req => exact h.store ht
  | commit i now => exact h.commit ht hd
  | abandon i now =>
    exact h.later (later_of_blobs rfl) (fun o ho => .inr ⟨o, ho, rfl⟩) ht fun _ hp =>
      .inl (mem_of_mem_eraseIdx hp)
  | readReferences now covered => exact h.readReferences ht covered
  | listPage now keys nextMarker covered => exact h.listPage ht keys nextMarker covered
  | deleteNext now => exact h.deleteNext ht

/-! ### Runs -/

theorem condemned_some {e : String × Nat} (h : s.condemned job now = some e) :
    ∃ readAt rest, s.phase = .deleting readAt (e :: rest) := by
  unfold OrphanSystem.condemned at h
  split at h
  next readAt x rest hph =>
    split at h
    · cases h
    · rw [← Option.some.inj h]
      exact ⟨readAt, rest, hph⟩
  · cases h

/-- A blob that is as old as the condition says is not in use. -/
theorem spares_of_settled (h : Accounted d s) {e : OrphanStep}
    (he : e.Timely d s ∧ e.Settled d job s) : e.Spares job s := by
  obtain ⟨⟨ht, hd⟩, hset⟩ := he
  cases e with
  | deleteNext now =>
    intro x hx hbl
    obtain ⟨hun, hold⟩ := hset x hx
    obtain ⟨blob, hbl⟩ := Option.isSome_iff_exists.mp hbl
    have hl := hun blob hbl
    obtain ⟨readAt, rest, hph⟩ := condemned_some hx
    have hst := h.started
    rw [hph] at hst hold
    refine ⟨fun o ho hkey => ?_, fun p hp hkey => ?_⟩
    · have hal := h.rows o ho
      rw [hph] at hal
      have hf := hal ⟨x, mem_cons_self, hkey.symm⟩ blob (by rw [hkey]; exact hbl)
      simp only [Phase.readAt] at hold
      omega
    · have hwr := (h.written p hp).2 blob (by rw [hkey]; exact hbl)
      have hwt := hd p hp
      simp only [OrphanStep.time] at hold hst ht
      omega
  | _ => trivial

/-- **Orphan collection is safe**, from any vault and in every run of a sweep and of
`Put`s that take at most `d` between their two writes, as long as each blob that is
deleted is the one that was listed and was older than `d` when the references were
read. -/
theorem orphan_sweep_spares (job : OrphanJob) (d : Nat) (vault : Vault) (clock : Nat)
    (steps : List OrphanStep)
    (htimely : Each (OrphanSystem.next job) (fun s e => e.Timely d s) (.start vault clock) steps)
    (hsettled : Each (OrphanSystem.next job) (fun s e => e.Settled d job s) (.start vault clock) steps) :
    Each (OrphanSystem.next job) (fun s e => e.Spares job s) (.start vault clock) steps := by
  have hal : Always (.next job) (Accounted d) (.start vault clock) steps :=
    always_of_each (fun s e h he => accounted_next h he) accounted_start htimely
  exact (htimely.and hsettled).of_always (fun s e h he => spares_of_settled h he) hal

/-- A `Put` that ends without a row, another that does not, and a sweep long after. -/
theorem orphan_sweep_deletes_orphan :
    Each (OrphanSystem.next ⟨"acme", 10, true⟩) (fun s e => e.Spares ⟨"acme", 10, true⟩ s)
      (.start .empty 0)
      [.store (allowedUser 1 "v1" "u1") (plainPut "acme" "docs" "a" [1]), .abandon 0 2,
        .store (allowedUser 3 "v2" "u2") (plainPut "acme" "docs" "b" [2]), .commit 0 4,
        .readReferences 20 true, .listPage 21 ["acme/docs/a", "acme/docs/b"] none true,
        .store (allowedUser 22 "v3" "u3") (plainPut "acme" "docs" "b" [3]), .deleteNext 23,
        .commit 0 24, .deleteNext 25] :=
  orphan_sweep_spares ⟨"acme", 10, true⟩ 5 .empty 0 _ (by decide +kernel) (by decide +kernel)

/-- The key of an orphan is written again between the listing and the deletion. -/
def rewrittenOrphan : List OrphanStep :=
  [.store (allowedUser 1 "v1" "u1") (plainPut "acme" "docs" "a" [1]), .abandon 0 2,
    .readReferences 20 true, .listPage 21 ["acme/docs/a"] none true,
    .store (allowedUser 22 "v2" "u2") (plainPut "acme" "docs" "a" [2]), .commit 0 23, .deleteNext 24]

/-- The `Put` takes less than the grace period of 10, and its blob is deleted with the
row in place. -/
theorem rewritten_orphan_deleted :
    Each (OrphanSystem.next ⟨"acme", 10, true⟩) (fun s e => e.Timely 5 s)
        (.start .empty 0) rewrittenOrphan ∧
      ¬ Each (OrphanSystem.next ⟨"acme", 10, true⟩) (fun s e => e.Spares ⟨"acme", 10, true⟩ s)
        (.start .empty 0) rewrittenOrphan := by
  decide +kernel

end AeroVault.Reconcile
