import AeroVault.Jobs.Queue

/-! Jobs and the handlers at work on them.

A handler is anything that has claimed a job; `jobOf` is that job, as it was claimed.
`Tracked` is what holds between the queue and the handlers: each has a running job of
its own, and since jobs are deduplicated by a key of their payload, no two of them
work on one key. `Awaits` says that the queue still owes a payload a handler that is
`fresh`: it has a live job, and whoever handles it is. -/
namespace AeroVault.Jobs
open Lib List

variable {π τ : Type} {jobOf : τ → Job π} {keyOf : π → String} {fresh : τ → Prop} {q q' : Queue π}
  {handlers : List τ} {c c' d : τ} {i now : Nat} {a a' job : Job π} {p : π}

/-- The dedupe key of a job about one object. -/
def objectKey (type : String) (objectID : Nat) : String := type ++ ":" ++ objectID.repr

theorem objectKey_ne (type : String) (objectID : Nat) : objectKey type objectID ≠ "" := by
  unfold objectKey
  intro h
  have hl := congrArg String.length h
  simp at hl

theorem objectKey_injective {type : String} {m n : Nat} (h : objectKey type m = objectKey type n) :
    m = n := by
  have hrp : m.repr = n.repr := (String.append_right_inj _).mp h
  rw [Nat.repr_eq_ofList_toDigits, Nat.repr_eq_ofList_toDigits, String.ofList_inj] at hrp
  rw [← Nat.ofDigitChars_ten_toDigits (n := m), hrp]
  exact Nat.ofDigitChars_ten_toDigits

structure TrackedBy (jobOf : τ → Job π) (keyOf : π → String) (q : Queue π) (handlers : List τ) :
    Prop where
  once : LiveOnce q
  keyed : ∀ j ∈ q.rows, j.dedupeKey = keyOf j.payload
  running : ∀ c ∈ handlers, ∃ j ∈ q.rows, j.id = (jobOf c).id ∧ j.status = .running ∧
    j.payload = (jobOf c).payload
  apart : (handlers.map fun c => (jobOf c).id).Nodup

theorem trackedBy_empty : TrackedBy jobOf keyOf .empty [] where
  once := liveOnce_empty
  keyed := nofun
  running := nofun
  apart := nodup_nil

namespace TrackedBy

section
variable (h : TrackedBy jobOf keyOf q handlers)
include h

theorem mem_advance (hi : handlers[i]? = some c) :
    d ∈ handlers.set i c' ↔ d = c' ∨ (d ∈ handlers ∧ (jobOf d).id ≠ (jobOf c).id) :=
  mem_set_of_nodup h.apart hi

theorem mem_settle (hi : handlers[i]? = some c) :
    d ∈ handlers.eraseIdx i ↔ d ∈ handlers ∧ (jobOf d).id ≠ (jobOf c).id :=
  mem_eraseIdx_of_nodup h.apart hi

/-- A live job with the key of a handler's is that handler's. -/
theorem eq_of_key (hkey : ∀ p, keyOf p ≠ "") (hc : c ∈ handlers) (ha : a ∈ q.rows) (hl : a.live = true)
    (hkeys : keyOf a.payload = keyOf (jobOf c).payload) :
    a.id = (jobOf c).id := by
  obtain ⟨j, hj, hid, hrun, hpay⟩ := h.running c hc
  have hsame : a.dedupeKey = j.dedupeKey := by rw [h.keyed a ha, h.keyed j hj, hkeys, hpay]
  have hset : a.dedupeKey ≠ "" := by
    rw [h.keyed a ha]
    exact hkey _
  rw [h.once a ha j hj hl (by simp [Job.live, hrun]) hsame hset, hid]

/-- No two handlers work on one key. -/
theorem alone (hkey : ∀ p, keyOf p ≠ "") (hc : c ∈ handlers) (hd : d ∈ handlers)
    (hkeys : keyOf (jobOf c).payload = keyOf (jobOf d).payload) : c = d := by
  obtain ⟨j, hj, hid, hrun, hpay⟩ := h.running c hc
  have hsame := h.eq_of_key hkey hd hj (by simp [Job.live, hrun]) ((congrArg keyOf hpay).trans hkeys)
  exact inj_on_of_nodup_map h.apart hc hd (hid.symm.trans hsame)

theorem advance (hi : handlers[i]? = some c) (hj : jobOf c' = jobOf c) :
    TrackedBy jobOf keyOf q (handlers.set i c') where
  once := h.once
  keyed := h.keyed
  running d hd := by
    obtain rfl | ⟨hd, -⟩ := (h.mem_advance hi).mp hd
    · rw [hj]
      exact h.running c (mem_of_getElem? hi)
    · exact h.running d hd
  apart := by
    have hm : (handlers.set i c').map (fun d => (jobOf d).id) = handlers.map fun d => (jobOf d).id :=
      map_set_of_eq hi (by rw [hj])
    rw [hm]
    exact h.apart

theorem enqueue (now : Nat) (hky : job.dedupeKey = keyOf job.payload) :
    TrackedBy jobOf keyOf (enqueueJob now job q).2 handlers := by
  have ho := h.once.enqueueJob now job
  unfold enqueueJob at ho ⊢
  split at ho
  · exact h
  · refine ⟨ho, fun j hj => ?_, fun c hc => ?_, h.apart⟩
    · obtain hj | rfl := Table.mem_insert.mp hj
      · exact h.keyed j hj
      · exact hky
    · obtain ⟨j, hj, hrs⟩ := h.running c hc
      exact ⟨j, Table.mem_insert.mpr (.inl hj), hrs⟩

theorem keyed_moved (hm : Moved q q' a a') : ∀ j ∈ q'.rows, j.dedupeKey = keyOf j.payload := by
  intro j hj
  obtain rfl | ⟨hj, -⟩ := (hm.rows j).mp hj
  · rw [hm.dedupeKey, hm.payload]
    exact h.keyed a hm.mem
  · exact h.keyed j hj

/-- A job that moves is not the job of a handler with another one. -/
theorem running_moved (hm : Moved q q' a a') (hd : d ∈ handlers) (hne : (jobOf d).id ≠ a.id) :
    ∃ j ∈ q'.rows, j.id = (jobOf d).id ∧ j.status = .running ∧ j.payload = (jobOf d).payload := by
  obtain ⟨j, hj, hid, hrs⟩ := h.running d hd
  refine ⟨j, (hm.rows j).mpr (.inr ⟨hj, fun heq => hne ?_⟩), hid, hrs⟩
  rw [← hid, heq]

theorem claim {worker : String} (hcl : claimJob now worker q = some (job, q')) (hjob : jobOf c = job) :
    TrackedBy jobOf keyOf q' (handlers ++ [c]) := by
  obtain ⟨a, hm, hpn, hrunning⟩ := claimJob_moved hcl
  -- The handlers at work have running jobs, and this one was pending.
  have hother (d : τ) (hd : d ∈ handlers) : (jobOf d).id ≠ a.id := by
    intro hid
    obtain ⟨j, hj, hjid, hjr, -⟩ := h.running d hd
    rw [Table.eq_of_id hj hm.mem (hjid.trans hid), hpn] at hjr
    cases hjr
  refine ⟨h.once.moved hm (by simp [Job.live, hpn]), h.keyed_moved hm, fun d hd => ?_, ?_⟩
  · obtain hd | hd := mem_append.mp hd
    · exact h.running_moved hm hd (hother d hd)
    · rw [mem_singleton.mp hd, hjob]
      exact ⟨job, (hm.rows job).mpr (.inl rfl), rfl, hrunning, rfl⟩
  · rw [map_append, nodup_append]
    refine ⟨h.apart, nodup_singleton _, fun x hx y hy => ?_⟩
    obtain ⟨d, hd, rfl⟩ := mem_map.mp hx
    rw [map_singleton, mem_singleton, hjob] at hy
    rw [hy, hm.id]
    exact hother d hd

/-- A handler is through with its job, one way or the other. -/
theorem settle (hi : handlers[i]? = some c) (hm : Moved q q' a a') (hid : a.id = (jobOf c).id)
    (hl : a.live = true) :
    TrackedBy jobOf keyOf q' (handlers.eraseIdx i) where
  once := h.once.moved hm hl
  keyed := h.keyed_moved hm
  running d hd := by
    obtain ⟨hd, hne⟩ := (h.mem_settle hi).mp hd
    exact h.running_moved hm hd (by rwa [hid])
  apart := h.apart.sublist ((eraseIdx_sublist handlers i).map _)

end

section Settling
variable (h : TrackedBy jobOf keyOf q handlers) (hi : handlers[i]? = some c) (now : Nat)
include h hi

theorem completed (result : String) :
    ∃ a a', Moved q (completeJob now (jobOf c).id result q) a a' ∧ a.id = (jobOf c).id ∧
      a.payload = (jobOf c).payload ∧
      TrackedBy jobOf keyOf (completeJob now (jobOf c).id result q) (handlers.eraseIdx i) := by
  obtain ⟨a, ha, hid, hrunning, hpay⟩ := h.running c (mem_of_getElem? hi)
  obtain ⟨a', hm, -⟩ := completeJob_moved ha hrunning now result
  rw [hid] at hm
  exact ⟨a, a', hm, hid, hpay, h.settle hi hm hid (by simp [Job.live, hrunning])⟩

/-- A job that fails is retried, unless it has had its attempts. -/
theorem failed (err : String) (delay : Nat) :
    ∃ a a', Moved q (settleFailure now (jobOf c) err delay q) a a' ∧ a.id = (jobOf c).id ∧
      a.payload = (jobOf c).payload ∧ a'.live = !(jobOf c).exhausted ∧
      TrackedBy jobOf keyOf (settleFailure now (jobOf c) err delay q) (handlers.eraseIdx i) := by
  obtain ⟨a, ha, hid, hrunning, hpay⟩ := h.running c (mem_of_getElem? hi)
  obtain ⟨a', hm, hl⟩ := settleFailure_moved ha hrunning now hid.symm err delay
  exact ⟨a, a', hm, hid, hpay, hl, h.settle hi hm hid (by simp [Job.live, hrunning])⟩

end Settling

end TrackedBy

/-! ### Handlers that are owed -/

def AwaitsBy (jobOf : τ → Job π) (fresh : τ → Prop) (q : Queue π) (handlers : List τ) (p : π) : Prop :=
  ∃ j ∈ q.rows, j.live = true ∧ j.payload = p ∧ ∀ c ∈ handlers, (jobOf c).id = j.id → fresh c

namespace AwaitsBy

section
variable (haw : AwaitsBy jobOf fresh q handlers p)
include haw

/-- The handler of the payload is fresh, if there is one. -/
theorem fresh_of_payload (h : TrackedBy jobOf keyOf q handlers) (hkey : ∀ p, keyOf p ≠ "") (hc : c ∈ handlers)
    (hpay : (jobOf c).payload = p) : fresh c := by
  obtain ⟨j, hj, hl, hjp, hf⟩ := haw
  exact hf c hc (h.eq_of_key hkey hc hj hl (congrArg keyOf (hjp.trans hpay.symm))).symm

theorem advance (h : TrackedBy jobOf keyOf q handlers) (hi : handlers[i]? = some c)
    (hjob : jobOf c' = jobOf c) (hkp : fresh c → (jobOf c).payload = p → fresh c') :
    AwaitsBy jobOf fresh q (handlers.set i c') p := by
  obtain ⟨j, hj, hl, hpay, hf⟩ := haw
  have hc := mem_of_getElem? hi
  refine ⟨j, hj, hl, hpay, fun d hd hdid => ?_⟩
  obtain rfl | ⟨hd, -⟩ := (h.mem_advance hi).mp hd
  · rw [hjob] at hdid
    obtain ⟨k, hk, hkid, -, hkpay⟩ := h.running c hc
    obtain rfl := Table.eq_of_id hk hj (hkid.trans hdid)
    exact hkp (hf c hc hdid) (hkpay.symm.trans hpay)
  · exact hf d hd hdid

theorem enqueue (now : Nat) (j : Job π) : AwaitsBy jobOf fresh (enqueueJob now j q).2 handlers p := by
  obtain ⟨k, hk, hrs⟩ := haw
  unfold enqueueJob
  split
  · exact ⟨k, hk, hrs⟩
  · exact ⟨k, Table.mem_insert.mpr (.inl hk), hrs⟩

theorem claim {worker : String} (hcl : claimJob now worker q = some (job, q')) (hf' : fresh c) :
    AwaitsBy jobOf fresh q' (handlers ++ [c]) p := by
  obtain ⟨a, hm, -, hrunning⟩ := claimJob_moved hcl
  obtain ⟨j, hj, hl, hpay, hf⟩ := haw
  have hall (b : Job π) (hid : b.id = j.id) : ∀ d ∈ handlers ++ [c], (jobOf d).id = b.id → fresh d := by
    intro d hd hdid
    obtain hd | hd := mem_append.mp hd
    · exact hf d hd (hdid.trans hid)
    · rw [mem_singleton.mp hd]
      exact hf'
  by_cases hja : j = a
  · refine ⟨job, (hm.rows job).mpr (.inl rfl), by simp [Job.live, hrunning], ?_, ?_⟩
    · rw [hm.payload, ← hja, hpay]
    · exact hall job (by rw [hm.id, hja])
  · exact ⟨j, (hm.rows j).mpr (.inr ⟨hj, hja⟩), hl, hpay, hall j rfl⟩

/-- What one handler does at the end of its job takes nothing from a payload, unless it
is its own and still fresh. -/
theorem settle (h : TrackedBy jobOf keyOf q handlers) (hi : handlers[i]? = some c) (hm : Moved q q' a a')
    (hid : a.id = (jobOf c).id) (hpay : a.payload = (jobOf c).payload)
    (hkp : fresh c → (jobOf c).payload ≠ p) :
    AwaitsBy jobOf fresh q' (handlers.eraseIdx i) p := by
  obtain ⟨j, hj, hl, hjp, hf⟩ := haw
  have hc := mem_of_getElem? hi
  have hja : j ≠ a := by
    intro heq
    refine hkp (hf c hc (by rw [heq, hid])) ?_
    rw [← hjp, heq, hpay]
  refine ⟨j, (hm.rows j).mpr (.inr ⟨hj, hja⟩), hl, hjp, fun d hd => ?_⟩
  exact hf d ((h.mem_settle hi).mp hd).1

end

end AwaitsBy

section
variable (h : TrackedBy jobOf keyOf q handlers)
include h

/-- A fresh handler is what its payload awaits. -/
theorem awaitsBy_handler (hc : c ∈ handlers) (hf : fresh c) :
    AwaitsBy jobOf fresh q handlers (jobOf c).payload := by
  obtain ⟨j, hj, hid, hrun, hpay⟩ := h.running c hc
  refine ⟨j, hj, by simp [Job.live, hrun], hpay, fun d hd hdid => ?_⟩
  rwa [inj_on_of_nodup_map h.apart hd hc (hdid.trans hid)]

/-- A job that is to be retried awaits its next handler. -/
theorem awaitsBy_retried (hi : handlers[i]? = some c) (hm : Moved q q' a a') (hid : a.id = (jobOf c).id)
    (hpay : a.payload = (jobOf c).payload) (hl : a'.live = true) :
    AwaitsBy jobOf fresh q' (handlers.eraseIdx i) (jobOf c).payload := by
  refine ⟨a', (hm.rows a').mpr (.inl rfl), hl, hm.payload.trans hpay, fun d hd hdid => ?_⟩
  exact absurd (hdid.trans (hm.id.trans hid)) ((h.mem_settle hi).mp hd).2

/-- A job that is not deduplicated awaits its handler. -/
theorem awaitsBy_enqueued (now : Nat) (hnew : duplicate q job.dedupeKey = none) :
    AwaitsBy jobOf fresh (enqueueJob now job q).2 handlers job.payload := by
  unfold enqueueJob
  rw [hnew]
  refine ⟨_, Table.mem_insert.mpr (.inr rfl), rfl, rfl, fun c hc hcid => ?_⟩
  obtain ⟨j, hj, hjid, -, -⟩ := h.running c hc
  exact absurd (hjid.trans hcid) (Nat.ne_of_lt (q.bound j hj))

/-- An event about a payload arrives as a job. The payload is owed a handler as before, unless the job
was merged into one whose handler is not fresh. -/
theorem awaitsBy_of_event {ε : Type} {payloadOf : ε → π} {events : List ε} {e : ε} {P : Prop}
    (hinj : Function.Injective keyOf) (now : Nat) (job : Job π) (hg : events[i]? = some e)
    (hj : job.payload = payloadOf e) (hky : job.dedupeKey = keyOf job.payload)
    (hmr : ∀ existing ∈ duplicate q job.dedupeKey, payloadOf e = p →
      (∀ c ∈ handlers, (jobOf c).id = existing.id → fresh c) ∨ P)
    (ho : (∃ e' ∈ events, payloadOf e' = p) ∨ AwaitsBy jobOf fresh q handlers p) :
    (∃ e' ∈ events.eraseIdx i, payloadOf e' = p) ∨
      AwaitsBy jobOf fresh (enqueueJob now job q).2 handlers p ∨ P := by
  obtain ⟨e', he', hp⟩ | hawaits := ho
  · rw [← (perm_cons_eraseIdx hg).mem_iff, mem_cons] at he'
    obtain rfl | he' := he'
    · right
      cases hd : duplicate q job.dedupeKey with
      | none =>
        rw [← hp, ← hj]
        exact .inl (awaitsBy_enqueued h now hd)
      | some existing =>
        obtain ⟨hm, hkey, hl⟩ := duplicate_some hd
        have hpay : existing.payload = p := by
          rw [← hp, ← hj]
          exact hinj (by rw [← h.keyed existing hm, hkey, hky])
        refine (hmr existing hd hp).imp_left fun hf => ?_
        exact .enqueue ⟨existing, hm, hl, hpay, hf⟩ now job
    · exact .inl ⟨e', he', hp⟩
  · exact .inr (.inl (hawaits.enqueue now job))

end

end AeroVault.Jobs
