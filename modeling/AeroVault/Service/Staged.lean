import AeroVault.Service.Effects

/-! A `Put` in two steps, for what runs beside it.

`Put` writes the blob first and the row after it, and whatever else works on the
vault may come in between. `storePut` is the first step and `StagedPut.commit` the
second; one right after the other they are `put` (`put_eq_staged`). -/
namespace AeroVault.Service
open Lib Repository Access

/-- A `Put` that has written its blob and is yet to write its row. -/
structure StagedPut where
  ctx : Ctx
  req : PutRequest
  plan : PutPlan

namespace StagedPut

def storageKey (p : StagedPut) : String := p.plan.storageKey

/-- The row that the `Put` is about to write. -/
def object (p : StagedPut) (now : Nat) : Object := buildPutObject {p.ctx with now := now} p.req p.plan

/-- The body is checked once it is stored: if it does not have the declared size or
digest, the blob is deleted again, else the row is written. -/
def commit (p : StagedPut) (now : Nat) (s : Vault) : Except ServiceError Object × Vault :=
  if p.req.body.length ≠ p.plan.size then
    (.error (.sizeMismatch p.plan.size p.req.body.length), s.deleteBlob p.plan.storageKey)
  else if !p.plan.digestMatches p.ctx p.req.body then
    (.error .badDigest, s.deleteBlob p.plan.storageKey)
  else
    let written := writePutObject {p.ctx with now := now} p.req p.plan s
    (.ok written.1, written.2)

end StagedPut

def storePut (ctx : Ctx) (req : PutRequest) (s : Vault) : Except ServiceError StagedPut × Vault :=
  match preparePut ctx req s with
  | .error err => (.error err, s)
  | .ok plan => (.ok ⟨ctx, req, plan⟩, s.putBlob plan.storageKey req.body ctx.now)

/-- **The steps are the call.** -/
theorem put_eq_staged (ctx : Ctx) (req : PutRequest) (s : Vault) :
    put ctx req s =
      match storePut ctx req s with
      | (.error err, s') => (.error err, s')
      | (.ok p, s') => p.commit ctx.now s' := by
  unfold put storePut
  cases preparePut ctx req s with
  | error | ok => rfl

variable {ctx : Ctx} {req : PutRequest} {s s' : Vault} {p : StagedPut} {now : Nat} {saved : Object}

theorem storePut_ok (h : storePut ctx req s = (.ok p, s')) :
    ∃ plan, preparePut ctx req s = .ok plan ∧ p = ⟨ctx, req, plan⟩ ∧
      s' = s.putBlob plan.storageKey req.body ctx.now := by
  unfold storePut at h
  split at h
  · cases h
  next plan hplan =>
    obtain ⟨hp, hs⟩ := Prod.mk.inj h
    exact ⟨plan, hplan, (Except.ok.inj hp).symm, hs.symm⟩

theorem storePut_error {err : ServiceError} (h : storePut ctx req s = (.error err, s')) : s' = s := by
  unfold storePut at h
  split at h
  · exact (Prod.mk.inj h).2.symm
  · cases h

theorem accepts_iff {plan : PutPlan} {body : Bytes} : plan.accepts ctx body = true ↔
    body.length = plan.size ∧ plan.digestMatches ctx body = true := by
  simp [PutPlan.accepts]

/-- A `Put` whose body is as declared writes its row. -/
theorem StagedPut.commit_accepted (h : p.plan.accepts p.ctx p.req.body = true) (now : Nat) (s : Vault) :
    p.commit now s = (.ok (writePutObject {p.ctx with now := now} p.req p.plan s).1,
      (writePutObject {p.ctx with now := now} p.req p.plan s).2) := by
  obtain ⟨hsz, hd⟩ := accepts_iff.mp h
  unfold commit
  rw [if_neg (not_not.mpr hsz), hd]
  rfl

/-- A `Put` whose body is not as declared leaves no blob at its storage key. -/
theorem StagedPut.commit_refused (h : p.plan.accepts p.ctx p.req.body = false) (now : Nat) (s : Vault) :
    ∃ err, p.commit now s = (.error err, s.deleteBlob p.plan.storageKey) := by
  unfold commit
  split_ifs with hsz hd
  · exact ⟨_, rfl⟩
  · exact ⟨_, rfl⟩
  · rw [accepts_iff.mpr ⟨not_not.mp hsz, by simpa using hd⟩] at h
    cases h

end AeroVault.Service
