import AeroVault.Lib.Interleaving

/-! One row of `idempotency_keys`: `ClaimIdempotencyKey`, `CompleteIdempotencyKey` and
`DeleteIdempotencyKey`.

The three run one statement each, except that a claim that finds a row reads it with a second
one. A statement may fail, or take effect and lose its reply. -/
namespace AeroVault.Repository
open Lib

/-- The row of a tenant and key. It is completed if it has a response, in progress otherwise. -/
structure IdempotencyRecord (ρ : Type*) where
  fingerprint : String
  response : Option ρ
  deriving DecidableEq

namespace IdempotencyRecord

variable {ρ : Type*}

/-- The row as the claim inserts it. -/
def inProgress (fingerprint : String) : IdempotencyRecord ρ := ⟨fingerprint, none⟩

def completed (fingerprint : String) (response : ρ) : IdempotencyRecord ρ := ⟨fingerprint, some response⟩

end IdempotencyRecord

variable {ρ : Type*}

/-- `INSERT … ON CONFLICT DO NOTHING`, and whether it inserted the row. -/
def insertIdempotencyKey (fingerprint : String) :
    Option (IdempotencyRecord ρ) → Option (IdempotencyRecord ρ) × Bool
  | none => (some (.inProgress fingerprint), true)
  | some rec => (some rec, false)

def completeIdempotencyKey (response : ρ) (row : Option (IdempotencyRecord ρ)) :
    Option (IdempotencyRecord ρ) :=
  row.map fun rec => {rec with response := some response}

def deleteIdempotencyKey (_ : Option (IdempotencyRecord ρ)) : Option (IdempotencyRecord ρ) := none

/-- What `ClaimIdempotencyKey` comes to with its first statement. -/
inductive ClaimReply
  | claimed
  | taken
  | failed
  deriving DecidableEq

/-- The first statement of `ClaimIdempotencyKey`. -/
def claimIdempotencyKey (fingerprint : String) (reply : Reply) (row : Option (IdempotencyRecord ρ)) :
    ClaimReply × Option (IdempotencyRecord ρ) :=
  match reply with
  | .failed => (.failed, row)
  | .lost => (.failed, (insertIdempotencyKey fingerprint row).1)
  | .ok => (if (insertIdempotencyKey fingerprint row).2 then .claimed else .taken,
      (insertIdempotencyKey fingerprint row).1)

/-- Its second statement, `getIdempotencyKey`: the record, or an error. -/
def getIdempotencyKey (reply : Reply) (row : Option (IdempotencyRecord ρ)) : Option (IdempotencyRecord ρ) :=
  if reply = .ok then row else none

variable {fingerprint : String} {reply : Reply} {row : Option (IdempotencyRecord ρ)}

/-- A claim is won on a free key only, and leaves it in progress. -/
theorem claimIdempotencyKey_claimed (h : (claimIdempotencyKey fingerprint reply row).1 = .claimed) :
    row = none ∧ (claimIdempotencyKey fingerprint reply row).2 = some (.inProgress fingerprint) := by
  cases reply with
  | ok =>
    cases row with
    | none => exact ⟨rfl, rfl⟩
    | some rec => cases h
  | failed | lost => cases h

/-- A row that is there stays as it is. -/
theorem claimIdempotencyKey_some (rec : IdempotencyRecord ρ) :
    (claimIdempotencyKey fingerprint reply (some rec)).2 = some rec := by
  cases reply <;> rfl

/-- A claim never completes a row. -/
theorem claimIdempotencyKey_completed {f : String} {response : ρ}
    (h : (claimIdempotencyKey fingerprint reply row).2 = some (.completed f response)) :
    row = some (.completed f response) := by
  cases row with
  | none => cases reply <;> cases h
  | some rec => rwa [claimIdempotencyKey_some] at h

/-- A completion leaves the response that it stores. -/
theorem completeIdempotencyKey_completed {f : String} {response stored : ρ}
    (h : completeIdempotencyKey stored row = some (.completed f response)) : response = stored := by
  obtain ⟨rec, -, hrec⟩ := Option.map_eq_some_iff.mp h
  cases hrec
  rfl

theorem getIdempotencyKey_eq_some {rec : IdempotencyRecord ρ} (h : getIdempotencyKey reply row = some rec) :
    row = some rec := by
  rw [getIdempotencyKey, Option.ite_none_right_eq_some] at h
  exact h.2

theorem IdempotencyRecord.eq_completed {rec : IdempotencyRecord ρ} {response : ρ}
    (h : rec.response = some response) : rec = .completed rec.fingerprint response := by
  rw [completed, ← h]

end AeroVault.Repository
