import Mathlib

/-! What a completion costs.

`costMicros` divides two 128-bit products by a thousand, adds the quotients and then the
carry of the remainders, and gives up at each addition that does not fit. Together the
guards give up exactly when the cost itself does not fit (`costMicros_exact`). -/
namespace AeroVault.Ai

/-- `math.MaxInt64`. -/
def maxInt64 : Nat := 2 ^ 63 - 1

/-- The quotient and the remainder of `bits.Div64`, of the two halves that `bits.Mul64` returns. -/
def costPerThousand (tokens price : Nat) : Option (Nat × Nat) :=
  let hi := tokens * price / 2 ^ 64
  let lo := tokens * price % 2 ^ 64
  if hi ≥ 1000 then none
  else
    let quotient := (hi * 2 ^ 64 + lo) / 1000
    if quotient > maxInt64 then none else some (quotient, (hi * 2 ^ 64 + lo) % 1000)

def costMicros (promptTokens completionTokens promptMicrosPer1K completionMicrosPer1K : Int) : Nat :=
  if promptTokens < 0 ∨ completionTokens < 0 ∨ promptMicrosPer1K < 0 ∨ completionMicrosPer1K < 0 then 0
  else
    match costPerThousand promptTokens.toNat promptMicrosPer1K.toNat,
        costPerThousand completionTokens.toNat completionMicrosPer1K.toNat with
    | some (promptCost, promptRemainder), some (completionCost, completionRemainder) =>
      if promptCost > maxInt64 - completionCost then 0
      else
        let whole := promptCost + completionCost
        let carry := (promptRemainder + completionRemainder) / 1000
        if whole > maxInt64 - carry then 0 else whole + carry
    | _, _ => 0

/-- The check of the upper half is part of the check of the quotient. -/
theorem costPerThousand_eq (tokens price : Nat) : costPerThousand tokens price =
    if tokens * price / 1000 ≤ maxInt64 then some (tokens * price / 1000, tokens * price % 1000)
    else none := by
  simp only [costPerThousand, Nat.div_add_mod']
  have hhi : tokens * price / 2 ^ 64 ≥ 1000 → maxInt64 < tokens * price / 1000 := by
    simp only [maxInt64]
    omega
  split_ifs <;> first | rfl | omega

/-- **A cost is exact, or zero where it does not fit**: the guards on the quotients, their sum and
the carry stop the sum exactly when the whole cost is above the largest 64-bit integer. -/
theorem costMicros_exact (p c pp cp : Nat) : costMicros p c pp cp =
    if (p * pp + c * cp) / 1000 ≤ maxInt64 then (p * pp + c * cp) / 1000 else 0 := by
  have hneg : ¬ ((p : Int) < 0 ∨ (c : Int) < 0 ∨ (pp : Int) < 0 ∨ (cp : Int) < 0) := by omega
  simp only [costMicros, if_neg hneg, Int.toNat_natCast, costPerThousand_eq]
  generalize p * pp = a, c * cp = b
  have hmax : 1 ≤ maxInt64 := by decide
  by_cases ha : a / 1000 ≤ maxInt64
  · by_cases hb : b / 1000 ≤ maxInt64
    · simp only [if_pos ha, if_pos hb]
      split_ifs <;> omega
    · have hsum : ¬ (a + b) / 1000 ≤ maxInt64 := by omega
      simp only [if_pos ha, if_neg hb, if_neg hsum]
  · have hsum : ¬ (a + b) / 1000 ≤ maxInt64 := by omega
    simp only [if_neg ha, if_neg hsum]

end AeroVault.Ai
