import AeroVault.Lib.TimeText

/-! Times in TEXT columns, and the statements that compare them.

A time is stored as the text that `Format(time.RFC3339Nano)` writes, and compared with
another one byte by byte; a share's time of expiry goes through `accessTimeString`, which
writes the zero time as the empty text. The comparisons are those of the instants exactly when
the years sort as their texts do and, within one second, no fraction begins with the other, and
the share does not expire at the zero time (`compares_as_instants_iff`): half a second past
sorts before the full second (`half_second_sorts_first`). -/
namespace AeroVault.Repository
open Lib

/-- The text of a share's times; the zero time is the empty one. -/
def accessTimeString (c : Civil) : String := if c.isZero then "" else c.rfc3339Nano

/-- `expires_at < $5` of `AcquireLease`. -/
def leaseExpired (expiresAt now : String) : Bool := decide (expiresAt < now)

/-- `expires_at='' OR expires_at>$2` of `ConsumeShare`. -/
def shareUnexpired (expiresAt now : String) : Bool := expiresAt == "" || decide (now < expiresAt)

/-- `run_after <= $1` of `ClaimJob`. -/
def jobDue (runAfter now : String) : Bool := !decide (now < runAfter)

/-- `ORDER BY updated_at DESC`: the first row comes before the second. -/
def newerThan (updatedAt other : String) : Bool := decide (other < updatedAt)

/-- Every comparison of the stored text of `a` with the text of `b` is that of the instants. -/
structure ComparesAsInstants (a b : Civil) : Prop where
  lease : leaseExpired a.rfc3339Nano b.rfc3339Nano = true ↔ a.nanos < b.nanos
  share : shareUnexpired (accessTimeString a) b.rfc3339Nano = true ↔ b.nanos < a.nanos
  job : jobDue a.rfc3339Nano b.rfc3339Nano = true ↔ a.nanos ≤ b.nanos
  newest : newerThan a.rfc3339Nano b.rfc3339Nano = true ↔ b.nanos < a.nanos

/-- The texts of two years sort as the years. -/
def YearsSort (y y' : Int) : Prop :=
  (appendInt y 4 < appendInt y' 4 ↔ y < y') ∧ (appendInt y' 4 < appendInt y 4 ↔ y' < y)

theorem yearsSort_of_four_digits {n m : Nat} (hn : n < 10000) (hm : m < 10000) : YearsSort n m := by
  have hlt : appendInt n 4 < appendInt m 4 ↔ n < m := appendInt_lt_iff hn hm
  have hgt : appendInt m 4 < appendInt n 4 ↔ m < n := appendInt_lt_iff hm hn
  exact ⟨hlt.trans Int.ofNat_lt.symm, hgt.trans Int.ofNat_lt.symm⟩

variable {a b : Civil}

theorem rfc3339Nano_ne_empty (c : Civil) : c.rfc3339Nano ≠ "" := by
  intro hem
  have hl : c.stamp = [] := by
    rw [← String.toList_ofList (l := c.stamp)]
    exact congrArg String.toList hem
  exact absurd hl (by simp [Civil.stamp])

theorem rfc3339Nano_lt_iff : a.rfc3339Nano < b.rfc3339Nano ↔ a.stamp < b.stamp := by
  show (String.ofList a.stamp).toList < (String.ofList b.stamp).toList ↔ _
  rw [String.toList_ofList, String.toList_ofList]

/-- A share that expires at the zero time never expires; any other is compared by its text. -/
theorem shareUnexpired_iff : shareUnexpired (accessTimeString a) b.rfc3339Nano = true ↔
    a.isZero = true ∨ b.stamp < a.stamp := by
  rw [accessTimeString]
  split_ifs with hz
  · simp [shareUnexpired, hz]
  · simp only [shareUnexpired, hz, rfc3339Nano_ne_empty, beq_iff_eq, Bool.or_eq_true, decide_eq_true_eq,
      rfc3339Nano_lt_iff, false_or, Bool.false_eq_true]

/-- The four comparisons are two, and the zero time. -/
theorem comparesAsInstants_iff : ComparesAsInstants a b ↔
    (a.isZero = true → b.nanos < a.nanos) ∧
      (a.stamp < b.stamp ↔ a.nanos < b.nanos) ∧ (b.stamp < a.stamp ↔ b.nanos < a.nanos) := by
  constructor
  · intro h
    have hl := h.lease
    have hnw := h.newest
    simp only [leaseExpired, newerThan, decide_eq_true_eq, rfc3339Nano_lt_iff] at hl hnw
    exact ⟨fun hz => h.share.mp (shareUnexpired_iff.mpr (.inl hz)), hl, hnw⟩
  · intro ⟨hz, hlt, hgt⟩
    refine ⟨?_, ?_, ?_, ?_⟩
    · simpa only [leaseExpired, decide_eq_true_eq, rfc3339Nano_lt_iff] using hlt
    · rw [shareUnexpired_iff, hgt]
      exact or_iff_right_of_imp hz
    · simp only [jobDue, rfc3339Nano_lt_iff, hgt, Bool.not_eq_true', decide_eq_false_iff_not, Int.not_lt]
    · simpa only [newerThan, decide_eq_true_eq, rfc3339Nano_lt_iff] using hgt

/-- **Stored times compare as instants exactly when the texts of the years sort as the years,
within one second no fraction begins with another, and the stored one is not the zero time,
unless it is the later one.** -/
theorem compares_as_instants_iff (a b : Civil) : ComparesAsInstants a b ↔
    (a.isZero = true → b.nanos < a.nanos) ∧ YearsSort a.year b.year ∧
      (a.year = b.year → a.clock = b.clock → a.nano ≠ b.nano →
        ¬ a.fraction <+: b.fraction ∧ ¬ b.fraction <+: a.fraction) := by
  rw [comparesAsInstants_iff]
  refine and_congr_right fun _ => ?_
  by_cases hyear : a.year = b.year
  · have hsr : YearsSort a.year b.year := by
      rw [hyear]
      exact ⟨iff_of_false (lt_irrefl _) (lt_irrefl _), iff_of_false (lt_irrefl _) (lt_irrefl _)⟩
    rw [Civil.stamp_lt_iff hyear, Civil.stamp_lt_iff hyear.symm, Civil.nanos_lt_iff_of_year hyear,
      Civil.nanos_lt_iff_of_year hyear.symm]
    by_cases hcl : a.clock = b.clock
    · simp only [hcl, lt_irrefl, false_or, true_and, hsr, forall_const]
      rw [forall_prop_of_true hyear]
      by_cases hnn : a.nano = b.nano
      · simp [Civil.fraction, hnn]
      · have hab := Civil.fraction_lt_iff hnn
        have hba := Civil.fraction_lt_iff (Ne.symm hnn)
        constructor
        · intro h _
          exact hab.mp h.1
        · intro h
          exact ⟨hab.mpr (h hnn), hba.mpr (h hnn).symm⟩
    · simp [hcl, Ne.symm hcl, hsr]
  · rw [Civil.stamp_lt_iff_of_year hyear, Civil.stamp_lt_iff_of_year (Ne.symm hyear)]
    have hnan : ∀ c d : Civil, c.year ≠ d.year → (c.nanos < d.nanos ↔ c.year < d.year) := by
      intro c d hne
      obtain hlt | hgt := lt_or_gt_of_ne hne
      · exact iff_of_true (Civil.nanos_lt_of_year hlt) hlt
      · exact iff_of_false (lt_asymm (Civil.nanos_lt_of_year hgt)) (lt_asymm hgt)
    rw [hnan a b hyear, hnan b a (Ne.symm hyear)]
    simp [hyear, YearsSort]

/-- The beginning of a year, and so many nanoseconds past it. -/
def newYear (year : Nat) (nano : Nat) (h : nano < 1000000000) : Civil where
  year := year
  month := 1
  day := 1
  hour := 0
  minute := 0
  second := 0
  nano := nano
  month_range := by decide
  day_range := by simp [daysInMonth]
  hour_lt := by decide
  minute_lt := by decide
  second_lt := by decide
  nano_lt := h

/-- A lease that ends with the second is not expired half a second later, and one that ends half a
second later has expired with the second. -/
theorem half_second_sorts_first :
    (newYear 2026 0 (by decide)).nanos < (newYear 2026 500000000 (by decide)).nanos ∧
      (newYear 2026 0 (by decide)).rfc3339Nano = "2026-01-01T00:00:00Z" ∧
      (newYear 2026 500000000 (by decide)).rfc3339Nano = "2026-01-01T00:00:00.5Z" ∧
      leaseExpired (newYear 2026 0 (by decide)).rfc3339Nano
        (newYear 2026 500000000 (by decide)).rfc3339Nano = false ∧
      leaseExpired (newYear 2026 500000000 (by decide)).rfc3339Nano
        (newYear 2026 0 (by decide)).rfc3339Nano = true := by
  decide +kernel

end AeroVault.Repository
