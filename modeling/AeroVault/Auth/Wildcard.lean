import AeroVault.Lib.ByteText

/-! The wildcards of a bucket policy.

`wildcardMatch` compares bytes before it looks for a `*`, so a `*` of the pattern that comes upon a `*`
of the value stands for that byte and for nothing else (`Meets`). Where this loses the only way to split
the value, the match is missed (`wildcard_match_iff`). -/
namespace AeroVault.Auth
open Lib List

/-- `*` -/
def star : UInt8 := 42

/-- The loop of `wildcardMatch`. The indices into the pattern and the value are what is left of them;
`back` is what is behind the last star, and the value where it was tried last. -/
def wildcardLoop (back : Option (GoString × GoString)) (pattern value : GoString) : Bool :=
  match value, pattern with
  | [], pattern => pattern.all (· == star)
  | d :: value, c :: pattern =>
    if c = d then wildcardLoop back pattern value
    else if c = star then wildcardLoop (some (pattern, d :: value)) pattern (d :: value)
    else
      match back with
      | none => false
      | some (behind, tried) => wildcardLoop (some (behind, tried.tail)) behind tried.tail
  | _ :: _, [] =>
    match back with
    | none => false
    | some (behind, tried) => wildcardLoop (some (behind, tried.tail)) behind tried.tail
termination_by (max pattern.length (back.elim 0 (·.1.length)), max value.length (back.elim 0 (·.2.length)),
  value.length)
decreasing_by all_goals
  simp only [Prod.lex_def, length_cons, length_tail, Option.elim]
  omega

def wildcardMatch (pattern value : GoString) : Bool := wildcardLoop none pattern value

/-- The value can be split so that every star stands for some bytes and every other byte for itself. -/
def Matches : GoString → GoString → Prop
  | [], value => value = []
  | c :: pattern, value =>
    if c = star then ∃ front rest, value = front ++ rest ∧ Matches pattern rest
    else ∃ rest, value = c :: rest ∧ Matches pattern rest

/-- It can be split so that, beside that, a star that comes upon a star of the value stands for it alone. -/
def Meets : GoString → GoString → Prop
  | [], value => value = []
  | c :: pattern, value =>
    if value.head? = some c then Meets pattern value.tail
    else c = star ∧ ∃ rest, rest <:+ value ∧ Meets pattern rest

section Wildcards
variable {pattern value front rest : GoString} {c : UInt8}

theorem Meets.matches (h : Meets pattern value) : Matches pattern value := by
  induction pattern generalizing value with
  | nil => exact h
  | cons c pattern ih =>
    rw [Meets] at h
    rw [Matches]
    split_ifs at h with hh
    · obtain ⟨rest, rfl⟩ := head?_eq_some_iff.mp hh
      split_ifs with hst
      · exact ⟨[c], rest, rfl, ih h⟩
      · exact ⟨rest, rfl, ih h⟩
    · obtain ⟨hst, rest, ⟨front, rfl⟩, hrs⟩ := h
      rw [if_pos hst]
      exact ⟨front, rest, rfl, ih hrs⟩

theorem meets_nil : Meets pattern [] ↔ pattern.all (· == star) = true := by
  induction pattern with
  | nil => simp [Meets]
  | cons c pattern ih => simp [Meets, ih]

/-- What has been matched byte by byte is not in the way: a match from anywhere behind its start has a
match of the rest behind its end. -/
theorem Meets.behind (h : Meets (front ++ pattern) rest) (hrs : rest <:+ front ++ value) :
    ∃ later, later <:+ value ∧ Meets pattern later := by
  induction front generalizing rest with
  | nil => exact ⟨rest, hrs, h⟩
  | cons c front ih =>
    rw [cons_append] at h hrs
    rw [Meets] at h
    obtain rfl | hrs := suffix_cons_iff.mp hrs
    · rw [head?_cons, if_pos rfl] at h
      exact ih h suffix_rfl
    · split_ifs at h with hh
      · exact ih h ((tail_suffix rest).trans hrs)
      · obtain ⟨-, later, hl, h⟩ := h
        exact ih h (hl.trans hrs)

/-- The star can still be tried further on. -/
def Retries (back : Option (GoString × GoString)) : Prop :=
  ∃ last ∈ back, ∃ rest, rest <:+ last.2.tail ∧ Meets last.1 rest

/-- What is behind the star has been matched byte by byte since. -/
def Aligned (back : Option (GoString × GoString)) (pattern value : GoString) : Prop :=
  ∀ last ∈ back, ∃ front, last = (front ++ pattern, front ++ value)

variable {back : Option (GoString × GoString)}

theorem retries_some {behind tried : GoString} :
    Retries (some (behind, tried)) ↔ ∃ rest, rest <:+ tried.tail ∧ Meets behind rest := by
  simp [Retries]

theorem aligned_start {behind tried : GoString} : Aligned (some (behind, tried)) behind tried := by
  simp [Aligned]

theorem exists_suffix_iff {P : GoString → Prop} :
    (∃ rest, rest <:+ value ∧ P rest) ↔ P value ∨ ∃ rest, rest <:+ value.tail ∧ P rest := by
  cases value with
  | nil => simp
  | cons d value => simp [suffix_cons_iff, or_and_right, exists_or]

/-- A match from where the star was tried, or from further on, has a match of the rest. -/
theorem Retries.behind (h : Retries back) (hal : Aligned back pattern value) :
    ∃ later, later <:+ value ∧ Meets pattern later := by
  obtain ⟨last, hl, rest, hrs, hm⟩ := h
  obtain ⟨front, rfl⟩ := hal last hl
  exact hm.behind (hrs.trans (tail_suffix _))

theorem wildcardLoop_iff (hal : Aligned back pattern value) :
    wildcardLoop back pattern value = true ↔ Meets pattern value ∨ Retries back := by
  fun_induction wildcardLoop back pattern value with
  | case1 back pattern =>
    rw [← meets_nil]
    refine ⟨.inl, fun h => h.elim id fun h => ?_⟩
    obtain ⟨later, hlat, hm⟩ := h.behind hal
    rwa [suffix_nil.mp hlat] at hm
  | case2 back value d pattern ih =>
    rw [ih ?_, Meets, head?_cons, if_pos rfl, tail_cons]
    intro last hl
    obtain ⟨front, rfl⟩ := hal last hl
    exact ⟨front ++ [d], by simp⟩
  | case3 back d value pattern hne ih =>
    -- The new star takes the place of the old one, which is not needed any more.
    rw [ih aligned_start, retries_some, ← exists_suffix_iff, Meets, head?_cons,
      if_neg (by simpa using Ne.symm hne), and_iff_right rfl]
    refine (or_iff_left_of_imp fun h => ?_).symm
    obtain ⟨later, hlat, hm⟩ := h.behind hal
    rw [Meets] at hm
    split_ifs at hm with hh
    · exact ⟨_, (tail_suffix later).trans hlat, hm⟩
    · obtain ⟨-, rest, hrs, hm⟩ := hm
      exact ⟨rest, hrs.trans hlat, hm⟩
  | case4 d value c pattern hne hst => simp [Meets, Ne.symm hne, hst, Retries]
  | case5 d value c pattern hne hst behind tried ih =>
    rw [ih aligned_start, retries_some, retries_some, ← exists_suffix_iff]
    simp [Meets, Ne.symm hne, hst]
  | case6 d value => simp [Meets, Retries]
  | case7 d value behind tried ih =>
    rw [ih aligned_start, retries_some, retries_some, ← exists_suffix_iff]
    simp [Meets]

theorem wildcardMatch_iff_meets : wildcardMatch pattern value = true ↔ Meets pattern value := by
  rw [wildcardMatch, wildcardLoop_iff (by simp [Aligned])]
  simp [Retries]

theorem Matches.meets (hst : star ∉ value) (h : Matches pattern value) : Meets pattern value := by
  induction pattern generalizing value with
  | nil => exact h
  | cons c pattern ih =>
    rw [Matches] at h
    rw [Meets]
    split_ifs at h with hc
    · obtain ⟨front, rest, rfl, h⟩ := h
      have hne : (front ++ rest).head? ≠ some c := fun hh => hst (hc ▸ mem_of_head? hh)
      rw [if_neg hne]
      exact ⟨hc, rest, suffix_append .., ih (fun hm => hst (mem_append_right _ hm)) h⟩
    · obtain ⟨rest, rfl, h⟩ := h
      rw [head?_cons, if_pos rfl]
      exact ih (fun hm => hst (mem_cons_of_mem _ hm)) h

/-- On values without a star, such as the names of actions, the match is exact. -/
theorem wildcardMatch_iff_matches (hst : star ∉ value) : wildcardMatch pattern value = true ↔ Matches pattern value :=
  wildcardMatch_iff_meets.trans ⟨Meets.matches, Matches.meets hst⟩

end Wildcards

/-- **A wildcard pattern matches as it should if and only if no match is lost to a star of the value**:
either the value cannot be split, or it can so that each star that comes upon a star stands for it alone. -/
theorem wildcard_match_iff (pattern value : GoString) :
    (wildcardMatch pattern value = true ↔ Matches pattern value) ↔
      (Matches pattern value → Meets pattern value) := by
  rw [wildcardMatch_iff_meets]
  exact ⟨fun h => h.mpr, fun h => ⟨Meets.matches, h⟩⟩

/-- `*` does not match `*a`. -/
theorem star_misses_star : Matches [star] [star, 97] ∧ wildcardMatch [star] [star, 97] = false := by
  refine ⟨?_, ?_⟩
  · exact ⟨[star, 97], [], rfl, rfl⟩
  · simp [wildcardMatch, wildcardLoop]

end AeroVault.Auth
