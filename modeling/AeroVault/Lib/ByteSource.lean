import AeroVault.Lib.Attempt

/-! Reading from a source of bytes.

A source has some bytes left and then ends with an error, which is `io.EOF` or a failure.
`readString` is `bufio.Reader.ReadString` and `readFull` is `io.ReadFull`. The lemmas say
what each takes from the source, and when its error is `io.EOF`: a read of a line that has
no end, and a read of some bytes when there is none. -/
namespace AeroVault.Lib

inductive SourceError
  | eof
  | unexpectedEOF
  | other
  deriving DecidableEq

structure Source where
  bytes : List UInt8
  ending : SourceError
  deriving DecidableEq

/-- The bytes up to the first delimiter, and the others. -/
def cutAfter (delim : UInt8) : List UInt8 → Option (List UInt8 × List UInt8)
  | [] => none
  | b :: bytes =>
    if b = delim then some ([b], bytes) else (cutAfter delim bytes).map fun cut => (b :: cut.1, cut.2)

theorem cutAfter_eq_none {delim : UInt8} {bytes : List UInt8} :
    cutAfter delim bytes = none ↔ delim ∉ bytes := by
  induction bytes with
  | nil => simp [cutAfter]
  | cons b bytes ih =>
    by_cases hb : b = delim
    · simp [cutAfter, hb]
    · simp [cutAfter, hb, ih, Ne.symm hb]

theorem cutAfter_ended {delim : UInt8} {front : List UInt8} (h : delim ∉ front) {rest : List UInt8} :
    cutAfter delim (front ++ delim :: rest) = some (front ++ [delim], rest) := by
  induction front with
  | nil => simp [cutAfter]
  | cons b front ih =>
    rw [List.mem_cons, not_or] at h
    obtain ⟨hb, hf⟩ := h
    simp [cutAfter, Ne.symm hb, ih hf]

theorem cutAfter_eq_some {delim : UInt8} {bytes line rest : List UInt8} :
    cutAfter delim bytes = some (line, rest) ↔
      bytes = line ++ rest ∧ ∃ front, delim ∉ front ∧ line = front ++ [delim] := by
  constructor
  · intro h
    have hm : delim ∈ bytes := by
      by_contra hno
      rw [cutAfter_eq_none.mpr hno] at h
      cases h
    obtain ⟨front, after, rfl, hf⟩ := List.eq_append_cons_of_mem hm
    rw [cutAfter_ended hf] at h
    cases h
    exact ⟨by simp, front, hf, rfl⟩
  · intro h
    obtain ⟨rfl, front, hf, rfl⟩ := h
    rw [List.append_assoc]
    exact cutAfter_ended hf

namespace Source

/-- A line with its delimiter. -/
def readString (delim : UInt8) (s : Source) : Except SourceError (List UInt8 × Source) :=
  match cutAfter delim s.bytes with
  | none => .error s.ending
  | some (line, rest) => .ok (line, ⟨rest, s.ending⟩)

def readFull (n : Nat) (s : Source) : Except SourceError (List UInt8 × Source) :=
  if n ≤ s.bytes.length then .ok (s.bytes.take n, ⟨s.bytes.drop n, s.ending⟩)
  else .error (if s.ending = .eof ∧ s.bytes ≠ [] then .unexpectedEOF else s.ending)

variable {delim : UInt8} {n : Nat} {s s' : Source} {line data : List UInt8} {e : SourceError}

theorem readString_ok_iff :
    s.readString delim = .ok (line, s') ↔
      cutAfter delim s.bytes = some (line, s'.bytes) ∧ s'.ending = s.ending := by
  obtain ⟨bytes', ending'⟩ := s'
  unfold readString
  cases cutAfter delim s.bytes with
  | none => simp
  | some cut => simp [Prod.ext_iff, and_assoc, eq_comm]

theorem readString_error_iff : s.readString delim = .error e ↔ delim ∉ s.bytes ∧ s.ending = e := by
  unfold readString
  rw [← cutAfter_eq_none]
  cases cutAfter delim s.bytes with
  | none | some => simp

theorem readFull_ok_iff :
    s.readFull n = .ok (data, s') ↔ data.length = n ∧ s.bytes = data ++ s'.bytes ∧ s'.ending = s.ending := by
  obtain ⟨bytes, ending⟩ := s
  obtain ⟨bytes', ending'⟩ := s'
  unfold readFull
  constructor
  · intro h
    split at h
    next hle =>
      obtain ⟨rfl, rfl, rfl⟩ : bytes.take n = data ∧ bytes.drop n = bytes' ∧ ending = ending' := by
        simpa using h
      exact ⟨List.length_take_of_le hle, (List.take_append_drop n bytes).symm, rfl⟩
    · cases h
  · intro h
    obtain ⟨rfl, rfl, rfl⟩ := h
    simp

theorem readFull_eof_iff : s.readFull n = .error .eof ↔ s.ending = .eof ∧ s.bytes = [] ∧ 0 < n := by
  unfold readFull
  by_cases hle : n ≤ s.bytes.length
  · simp only [hle, if_true, reduceCtorEq, false_iff]
    intro h
    rw [h.2.1, List.length_nil] at hle
    omega
  · rw [if_neg hle]
    by_cases hnil : s.bytes = []
    · have hn : 0 < n := by
        omega
      simp [hnil, hn]
    · by_cases hend : s.ending = .eof <;> simp [hnil, hend]

end Source

end AeroVault.Lib
