import AeroVault.Lib.ByteText

/-! Keys in byte order.

The texts that begin with one text lie next to each other in the lexicographic order
(`isPrefix_of_between`), and the first place where a separator occurs in a text does not
depend on what follows that occurrence (`index_append`). -/
namespace AeroVault.Lib
open List

/-- Bytes in their numerical order. -/
instance instLinearOrderUInt8 : LinearOrder UInt8 where
  le_refl := UInt8.le_refl
  le_trans _ _ _ := UInt8.le_trans
  lt_iff_le_not_ge := Std.LawfulOrderLT.lt_iff
  le_antisymm _ _ := UInt8.le_antisymm
  le_total := UInt8.le_total
  toDecidableLE := inferInstance
  toDecidableEq := inferInstance
  toDecidableLT := inferInstance

section Order
variable {α : Type*} [LinearOrder α]

theorem nil_lt_of_ne_nil {v : List α} (h : v ≠ []) : [] < v := by
  obtain ⟨a, rest, rfl⟩ := exists_cons_of_ne_nil h
  exact nil_lt_cons a rest

theorem le_of_isPrefix {v k : List α} (h : v <+: k) : v ≤ k := not_lt.mp (List.IsPrefix.le h)

theorem isPrefix_of_between {v m k : List α} (hv : v <+: k) (hle : v ≤ m) (hlt : m < k) : v <+: m := by
  rw [← not_lt] at hle
  induction v generalizing m k with
  | nil => exact List.nil_prefix
  | cons a v ih =>
    obtain ⟨tail, rfl⟩ := hv
    cases m with
    | nil => exact absurd (nil_lt_cons a v) hle
    | cons b m =>
      rw [cons_append, cons_lt_cons_iff] at hlt
      rw [cons_lt_cons_iff, not_or, not_and] at hle
      obtain h | ⟨rfl, hlt⟩ := hlt
      · exact absurd h hle.1
      · obtain ⟨rest, rfl⟩ := ih (prefix_append v tail) (hle.2 rfl) hlt
        exact ⟨rest, rfl⟩

end Order

section Index
variable {α : Type*} [DecidableEq α]

/-- `strings.Index`. -/
def index (sub : List α) : List α → Option Nat
  | [] => if sub = [] then some 0 else none
  | a :: rest => if sub <+: a :: rest then some 0 else (index sub rest).map (· + 1)

/-- The place found is an occurrence. -/
theorem index_occurs {sub text : List α} {i : Nat} (h : index sub text = some i) :
    ∃ front rest, text = front ++ sub ++ rest ∧ front.length = i := by
  induction text generalizing i with
  | nil =>
    rw [index] at h
    split_ifs at h with hsub
    cases h
    exact ⟨[], [], by simp [hsub], rfl⟩
  | cons a text ih =>
    rw [index] at h
    split_ifs at h with hsub
    · cases h
      obtain ⟨rest, hrs⟩ := hsub
      exact ⟨[], rest, hrs.symm, rfl⟩
    · obtain ⟨j, hj, rfl⟩ := Option.map_eq_some_iff.mp h
      obtain ⟨front, rest, rfl, rfl⟩ := ih hj
      exact ⟨a :: front, rest, rfl, rfl⟩

theorem index_le {sub text : List α} {i : Nat} (h : index sub text = some i) :
    i + sub.length ≤ text.length := by
  obtain ⟨front, rest, rfl, rfl⟩ := index_occurs h
  rw [← length_append]
  exact (prefix_append _ rest).length_le

/-- No occurrence comes before the place found. -/
theorem index_first (sub front rest : List α) :
    ∃ i ≤ front.length, index sub (front ++ sub ++ rest) = some i := by
  induction front with
  | nil =>
    refine ⟨0, le_rfl, ?_⟩
    rw [nil_append]
    cases happ : sub ++ rest with
    | nil => simp [index, (append_eq_nil_iff.mp happ).1]
    | cons a text => rw [index, if_pos (by rw [← happ]; exact prefix_append sub rest)]
  | cons a front ih =>
    obtain ⟨i, hi, hin⟩ := ih
    rw [cons_append, cons_append, index]
    split_ifs
    · exact ⟨0, Nat.zero_le _, rfl⟩
    · exact ⟨i + 1, by simpa using hi, by rw [hin]; rfl⟩

theorem index_eq_none_iff {sub text : List α} : index sub text = none ↔ ¬ sub <:+: text := by
  constructor
  · intro h hin
    obtain ⟨front, rest, rfl⟩ := hin
    obtain ⟨i, -, hi⟩ := index_first sub front rest
    rw [h] at hi
    cases hi
  · intro h
    cases hind : index sub text with
    | none => rfl
    | some i =>
      obtain ⟨front, rest, rfl, -⟩ := index_occurs hind
      exact absurd ⟨front, rest, rfl⟩ h

/-- What follows the first occurrence does not move it. -/
theorem index_append {sub text : List α} {i : Nat} (h : index sub text = some i) (tail : List α) :
    index sub (text.take (i + sub.length) ++ tail) = some i := by
  obtain ⟨front, rest, rfl, rfl⟩ := index_occurs h
  have ht : (front ++ sub ++ rest).take (front.length + sub.length) = front ++ sub := by
    rw [← length_append, take_left]
  obtain ⟨j, hj, hfound⟩ := index_first sub front tail
  obtain ⟨front', rest', happ, rfl⟩ := index_occurs hfound
  -- The first occurrence lies inside the part that was kept, so that the text has it as well.
  have hkp : front' ++ sub <+: front ++ sub := by
    refine prefix_of_prefix_length_le ⟨rest', happ.symm⟩ (prefix_append _ tail) ?_
    simpa using hj
  obtain ⟨more, hm⟩ := hkp
  obtain ⟨i, hi, hf⟩ := index_first sub front' (more ++ rest)
  rw [← append_assoc, hm, h] at hf
  cases hf
  rw [ht, hfound, le_antisymm hj hi]

end Index

end AeroVault.Lib
