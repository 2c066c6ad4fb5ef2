import Mathlib

/-! Texts of bytes that can be taken apart again.

A join can be split at its separator if no piece contains it (`joined_inj`), or if one
piece does and the number of pieces before and after it is known (`joined_around_inj`). A
text written letter by letter in a code can be read back if no code word begins another
(`PrefixFree.flatMap_injective`). `valuesOf` reads a list of pairs by key, and
`TextFunctions` has what is used of Go's functions on texts: what they never add. -/
namespace AeroVault.Lib
open List

/-- A Go string, or a slice of bytes. -/
abbrev GoString := List UInt8

/-! ### Joins -/

section Joins
variable {α : Type*} {sep : α} {l : List (List α)}

theorem joined_ne_nil (hpc : ∀ p ∈ l, p ≠ []) (hne : l ≠ []) :
    [sep].intercalate l ≠ [] := by
  cases l with
  | nil => exact absurd rfl hne
  | cons p rest =>
    have hp := hpc p mem_cons_self
    cases rest with
    | nil => simpa using hp
    | cons q rest => simp

theorem mem_joined {a : α} (h : a ∈ [sep].intercalate l) : a = sep ∨ ∃ p ∈ l, a ∈ p := by
  induction l with
  | nil => simp at h
  | cons p rest ih =>
    cases rest with
    | nil => exact .inr ⟨p, mem_cons_self, by simpa using h⟩
    | cons q rest =>
      rw [intercalate_cons_cons, mem_append, mem_append, mem_singleton] at h
      obtain (h | h) | h := h
      · exact .inr ⟨p, mem_cons_self, h⟩
      · exact .inl h
      · obtain h | ⟨p', hp', h⟩ := ih h
        · exact .inl h
        · exact .inr ⟨p', mem_cons_of_mem _ hp', h⟩

theorem infix_joined {p : List α} (hp : p ∈ l) : p <:+: [sep].intercalate l := by
  induction l with
  | nil => simp at hp
  | cons q rest ih =>
    cases rest with
    | nil => simp_all
    | cons q' rest =>
      rw [intercalate_cons_cons]
      obtain rfl | hp := mem_cons.mp hp
      · exact ⟨[], [sep] ++ [sep].intercalate (q' :: rest), by simp⟩
      · exact (ih hp).trans (suffix_append _ _).isInfix

variable [DecidableEq α]

/-- A text is told from what follows its end. -/
theorem ended_inj {s s' after after' : List α} (hs : sep ∉ s) (hs' : sep ∉ s')
    (h : s ++ sep :: after = s' ++ sep :: after') : s = s' ∧ after = after' := by
  have hsp := congrArg (splitOn sep) h
  rw [splitOn_append_cons_self_of_not_mem hs, splitOn_append_cons_self_of_not_mem hs'] at hsp
  obtain rfl := (cons.inj hsp).1
  exact ⟨rfl, (cons.inj (append_cancel_left h)).2⟩

theorem not_mem_of_mem_splitOn {l piece : List α} (h : piece ∈ l.splitOn sep) : sep ∉ piece := by
  induction l generalizing piece with
  | nil =>
    rw [splitOn_nil, mem_singleton] at h
    simp [h]
  | cons a l ih =>
    obtain ⟨first, others, heq⟩ := exists_cons_of_ne_nil (splitOn_ne_nil sep l)
    rw [splitOn_cons_eq_if_modifyHead, heq] at h
    rw [heq] at ih
    by_cases ha : a = sep
    · rw [if_pos (by simpa using ha), mem_cons] at h
      obtain rfl | h := h
      · simp
      · exact ih h
    · rw [if_neg (by simpa using ha), modifyHead_cons, mem_cons] at h
      obtain rfl | h := h
      · simp [Ne.symm ha, ih mem_cons_self]
      · exact ih (mem_cons_of_mem _ h)

theorem mem_of_mem_splitOn {l piece : List α} {a : α} (h : piece ∈ l.splitOn sep) (ha : a ∈ piece) :
    a ∈ l := by
  have hj : a ∈ [sep].intercalate (l.splitOn sep) := (infix_joined h).subset ha
  rwa [intercalate_splitOn] at hj

/-- Splitting a join splits its pieces. -/
theorem splitOn_joined (hne : l ≠ []) :
    ([sep].intercalate l).splitOn sep = l.flatMap (splitOn sep) := by
  induction l with
  | nil => exact absurd rfl hne
  | cons p rest ih =>
    cases rest with
    | nil => simp
    | cons q rest =>
      rw [intercalate_cons_cons, append_assoc, singleton_append,
        splitOn_append_cons_self, ih (cons_ne_nil q rest)]
      rfl

theorem flatMap_splitOn (hl : ∀ p ∈ l, sep ∉ p) : l.flatMap (splitOn sep) = l := by
  by_cases hne : l = []
  · rw [hne]
    rfl
  · rw [← splitOn_joined hne, splitOn_intercalate sep hl hne]

/-- **Two joins are equal only if their pieces are**, where no piece contains the separator. -/
theorem joined_inj {l' : List (List α)} (hl : ∀ p ∈ l, sep ∉ p) (hl' : ∀ p ∈ l', sep ∉ p)
    (hne : l ≠ []) (hne' : l' ≠ []) (h : [sep].intercalate l = [sep].intercalate l') : l = l' := by
  rw [← splitOn_intercalate sep hl hne, h, splitOn_intercalate sep hl' hne']

/-- There may be no pieces if none of them is empty. -/
theorem joined_inj_of_ne_nil {l' : List (List α)} (hl : ∀ p ∈ l, sep ∉ p ∧ p ≠ [])
    (hl' : ∀ p ∈ l', sep ∉ p ∧ p ≠ []) (h : [sep].intercalate l = [sep].intercalate l') :
    l = l' := by
  have hnil {m : List (List α)} (hm : ∀ p ∈ m, sep ∉ p ∧ p ≠ []) (h : [sep].intercalate m = []) : m = [] :=
    by_contra fun hne => joined_ne_nil (fun p hp => (hm p hp).2) hne h
  by_cases hne : l = []
  · rw [hne] at h ⊢
    exact (hnil hl' h.symm).symm
  · by_cases hne' : l' = []
    · rw [hne'] at h
      exact absurd (hnil hl h) hne
    · exact joined_inj (fun p hp => (hl p hp).1) (fun p hp => (hl' p hp).1) hne hne' h

/-- **One piece of a join may contain the separator**, if it is known how many are before it
and how many after it. -/
theorem joined_around_inj {before before' after after' : List (List α)} {piece piece' : List α}
    (hb : ∀ p ∈ before, sep ∉ p) (hb' : ∀ p ∈ before', sep ∉ p) (ha : ∀ p ∈ after, sep ∉ p)
    (ha' : ∀ p ∈ after', sep ∉ p) (hbl : before.length = before'.length) (hal : after.length = after'.length)
    (h : [sep].intercalate (before ++ piece :: after) = [sep].intercalate (before' ++ piece' :: after')) :
    before = before' ∧ piece = piece' ∧ after = after' := by
  have hsp := congrArg (splitOn sep) h
  rw [splitOn_joined (by simp), splitOn_joined (by simp), flatMap_append, flatMap_append,
    flatMap_cons, flatMap_cons, flatMap_splitOn hb, flatMap_splitOn hb',
    flatMap_splitOn ha, flatMap_splitOn ha'] at hsp
  obtain ⟨hbf, hrs⟩ := append_inj hsp hbl
  obtain ⟨hpiec, haf⟩ := append_inj' hrs hal
  have hpc := congrArg [sep].intercalate hpiec
  rw [intercalate_splitOn, intercalate_splitOn] at hpc
  exact ⟨hbf, hpc, haf⟩

end Joins

/-! ### Codes -/

section Codes
variable {α β : Type*}

/-- What follows a code word does not change which it is. -/
def PrefixFree (code : α → List β) : Prop :=
  ∀ a b after after', code a ++ after = code b ++ after' → a = b

/-- **A text in a code can be read back**, if no code word begins another or is empty. -/
theorem PrefixFree.flatMap_injective {code : α → List β} (h : PrefixFree code)
    (hne : ∀ a, code a ≠ []) : Function.Injective (flatMap code) := by
  intro s t heq
  induction s generalizing t with
  | nil =>
    cases t with
    | nil => rfl
    | cons b t => simp [hne] at heq
  | cons a s ih =>
    cases t with
    | nil => simp [hne] at heq
    | cons b t =>
      obtain rfl := h _ _ _ _ heq
      rw [ih (append_cancel_left heq)]

end Codes

/-! ### Values by key -/

section Values
variable {κ β : Type*} [DecidableEq κ]

/-- The values that a list of pairs has for a key. -/
def valuesOf (pairs : List (κ × β)) (key : κ) : List β :=
  (pairs.filter fun pair => pair.1 = key).map Prod.snd

theorem valuesOf_eq_nil {pairs : List (κ × β)} {key : κ} (h : key ∉ pairs.map Prod.fst) :
    valuesOf pairs key = [] := by
  rw [valuesOf, map_eq_nil_iff, filter_eq_nil_iff]
  intro pair hpr hkey
  exact h (mem_map.mpr ⟨pair, hpr, of_decide_eq_true hkey⟩)

/-- The pairs written out key by key. -/
def byKey (keys : List κ) (values : κ → List β) : List (κ × β) :=
  keys.flatMap fun key => (values key).map (key, ·)

theorem valuesOf_byKey {keys : List κ} (hnd : keys.Nodup) (values : κ → List β) (key : κ) :
    valuesOf (byKey keys values) key = if key ∈ keys then values key else [] := by
  induction keys with
  | nil => rfl
  | cons k keys ih =>
    obtain ⟨hk, hnd⟩ := nodup_cons.mp hnd
    have hcn : valuesOf (byKey (k :: keys) values) key =
        valuesOf ((values k).map (k, ·)) key ++ valuesOf (byKey keys values) key := by
      simp [valuesOf, byKey]
    rw [hcn, ih hnd]
    by_cases hkey : k = key
    · subst hkey
      simp [valuesOf, hk, filter_map]
    · simp [valuesOf, hkey, Ne.symm hkey, filter_map]

/-- **Pairs written out key by key, each key's values in some order, keep the values of
every key.** -/
theorem valuesOf_byKey_perm {pairs : List (κ × β)} {keys : List κ}
    (hkeys : keys.Perm (pairs.map Prod.fst).dedup) {values : κ → List β}
    (hv : ∀ key, (values key).Perm (valuesOf pairs key)) (key : κ) :
    (valuesOf (byKey keys values) key).Perm (valuesOf pairs key) := by
  rw [valuesOf_byKey (hkeys.nodup_iff.mpr (nodup_dedup _))]
  by_cases hkey : key ∈ keys
  · rw [if_pos hkey]
    exact hv key
  · rw [if_neg hkey, valuesOf_eq_nil fun h => hkey (hkeys.mem_iff.mpr (mem_dedup.mpr h))]

end Values

/-! ### Go's functions on texts -/

/-- `strings.ToLower`, `strings.TrimSpace`, `strings.Fields` and `time.Parse` with the layout
`20060102T150405Z`, of which only this is used. -/
structure TextFunctions where
  toLower : GoString → GoString
  trimSpace : GoString → GoString
  fields : GoString → List GoString
  /-- The time in nanoseconds. -/
  parseTime : GoString → Option Int
  /-- Only lower-case letters and bytes outside ASCII are new. -/
  toLower_adds : ∀ {s b}, b ∈ toLower s → b < 97 → b ∈ s
  trimSpace_adds : ∀ {s b}, b ∈ trimSpace s → b ∈ s
  fields_adds : ∀ {s field b}, field ∈ fields s → b ∈ field → b ∈ s
  /-- A date has digits, the letters of the layout, and the point or comma of a fraction. -/
  parseTime_bytes : ∀ {s t b}, parseTime s = some t → b ∈ s →
    48 ≤ b ∧ b ≤ 57 ∨ b ∈ [84, 90, 44, 46]

end AeroVault.Lib
