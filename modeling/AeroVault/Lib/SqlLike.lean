import Mathlib

/-! `LIKE`, as SQLite and PostgreSQL evaluate it.

A pattern is a list of tokens: a letter stands for itself, `_` for any letter and `%` for any
text; the escape letter takes the meaning from the next one. PostgreSQL compares letters as they
are, SQLite without regard to the case of the ASCII letters and only up to a NUL. A pattern that
escapes a text without NUL and ends in `%` matches what begins with the text, up to that
comparison (`like_literalPrefix`). -/
namespace AeroVault.Lib.SqlLike
open List

inductive Dialect
  | sqlite | postgres
  deriving DecidableEq

/-- What two letters are compared by. -/
def Dialect.fold : Dialect → Char → Char
  | sqlite, c => c.toLower
  | postgres, c => c

/-- How far a text is read: SQLite stops at the first NUL. -/
def Dialect.read : Dialect → List Char → List Char
  | sqlite, text => text.takeWhile (· != '\x00')
  | postgres, text => text

inductive Token
  | letter (c : Char)
  | anyLetter
  | anyText
  deriving DecidableEq

def token (c : Char) : Token :=
  if c = '%' then .anyText else if c = '_' then .anyLetter else .letter c

/-- A pattern with an escape letter. -/
def tokens (escape : Char) : List Char → List Token
  | [] => []
  | [c] => [token c]
  | c :: d :: rest =>
    if c = escape then .letter d :: tokens escape rest else token c :: tokens escape (d :: rest)

def matchesTokens (fold : Char → Char) : List Token → List Char → Bool
  | [], text => text.isEmpty
  | .letter c :: ts, d :: text => fold c == fold d && matchesTokens fold ts text
  | .anyLetter :: ts, _ :: text => matchesTokens fold ts text
  | .anyText :: ts, text => text.tails.any (matchesTokens fold ts)
  | _ :: _, [] => false

/-- `text LIKE pattern ESCAPE escape`. -/
def like (d : Dialect) (escape : Char) (pattern text : List Char) : Bool :=
  matchesTokens d.fold (tokens escape (d.read pattern)) (d.read text)

/-- A text with the letters escaped that have a meaning in a pattern. -/
def escaped (escape : Char) (text : List Char) : List Char :=
  text.flatMap fun c => if c = escape ∨ c = '%' ∨ c = '_' then [escape, c] else [c]

/-- The pattern of the texts that begin with a text. -/
def literalPrefix (escape : Char) (text : List Char) : List Char := escaped escape text ++ ['%']

/-- An escaped text stands for itself. -/
theorem tokens_escaped_append (escape : Char) (text rest : List Char) :
    tokens escape (escaped escape text ++ rest) = text.map .letter ++ tokens escape rest := by
  induction text with
  | nil => rfl
  | cons c text ih =>
    by_cases hc : c = escape ∨ c = '%' ∨ c = '_'
    · have hpt : escaped escape (c :: text) ++ rest = escape :: c :: (escaped escape text ++ rest) := by
        simp [escaped, hc]
      rw [hpt, tokens, if_pos rfl, ih]
      rfl
    · have hpt : escaped escape (c :: text) ++ rest = c :: (escaped escape text ++ rest) := by
        simp [escaped, hc]
      have ht : token c = .letter c := by
        unfold token
        rw [if_neg fun h => hc (.inr (.inl h)), if_neg fun h => hc (.inr (.inr h))]
      rw [hpt, map_cons, cons_append, ← ih]
      cases escaped escape text ++ rest with
      | nil => simp [tokens, ht]
      | cons d rest => rw [tokens, if_neg fun h => hc (.inl h), ht]

theorem matchesTokens_literal (fold : Char → Char) (text key : List Char) :
    matchesTokens fold (text.map .letter ++ [.anyText]) key = (text.map fold).isPrefixOf (key.map fold) := by
  induction text generalizing key with
  | nil =>
    have hend : key.tails.any (matchesTokens fold []) = true :=
      any_eq_true.mpr ⟨[], (mem_tails _ _).mpr nil_suffix, rfl⟩
    rw [map_nil, nil_append, matchesTokens, hend, map_nil, isPrefixOf_nil_left]
  | cons c text ih =>
    cases key with
    | nil => rfl
    | cons d key =>
      show (fold c == fold d && matchesTokens fold (text.map .letter ++ [.anyText]) key) = _
      rw [ih]
      rfl

variable {d : Dialect} {escape : Char} {text : List Char}

theorem read_of_notMem (d : Dialect) (h : '\x00' ∉ text) : d.read text = text := by
  cases d with
  | sqlite => exact takeWhile_eq_self_iff.mpr fun c hc => bne_iff_ne.mpr (ne_of_mem_of_not_mem hc h)
  | postgres => rfl

theorem nul_mem_escaped (hes : escape ≠ '\x00') : '\x00' ∈ escaped escape text ↔ '\x00' ∈ text := by
  simp only [escaped, mem_flatMap]
  constructor
  · rintro ⟨c, hc, hin⟩
    split_ifs at hin
    · obtain h | h := mem_pair.mp hin
      exacts [absurd h.symm hes, h ▸ hc]
    · exact mem_singleton.mp hin ▸ hc
  · exact fun h => ⟨_, h, by simp [Ne.symm hes]⟩

theorem nul_notMem_literalPrefix (hes : escape ≠ '\x00') (h : '\x00' ∉ text) :
    '\x00' ∉ literalPrefix escape text := by
  simp [literalPrefix, nul_mem_escaped hes, h]

theorem eq_nul_of_toLower {c : Char} (h : c.toLower = '\x00') : c = '\x00' := by
  unfold Char.toLower at h
  split_ifs at h with hc
  · have hval : (c.toNat + 32) % 4294967296 = 0 := by
      simpa using congrArg (fun d => d.val.toNat) h
    have hle : c.toNat ≤ 90 := hc.2
    omega
  · exact h

/-- Where the text ends at a NUL makes no difference to a beginning without one. -/
theorem prefix_read_iff (d : Dialect) (h : '\x00' ∉ text) (key : List Char) :
    text.map d.fold <+: (d.read key).map d.fold ↔ text.map d.fold <+: key.map d.fold := by
  cases d with
  | postgres => exact .rfl
  | sqlite =>
    induction text generalizing key with
    | nil => simp
    | cons c text ih =>
      obtain ⟨hc, htext⟩ := not_or.mp (mt mem_cons.mpr h)
      cases key with
      | nil => exact .rfl
      | cons e key =>
        by_cases he : e = '\x00'
        · subst he
          have hne : ¬ c.toLower = '\x00' := fun hl => hc (eq_nul_of_toLower hl).symm
          simp [Dialect.read, Dialect.fold, hne]
        · have hread : Dialect.sqlite.read (e :: key) = e :: Dialect.sqlite.read key := by simp [Dialect.read, he]
          rw [hread]
          simp only [map_cons, List.cons_prefix_cons, ih htext key]

/-- **The escaped pattern matches what begins with the text**, up to the dialect's comparison. -/
theorem like_literalPrefix (d : Dialect) (hes : escape ≠ '\x00') (h : '\x00' ∉ text) (key : List Char) :
    like d escape (literalPrefix escape text) key = true ↔ text.map d.fold <+: key.map d.fold := by
  rw [like, read_of_notMem d (nul_notMem_literalPrefix hes h), literalPrefix, tokens_escaped_append,
    ← prefix_read_iff d h key, ← isPrefixOf_iff_prefix]
  exact Bool.eq_iff_iff.mp (matchesTokens_literal d.fold text (d.read key))

theorem read_sqlite_append (h : '\x00' ∉ text) (rest : List Char) :
    Dialect.sqlite.read (text ++ '\x00' :: rest) = text := by
  have hall : ∀ c ∈ text, (c != '\x00') = true := fun c hc => bne_iff_ne.mpr (ne_of_mem_of_not_mem hc h)
  simp [Dialect.read, takeWhile_append_of_pos hall]

theorem matchesTokens_letters (fold : Char → Char) (text : List Char) :
    matchesTokens fold (text.map .letter) text = true := by
  induction text with
  | nil => rfl
  | cons c text ih => simp [matchesTokens, ih]

/-- A text that begins with another matches its pattern in every dialect. -/
theorem like_of_isPrefix (d : Dialect) (hes : escape ≠ '\x00') {key : List Char} (h : text <+: key) :
    like d escape (literalPrefix escape text) key = true := by
  obtain ⟨rest, rfl⟩ := h
  have hpre (read : List Char) (hp : text <+: read) :
      matchesTokens d.fold (tokens escape (literalPrefix escape text)) read = true := by
    rw [literalPrefix, tokens_escaped_append]
    exact (matchesTokens_literal d.fold text read).trans (List.isPrefixOf_iff_prefix.mpr (hp.map _))
  cases d with
  | postgres => exact hpre _ (prefix_append ..)
  | sqlite =>
    by_cases hnul : '\x00' ∈ text
    · -- Pattern and text both end where the NUL is.
      obtain ⟨front, back, rfl, hfront⟩ := eq_append_cons_of_mem hnul
      have hpt : literalPrefix escape (front ++ '\x00' :: back) =
          escaped escape front ++ '\x00' :: literalPrefix escape back := by
        simp [literalPrefix, escaped, Ne.symm hes]
      rw [like, hpt, append_assoc, cons_append, read_sqlite_append hfront,
        read_sqlite_append fun hm => hfront ((nul_mem_escaped hes).mp hm)]
      have htk := tokens_escaped_append escape front []
      rw [append_nil, tokens, append_nil] at htk
      rw [htk]
      exact matchesTokens_letters _ front
    · rw [like, read_of_notMem _ (nul_notMem_literalPrefix hes hnul)]
      refine hpre _ ?_
      rw [Dialect.read, takeWhile_append_of_pos fun c hc => bne_iff_ne.mpr (ne_of_mem_of_not_mem hc hnul)]
      exact prefix_append ..

end AeroVault.Lib.SqlLike
