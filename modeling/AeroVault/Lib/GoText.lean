import Mathlib

/-! Go's string and path functions, on the characters of a string.

Only what the modelled packages call: `strings.HasPrefix`, `strings.TrimPrefix`, `strings.Contains`,
`strings.ContainsAny`, `strings.Trim`, `strings.TrimSpace`, `strings.ToLower`,
`strings.EqualFold`, `path.Clean` and `path.Join`. They work on `toList` so that
a concrete call evaluates. -/
namespace AeroVault.Lib.GoText

def hasPrefix (s p : String) : Bool := p.toList.isPrefixOf s.toList

/-- `strings.TrimPrefix`. -/
def trimPrefix (s p : String) : String :=
  if hasPrefix s p then String.ofList (s.toList.drop p.toList.length) else s

def contains (s sub : String) : Bool := s.toList.tails.any sub.toList.isPrefixOf

def containsAny (s chars : String) : Bool := s.toList.any (chars.toList.contains ·)

/-- `strings.TrimFunc`: characters that satisfy `p` are cut from both ends. -/
def trimFunc (p : Char → Bool) (s : String) : String :=
  String.ofList ((s.toList.dropWhile p).rdropWhile p)

/-- `strings.Trim` with a one-character cutset. -/
def trim (c : Char) (s : String) : String := trimFunc (· == c) s

/-- `unicode.IsSpace`. -/
def isSpace (c : Char) : Bool :=
  [0x09, 0x0A, 0x0B, 0x0C, 0x0D, 0x20, 0x85, 0xA0, 0x1680, 0x2000, 0x2001, 0x2002, 0x2003, 0x2004,
    0x2005, 0x2006, 0x2007, 0x2008, 0x2009, 0x200A, 0x2028, 0x2029, 0x202F, 0x205F, 0x3000].contains
      c.toNat

def trimSpace (s : String) : String := trimFunc isSpace s

/-- `strings.ToLower` and `strings.ToUpper`, on the ASCII letters. -/
def toLower (s : String) : String := String.ofList (s.toList.map Char.toLower)

def toUpper (s : String) : String := String.ofList (s.toList.map Char.toUpper)

def equalFold (s t : String) : Bool := toLower s == toLower t

/-- The characters that lie within the first `n` bytes. -/
def takeChars (n : Nat) : List Char → List Char
  | [] => []
  | c :: rest => if c.utf8Size ≤ n then c :: takeChars (n - c.utf8Size) rest else []

/-- `s[:n]`, of a longer string; what is left of a character that is cut is dropped. -/
def takeBytes (n : Nat) (s : String) : String := String.ofList (takeChars n s.toList)

/-! ### Paths -/

/-- One path element against the elements kept so far, the last one first. -/
def cleanElement (rooted : Bool) (kept : List (List Char)) (e : List Char) : List (List Char) :=
  if e = [] ∨ e = ['.'] then kept
  else if e = ['.', '.'] then
    match kept with
    | [] => if rooted then [] else [e]
    | top :: below => if top = ['.', '.'] then e :: kept else below
  else e :: kept

/-- `path.Clean`. -/
def clean (s : String) : String :=
  let rooted := s.toList.head? == some '/'
  let elements := ((s.toList.splitOn '/').foldl (cleanElement rooted) []).reverse
  let body := ['/'].intercalate elements
  if rooted then String.ofList ('/' :: body)
  else if body = [] then "." else String.ofList body

/-- `path.Join`: empty elements are ignored and the result is cleaned. -/
def join (elements : List String) : String :=
  let nonempty := elements.filter (· ≠ "")
  if nonempty = [] then "" else clean ("/".intercalate nonempty)

example : join ["default", "b", "a//./x/../k/"] = "default/b/a/k" := by decide

theorem contains_iff {s sub : String} : contains s sub = true ↔ sub.toList <:+: s.toList := by
  simp [contains, List.infix_iff_prefix_suffix, and_comm]

/-- What `path.Clean` keeps where nothing leads upwards. -/
theorem foldl_cleanElement {rooted : Bool} {elements : List (List Char)} (hup : ['.', '.'] ∉ elements)
    (kept : List (List Char)) : elements.foldl (cleanElement rooted) kept =
      (elements.filter fun e => e ≠ [] ∧ e ≠ ['.']).reverse ++ kept := by
  induction elements generalizing kept with
  | nil => rfl
  | cons e rest ih =>
    have he : e ≠ ['.', '.'] := fun h => hup (h ▸ List.mem_cons_self)
    rw [List.foldl_cons, ih fun h => hup (List.mem_cons_of_mem _ h), cleanElement.eq_def]
    by_cases hd : e = [] ∨ e = ['.']
    · rw [if_pos hd, List.filter_cons_of_neg (by simpa [imp_iff_not_or] using hd)]
    · rw [if_neg hd, if_neg he, List.filter_cons_of_pos (by simpa using hd)]
      simp

/-! ### Trimming twice -/

theorem dropWhile_trimmed {α : Type*} (p : α → Bool) (l : List α) :
    ((l.dropWhile p).rdropWhile p).dropWhile p = (l.dropWhile p).rdropWhile p := by
  rcases hm : (l.dropWhile p).rdropWhile p with _ | ⟨a, rest⟩
  · rfl
  have hpre : (a :: rest) <+: l.dropWhile p := hm ▸ List.rdropWhile_prefix p _
  obtain ⟨tail, ht⟩ := hpre
  have ha : p a = false := by
    have hh := List.head?_dropWhile_not p l
    rw [← ht] at hh
    simpa using hh
  simp [ha]

/-- A trimmed string is its own trim. -/
theorem trimFunc_trimFunc {p : Char → Bool} {s : String} : trimFunc p (trimFunc p s) = trimFunc p s := by
  simp only [trimFunc, String.toList_ofList, dropWhile_trimmed, List.rdropWhile_idempotent]

theorem trim_trim (c : Char) (s : String) : trim c (trim c s) = trim c s := trimFunc_trimFunc

/-! ### What trimming keeps -/

open List

/-- Trimming one end leaves a passage that starts with another character. -/
theorem infix_dropWhile {α : Type*} {p : α → Bool} {q l : List α} (hq : q.head?.map p = some false)
    (h : q <:+: l) : q <:+: l.dropWhile p := by
  obtain ⟨before, behind, rfl⟩ := h
  cases q with
  | nil => cases hq
  | cons a q =>
    have ha : p a = false := by simpa using hq
    rw [append_assoc, dropWhile_append, cons_append, dropWhile_cons_of_neg (by simp [ha])]
    split_ifs
    · exact ⟨[], behind, rfl⟩
    · exact ⟨_, behind, append_assoc ..⟩

theorem infix_trimFunc {p : Char → Bool} {q l : List Char} (hq : q.head?.map p = some false)
    (hq' : q.getLast?.map p = some false) (h : q <:+: l) : q <:+: (trimFunc p (String.ofList l)).toList := by
  have hrev := infix_dropWhile (by rwa [head?_reverse]) <| reverse_infix.mpr (infix_dropWhile hq h)
  simpa [trimFunc, rdropWhile] using reverse_infix.mpr hrev

end AeroVault.Lib.GoText
