import AeroVault.Lib.CivilTime

/-! RFC 3339 texts of instants in UTC, with the fraction of the second written without its
trailing zeros, and how they compare character by character.

Texts of one second differ in the fraction only. The fraction is closed by a `Z`, which is
above every digit and above the point: a fraction that is an initial segment of another
sorts after it, although it is the smaller number (`stripped_lt_iff`). -/
namespace AeroVault.Lib
open List

/-! ### Lists in lexicographic order -/

section Order
variable {α : Type*} [LinearOrder α] {l l' r r' : List α}

theorem append_lt_append_iff (h : l.length = l'.length) : l ++ r < l' ++ r' ↔ l < l' ∨ l = l' ∧ r < r' := by
  induction l generalizing l' with
  | nil =>
    obtain rfl := length_eq_zero_iff.mp h.symm
    simp
  | cons c l ih =>
    cases l' with
    | nil => cases h
    | cons c' l' =>
      have hrs := @ih l' (Nat.succ.inj h)
      simp only [cons_append, cons_lt_cons_iff, cons.injEq]
      tauto

/-- Lists of which none begins with the other are told apart before either ends. -/
theorem append_lt_append_of_apart (h : ¬ l <+: l') (h' : ¬ l' <+: l) : l ++ r < l' ++ r' ↔ l < l' := by
  induction l generalizing l' with
  | nil => exact absurd nil_prefix h
  | cons c l ih =>
    cases l' with
    | nil => exact absurd nil_prefix h'
    | cons c' l' =>
      simp only [cons_append, cons_lt_cons_iff]
      by_cases hc : c = c'
      · subst hc
        have hrs := @ih l' (fun hp => h (cons_prefix_cons.mpr ⟨rfl, hp⟩))
          (fun hp => h' (cons_prefix_cons.mpr ⟨rfl, hp⟩))
        rw [hrs]
      · simp [hc]

/-- A mark below all that can follow decides as the end of the list does. -/
theorem append_mark_lt_iff {mark : α} (hl : ∀ c ∈ l, mark < c) (hl' : ∀ c ∈ l', mark < c) (hne : l ≠ l') :
    l ++ mark :: r < l' ++ mark :: r' ↔ l < l' := by
  induction l generalizing l' with
  | nil =>
    cases l' with
    | nil => exact absurd rfl hne
    | cons c' l' => simp [cons_lt_cons_iff, hl' c' mem_cons_self]
  | cons c l ih =>
    cases l' with
    | nil =>
      have hc := hl c mem_cons_self
      simp [cons_lt_cons_iff, not_lt_of_gt hc, (ne_of_lt hc).symm]
    | cons c' l' =>
      simp only [cons_append, cons_lt_cons_iff]
      by_cases hc : c = c'
      · subst hc
        have hrs := @ih l' (fun a ha => hl a (mem_cons_of_mem _ ha))
          (fun a ha => hl' a (mem_cons_of_mem _ ha)) (fun h => hne (h ▸ rfl))
        rw [hrs]
      · simp [hc]

end Order

/-! ### Digits -/

def IsDigit (c : Char) : Prop := '0' ≤ c ∧ c ≤ '9'

variable {c : Char}

theorem lt_iff_toNat {d : Char} : c < d ↔ c.toNat < d.toNat := Iff.rfl

variable {d : Nat}

theorem isDigit_digitChar (h : d < 10) : IsDigit (Nat.digitChar d) := by
  have hcd := Nat.toNat_digitChar_of_lt_ten h
  refine ⟨not_lt.mp fun hlt => ?_, not_lt.mp fun hlt => ?_⟩
  · rw [lt_iff_toNat, hcd] at hlt
    exact absurd hlt (by simp)
  · rw [lt_iff_toNat, hcd] at hlt
    have hnn : '9'.toNat = 57 := rfl
    omega

theorem digitChar_lt_iff {e : Nat} (hd : d < 10) (he : e < 10) : Nat.digitChar d < Nat.digitChar e ↔ d < e := by
  rw [lt_iff_toNat, Nat.toNat_digitChar_of_lt_ten hd, Nat.toNat_digitChar_of_lt_ten he]
  omega

/-- The last `width` digits of a number. -/
def digitsOf : Nat → Nat → List Char
  | 0, _ => []
  | width + 1, n => digitsOf width (n / 10) ++ [Nat.digitChar (n % 10)]

theorem length_digitsOf (width n : Nat) : (digitsOf width n).length = width := by
  induction width generalizing n with
  | zero => rfl
  | succ width ih => simp [digitsOf, ih]

variable {width n : Nat}

theorem isDigit_of_mem_digitsOf (h : c ∈ digitsOf width n) : IsDigit c := by
  induction width generalizing n with
  | zero => cases h
  | succ width ih =>
    obtain h | h := mem_append.mp h
    · exact ih h
    · rw [mem_singleton.mp h]
      exact isDigit_digitChar (Nat.mod_lt _ (by decide))

variable {m : Nat}

/-- What a run of digits stands for. -/
def digitsValue (l : List Char) : Nat := l.foldl (fun v c => 10 * v + (c.toNat - 48)) 0

theorem digitsValue_concat {l : List Char} (h : d < 10) :
    digitsValue (l ++ [Nat.digitChar d]) = 10 * digitsValue l + d := by
  have hcd := Nat.toNat_digitChar_of_lt_ten h
  simp only [digitsValue, foldl_append, foldl_cons, foldl_nil]
  omega

theorem digitsValue_digitsOf (h : n < 10 ^ width) : digitsValue (digitsOf width n) = n := by
  induction width generalizing n with
  | zero =>
    simp only [digitsOf, digitsValue, foldl_nil]
    omega
  | succ width ih =>
    rw [digitsOf, digitsValue_concat (Nat.mod_lt n (by decide)), ih (Nat.div_lt_of_lt_mul (by omega))]
    omega

theorem digitsOf_inj (hn : n < 10 ^ width) (hm : m < 10 ^ width)
    (h : digitsOf width n = digitsOf width m) : n = m := by
  rw [← digitsValue_digitsOf hn, h, digitsValue_digitsOf hm]

/-- Of one width, texts compare as the numbers do. -/
theorem digitsOf_lt_iff (hn : n < 10 ^ width) (hm : m < 10 ^ width) :
    digitsOf width n < digitsOf width m ↔ n < m := by
  induction width generalizing n m with
  | zero =>
    simp [digitsOf]
    omega
  | succ width ih =>
    have hdn : n / 10 < 10 ^ width := Nat.div_lt_of_lt_mul (by omega)
    have hdm : m / 10 < 10 ^ width := Nat.div_lt_of_lt_mul (by omega)
    have hl := digitChar_lt_iff (Nat.mod_lt n (by decide)) (Nat.mod_lt m (by decide))
    have hsame : digitsOf width (n / 10) = digitsOf width (m / 10) ↔ n / 10 = m / 10 :=
      ⟨digitsOf_inj hdn hdm, fun h => h ▸ rfl⟩
    simp only [digitsOf]
    rw [append_lt_append_iff (by rw [length_digitsOf, length_digitsOf]), ih hdn hdm, hsame]
    simp only [cons_lt_cons_iff, hl, lt_irrefl, and_false, or_false]
    omega

def decimal (n : Nat) : List Char := ((Nat.digits 10 n).map Nat.digitChar).reverse

/-- The digits of a number, at least `width` of them. -/
def magnitude (x : Int) (width : Nat) : List Char :=
  if x.natAbs < 10 ^ width then digitsOf width x.natAbs else decimal x.natAbs

/-- `appendInt`: a sign, and the digits. -/
def appendInt (x : Int) (width : Nat) : List Char := (if x < 0 then ['-'] else []) ++ magnitude x width

/-! ### The texts -/

/-- The fields below the year, each after its separator. -/
def clockText (seps : List Char) (fields : List Nat) : List Char :=
  (seps.zip fields).flatMap fun f => f.1 :: appendInt f.2 2

def stripZeros : List Char → List Char
  | [] => []
  | c :: rest => if c = '0' ∧ stripZeros rest = [] then [] else c :: stripZeros rest

/-- The digits of the fraction of the second. -/
def Civil.fraction (c : Civil) : List Char := stripZeros (digitsOf 9 c.nano)

def fractionText (fraction : List Char) : List Char := if fraction = [] then [] else '.' :: fraction

/-- `Format(time.RFC3339Nano)`, as a list of characters. -/
def Civil.stamp (c : Civil) : List Char :=
  appendInt c.year 4 ++ (clockText ['-', '-', 'T', ':', ':'] c.clock ++ (fractionText c.fraction ++ ['Z']))

def Civil.rfc3339Nano (c : Civil) : String := String.ofList c.stamp

/-! ### Years -/

theorem digitsValue_decimal : digitsValue (decimal n) = n := by
  have hdg : ∀ l : List Nat, (∀ d ∈ l, d < 10) →
      digitsValue (l.map Nat.digitChar).reverse = Nat.ofDigits 10 l := by
    intro l hl
    induction l with
    | nil => rfl
    | cons d l ih =>
      rw [map_cons, reverse_cons, digitsValue_concat (hl d mem_cons_self),
        ih fun e he => hl e (mem_cons_of_mem _ he), Nat.ofDigits_cons]
      ring
  rw [decimal, hdg _ fun d hd => Nat.digits_lt_base (by decide) hd, Nat.ofDigits_digits]

variable {x : Int}

theorem isDigit_of_mem_magnitude (h : c ∈ magnitude x width) : IsDigit c := by
  unfold magnitude at h
  split_ifs at h
  · exact isDigit_of_mem_digitsOf h
  · obtain ⟨d, hd, rfl⟩ := mem_map.mp (mem_reverse.mp h)
    exact isDigit_digitChar (Nat.digits_lt_base (by decide) hd)

theorem digitsValue_magnitude : digitsValue (magnitude x width) = x.natAbs := by
  unfold magnitude
  split_ifs with h
  · exact digitsValue_digitsOf h
  · exact digitsValue_decimal

theorem minus_lt_of_isDigit (h : IsDigit c) : '-' < c := lt_of_lt_of_le (by decide) h.1

variable {y : Int}

theorem magnitude_inj (h : magnitude x width = magnitude y width) : x.natAbs = y.natAbs := by
  rw [← digitsValue_magnitude, ← digitsValue_magnitude, h]

variable {l : List Char}

theorem minus_ne_magnitude : magnitude x width ≠ '-' :: l := by
  intro h
  have hd : IsDigit '-' := isDigit_of_mem_magnitude (h ▸ mem_cons_self)
  exact lt_irrefl _ (minus_lt_of_isDigit hd)

theorem appendInt_inj (h : appendInt x width = appendInt y width) : x = y := by
  rw [appendInt, appendInt] at h
  by_cases hx : x < 0
  · rw [if_pos hx] at h
    by_cases hy : y < 0
    · rw [if_pos hy] at h
      have habs := magnitude_inj (append_cancel_left h)
      omega
    · rw [if_neg hy] at h
      exact absurd h.symm minus_ne_magnitude
  · rw [if_neg hx] at h
    by_cases hy : y < 0
    · rw [if_pos hy] at h
      exact absurd h minus_ne_magnitude
    · rw [if_neg hy] at h
      have habs := magnitude_inj (append_cancel_left h)
      omega

theorem magnitude_ne_nil (h : 0 < width) : magnitude x width ≠ [] := by
  unfold magnitude
  split_ifs with hsm
  · refine ne_nil_of_length_pos ?_
    rw [length_digitsOf]
    exact h
  · have hne : x.natAbs ≠ 0 := fun hz => hsm (hz ▸ Nat.pow_pos (by decide))
    simpa [decimal, Nat.digits_eq_nil_iff_eq_zero] using hne

/-- The sign is seen at the first character. -/
theorem apart_of_sign (h : 0 < width) (l : List Char) :
    ¬ '-' :: l <+: magnitude x width ∧ ¬ magnitude x width <+: '-' :: l := by
  cases hx : magnitude x width with
  | nil => exact absurd hx (magnitude_ne_nil h)
  | cons c m =>
    have hc : c ≠ '-' := fun hsame => minus_ne_magnitude (hsame ▸ hx)
    refine ⟨fun hp => hc (cons_prefix_cons.mp hp).1.symm, fun hp => hc (cons_prefix_cons.mp hp).1⟩

/-- Different numbers are told apart by their texts, whatever follows after a `-`. -/
theorem appendInt_mark_lt_iff (hwd : 0 < width) {r r' : List Char} (h : x ≠ y) :
    appendInt x width ++ '-' :: r < appendInt y width ++ '-' :: r' ↔ appendInt x width < appendInt y width := by
  have hne : appendInt x width ≠ appendInt y width := fun hsame => h (appendInt_inj hsame)
  have hm : ∀ z : Int, ∀ c ∈ magnitude z width, '-' < c := fun z c hc =>
    minus_lt_of_isDigit (isDigit_of_mem_magnitude hc)
  rw [appendInt, appendInt] at hne ⊢
  by_cases hx : x < 0
  · by_cases hy : y < 0
    · rw [if_pos hx, if_pos hy] at hne ⊢
      have hrs : magnitude x width ++ '-' :: r < magnitude y width ++ '-' :: r' ↔
          magnitude x width < magnitude y width :=
        append_mark_lt_iff (hm x) (hm y) fun hsame => hne (hsame ▸ rfl)
      simpa using hrs
    · rw [if_pos hx, if_neg hy]
      obtain ⟨hxy, hyx⟩ := apart_of_sign hwd (magnitude x width)
      exact append_lt_append_of_apart hxy hyx
  · by_cases hy : y < 0
    · rw [if_neg hx, if_pos hy]
      obtain ⟨hyx, hxy⟩ := apart_of_sign hwd (magnitude y width)
      exact append_lt_append_of_apart hxy hyx
    · rw [if_neg hx, if_neg hy, nil_append, nil_append] at hne ⊢
      exact append_mark_lt_iff (hm x) (hm y) hne

theorem appendInt_of_lt (h : n < 10 ^ width) : appendInt n width = digitsOf width n := by
  simp [appendInt, magnitude, h]

/-- Years of four digits sort as they are. -/
theorem appendInt_lt_iff (hn : n < 10 ^ width) (hm : m < 10 ^ width) :
    appendInt n width < appendInt m width ↔ n < m := by
  rw [appendInt_of_lt hn, appendInt_of_lt hm, digitsOf_lt_iff hn hm]

/-! ### The clock -/

theorem length_clockText {seps : List Char} {fields : List Nat} (h : ∀ n ∈ fields, n < 100) :
    (clockText seps fields).length = 3 * min seps.length fields.length := by
  induction seps generalizing fields with
  | nil => simp [clockText]
  | cons sep seps ih =>
    cases fields with
    | nil => simp [clockText]
    | cons n fields =>
      have hrs := ih fun m hm => h m (mem_cons_of_mem _ hm)
      have hn : appendInt n 2 = digitsOf 2 n := appendInt_of_lt (h n mem_cons_self)
      simp only [clockText, zip_cons_cons, flatMap_cons, length_append, length_cons, hn,
        length_digitsOf] at hrs ⊢
      omega

/-- Fields of two digits sort as they are, one after the other. -/
theorem clockText_lt_iff {seps : List Char} {fields fields' : List Nat} (hl : fields.length = seps.length)
    (hl' : fields'.length = seps.length) (h : ∀ n ∈ fields, n < 100) (h' : ∀ n ∈ fields', n < 100) :
    clockText seps fields < clockText seps fields' ↔ fields < fields' := by
  induction seps generalizing fields fields' with
  | nil =>
    obtain rfl := length_eq_zero_iff.mp hl'
    simp [clockText]
  | cons sep seps ih =>
    cases fields with
    | nil => cases hl
    | cons n fields =>
      cases fields' with
      | nil => cases hl'
      | cons n' fields' =>
        have hn : n < 10 ^ 2 := h n mem_cons_self
        have hn' : n' < 10 ^ 2 := h' n' mem_cons_self
        have hrs := ih (Nat.succ.inj hl) (Nat.succ.inj hl')
          (fun m hm => h m (mem_cons_of_mem _ hm)) (fun m hm => h' m (mem_cons_of_mem _ hm))
        have hsame : digitsOf 2 n = digitsOf 2 n' ↔ n = n' := ⟨digitsOf_inj hn hn', fun heq => heq ▸ rfl⟩
        simp only [clockText, zip_cons_cons, flatMap_cons, cons_append, cons_lt_cons_iff,
          lt_irrefl, true_and, false_or] at hrs ⊢
        rw [appendInt_of_lt hn, appendInt_of_lt hn', append_lt_append_iff (by rw [length_digitsOf, length_digitsOf]),
          digitsOf_lt_iff hn hn', hsame, hrs]

theorem Civil.clock_lt (c : Civil) : ∀ n ∈ c.clock, n < 100 := by
  have hd : daysInMonth c.year c.month ≤ 31 := by
    unfold daysInMonth
    split <;> (try split_ifs) <;> decide
  have hmn := c.month_range.2
  have hday := c.day_range.2
  have hh := c.hour_lt
  have hm := c.minute_lt
  have hsc := c.second_lt
  simp only [clock, mem_cons, not_mem_nil, or_false, forall_eq_or_imp, forall_eq]
  omega

/-! ### The fraction -/

theorem stripZeros_append (l : List Char) : ∃ k, l = stripZeros l ++ replicate k '0' := by
  induction l with
  | nil => exact ⟨0, rfl⟩
  | cons c l ih =>
    obtain ⟨k, hk⟩ := ih
    unfold stripZeros
    split_ifs with hz
    · obtain ⟨rfl, hnil⟩ := hz
      rw [hnil, nil_append] at hk
      exact ⟨k + 1, by rw [hk]; rfl⟩
    · exact ⟨k, by rw [cons_append, ← hk]⟩

variable {l' : List Char}

theorem stripZeros_inj (hl : l.length = l'.length) (h : stripZeros l = stripZeros l') : l = l' := by
  obtain ⟨k, hk⟩ := stripZeros_append l
  obtain ⟨k', hk'⟩ := stripZeros_append l'
  rw [hk, hk', h, length_append, length_append, length_replicate, length_replicate] at hl
  rw [hk, hk', h, Nat.add_left_cancel hl]

theorem stripZeros_subset (l : List Char) : ∀ c ∈ stripZeros l, c ∈ l := by
  obtain ⟨k, hk⟩ := stripZeros_append l
  intro c hc
  rw [hk]
  exact mem_append_left _ hc

/-- Zeros are below all digits. -/
theorem replicate_zero_lt {k : Nat} (hl : ∀ c ∈ l, IsDigit c) (hln : k = l.length)
    (hne : replicate k '0' ≠ l) : replicate k '0' < l := by
  induction l generalizing k with
  | nil => exact absurd (by rw [hln]; rfl) hne
  | cons c l ih =>
    subst hln
    rw [length_cons, replicate_succ] at hne ⊢
    rw [cons_lt_cons_iff]
    obtain hlt | heq := lt_or_eq_of_le (hl c mem_cons_self).1
    · exact .inl hlt
    · exact .inr ⟨heq, ih (fun d hd => hl d (mem_cons_of_mem _ hd)) rfl fun hsame => hne (by rw [hsame, heq])⟩

/-- A fraction that another begins with is smaller and sorts after it. -/
theorem stripped_of_prefix (hl : l.length = l'.length) (hl' : ∀ c ∈ l', IsDigit c)
    (hne : l ≠ l') (h : stripZeros l <+: stripZeros l') :
    l < l' ∧ stripZeros l' ++ ['Z'] < stripZeros l ++ ['Z'] := by
  obtain ⟨e, he⟩ := h
  obtain ⟨k, hk⟩ := stripZeros_append l
  obtain ⟨k', hk'⟩ := stripZeros_append l'
  have hm : ∀ c ∈ e, IsDigit c := fun c hc => hl' c (stripZeros_subset l' c (he ▸ mem_append_right _ hc))
  cases e with
  | nil =>
    rw [append_nil] at he
    exact absurd (stripZeros_inj hl he) hne
  | cons c e =>
    refine ⟨?_, ?_⟩
    · rw [← he, append_assoc] at hk'
      rw [hk, hk'] at hne ⊢
      refine append_left_lt (replicate_zero_lt (fun d hd => hl' d ?_) ?_ fun hsame => hne (by rw [hsame]))
      · rw [hk']
        exact mem_append_right _ hd
      · rw [hk, hk', length_append, length_append, length_replicate] at hl
        exact Nat.add_left_cancel hl
    · rw [← he, append_assoc]
      refine append_left_lt ?_
      rw [cons_append, cons_lt_cons_iff]
      exact .inl (lt_of_le_of_lt (hm c mem_cons_self).2 (by decide))

/-- **Without trailing zeros, and closed by a `Z`, different fractions of one width sort as they are
exactly if none begins with the other.** -/
theorem stripped_lt_iff (hln : l.length = l'.length) (hl : ∀ c ∈ l, IsDigit c)
    (hl' : ∀ c ∈ l', IsDigit c) (hne : l ≠ l') :
    (stripZeros l ++ ['Z'] < stripZeros l' ++ ['Z'] ↔ l < l') ↔
      ¬ stripZeros l <+: stripZeros l' ∧ ¬ stripZeros l' <+: stripZeros l := by
  obtain ⟨k, hk⟩ := stripZeros_append l
  obtain ⟨k', hk'⟩ := stripZeros_append l'
  constructor
  · intro h
    refine ⟨fun hp => ?_, fun hp => ?_⟩
    · obtain ⟨hlt, hgt⟩ := stripped_of_prefix hln hl' hne hp
      exact lt_asymm hgt (h.mpr hlt)
    · obtain ⟨hlt, hgt⟩ := stripped_of_prefix hln.symm hl hne.symm hp
      exact lt_asymm hlt (h.mp hgt)
  · intro ⟨hp, hp'⟩
    have hd : l < l' ↔ stripZeros l < stripZeros l' := by
      nth_rewrite 1 [hk, hk']
      exact append_lt_append_of_apart hp hp'
    rw [append_lt_append_of_apart hp hp', hd]

theorem fractionText_lt_iff (hl : ∀ c ∈ l, IsDigit c) (hl' : ∀ c ∈ l', IsDigit c) :
    fractionText l ++ ['Z'] < fractionText l' ++ ['Z'] ↔ l ++ ['Z'] < l' ++ ['Z'] := by
  have hd : ∀ c, IsDigit c → c < 'Z' := fun c hc => lt_of_le_of_lt hc.2 (by decide)
  unfold fractionText
  cases l with
  | nil =>
    cases l' with
    | nil => simp
    | cons c' l' =>
      have hc' := hd c' (hl' c' mem_cons_self)
      simp [cons_lt_cons_iff, not_lt_of_gt hc', (ne_of_lt hc').symm]
  | cons c l =>
    cases l' with
    | nil =>
      have hc := hd c (hl c mem_cons_self)
      simp [cons_lt_cons_iff, hc]
    | cons c' l' => simp

/-! ### Whole texts -/

namespace Civil
variable {a b : Civil}

theorem fraction_isDigit (c : Civil) : ∀ d ∈ c.fraction, IsDigit d := fun d hd =>
  isDigit_of_mem_digitsOf (stripZeros_subset _ d hd)

/-- Texts of different years compare as the texts of the years. -/
theorem stamp_lt_iff_of_year (h : a.year ≠ b.year) :
    a.stamp < b.stamp ↔ appendInt a.year 4 < appendInt b.year 4 := appendInt_mark_lt_iff (by decide) h

/-- Texts of one year compare as the clock and then as the fractions closed by a `Z`. -/
theorem stamp_lt_iff (h : a.year = b.year) :
    a.stamp < b.stamp ↔ a.clock < b.clock ∨ a.clock = b.clock ∧ a.fraction ++ ['Z'] < b.fraction ++ ['Z'] := by
  have hcl : ∀ c c' : Civil, clockText ['-', '-', 'T', ':', ':'] c.clock <
      clockText ['-', '-', 'T', ':', ':'] c'.clock ↔ c.clock < c'.clock := fun c c' =>
    clockText_lt_iff rfl rfl c.clock_lt c'.clock_lt
  have hsame : clockText ['-', '-', 'T', ':', ':'] a.clock = clockText ['-', '-', 'T', ':', ':'] b.clock ↔
      a.clock = b.clock := by
    refine ⟨fun ht => ?_, fun hf => by rw [hf]⟩
    have hab := hcl a b
    have hba := hcl b a
    rw [ht] at hab hba
    exact le_antisymm (not_lt.mp fun hlt => lt_irrefl _ (hba.mpr hlt))
      (not_lt.mp fun hlt => lt_irrefl _ (hab.mpr hlt))
  have hl : (clockText ['-', '-', 'T', ':', ':'] a.clock).length =
      (clockText ['-', '-', 'T', ':', ':'] b.clock).length := by
    rw [length_clockText a.clock_lt, length_clockText b.clock_lt]
    rfl
  simp only [stamp, h]
  rw [append_lt_append_iff rfl, append_lt_append_iff hl, hcl, hsame,
    fractionText_lt_iff a.fraction_isDigit b.fraction_isDigit]
  simp

/-- The fraction of one second decides as long as none begins with the other. -/
theorem fraction_lt_iff (h : a.nano ≠ b.nano) :
    (a.fraction ++ ['Z'] < b.fraction ++ ['Z'] ↔ a.nano < b.nano) ↔
      ¬ a.fraction <+: b.fraction ∧ ¬ b.fraction <+: a.fraction := by
  have hne : digitsOf 9 a.nano ≠ digitsOf 9 b.nano := fun hsame => h (digitsOf_inj a.nano_lt b.nano_lt hsame)
  have hnn : digitsOf 9 a.nano < digitsOf 9 b.nano ↔ a.nano < b.nano := digitsOf_lt_iff a.nano_lt b.nano_lt
  rw [← hnn]
  exact stripped_lt_iff (by rw [length_digitsOf, length_digitsOf]) (fun _ => isDigit_of_mem_digitsOf)
    (fun _ => isDigit_of_mem_digitsOf) hne

end Civil

end AeroVault.Lib
