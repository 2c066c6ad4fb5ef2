import AeroVault.Lib.Paging

/-! Listings from which entries are left out after a block of them has been cut.

The blocks hold `size` entries of a list in key order, without those that the client may not see. A
scan for the next entries of interest that takes a short block for the last one goes wrong where a
block is short because of a hidden entry (`Reaches`). So a client that follows the pages gets every
entry of interest if and only if this does not happen from any point where a page begins
(`exact_iff_reaches`). -/
namespace AeroVault.Lib
open List

/-! ### The entries after a number of entries of interest -/

section Passing
variable {α κ : Type*} (wanted : α → Bool)

/-- What comes after the first `k` entries of interest. -/
def passing : Nat → List α → List α
  | 0, l => l
  | _ + 1, [] => []
  | k + 1, a :: l => if wanted a then passing k l else passing (k + 1) l

@[simp] theorem passing_zero (l : List α) : passing wanted 0 l = l := by
  cases l <;> rfl

theorem passing_add (m n : Nat) (l : List α) :
    passing wanted (m + n) l = passing wanted n (passing wanted m l) := by
  induction l generalizing m with
  | nil => cases m <;> cases n <;> rfl
  | cons a l ih =>
    cases m with
    | zero => rw [Nat.zero_add, passing_zero]
    | succ m =>
      rw [Nat.succ_add, passing, passing]
      split_ifs
      · exact ih m
      · rw [← ih (m + 1), Nat.succ_add]

theorem filter_passing (k : Nat) (l : List α) :
    (passing wanted k l).filter wanted = (l.filter wanted).drop k := by
  induction l generalizing k with
  | nil => cases k <;> rfl
  | cons a l ih =>
    cases k with
    | zero => rfl
    | succ k =>
      rw [passing, filter_cons]
      split_ifs
      · exact ih k
      · exact ih (k + 1)

theorem length_passing_le (k : Nat) (l : List α) : (passing wanted k l).length ≤ l.length := by
  induction l generalizing k with
  | nil => cases k <;> exact le_rfl
  | cons a l ih =>
    cases k with
    | zero => exact le_rfl
    | succ k =>
      rw [passing]
      split_ifs
      · exact (ih k).trans (Nat.le_succ _)
      · exact (ih (k + 1)).trans (Nat.le_succ _)

variable {wanted}

/-- The last of the entries of interest that are passed. -/
theorem exists_passed {k : Nat} {l : List α} (hpos : 0 < k) (hle : k ≤ (l.filter wanted).length) :
    ∃ front last, l = front ++ last :: passing wanted k l ∧
      ((l.filter wanted).take k).getLast? = some last := by
  induction l generalizing k with
  | nil => exact absurd hle (by simpa using hpos.ne')
  | cons a l ih =>
    obtain ⟨k, rfl⟩ := Nat.exists_eq_add_one_of_ne_zero hpos.ne'
    rw [passing]
    cases hwn : wanted a with
    | false =>
      rw [filter_cons_of_neg (by simp [hwn])] at hle ⊢
      obtain ⟨front, last, hl, hls⟩ := ih hpos hle
      refine ⟨a :: front, last, ?_, hls⟩
      simpa using hl
    | true =>
      rw [filter_cons_of_pos hwn] at hle ⊢
      rw [take_succ_cons]
      cases k with
      | zero => exact ⟨[], a, by simp, rfl⟩
      | succ k =>
        obtain ⟨front, last, hl, hls⟩ := ih (Nat.succ_pos k) (Nat.le_of_succ_le_succ hle)
        refine ⟨a :: front, last, ?_, ?_⟩
        · simpa using hl
        · rw [getLast?_cons, hls]
          rfl

/-- The marker of a page leads to what comes after its entries. -/
theorem after_passed [LinearOrder κ] {key : α → κ} {source : List α} {marker : κ} {k : Nat} {last : α}
    (ho : InOrder key source) (hpos : 0 < k) (hle : k ≤ ((after key source marker).filter wanted).length)
    (hls : (((after key source marker).filter wanted).take k).getLast? = some last) :
    after key source (key last) = passing wanted k (after key source marker) := by
  obtain ⟨front, last', hl, hls'⟩ := exists_passed hpos hle
  cases hls.symm.trans hls'
  have hsp : after key source marker = (front ++ [last]) ++ passing wanted k (after key source marker) := by
    simpa using hl
  exact after_key_getLast ho hsp getLast?_concat

end Passing

/-! ### The scan -/

section Scan
variable {α κ ε : Type*}

/-- A loop over blocks that collects what it keeps, up to one entry more than the page holds. A
block that is not full is taken for the last one. -/
def scanThinned [DecidableEq κ] (fetch : κ → Except ε (List α)) (key : α → κ) (size limit : Nat)
    (keeps : α → Bool) : Nat → κ → List α → Option (Except ε (List α × Bool))
  | 0, _, _ => none
  | fuel + 1, marker, matched =>
    match fetch marker with
    | .error err => some (.error err)
    | .ok block =>
      let matched := matched ++ block.filter keeps
      if limit < matched.length then some (.ok (matched.take limit, true))
      else if block.length < size then some (.ok (matched, false))
      else
        match block.getLast? with
        | none => some (.ok (matched, false))
        | some last =>
          if key last = marker then some (.ok (matched, false))
          else scanThinned fetch key size limit keeps fuel (key last) matched

/-- The scan gets to all it looks for: as long as it has not got enough of them and there are more
to come, no entry of the blocks that it has seen is hidden. -/
def Reaches (visible wanted : α → Bool) (size limit taken : Nat) (l : List α) : Prop :=
  ∀ j, taken + ((l.take (j * size)).filter wanted).length ≤ limit →
    (∃ a ∈ l.drop (j * size), wanted a = true) → ∀ a ∈ l.take (j * size), visible a = true

variable {visible wanted : α → Bool} {size limit taken : Nat} {l : List α}

theorem reaches_of_none (h : l.filter wanted = []) : Reaches visible wanted size limit taken l := by
  intro j _ ⟨a, ha, hwn⟩
  have hm : a ∈ l.filter wanted := mem_filter.mpr ⟨mem_of_mem_drop ha, hwn⟩
  rw [h] at hm
  cases hm

/-- A list that fits into one block is seen as a whole. -/
theorem reaches_of_length_le (h : l.length ≤ size) : Reaches visible wanted size limit taken l := by
  intro j _ ⟨a, ha, _⟩
  cases j with
  | zero => simp
  | succ j =>
    have hle : size ≤ (j + 1) * size := Nat.le_mul_of_pos_left size (Nat.succ_pos j)
    rw [drop_of_length_le (h.trans hle)] at ha
    cases ha

/-- A scan that has seen enough in the first block gets to all it looks for. -/
theorem reaches_of_lt (h : limit < taken + ((l.take size).filter wanted).length) :
    Reaches visible wanted size limit taken l := by
  intro j hf _
  cases j with
  | zero => simp
  | succ j =>
    have hle : size ≤ (j + 1) * size := Nat.le_mul_of_pos_left size (Nat.succ_pos j)
    have hsub : (l.take size).Sublist (l.take ((j + 1) * size)) := take_sublist_take_left hle
    have hm := (hsub.filter wanted).length_le
    omega

/-- A block without a hidden entry, and the rest. -/
theorem reaches_step (hv : ∀ a ∈ l.take size, visible a = true) :
    Reaches visible wanted size limit taken l ↔
      Reaches visible wanted size limit (taken + ((l.take size).filter wanted).length) (l.drop size) := by
  have hmul : ∀ j, (j + 1) * size = size + j * size := fun j => by rw [Nat.succ_mul, Nat.add_comm]
  constructor
  · intro h j
    have hnx := h (j + 1)
    rw [hmul, take_add, filter_append, length_append, ← Nat.add_assoc, ← drop_drop] at hnx
    exact fun hf hm a ha => hnx hf hm a (mem_append_right _ ha)
  · intro h j
    cases j with
    | zero => simp
    | succ j =>
      rw [hmul, take_add, filter_append, length_append, ← Nat.add_assoc, ← drop_drop]
      intro hf hm a ha
      obtain ha | ha := mem_append.mp ha
      · exact hv a ha
      · exact h j hf hm a ha

/-- A block with a hidden entry is the last one that is seen. -/
theorem reaches_iff_of_hidden {a : α} (ha : a ∈ l.take size) (hidden : visible a = false)
    (hf : taken + ((l.take size).filter wanted).length ≤ limit) :
    Reaches visible wanted size limit taken l ↔ (l.drop size).filter wanted = [] := by
  constructor
  · intro h
    refine filter_eq_nil_iff.mpr fun b hb hwn => ?_
    have hall := h 1 (by rwa [Nat.one_mul]) ⟨b, by rwa [Nat.one_mul], hwn⟩ a (by rwa [Nat.one_mul])
    rw [hidden] at hall
    cases hall
  · intro hnone j _ ⟨b, hb, hwn⟩
    cases j with
    | zero => simp
    | succ j =>
      have hle : size ≤ (j + 1) * size := Nat.le_mul_of_pos_left size (Nat.succ_pos j)
      have hm : b ∈ l.drop size := (drop_sublist_drop_left l hle).subset hb
      exact absurd hwn (filter_eq_nil_iff.mp hnone b hm)

end Scan

section Thinned
variable {α κ ε : Type*} [LinearOrder κ] {key : α → κ} {source : List α}
  {visible keeps wanted : α → Bool} {size limit : Nat} {fetch : κ → Except ε (List α)}

/-- A server of blocks from which the hidden entries have been left out. -/
def ThinsBlocks (key : α → κ) (source : List α) (visible : α → Bool) (size : Nat)
    (fetch : κ → Except ε (List α)) : Prop :=
  ∀ marker, fetch marker = .ok (((after key source marker).take size).filter visible)

/-- What a scan has found: the next ones of all there are, or a part that is shown as if it were
all. -/
structure Found (all shown : List α) (limit : Nat) (more reaches : Prop) : Prop where
  next : reaches → shown = all.take limit ∧ (more ↔ limit < all.length)
  part : ¬ reaches → ¬ more ∧ ∃ rest, rest ≠ [] ∧ all = shown ++ rest

theorem found_all {all : List α} {reaches : Prop} (hsh : all.length ≤ limit) (h : reaches) :
    Found all all limit (false = true) reaches :=
  ⟨fun _ => ⟨(take_of_length_le hsh).symm, iff_of_false Bool.false_ne_true hsh.not_gt⟩,
    absurd h⟩

/-- There is something to go on from. -/
theorem Found.ne_nil {all shown : List α} {more reaches : Prop} (h : Found all shown limit more reaches)
    (hl : 0 < limit) (hm : more) : shown ≠ [] := by
  have hrc : reaches := by
    by_contra hnot
    exact (h.part hnot).1 hm
  obtain ⟨rfl, hln⟩ := h.next hrc
  refine ne_nil_of_length_pos ?_
  rw [length_take]
  exact lt_min hl (hl.trans (hln.mp hm))

/-- **What a scan finds.** -/
theorem exists_scanThinned (hord : InOrder key source)
    (hft : ThinsBlocks key source visible size fetch) (hwn : ∀ a, wanted a = (visible a && keeps a))
    (hsz : 0 < size) (fuel : Nat) (marker : κ) (matched : List α) (hrm : matched.length ≤ limit)
    (hf : (after key source marker).length < fuel) :
    ∃ shown more, scanThinned fetch key size limit keeps fuel marker matched = some (.ok (shown, more)) ∧
      Found (matched ++ (after key source marker).filter wanted) shown limit (more = true)
        (Reaches visible wanted size limit matched.length (after key source marker)) := by
  induction fuel generalizing marker matched with
  | zero => exact absurd hf (Nat.not_lt_zero _)
  | succ fuel ih =>
    generalize hl : after key source marker = l at hf ⊢
    have hbl : ((l.take size).filter visible).filter keeps = (l.take size).filter wanted := by
      rw [filter_filter]
      exact filter_congr fun a _ => by rw [hwn, Bool.and_comm]
    have hall : matched ++ l.filter wanted =
        (matched ++ (l.take size).filter wanted) ++ (l.drop size).filter wanted := by
      rw [append_assoc, ← filter_append, take_append_drop]
    have hleng : (matched ++ (l.take size).filter wanted).length =
        matched.length + ((l.take size).filter wanted).length := length_append
    simp only [scanThinned, hft marker, hl, hbl]
    rw [hall]
    generalize hmt : matched ++ (l.take size).filter wanted = matched' at hleng ⊢
    by_cases hfull : limit < matched'.length
    · refine ⟨matched'.take limit, true, if_pos hfull, fun _ => ⟨?_, iff_of_true rfl ?_⟩, fun hnot => ?_⟩
      · rw [take_append_of_le_length hfull.le]
      · rw [length_append]
        omega
      · exact absurd (reaches_of_lt (hleng ▸ hfull)) hnot
    · rw [if_neg hfull]
      by_cases hidden : ∃ a ∈ l.take size, visible a = false
      · -- The block is short because of a hidden entry.
        obtain ⟨a, ha, hh⟩ := hidden
        have hshort : ((l.take size).filter visible).length < size :=
          (length_filter_lt_length_iff_exists.mpr ⟨a, ha, by simp [hh]⟩).trans_le
            (length_take_le _ _)
        refine ⟨matched', false, if_pos hshort, ?_⟩
        rw [reaches_iff_of_hidden ha hh (hleng ▸ not_lt.mp hfull)]
        by_cases hnone : (l.drop size).filter wanted = []
        · rw [hnone, append_nil]
          exact found_all (not_lt.mp hfull) rfl
        · exact ⟨fun h => absurd h hnone, fun _ => ⟨Bool.false_ne_true, _, hnone, rfl⟩⟩
      · have hv : ∀ a ∈ l.take size, visible a = true :=
          fun a ha => Bool.of_not_eq_false fun hh => hidden ⟨a, ha, hh⟩
        rw [filter_eq_self.mpr hv, reaches_step hv, ← hleng]
        by_cases hshort : (l.take size).length < size
        · have hnone : l.drop size = [] := by
            rw [length_take] at hshort
            exact drop_of_length_le (by omega)
          refine ⟨matched', false, if_pos hshort, ?_⟩
          rw [hnone, filter_nil, append_nil]
          exact found_all (not_lt.mp hfull) (reaches_of_none rfl)
        · have hln : size ≤ l.length := by
            rw [length_take] at hshort
            omega
          obtain ⟨last, hls⟩ : ∃ last, (l.take size).getLast? = some last :=
            ⟨_, getLast?_eq_some_getLast (ne_nil_of_length_pos (by omega))⟩
          have hrs : after key source (key last) = l.drop size :=
            after_key_getLast hord (hl.trans (take_append_drop size l).symm) hls
          have hmem : last ∈ after key source marker := hl ▸ mem_of_mem_take (mem_of_getLast? hls)
          have hm : key last ≠ marker := (mem_after.mp hmem).2.ne'
          have hnx := ih (key last) matched' (not_lt.mp hfull) (by rw [hrs, length_drop]; omega)
          rw [hrs] at hnx
          simp only [if_neg hshort, hls, if_neg hm]
          exact hnx

/-- The first page, and the others. -/
theorem reaches_pages_iff {l : List α} :
    (∀ i, Reaches visible wanted size limit 0 (passing wanted (i * limit) l)) ↔
      Reaches visible wanted size limit 0 l ∧
        ∀ i, Reaches visible wanted size limit 0 (passing wanted (i * limit) (passing wanted limit l)) := by
  have hm : ∀ i, passing wanted ((i + 1) * limit) l = passing wanted (i * limit) (passing wanted limit l) := by
    intro i
    rw [Nat.succ_mul, Nat.add_comm, passing_add]
  constructor
  · intro h
    exact ⟨by simpa using h 0, fun i => hm i ▸ h (i + 1)⟩
  · intro h i
    cases i with
    | zero => simpa using h.1
    | succ i => exact hm i ▸ h.2 i

/-- **Pages from thinned blocks are exact if and only if every scan reaches what it looks for.** The
client comes to the end in any case, with the first part of what there is. -/
theorem exact_iff_reaches (hord : InOrder key source) (hlim : 0 < limit) {page : κ → Except ε (ListPage α κ)}
    (hpg : ∀ marker, ∃ answer, page marker = .ok answer ∧
      Found ((after key source marker).filter wanted) answer.objects limit (answer.hasMore = true)
        (Reaches visible wanted size limit 0 (after key source marker)) ∧
      (answer.hasMore = true → answer.objects.getLast?.map key = some answer.nextMarker)) (marker : κ) :
    ∃ pages, Follows (following page) marker pages ∧
      (pages.flatMap (·.objects)) <+: (after key source marker).filter wanted ∧
      (pages.flatMap (·.objects) = (after key source marker).filter wanted ↔
        ∀ i, Reaches visible wanted size limit 0
          (passing wanted (i * limit) (after key source marker))) := by
  induction hn : ((after key source marker).filter wanted).length using Nat.strong_induction_on
    generalizing marker with
  | _ n ih =>
    obtain ⟨answer, hok, hfound, hm⟩ := hpg marker
    have hserve : following page marker = .ok (answer, answer.next?) := by rw [following, hok]
    by_cases hreach : Reaches visible wanted size limit 0 (after key source marker)
    · obtain ⟨hobj, hmore⟩ := hfound.next hreach
      by_cases hlong : limit < ((after key source marker).filter wanted).length
      · obtain ⟨last, hlast, hkey⟩ := Option.map_eq_some_iff.mp (hm (hmore.mpr hlong))
        have hrs := after_passed hord hlim hlong.le (hobj ▸ hlast)
        have hwn := filter_passing wanted limit (after key source marker)
        rw [← hrs] at hwn
        have hl : ((after key source (key last)).filter wanted).length < n := by
          rw [hwn, length_drop]
          omega
        obtain ⟨pages, hfl, hf, hex⟩ := ih _ hl (key last) rfl
        rw [hwn] at hf hex
        rw [ListPage.next?_eq_some.mpr ⟨hmore.mpr hlong, hkey.symm⟩] at hserve
        refine ⟨answer :: pages, .next hserve hfl, ?_, ?_⟩
        · rw [flatMap_cons, hobj]
          nth_rewrite 2 [← take_append_drop limit ((after key source marker).filter wanted)]
          exact prefix_append_right_inj _ |>.mpr hf
        · have hsp : pages.flatMap (·.objects) = ((after key source marker).filter wanted).drop limit ↔
              (answer :: pages).flatMap (·.objects) = (after key source marker).filter wanted := by
            rw [flatMap_cons, hobj]
            nth_rewrite 3 [← take_append_drop limit ((after key source marker).filter wanted)]
            exact (append_cancel_left_eq _ _ _).symm ▸ .rfl
          rw [← hsp, hex, hrs]
          exact ⟨fun h => reaches_pages_iff.mpr ⟨hreach, h⟩, fun h => (reaches_pages_iff.mp h).2⟩
      · -- All that is wanted is on the page, and from there on nothing is.
        have hall : answer.objects = (after key source marker).filter wanted := by
          rw [hobj, take_of_length_le (not_lt.mp hlong)]
        rw [ListPage.next?_eq_none.mpr (Bool.eq_false_iff.mpr fun h => hlong (hmore.mp h))] at hserve
        refine ⟨[answer], .last hserve, by simp [hall], iff_of_true (by simp [hall]) ?_⟩
        rw [reaches_pages_iff]
        refine ⟨hreach, fun i => reaches_of_none ?_⟩
        rw [filter_passing, filter_passing, drop_of_length_le (not_lt.mp hlong), drop_nil]
    · obtain ⟨hlast, rest, hne, hall⟩ := hfound.part hreach
      rw [ListPage.next?_eq_none.mpr (Bool.eq_false_iff.mpr hlast)] at hserve
      refine ⟨[answer], .last hserve, ?_, iff_of_false ?_ fun h => hreach (reaches_pages_iff.mp h).1⟩
      · simp [hall]
      · simpa [hall] using hne

end Thinned

end AeroVault.Lib
