import AeroVault.Lib.Paging

/-! Paging by key through a list in which several entries have one key.

A marker that is a key cannot tell the entries of that key apart: what comes `after` it leaves out
all of them. So an entry is lost exactly if a page ends between two entries of one key, and the
listing is exact if and only if no key lies on both sides of a multiple of the page size
(`exact_iff_unsplit`). -/
namespace AeroVault.Lib
open List

/-- No key lies on both sides of a multiple of the page size. -/
def Unsplit {κ : Type*} (size : Nat) (keys : List κ) : Prop :=
  ∀ i, (i + 1) * size < keys.length → keys[(i + 1) * size - 1]? ≠ keys[(i + 1) * size]?

variable {κ : Type*} {size : Nat}

theorem unsplit_of_le {keys : List κ} (h : keys.length ≤ size) : Unsplit size keys := by
  intro i hi
  have hle : size ≤ (i + 1) * size := Nat.le_mul_of_pos_left size (Nat.succ_pos i)
  omega

/-- The first boundary, and the others. -/
theorem unsplit_iff {keys : List κ} (hsize : 0 < size) (hl : size < keys.length) :
    Unsplit size keys ↔ keys[size - 1]? ≠ keys[size]? ∧ Unsplit size (keys.drop size) := by
  have hnx (i : Nat) : (i + 1 + 1) * size = size + (i + 1) * size ∧
      size + (i + 1) * size - 1 = size + ((i + 1) * size - 1) := by
    have hpos : 0 < (i + 1) * size := Nat.mul_pos (Nat.succ_pos i) hsize
    rw [Nat.succ_mul (i + 1), Nat.add_comm]
    exact ⟨rfl, by omega⟩
  simp only [Unsplit, length_drop, getElem?_drop]
  constructor
  · intro h
    refine ⟨by simpa using h 0 (by simpa using hl), fun i hi => ?_⟩
    have hi' := h (i + 1)
    rw [(hnx i).1, (hnx i).2] at hi'
    exact hi' (by omega)
  · intro h i hi
    cases i with
    | zero => simpa using h.1
    | succ i =>
      rw [(hnx i).1] at hi ⊢
      rw [(hnx i).2]
      exact h.2 i (by omega)

theorem unsplit_append_iff {α : Type*} {key : α → κ} {taken rest : List α} {last first : α}
    (hl : taken.getLast? = some last) :
    Unsplit taken.length ((taken ++ first :: rest).map key) ↔
      key last ≠ key first ∧ Unsplit taken.length ((first :: rest).map key) := by
  have hpos : 0 < taken.length := length_pos_of_mem (mem_of_getLast? hl)
  have hln : taken.length < ((taken ++ first :: rest).map key).length := by simp
  rw [unsplit_iff hpos hln]
  have hbf : ((taken ++ first :: rest).map key)[taken.length - 1]? = some (key last) := by
    rw [getElem?_map, getElem?_append_left (by omega), ← getLast?_eq_getElem?, hl]
    rfl
  have haf : ((taken ++ first :: rest).map key)[taken.length]? = some (key first) := by simp
  have hd : ((taken ++ first :: rest).map key).drop taken.length = (first :: rest).map key := by
    rw [← map_drop, drop_left]
  rw [hbf, haf, hd, ne_eq, Option.some_inj]

/-- A list that is longer than a page. -/
theorem exists_split {α : Type*} {l : List α} (h : size < l.length) :
    ∃ taken first rest, l = taken ++ first :: rest ∧ taken.length = size := by
  refine ⟨l.take size, l[size], l.drop (size + 1), ?_, ?_⟩
  · rw [← drop_eq_getElem_cons h, take_append_drop]
  · rw [length_take]
    omega

section Ties
variable {α κ ε : Type*} [LinearOrder κ] {key : α → κ}

/-- Entries in key order, several of which may have one key. -/
abbrev InWeakOrder (key : α → κ) (source : List α) : Prop := source.Pairwise fun a b => key a ≤ key b

/-- A server that takes the next entries after the marker, as many as a page holds, and goes on
from the key of the last one. It may end early if nothing comes after that key. -/
def CutsPages (key : α → κ) (source : List α) (size : Nat) (fetch : κ → Except ε (ListPage α κ)) : Prop :=
  ∀ marker, ∃ page, fetch marker = .ok page ∧ page.objects = (after key source marker).take size ∧
    (∀ marker', page.next? = some marker' → size < (after key source marker).length ∧
      page.objects.getLast?.map key = some marker') ∧
    (page.next? = none → (after key source marker).length ≤ size ∨
      ∀ last, page.objects.getLast? = some last → after key source (key last) = [])

variable {source taken rest : List α} {marker : κ} {last : α}

/-- What comes after the last key of a page is the part of the rest that has another key. -/
theorem after_last (ho : InWeakOrder key source)
    (hsp : after key source marker = taken ++ rest) (hl : taken.getLast? = some last) :
    after key source (key last) = after key rest (key last) := by
  obtain ⟨front, rfl⟩ := getLast?_eq_some_iff.mp hl
  have hm : last ∈ after key source marker := by simp [hsp]
  have hwk : InWeakOrder key (front ++ [last] ++ rest) := by
    rw [← hsp]
    exact ho.filter _
  have ht : after key (front ++ [last]) (key last) = [] := by
    refine filter_eq_nil_iff.mpr fun a ha => ?_
    have hle : key a ≤ key last := by
      obtain ha | ha := mem_append.mp ha
      · exact (pairwise_append.mp (pairwise_append.mp hwk).1).2.2 a ha last (by simp)
      · rw [mem_singleton.mp ha]
    simpa using hle
  rw [← after_after (mem_after.mp hm).2.le, hsp]
  show List.filter _ _ = _
  rw [filter_append]
  exact congrArg (· ++ _) ht

/-- All of the rest comes after the last key of a page exactly if its first entry has another key. -/
theorem after_last_eq_rest_iff {first : α}
    (ho : InWeakOrder key source) (hsp : after key source marker = taken ++ first :: rest)
    (hl : taken.getLast? = some last) :
    after key source (key last) = first :: rest ↔ key last ≠ key first := by
  have hwk : InWeakOrder key (taken ++ first :: rest) := by
    rw [← hsp]
    exact ho.filter _
  obtain ⟨-, hrs, hcr⟩ := pairwise_append.mp hwk
  have hle : key last ≤ key first := hcr last (mem_of_getLast? hl) first mem_cons_self
  rw [after_last ho hsp hl, after, filter_eq_self]
  constructor
  · intro h
    have hlt := h first mem_cons_self
    exact (of_decide_eq_true hlt).ne
  · intro hne a ha
    have hlt : key last < key first := lt_of_le_of_ne hle hne
    obtain rfl | ha := mem_cons.mp ha
    · simpa using hlt
    · simpa using hlt.trans_le (rel_of_pairwise_cons hrs ha)

/-- Each key is on the page or comes after its last one. -/
theorem keys_shown {first : α}
    (ho : InWeakOrder key source) (hsp : after key source marker = taken ++ first :: rest)
    (hls : taken.getLast? = some last) (shown : List α)
    (hl : ∀ a ∈ after key source (key last), ∃ b ∈ shown, key b = key a) :
    ∀ a ∈ taken ++ first :: rest, ∃ b ∈ taken ++ shown, key b = key a := by
  intro a ha
  have hm := mem_of_getLast? hls
  obtain ha | ha := mem_append.mp ha
  · exact ⟨a, mem_append_left _ ha, rfl⟩
  · by_cases hlt : key last < key a
    · rw [after_last ho hsp hls] at hl
      obtain ⟨b, hb, heq⟩ := hl a (mem_after.mpr ⟨ha, hlt⟩)
      exact ⟨b, mem_append_right _ hb, heq⟩
    · have hwk : InWeakOrder key (taken ++ first :: rest) := by
        rw [← hsp]
        exact ho.filter _
      have hle : key last ≤ key a := (pairwise_append.mp hwk).2.2 last hm a ha
      exact ⟨last, mem_append_left _ hm, le_antisymm hle (not_lt.mp hlt)⟩

/-- **Paging by key is exact if and only if no key is split.** The client comes to the end in any
case, with nothing that is not on the list and at least one entry of each key. -/
theorem exact_iff_unsplit {fetch : κ → Except ε (ListPage α κ)}
    (hsize : 0 < size) (hord : InWeakOrder key source) (hft : CutsPages key source size fetch) (marker : κ) :
    ∃ pages, Follows (following fetch) marker pages ∧
      (pages.flatMap (·.objects)).Sublist (after key source marker) ∧
      (∀ a ∈ after key source marker, ∃ b ∈ pages.flatMap (·.objects), key b = key a) ∧
      (pages.flatMap (·.objects) = after key source marker ↔
        Unsplit size ((after key source marker).map key)) := by
  induction hn : (after key source marker).length using Nat.strong_induction_on generalizing marker with
  | _ n ih =>
    obtain ⟨page, hok, ho, hnext, hend⟩ := hft marker
    have hserve : following fetch marker = .ok (page, page.next?) := by rw [following, hok]
    by_cases hshort : (after key source marker).length ≤ size
    · -- All that is left fits on the page.
      have hall : page.objects = after key source marker := by
        rw [ho, take_of_length_le hshort]
      have hlast : page.next? = none := by
        by_contra hsome
        obtain ⟨marker', hsome⟩ := Option.ne_none_iff_exists'.mp hsome
        exact absurd (hnext marker' hsome).1 (by omega)
      rw [hlast] at hserve
      refine ⟨[page], .last hserve, by simp [hall], fun a ha => ⟨a, by simpa [hall] using ha, rfl⟩,
        iff_of_true (by simp [hall]) ?_⟩
      exact unsplit_of_le (by simpa using hshort)
    · obtain ⟨taken, first, rest, hsplit, rfl⟩ := exists_split (not_le.mp hshort)
      have htak : page.objects = taken := by
        rw [ho, hsplit, take_left]
      obtain ⟨last, hlast⟩ : ∃ last, taken.getLast? = some last :=
        ⟨_, getLast?_eq_some_getLast (ne_nil_of_length_pos hsize)⟩
      have hrest := after_last hord hsplit hlast
      have hcov := after_last_eq_rest_iff hord hsplit hlast
      have hfew : (after key (first :: rest) (key last)).Sublist (first :: rest) := filter_sublist
      rw [hsplit, unsplit_append_iff hlast]
      cases hmore : page.next? with
      | none =>
        have hnone : after key source (key last) = [] := by
          obtain hle | hnone := hend hmore
          · exact absurd hle hshort
          · exact hnone last (by rw [htak, hlast])
        rw [hmore] at hserve
        refine ⟨[page], .last hserve, by simp [htak], ?_, iff_of_false (by simp [htak]) ?_⟩
        · simpa [htak] using keys_shown hord hsplit hlast [] (by simp [hnone])
        intro h
        rw [hcov.mpr h.1] at hnone
        cases hnone
      | some marker' =>
        obtain rfl : key last = marker' := by
          have hm := (hnext marker' hmore).2
          rw [htak, hlast] at hm
          exact Option.some.inj hm
        have hl : (after key source (key last)).length < n := by
          have hle := hfew.length_le
          rw [hrest, ← hn, hsplit, length_append]
          omega
        obtain ⟨pages, hf, hsub, hkeys, hex⟩ := ih _ hl (key last) rfl
        rw [hmore] at hserve
        refine ⟨page :: pages, .next hserve hf, ?_, ?_, ?_⟩
        · rw [flatMap_cons, htak]
          exact (List.Sublist.refl taken).append (hsub.trans (hrest ▸ hfew))
        · rw [flatMap_cons, htak]
          exact keys_shown hord hsplit hlast _ hkeys
        · rw [flatMap_cons, htak, append_cancel_left_eq]
          constructor
          · intro h
            -- Nothing of the rest is lost, so all of it comes after the marker.
            have hall : after key source (key last) = first :: rest := by
              rw [h] at hsub
              exact (hsub.antisymm (hrest ▸ hfew)).symm
            refine ⟨hcov.mp hall, ?_⟩
            rw [hall] at hex
            exact hex.mp h
          · intro h
            rw [hcov.mpr h.1] at hex
            exact hex.mpr h.2

/-- A page is cut from its entries and possibly one more, which tells that it is not the last. -/
theorem cutsPages_of_extra (hsz : 0 < size) (start : κ) {fetch : κ → Except ε (ListPage α κ)}
    (hft : ∀ marker, ∃ extra,
      fetch marker = .ok (cutPage key start size ((after key source marker).take size ++ extra)) ∧
      (extra ≠ [] → size < (after key source marker).length) ∧
      (extra = [] → (after key source marker).length ≤ size ∨
        ∀ last, ((after key source marker).take size).getLast? = some last →
          after key source (key last) = [])) :
    CutsPages key source size fetch := by
  intro marker
  obtain ⟨extra, hok, hm, hend⟩ := hft marker
  refine ⟨_, hok, ?_⟩
  unfold cutPage
  cases extra with
  | nil =>
    rw [append_nil, if_neg (length_take_le _ _).not_gt]
    exact ⟨rfl, nofun, fun _ => hend rfl⟩
  | cons next rest =>
    have hl : size < (after key source marker).length := hm (cons_ne_nil _ _)
    have hf : ((after key source marker).take size).length = size := by
      rw [length_take]
      omega
    have hcut : size < ((after key source marker).take size ++ next :: rest).length := by
      rw [length_append, hf, length_cons]
      omega
    rw [if_pos hcut]
    simp only [take_left' hf]
    have hne : (after key source marker).take size ≠ [] := ne_nil_of_length_pos (by omega)
    refine ⟨trivial, fun marker' hnx => ⟨hl, ?_⟩, nofun⟩
    simpa [ListPage.next?, getLast?_eq_some_getLast hne] using hnx

/-- A query for one entry more than the page holds cuts pages. -/
theorem cutsPages_cutPage (key : α → κ) (start : κ) (source : List α) (hsz : 0 < size) :
    CutsPages key source size fun marker =>
      (.ok (cutPage key start size ((after key source marker).take (size + 1))) : Except ε _) := by
  refine cutsPages_of_extra hsz start fun marker =>
    ⟨((after key source marker).drop size).take 1, by rw [take_add], fun hsome => ?_, fun hnil => .inl ?_⟩
  · by_contra hsh
    exact hsome (by rw [drop_of_length_le (not_lt.mp hsh), take_nil])
  · exact drop_eq_nil_iff.mp ((take_eq_nil_iff.mp hnil).resolve_left (by decide))

end Ties

end AeroVault.Lib
