import Mathlib

/-! Sorting in place, by swaps from the left.

The element at each place is swapped with its left neighbour as long as it goes before it (`rank`). If
the order is that of a key which tells the elements apart, the arrangement at the start does not matter
(`rank_eq_of_perm`). -/
namespace AeroVault.Lib

variable {α κ : Type*} (before : α → α → Prop) [DecidableRel before]

/-- The swaps of one element. What is to the left of it stands in the list, the nearest first. -/
def sink (x : α) : List α → List α
  | [] => [x]
  | y :: left => if before x y then y :: sink x left else x :: y :: left

def rank (l : List α) : List α := (l.foldl (fun left x => sink before x left) []).reverse

theorem sink_eq_orderedInsert (x : α) (left : List α) :
    sink before x left = left.orderedInsert (fun a b => ¬ before a b) x := by
  induction left with
  | nil => rfl
  | cons y left ih =>
    rw [sink, List.orderedInsert_cons, ih]
    by_cases hbf : before x y
    · rw [if_pos hbf, if_neg (not_not_intro hbf)]
    · rw [if_neg hbf, if_pos hbf]

theorem rank_eq_insertionSort (l : List α) :
    rank before l = (l.reverse.insertionSort fun a b => ¬ before a b).reverse := by
  have hsn : (fun left x => sink before x left) =
      fun left x => left.orderedInsert (fun a b => ¬ before a b) x := by
    funext left x
    exact sink_eq_orderedInsert before x left
  rw [rank, List.insertionSort, List.foldr_reverse, hsn]

theorem rank_perm (l : List α) : (rank before l).Perm l := by
  rw [rank_eq_insertionSort]
  exact (List.reverse_perm _).trans ((List.perm_insertionSort _ _).trans (List.reverse_perm l))

variable {before} [LinearOrder κ] {key : α → κ}

theorem rank_pairwise (hkey : ∀ a b, before a b ↔ key a < key b) {l : List α} :
    (rank before l).Pairwise fun a b => key a ≤ key b := by
  have hnot (a b : α) : ¬ before a b ↔ key b ≤ key a := by rw [hkey, not_lt]
  have : Std.Total fun a b => ¬ before a b := ⟨fun a b => by
    rw [hnot, hnot]
    exact le_total _ _⟩
  have : IsTrans α fun a b => ¬ before a b := ⟨fun a b c hab hbc => by
    rw [hnot] at hab hbc ⊢
    exact hbc.trans hab⟩
  rw [rank_eq_insertionSort, List.pairwise_reverse]
  exact (List.pairwise_insertionSort _ _).imp fun h => (hnot _ _).mp h

theorem rank_eq_of_perm (hkey : ∀ a b, before a b ↔ key a < key b) {l l' : List α} (hpr : l.Perm l')
    (hinj : Set.InjOn key {a | a ∈ l}) : rank before l = rank before l' := by
  have hsame : (rank before l).Perm (rank before l') :=
    (rank_perm before l).trans (hpr.trans (rank_perm before l').symm)
  refine hsame.eq_of_pairwise (fun a b ha hb hab hba => ?_) (rank_pairwise hkey) (rank_pairwise hkey)
  have ha : a ∈ l := (rank_perm before l).mem_iff.mp ha
  have hb : b ∈ l := hpr.mem_iff.mpr ((rank_perm before l').mem_iff.mp hb)
  exact hinj ha hb (le_antisymm hab hba)

end AeroVault.Lib
