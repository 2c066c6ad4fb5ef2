import AeroVault.Lib.Tables

/-! Totals of a table: what the rows weigh together.

Every row has a weight in an additive group. An insertion adds the weight of the
new row, an assignment to one row changes the total by the difference of its
weights, and a deletion takes off what the deleted rows weigh. -/
namespace AeroVault.Lib
open List

variable {α M : Type*} [AddCommGroup M] (w : α → M)

def totalOf (rows : List α) : M := (rows.map w).sum

@[simp] theorem totalOf_nil : totalOf w [] = 0 := rfl

@[simp] theorem totalOf_cons (a : α) (rest : List α) : totalOf w (a :: rest) = w a + totalOf w rest :=
  sum_cons

theorem totalOf_append (a b : List α) : totalOf w (a ++ b) = totalOf w a + totalOf w b := by
  rw [totalOf, map_append, sum_append, totalOf, totalOf]

variable {w}

variable {p : α → Bool} {f : α → α} {rows : List α}

theorem totalOf_updateWhere_eq (h : ∀ a ∈ rows, p a = true → w (f a) = w a) :
    totalOf w (updateWhere p f rows) = totalOf w rows := by
  unfold totalOf updateWhere
  rw [map_map]
  congr 1
  refine map_congr_left fun a ha => ?_
  cases hp : p a with
  | false => simp [hp]
  | true => simp [hp, h a ha hp]

theorem totalOf_filter_not :
    totalOf w (rows.filter fun a => !p a) = totalOf w rows - totalOf w (rows.filter p) := by
  induction rows with
  | nil => simp
  | cons a rest ih =>
    cases hp : p a with
    | false => simp [hp, ih, add_sub_assoc]
    | true => simp [hp, ih]

/-- If `row` is the only one to satisfy `p`, then only it is assigned to. -/
theorem totalOf_updateWhere_one {row : α}
    (hnod : rows.Nodup) (hrow : row ∈ rows) (hp : ∀ a ∈ rows, p a = true ↔ a = row) :
    totalOf w (updateWhere p f rows) = totalOf w rows - w row + w (f row) := by
  induction rows with
  | nil => cases hrow
  | cons a rest ih =>
    obtain ⟨hnot, hnod⟩ := nodup_cons.mp hnod
    have hcn : updateWhere p f (a :: rest) = (if p a then f a else a) :: updateWhere p f rest := rfl
    have hrs (b : α) (hb : b ∈ rest) : p b = true ↔ b = row := hp b (mem_cons_of_mem _ hb)
    rw [hcn, totalOf_cons, totalOf_cons]
    obtain rfl | hrow := mem_cons.mp hrow
    · have hnone : updateWhere p f rest = rest := updateWhere_of_forall_not fun b hb =>
        Bool.eq_false_iff.mpr fun hpb => hnot ((hrs b hb).mp hpb ▸ hb)
      rw [if_pos ((hp row mem_cons_self).mpr rfl), hnone]
      abel
    · have hne : ¬ p a = true := fun hpa => hnot ((hp a mem_cons_self).mp hpa ▸ hrow)
      rw [if_neg hne, ih hnod hrow hrs]
      abel

theorem filter_one {row : α} (hnd : rows.Nodup)
    (hrow : row ∈ rows) (hp : ∀ a ∈ rows, p a = true ↔ a = row) : rows.filter p = [row] := by
  have hm (a : α) : a ∈ rows.filter p ↔ a ∈ [row] := by
    rw [mem_filter, mem_singleton]
    constructor
    · exact fun h => (hp a h.1).mp h.2
    · intro h
      rw [h]
      exact ⟨hrow, (hp row hrow).mpr rfl⟩
  have hpr := (perm_ext_iff_of_nodup (hnd.filter p) (nodup_singleton row)).mpr hm
  exact perm_singleton.mp hpr

theorem totalOf_nonneg [PartialOrder M] [IsOrderedAddMonoid M]
    (h : ∀ a ∈ rows, 0 ≤ w a) : 0 ≤ totalOf w rows := by
  refine sum_nonneg fun x hx => ?_
  obtain ⟨a, ha, rfl⟩ := mem_map.mp hx
  exact h a ha

namespace Table

variable [Row α] {t : Table α} {row : α}

variable (w) in
def total (t : Table α) : M := totalOf w t.rows

theorem total_insert (t : Table α) (a : α) :
    (t.insert a).total w = t.total w + w (Row.withID a t.nextID) := by
  show totalOf w (t.rows ++ [Row.withID a t.nextID]) = _
  rw [totalOf_append, totalOf_cons, totalOf_nil, add_zero, total]

theorem total_update_eq (hf : ∀ a, Row.id (f a) = Row.id a)
    (h : ∀ a ∈ t.rows, p a = true → w (f a) = w a) : (t.update p f).total w = t.total w := by
  unfold total
  rw [rows_update hf]
  exact totalOf_updateWhere_eq h

theorem total_delete (t : Table α) (p : α → Bool) :
    (t.delete p).total w = t.total w - totalOf w (t.rows.filter p) := totalOf_filter_not

/-- An assignment to one row. -/
theorem total_update_one (hf : ∀ a, Row.id (f a) = Row.id a)
    (hrow : row ∈ t.rows) (hp : ∀ a ∈ t.rows, p a = true ↔ a = row) :
    (t.update p f).total w = t.total w - w row + w (f row) := by
  unfold total
  rw [rows_update hf]
  exact totalOf_updateWhere_one t.nodup hrow hp

theorem total_delete_one (hrow : row ∈ t.rows)
    (hp : ∀ a ∈ t.rows, p a = true ↔ a = row) : (t.delete p).total w = t.total w - w row := by
  rw [total_delete, filter_one t.nodup hrow hp, totalOf_cons, totalOf_nil, add_zero]

end Table
end AeroVault.Lib
