import Mathlib

/-! Lists read as SQL tables.

A table is the list of its rows, in insertion order. `updateWhere` is `UPDATE …
SET … WHERE …`; `DELETE` is `List.filter`. `orderDesc f g` is `ORDER BY f DESC,
g DESC` and `latest` takes the first row of an ordering (`LIMIT 1`): a member,
ahead of every other member. `Table` is a table with an `AUTOINCREMENT` key: its
operations assign and keep the keys, so rows of one key are one row by
construction. -/
namespace AeroVault.Lib
open List

variable {α : Type*}

/-- `UPDATE` the rows that satisfy `p`. -/
def updateWhere (p : α → Bool) (f : α → α) (table : List α) : List α :=
  table.map fun a => if p a then f a else a

variable {p : α → Bool} {f : α → α} {table : List α}

theorem mem_updateWhere {b : α} :
    b ∈ updateWhere p f table ↔ (∃ a ∈ table, p a = true ∧ f a = b) ∨ (b ∈ table ∧ p b = false) := by
  simp only [updateWhere, mem_map]
  constructor
  · intro h
    obtain ⟨a, ha, rfl⟩ := h
    cases hp : p a
    · exact .inr ⟨by simpa using ha, by simpa using hp⟩
    · exact .inl ⟨a, ha, hp, by simp⟩
  · intro h
    obtain ⟨a, ha, hp, rfl⟩ | ⟨hb, hp⟩ := h
    · exact ⟨a, ha, by simp [hp]⟩
    · exact ⟨b, hb, by simp [hp]⟩

/-- An update that one row meets. -/
theorem mem_updateWhere_one {a b : α} (ha : a ∈ table) (hp : ∀ c ∈ table, p c = true ↔ c = a) :
    b ∈ updateWhere p f table ↔ b = f a ∨ (b ∈ table ∧ b ≠ a) := by
  rw [mem_updateWhere]
  constructor
  · intro h
    obtain ⟨c, hc, hm, rfl⟩ | ⟨hb, hnot⟩ := h
    · exact .inl (by rw [(hp c hc).mp hm])
    · refine .inr ⟨hb, fun heq => ?_⟩
      rw [(hp b hb).mpr heq] at hnot
      cases hnot
  · intro h
    obtain rfl | ⟨hb, hne⟩ := h
    · exact .inl ⟨a, ha, (hp a ha).mpr rfl, rfl⟩
    · exact .inr ⟨hb, Bool.eq_false_iff.mpr fun hm => hne ((hp b hb).mp hm)⟩

/-- An update that leaves a column alone leaves the column. -/
theorem map_updateWhere {β : Type*} (g : α → β) (h : ∀ a, p a = true → g (f a) = g a) (table : List α) :
    (updateWhere p f table).map g = table.map g := by
  simp only [updateWhere, map_map]
  refine map_congr_left fun a _ => ?_
  cases hp : p a
  · simp [hp]
  · simp [hp, h a hp]

theorem updateWhere_of_forall_not (h : ∀ a ∈ table, p a = false) : updateWhere p f table = table := by
  exact (map_congr_left fun a ha => by simp [h a ha]).trans (map_id _)

/-- A row found by a column that the update leaves alone is found after it, updated. -/
theorem find?_updateWhere {q : α → Bool} (h : ∀ a, p a = true → q (f a) = q a) (table : List α) :
    (updateWhere p f table).find? q = (table.find? q).map fun a => if p a then f a else a := by
  rw [updateWhere, find?_map]
  congr 1
  refine congrArg (find? · table) (funext fun a => ?_)
  cases hp : p a
  · simp [hp]
  · simp [hp, h a hp]

/-! ### Orderings -/

/-- `ORDER BY f DESC, g DESC`. -/
abbrev orderDesc (f g : α → Nat) (a b : α) : Prop := f b < f a ∨ f b = f a ∧ g b ≤ g a

instance (f g : α → Nat) : Std.Total (orderDesc f g) :=
  ⟨fun a b => by simp only [orderDesc]; omega⟩

instance (f g : α → Nat) : IsTrans α (orderDesc f g) :=
  ⟨fun a b c => by simp only [orderDesc]; omega⟩

variable (r : α → α → Prop) [DecidableRel r]

/-- The first row of an ordering. -/
def latest (table : List α) : Option α := (table.insertionSort r).head?

variable {r}

theorem latest_eq_none : latest r table = none ↔ table = [] := by
  rw [latest, head?_eq_none_iff, ← length_eq_zero_iff, length_insertionSort,
    length_eq_zero_iff]

variable {a : α}

theorem latest_mem (h : latest r table = some a) : a ∈ table :=
  (mem_insertionSort r).mp (mem_of_mem_head? h)

theorem latest_first [Std.Total r] [IsTrans α r]
    (h : latest r table = some a) : ∀ b ∈ table, b ≠ a → r a b := by
  intro b hb hne
  have hsorted := pairwise_insertionSort r table
  rcases hl : table.insertionSort r with _ | ⟨c, rest⟩
  · simp [latest, hl] at h
  have hc : c = a := by simpa [latest, hl] using h
  rw [hl, hc] at hsorted
  have hm : b ∈ c :: rest := hl ▸ (mem_insertionSort r).mpr hb
  rcases mem_cons.mp hm with rfl | hm
  · exact absurd hc hne
  · exact (pairwise_cons.mp hsorted).1 b hm

/-- A row ahead of every other one, in an ordering without ties, is the first. -/
theorem latest_eq_of_first [Std.Total r] [IsTrans α r] (ha : a ∈ table)
    (h : ∀ b ∈ table, b ≠ a → ¬ r b a) : latest r table = some a := by
  rcases hl : latest r table with _ | b
  · rw [latest_eq_none.mp hl] at ha
    cases ha
  · by_cases hba : b = a
    · rw [hba]
    · exact absurd (latest_first hl a ha (.symm hba)) (h b (latest_mem hl) hba)

/-- Two members of an ordered list stand in one order or the other. -/
theorem pairwise_or {R : α → α → Prop} {l : List α} (h : l.Pairwise R) {b : α} (ha : a ∈ l)
    (hb : b ∈ l) (hne : a ≠ b) : R a b ∨ R b a := by
  induction h with
  | nil => cases ha
  | cons hh _ ih =>
    obtain rfl | ha' := mem_cons.mp ha <;> obtain rfl | hb' := mem_cons.mp hb
    · exact absurd rfl hne
    · exact .inl (hh b hb')
    · exact .inr (hh a ha')
    · exact ih ha' hb'

/-- The first rows that are wanted of two tables, which begin with rows that are wanted
together: they are a pair of those, or they come after them. -/
theorem find?_paired {β : Type*} (p : α → Bool) (p' : β → Bool) (rows : List (α × β)) (as : List α)
    (bs : List β) (h : ∀ row ∈ rows, p row.1 = p' row.2) :
    (∃ row ∈ rows, (rows.map Prod.fst ++ as).find? p = some row.1 ∧
        (rows.map Prod.snd ++ bs).find? p' = some row.2) ∨
      ((rows.map Prod.fst ++ as).find? p = as.find? p ∧
        (rows.map Prod.snd ++ bs).find? p' = bs.find? p') := by
  induction rows with
  | nil => exact .inr ⟨rfl, rfl⟩
  | cons row rest ih =>
    have hrow := h row mem_cons_self
    by_cases hp : p row.1 = true
    · refine .inl ⟨row, mem_cons_self, find?_cons_of_pos hp, ?_⟩
      exact find?_cons_of_pos (hrow ▸ hp)
    · have hp' : ¬ p' row.2 = true := hrow ▸ hp
      simp only [map_cons, cons_append, find?_cons_of_neg hp, find?_cons_of_neg hp']
      obtain ⟨found, hm, hfound⟩ | hnone := ih fun row hm => h row (mem_cons_of_mem _ hm)
      · exact .inl ⟨found, mem_cons_of_mem _ hm, hfound⟩
      · exact .inr hnone

/-! ### Entries with distinct keys -/

section Keyed
variable {κ : Type*} {f : α → κ} {l : List α} {i : Nat} {a a' b : α}

theorem perm_cons_eraseIdx (hi : l[i]? = some a) : (a :: l.eraseIdx i).Perm l := by
  obtain ⟨hlt, rfl⟩ := List.getElem?_eq_some_iff.mp hi
  exact getElem_cons_eraseIdx_perm hlt

theorem mem_eraseIdx_of_nodup (h : (l.map f).Nodup) (hi : l[i]? = some a) :
    b ∈ l.eraseIdx i ↔ b ∈ l ∧ f b ≠ f a := by
  have hpr := perm_cons_eraseIdx hi
  have hnd := ((hpr.map f).nodup_iff).mpr h
  rw [map_cons, nodup_cons, mem_map] at hnd
  rw [← hpr.mem_iff, mem_cons]
  constructor
  · exact fun hb => ⟨.inr hb, fun heq => hnd.1 ⟨b, hb, heq⟩⟩
  · exact fun hb => hb.1.resolve_left fun heq => hb.2 (by rw [heq])

theorem mem_set_of_nodup (h : (l.map f).Nodup) (hi : l[i]? = some a) :
    b ∈ l.set i a' ↔ b = a' ∨ (b ∈ l ∧ f b ≠ f a) := by
  obtain ⟨hlt, -⟩ := List.getElem?_eq_some_iff.mp hi
  rw [(set_perm_cons_eraseIdx hlt a').mem_iff, mem_cons, mem_eraseIdx_of_nodup h hi]

theorem map_set_of_eq (hi : l[i]? = some a) (hf : f a' = f a) : (l.set i a').map f = l.map f := by
  obtain ⟨hlt, rfl⟩ := List.getElem?_eq_some_iff.mp hi
  rw [map_set, hf, ← getElem_map f (h := by simpa using hlt), set_getElem_self]

theorem find?_key_eq_some [BEq κ] [LawfulBEq κ] {k : κ} (h : (l.map f).Nodup) :
    l.find? (fun b => f b == k) = some a ↔ a ∈ l ∧ f a = k := by
  constructor
  · intro hf
    have hkey := find?_some hf
    exact ⟨mem_of_find?_eq_some hf, beq_iff_eq.mp hkey⟩
  · intro ha
    cases hf : l.find? (fun b => f b == k) with
    | none => exact absurd (beq_iff_eq.mpr ha.2) (find?_eq_none.mp hf a ha.1)
    | some b =>
      have hkey := find?_some hf
      rw [beq_iff_eq] at hkey
      rw [inj_on_of_nodup_map h (mem_of_find?_eq_some hf) ha.1 (hkey.trans ha.2.symm)]

end Keyed

/-! ### Tables with an `AUTOINCREMENT` key -/

/-- A row with a numeric key column. -/
class Row (α : Type*) where
  id : α → Nat
  withID : α → Nat → α
  id_withID : ∀ a n, id (withID a n) = n
  withID_id : ∀ a, withID a (id a) = a

/-- Keys grow in insertion order and stay below `nextID`, which is never reused. -/
structure Table (α : Type*) [Row α] where
  rows : List α
  nextID : Nat
  sorted : rows.Pairwise fun a b => Row.id a < Row.id b
  bound : ∀ a ∈ rows, Row.id a < nextID

namespace Table

variable [Row α] {t : Table α} {a b : α}

def empty : Table α := ⟨[], 1, List.Pairwise.nil, by simp⟩

/-- `INSERT`: the row gets the next key. -/
def insert (t : Table α) (a : α) : Table α where
  rows := t.rows ++ [Row.withID a t.nextID]
  nextID := t.nextID + 1
  sorted := by
    rw [pairwise_append]
    refine ⟨t.sorted, pairwise_singleton _ _, ?_⟩
    intro b hb c hc
    rw [mem_singleton.mp hc, Row.id_withID]
    exact t.bound b hb
  bound := by
    intro b hb
    obtain hb | hb := mem_append.mp hb
    · exact Nat.lt_succ_of_lt (t.bound b hb)
    · rw [mem_singleton.mp hb, Row.id_withID]
      exact Nat.lt_succ_self _

/-- `UPDATE`: keys are not assigned to. -/
def update (t : Table α) (p : α → Bool) (f : α → α) : Table α where
  rows := updateWhere p (fun a => Row.withID (f a) (Row.id a)) t.rows
  nextID := t.nextID
  sorted := by
    have hids : (updateWhere p (fun a => Row.withID (f a) (Row.id a)) t.rows).map Row.id =
        t.rows.map Row.id := map_updateWhere Row.id (fun a _ => Row.id_withID _ _) t.rows
    have hsorted := pairwise_map.mpr t.sorted
    rw [← hids] at hsorted
    exact pairwise_map.mp hsorted
  bound := by
    intro b hb
    obtain ⟨a, ha, -, rfl⟩ | ⟨hb, -⟩ := mem_updateWhere.mp hb
    · rw [Row.id_withID]
      exact t.bound a ha
    · exact t.bound b hb

/-- `DELETE`. -/
def delete (t : Table α) (p : α → Bool) : Table α where
  rows := t.rows.filter fun a => !p a
  nextID := t.nextID
  sorted := t.sorted.filter _
  bound := fun b hb => t.bound b (mem_filter.mp hb).1

theorem nodup_ids (t : Table α) : (t.rows.map Row.id).Nodup :=
  pairwise_map.mpr (t.sorted.imp Nat.ne_of_lt)

theorem eq_of_id (ha : a ∈ t.rows) (hb : b ∈ t.rows) (h : Row.id a = Row.id b) : a = b :=
  inj_on_of_nodup_map t.nodup_ids ha hb h

theorem nodup (t : Table α) : t.rows.Nodup := .of_map _ t.nodup_ids

theorem mem_insert : b ∈ (t.insert a).rows ↔ b ∈ t.rows ∨ b = Row.withID a t.nextID := by
  simp [insert]

theorem mem_delete : b ∈ (t.delete p).rows ↔ b ∈ t.rows ∧ p b = false := by
  simp [delete]

/-- The row with a key. -/
def get? (t : Table α) (id : Nat) : Option α := t.rows.find? fun a => Row.id a == id

variable {id : Nat}

theorem get?_eq_some : t.get? id = some a ↔ a ∈ t.rows ∧ Row.id a = id := find?_key_eq_some t.nodup_ids

section
-- An update whose assignments leave the key alone.
variable (hf : ∀ a, Row.id (f a) = Row.id a)
include hf

theorem rows_update : (t.update p f).rows = updateWhere p f t.rows := by
  have hid : (fun a => Row.withID (f a) (Row.id a)) = f := by
    funext a
    rw [← hf a, Row.withID_id]
  show updateWhere p (fun a => Row.withID (f a) (Row.id a)) t.rows = _
  rw [hid]

theorem mem_update :
    b ∈ (t.update p f).rows ↔ (∃ a ∈ t.rows, p a = true ∧ f a = b) ∨ (b ∈ t.rows ∧ p b = false) := by
  rw [rows_update hf]
  exact mem_updateWhere

theorem mem_update_one (ha : a ∈ t.rows) (hp : ∀ c ∈ t.rows, p c = true ↔ c = a) :
    b ∈ (t.update p f).rows ↔ b = f a ∨ (b ∈ t.rows ∧ b ≠ a) := by
  rw [rows_update hf]
  exact mem_updateWhere_one ha hp

theorem get?_update (id : Nat) :
    (t.update p f).get? id = (t.get? id).map fun a => if p a then f a else a := by
  rw [get?, rows_update hf]
  exact find?_updateWhere (fun a _ => by rw [hf a]) t.rows

theorem get?_update_pos (h : t.get? id = some a) (hp : p a = true) : (t.update p f).get? id = some (f a) := by
  rw [get?_update hf, h, Option.map_some, if_pos hp]

theorem get?_update_neg (h : ∀ a, t.get? id = some a → p a = false) :
    (t.update p f).get? id = t.get? id := by
  rw [get?_update hf]
  cases hg : t.get? id with
  | none => rfl
  | some a => rw [Option.map_some, if_neg (Bool.eq_false_iff.mp (h a hg))]

/-- An update that names a row by its key leaves the others. -/
theorem get?_update_of_ne {other : Nat} (hne : other ≠ id) :
    (t.update (fun a => Row.id a == id && p a) f).get? other = t.get? other := by
  refine get?_update_neg hf fun a ha => ?_
  rw [(get?_eq_some.mp ha).2, beq_false_of_ne hne, Bool.false_and]

end

theorem get?_of_le (h : t.nextID ≤ id) : t.get? id = none := by
  refine find?_eq_none.mpr fun a ha hid => ?_
  exact absurd (t.bound a ha) (Nat.not_lt.mpr (beq_iff_eq.mp hid ▸ h))

theorem lt_of_get? (h : t.get? id = some a) : id < t.nextID := by
  obtain ⟨ha, rfl⟩ := get?_eq_some.mp h
  exact t.bound a ha

theorem get?_insert_self : (t.insert a).get? t.nextID = some (Row.withID a t.nextID) :=
  get?_eq_some.mpr ⟨mem_insert.mpr (.inr rfl), Row.id_withID a t.nextID⟩

theorem get?_insert_of_ne (h : id ≠ t.nextID) : (t.insert a).get? id = t.get? id := by
  rw [get?, insert, find?_append, find?_singleton, Row.id_withID]
  simp [h.symm, get?]

theorem get?_delete : (t.delete p).get? id = (t.get? id).filter fun a => !p a := by
  cases hg : t.get? id with
  | none =>
    refine find?_eq_none.mpr fun a ha hid => ?_
    exact find?_eq_none.mp hg a (mem_delete.mp ha).1 hid
  | some a =>
    obtain ⟨ha, hid⟩ := get?_eq_some.mp hg
    cases hp : p a with
    | false =>
      rw [Option.filter_some_pos (by simp [hp])]
      exact get?_eq_some.mpr ⟨mem_delete.mpr ⟨ha, hp⟩, hid⟩
    | true =>
      rw [Option.filter_some_neg (by simp [hp])]
      refine find?_eq_none.mpr fun b hb hbid => ?_
      obtain ⟨hb, hkp⟩ := mem_delete.mp hb
      rw [eq_of_id hb ha ((beq_iff_eq.mp hbid).trans hid.symm), hp] at hkp
      cases hkp

end Table
end AeroVault.Lib
