import AeroVault.Lib.Tables

/-! Tables with a primary key.

A table is the list of its rows, in insertion order, no two of which have the same key. `INSERT`
fails on a key that is taken and `UPDATE` of one row on a key that is not there (`insert?`,
`update?`). Both leave the same table to a reader: the row is what its key gives, and the other keys
give what they gave before (`get?_of_insert?`, `get?_of_update?`). -/
namespace AeroVault.Lib
open List

variable {ρ κ : Type*} {key : ρ → κ}

structure Keyed (key : ρ → κ) where
  rows : List ρ
  nodup : (rows.map key).Nodup

namespace Keyed

def empty : Keyed key := ⟨[], nodup_nil⟩

theorem rows_nodup (t : Keyed key) : t.rows.Nodup := t.nodup.of_map key

variable [DecidableEq κ]

def get? (t : Keyed key) (k : κ) : Option ρ := t.rows.find? fun r => key r = k

variable {t t' : Keyed key} {k : κ} {r : ρ}

theorem get?_eq_some : t.get? k = some r ↔ r ∈ t.rows ∧ key r = k := find?_key_eq_some t.nodup

theorem get?_key (h : r ∈ t.rows) : t.get? (key r) = some r := get?_eq_some.mpr ⟨h, rfl⟩

theorem get?_eq_none : t.get? k = none ↔ k ∉ t.rows.map key := by
  simp [get?]

/-- `INSERT`. -/
def insert? (t : Keyed key) (r : ρ) : Option (Keyed key) :=
  if h : key r ∈ t.rows.map key then none
  else some ⟨t.rows ++ [r], by
    rw [map_append, map_singleton, nodup_append]
    exact ⟨t.nodup, nodup_singleton _, fun a ha b hb => by
      rw [mem_singleton.mp hb]; exact fun heq => h (heq ▸ ha)⟩⟩

theorem map_key_replace (t : Keyed key) (r : ρ) :
    (t.rows.map fun r' => if key r' = key r then r else r').map key = t.rows.map key := by
  rw [map_map]
  refine map_congr_left fun r' _ => ?_
  dsimp only [Function.comp_apply]
  split
  next h => exact h.symm
  · rfl

/-- `UPDATE` of the row with the key of `r`, to `r`. -/
def update? (t : Keyed key) (r : ρ) : Option (Keyed key) :=
  if key r ∈ t.rows.map key then
    some ⟨t.rows.map fun r' => if key r' = key r then r else r', (map_key_replace t r).symm ▸ t.nodup⟩
  else none

theorem insert?_eq_some (h : t.insert? r = some t') : t.get? (key r) = none ∧ t'.rows = t.rows ++ [r] := by
  unfold insert? at h
  split at h
  · cases h
  next hfree =>
    cases h
    exact ⟨get?_eq_none.mpr hfree, rfl⟩

theorem exists_insert? (h : t.get? (key r) = none) : ∃ t', t.insert? r = some t' := by
  unfold insert?
  rw [dif_neg (get?_eq_none.mp h)]
  exact ⟨_, rfl⟩

theorem get?_of_insert? (h : t.insert? r = some t') (k : κ) :
    t'.get? k = if k = key r then some r else t.get? k := by
  obtain ⟨hfree, hrw⟩ := insert?_eq_some h
  rw [get?, hrw, find?_append]
  change (t.get? k).or _ = _
  split
  next hk =>
    rw [hk, hfree]
    simp
  next hk => simp [Ne.symm hk]

theorem update?_eq_some (h : t.update? r = some t') :
    (∃ old ∈ t.rows, key old = key r) ∧
      t'.rows = t.rows.map fun r' => if key r' = key r then r else r' := by
  unfold update? at h
  split at h
  next hm =>
    cases h
    exact ⟨mem_map.mp hm, rfl⟩
  · cases h

theorem get?_of_update? (h : t.update? r = some t') (k : κ) :
    t'.get? k = if k = key r then some r else t.get? k := by
  obtain ⟨⟨old, hold, hkey⟩, hrw⟩ := update?_eq_some h
  have hup : t'.rows = updateWhere (key · = key r) (fun _ => r) t.rows := by simpa [updateWhere] using hrw
  rw [get?, hup, find?_updateWhere fun a ha => by simp [of_decide_eq_true ha]]
  change (t.get? k).map _ = _
  split
  next hk =>
    rw [hk, ← hkey, get?_key hold]
    simp
  next hk =>
    cases hg : t.get? k with
    | none => rfl
    | some a => simp [(get?_eq_some.mp hg).2, hk]

/-! ### Maps

A Go map is such a table too: an assignment replaces the row, and a deletion of a missing key does
nothing. -/

def remove (t : Keyed key) (k : κ) : Keyed key :=
  ⟨t.rows.filter fun r => key r ≠ k, t.nodup.sublist (filter_sublist.map key)⟩

def put (t : Keyed key) (r : ρ) : Keyed key :=
  ⟨(t.remove (key r)).rows ++ [r], by
    rw [map_append, map_singleton, nodup_append]
    refine ⟨(t.remove (key r)).nodup, nodup_singleton _, fun a ha b hb => ?_⟩
    obtain ⟨r', hr', rfl⟩ := mem_map.mp ha
    rw [mem_singleton.mp hb]
    exact of_decide_eq_true (mem_filter.mp hr').2⟩

theorem perm_remove (h : t.get? k = some r) : t.rows.Perm (r :: (t.remove k).rows) := by
  obtain ⟨hm, rfl⟩ := get?_eq_some.mp h
  have hnd : (r :: (t.remove (key r)).rows).Nodup := nodup_cons.mpr ⟨by simp [remove], rows_nodup _⟩
  refine (perm_ext_iff_of_nodup t.rows_nodup hnd).mpr ?_
  intro r'
  rw [mem_cons, remove, mem_filter, decide_eq_true_eq]
  constructor
  · intro hr'
    by_cases hkey : key r' = key r
    · exact .inl (inj_on_of_nodup_map t.nodup hr' hm hkey)
    · exact .inr ⟨hr', hkey⟩
  · rintro (rfl | hr')
    · exact hm
    · exact hr'.1

theorem rows_put (h : t.get? (key r) = none) : (t.put r).rows = t.rows ++ [r] := by
  have hkp : (t.remove (key r)).rows = t.rows := by
    refine filter_eq_self.mpr fun r' hr' => decide_eq_true fun hkey => ?_
    exact get?_eq_none.mp h (hkey ▸ mem_map_of_mem hr')
  show (t.remove (key r)).rows ++ [r] = _
  rw [hkp]

end Keyed

end AeroVault.Lib
