import Mathlib

/-! Go's `map[string]string`, as a list of pairs.

A lookup of a missing key gives the empty string, as indexing a Go map does. -/
namespace AeroVault.Lib

abbrev GoMap := List (String × String)

namespace GoMap

def get (m : GoMap) (k : String) : String := ((m.find? fun e => e.1 == k).map Prod.snd).getD ""

def delete (m : GoMap) (k : String) : GoMap := m.filter fun e => e.1 != k

def set (m : GoMap) (k v : String) : GoMap := (k, v) :: m.delete k

@[simp] theorem get_set_self (m : GoMap) (k v : String) : (m.set k v).get k = v := by
  simp [get, set]

theorem get_filter {p : String × String → Bool} {j : String} (h : ∀ e, e.1 = j → p e = true) (m : GoMap) :
    get (m.filter p) j = m.get j := by
  have hf (e : String × String) : decide (p e = true ∧ (e.1 == j) = true) = (e.1 == j) := by
    by_cases he : e.1 = j
    · simp [he, h e he]
    · simp [he]
  simp only [get, List.find?_filter, hf]

theorem get_delete_ne {m : GoMap} {k j : String} (h : k ≠ j) : (m.delete k).get j = m.get j :=
  get_filter (fun e he => by simp [he, h.symm]) m

theorem get_set_ne {m : GoMap} {k j : String} (v : String) (h : k ≠ j) : (m.set k v).get j = m.get j := by
  have hcn : (m.set k v).get j = (m.delete k).get j := by simp [get, set, h]
  rw [hcn, get_delete_ne h]

end GoMap
end AeroVault.Lib
