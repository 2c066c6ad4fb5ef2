import AeroVault.Lib.ByteText
import AeroVault.Service.Vault

/-! The blob of an object.

`storageKey` joins tenant, bucket and key with `path.Join`, which cleans what it joins.
`validateKey` refuses a leading slash and every `..`, so that a key cannot leave its bucket
(`storageKey_toList`); it does not refuse empty elements, elements `.` and a trailing slash,
and cleaning drops them. `storageKey_inj_iff` says which objects share a blob. -/
namespace AeroVault.Service
open Lib Repository

/-- The elements of a key that `path.Join` keeps. -/
def keyElements (key : String) : List (List Char) :=
  (key.toList.splitOn '/').filter fun e => e ≠ [] ∧ e ≠ ['.']

/-- What a tenant or a bucket can be called. -/
@[mk_iff]
structure AdmittedName (name : String) : Prop where
  nonempty : name ≠ ""
  slash : '/' ∉ name.toList
  dot : name ≠ "."
  dotdot : name ≠ ".."

instance : DecidablePred AdmittedName := fun name => decidable_of_iff' _ (admittedName_iff name)

@[mk_iff]
structure AdmittedPath (p : Path) : Prop where
  tenant : AdmittedName p.tenantID
  bucket : AdmittedName p.bucket
  key : validateKey p.key = .ok ()

instance : DecidablePred AdmittedPath := fun p => decidable_of_iff' _ (admittedPath_iff p)

theorem validateKey_ok {key : String} (h : validateKey key = .ok ()) :
    key ≠ "" ∧ GoText.contains key ".." = false := by
  unfold validateKey at h
  split_ifs at h with hem _ hil
  exact ⟨hem, by simp_all⟩

/-- No element of an accepted key leads upwards. -/
theorem dotdot_not_mem_elements {key : String} (h : validateKey key = .ok ()) :
    ['.', '.'] ∉ key.toList.splitOn '/' := by
  intro hm
  have hin : _ <:+: ['/'].intercalate (key.toList.splitOn '/') := infix_joined hm
  rw [List.intercalate_splitOn] at hin
  have hcn : GoText.contains key ".." = true := GoText.contains_iff.mpr hin
  rw [(validateKey_ok h).2] at hcn
  exact Bool.false_ne_true hcn

theorem AdmittedName.kept {name : String} (h : AdmittedName name) :
    name.toList ≠ [] ∧ name.toList ≠ ['.'] ∧ name.toList ≠ ['.', '.'] := by
  have hne {s : String} (hs : name ≠ s) : name.toList ≠ s.toList := fun heq => hs (String.toList_inj.mp heq)
  exact ⟨hne h.nonempty, hne h.dot, hne h.dotdot⟩

/-- **An object's blob is in its bucket**, under the elements of its key that are kept. -/
theorem storageKey_toList {p : Path} (h : AdmittedPath p) :
    (storageKey p).toList =
      ['/'].intercalate (p.tenantID.toList :: p.bucket.toList :: keyElements p.key) := by
  obtain ⟨ht, htd, htu⟩ := h.tenant.kept
  obtain ⟨hbc, hbd, hbu⟩ := h.bucket.kept
  have hj : storageKey p = GoText.clean ("/".intercalate [p.tenantID, p.bucket, p.key]) := by
    simp [storageKey, GoText.join, h.tenant.nonempty, h.bucket.nonempty, (validateKey_ok h.key).1]
  have htx : ("/".intercalate [p.tenantID, p.bucket, p.key]).toList =
      p.tenantID.toList ++ '/' :: (p.bucket.toList ++ '/' :: p.key.toList) := by
    simp
  have hrt : ((p.tenantID.toList ++ '/' :: (p.bucket.toList ++ '/' :: p.key.toList)).head? ==
      some '/') = false := by
    rw [beq_eq_false_iff_ne, List.head?_append_of_ne_nil _ ht]
    exact fun hh => h.tenant.slash (List.mem_of_mem_head? hh)
  have hup : ['.', '.'] ∉ p.tenantID.toList :: p.bucket.toList :: p.key.toList.splitOn '/' := by
    simp [htu.symm, hbu.symm, dotdot_not_mem_elements h.key]
  have hf : (p.tenantID.toList :: p.bucket.toList :: p.key.toList.splitOn '/').filter
      (fun e => e ≠ [] ∧ e ≠ ['.']) = p.tenantID.toList :: p.bucket.toList :: keyElements p.key := by
    rw [List.filter_cons_of_pos (by simp_all), List.filter_cons_of_pos (by simp_all), keyElements]
  have hne : ['/'].intercalate (p.tenantID.toList :: p.bucket.toList :: keyElements p.key) ≠ [] := by
    simp
  rw [hj, GoText.clean, htx, List.splitOn_append_cons_self_of_not_mem h.tenant.slash,
    List.splitOn_append_cons_self_of_not_mem h.bucket.slash, GoText.foldl_cleanElement hup,
    hf, List.append_nil, List.reverse_reverse]
  simp only [hrt, Bool.false_eq_true, if_false, if_neg hne, String.toList_ofList]

/-- **Two objects share a blob only if they are in one bucket and their keys have the same
elements**, those that are empty or `.` left out. -/
theorem storageKey_inj_iff {p q : Path} (hp : AdmittedPath p) (hq : AdmittedPath q) :
    (storageKey p = storageKey q → p = q) ↔
      (p.tenantID = q.tenantID → p.bucket = q.bucket → keyElements p.key = keyElements q.key →
        p.key = q.key) := by
  have hsl {r : Path} (hr : AdmittedPath r) :
      ∀ e ∈ r.tenantID.toList :: r.bucket.toList :: keyElements r.key, '/' ∉ e := by
    simp only [List.forall_mem_cons]
    exact ⟨hr.tenant.slash, hr.bucket.slash, fun e he => not_mem_of_mem_splitOn (List.mem_of_mem_filter he)⟩
  have hsh : storageKey p = storageKey q ↔
      p.tenantID = q.tenantID ∧ p.bucket = q.bucket ∧ keyElements p.key = keyElements q.key := by
    rw [← String.toList_inj, storageKey_toList hp, storageKey_toList hq]
    constructor
    · intro heq
      have hpc := joined_inj (hsl hp) (hsl hq) (by simp) (by simp) heq
      simpa [String.toList_inj] using hpc
    · rintro ⟨ht, hbc, hel⟩
      rw [ht, hbc, hel]
  rw [hsh]
  constructor
  · intro hinj ht hbc hel
    rw [hinj ⟨ht, hbc, hel⟩]
  · rintro hkey ⟨ht, hbc, hel⟩
    exact Repository.Path.mk.injEq .. ▸ ⟨ht, hbc, hkey ht hbc hel⟩

theorem nested_key_apart :
    AdmittedPath ⟨"t", "b", "a/c"⟩ ∧
      (storageKey ⟨"t", "b", "a"⟩ = storageKey ⟨"t", "b", "a/c"⟩ → (⟨"t", "b", "a"⟩ : Path) = ⟨"t", "b", "a/c"⟩) :=
  ⟨by decide, (storageKey_inj_iff (by decide) (by decide)).mpr (by decide)⟩

/-- A trailing slash is cleaned away: the object `a/` has the blob of `a`. -/
theorem trailing_slash_shares_blob :
    AdmittedPath ⟨"t", "b", "a"⟩ ∧ AdmittedPath ⟨"t", "b", "a/"⟩ ∧
      storageKey ⟨"t", "b", "a"⟩ = storageKey ⟨"t", "b", "a/"⟩ ∧ (⟨"t", "b", "a"⟩ : Path) ≠ ⟨"t", "b", "a/"⟩ := by
  decide

end AeroVault.Service
