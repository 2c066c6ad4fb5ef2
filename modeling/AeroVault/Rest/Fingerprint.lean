import AeroVault.Lib.ByteText
import AeroVault.Rest.Idempotency

/-! What a fingerprint tells apart.

`fingerprintInput` joins the method, the decoded path, the raw query and the body hash with " ", "?"
and " ". A method has no space in it and a hash is of fixed length, so these two can be read back. A
decoded path may hold a "?", since a client can escape one. Two requests of the same method and body
are confused exactly if the path of one goes on, behind that of the other and a "?", with what the
other has as its query (`fingerprint_identifies_iff`). The deletion of `x%3Fhard=1` and the hard
deletion of `x` are (`escaped_query_collides`).

The characters of a path or query stand for the bytes of their codes, so any bytes are covered. -/
namespace AeroVault.Rest

/-! ### Requests -/

def isWriteMethod (m : String) : Bool := m == "PUT" || m == "POST" || m == "PATCH" || m == "DELETE"

/-- With bodies hashed, the hash is the 64 digits of a SHA-256, and otherwise it is empty. -/
def HashedBy (hashBody : Bool) (r : IdemRequest) : Prop :=
  if hashBody then r.bodyHash.length = 64 else r.bodyHash = ""

structure SameRequest (r₁ r₂ : IdemRequest) : Prop where
  method : r₁.method = r₂.method
  path : r₁.path = r₂.path
  rawQuery : r₁.rawQuery = r₂.rawQuery
  bodyHash : r₁.bodyHash = r₂.bodyHash

/-- Behind the path of `r₂` and a "?", the path of `r₁` holds the query of `r₂`, or the start of it. In the
latter case, the query goes on with another "?" and the query of `r₁`. -/
def Shadows (r₁ r₂ : IdemRequest) : Prop :=
  ∃ rest, r₁.path = r₂.path ++ "?" ++ rest ∧
    (r₁.rawQuery = "" ∧ rest ≠ "" ∧ r₂.rawQuery = rest ∨
      r₁.rawQuery ≠ "" ∧ r₂.rawQuery = rest ++ "?" ++ r₁.rawQuery)

/-! ### Request targets

`url.ParseRequestURI` on a target that starts with a slash. -/

def unhex (c : Char) : Option Nat :=
  if '0' ≤ c ∧ c ≤ '9' then some (c.toNat - '0'.toNat)
  else if 'a' ≤ c ∧ c ≤ 'f' then some (c.toNat - 'a'.toNat + 10)
  else if 'A' ≤ c ∧ c ≤ 'F' then some (c.toNat - 'A'.toNat + 10)
  else none

def unescapePath : List Char → Option (List Char)
  | [] => some []
  | '%' :: a :: b :: rest => do
    let hi ← unhex a
    let lo ← unhex b
    let decoded ← unescapePath rest
    return Char.ofNat (16 * hi + lo) :: decoded
  | c :: rest => if c = '%' then none else (c :: ·) <$> unescapePath rest

def isCTL (c : Char) : Bool := c.toNat < 0x20 || c.toNat == 0x7f

/-- The decoded path and the raw query of a request target. -/
def parseRequestURI (target : String) : Option (String × String) :=
  if target.toList.any isCTL || target.toList.head? != some '/' then none
  else
    let rawPath := target.toList.takeWhile (· != '?')
    (unescapePath rawPath).map fun path =>
      (String.ofList path, String.ofList ((target.toList.dropWhile (· != '?')).drop 1))

/-! ### Reading the input back -/

section Parts

variable {r r₁ r₂ : IdemRequest} {hashBody : Bool}

def queryPart (r : IdemRequest) : List Char := if r.rawQuery = "" then [] else '?' :: r.rawQuery.toList

/-- The path and what the query adds to it. -/
def target (r : IdemRequest) : List Char := r.path.toList ++ queryPart r

def hashPart (r : IdemRequest) : List Char := if r.bodyHash = "" then [] else ' ' :: r.bodyHash.toList

theorem toList_fingerprintInput (r : IdemRequest) :
    (fingerprintInput r).toList = r.method.toList ++ ' ' :: (target r ++ hashPart r) := by
  simp only [fingerprintInput, target, queryPart, hashPart]
  split <;> split <;> simp

/-- No method that writes has a space in it. -/
theorem space_notMem_of_isWriteMethod {m : String} (h : isWriteMethod m = true) : ' ' ∉ m.toList := by
  simp only [isWriteMethod, Bool.or_eq_true, beq_iff_eq] at h
  obtain ((rfl | rfl) | rfl) | rfl := h <;> decide

theorem length_hashPart (h₁ : HashedBy hashBody r₁) (h₂ : HashedBy hashBody r₂) :
    (hashPart r₁).length = (hashPart r₂).length := by
  have hl (r : IdemRequest) (h : HashedBy hashBody r) :
      (hashPart r).length = if hashBody then 65 else 0 := by
    cases hashBody with
    | false => exact congrArg List.length (if_pos h)
    | true =>
      have hne : r.bodyHash ≠ "" := by
        intro hem
        have h : r.bodyHash.length = 64 := h
        rw [hem] at h
        cases h
      rw [hashPart, if_neg hne]
      exact congrArg Nat.succ h
  rw [hl r₁ h₁, hl r₂ h₂]

theorem hashPart_injective (h : hashPart r₁ = hashPart r₂) : r₁.bodyHash = r₂.bodyHash := by
  simp only [hashPart] at h
  split at h <;> split at h <;> simp_all [String.toList_inj]

theorem fingerprintInput_eq_iff (hm₁ : isWriteMethod r₁.method = true) (hm₂ : isWriteMethod r₂.method = true)
    (hh₁ : HashedBy hashBody r₁) (hh₂ : HashedBy hashBody r₂) :
    fingerprintInput r₁ = fingerprintInput r₂ ↔
      r₁.method = r₂.method ∧ r₁.bodyHash = r₂.bodyHash ∧ target r₁ = target r₂ := by
  rw [← String.toList_inj, toList_fingerprintInput, toList_fingerprintInput]
  constructor
  · intro h
    obtain ⟨hm, htl⟩ :=
      Lib.ended_inj (space_notMem_of_isWriteMethod hm₁) (space_notMem_of_isWriteMethod hm₂) h
    obtain ⟨ht, hh⟩ := List.append_inj' htl (length_hashPart hh₁ hh₂)
    exact ⟨String.toList_inj.mp hm, hashPart_injective hh, ht⟩
  · intro h
    obtain ⟨hm, hh, ht⟩ := h
    rw [hm, ht, hashPart, hashPart, hh]

theorem queryPart_injective (h : queryPart r₁ = queryPart r₂) : r₁.rawQuery = r₂.rawQuery := by
  simp only [queryPart] at h
  split at h <;> split at h <;> simp_all [String.toList_inj]

theorem shadows_iff : Shadows r₁ r₂ ↔
    ∃ c, c ≠ [] ∧ r₁.path.toList = r₂.path.toList ++ c ∧ queryPart r₂ = c ++ queryPart r₁ := by
  simp only [queryPart]
  constructor
  · intro h
    obtain ⟨rest, hpath, hqr⟩ := h
    refine ⟨'?' :: rest.toList, List.cons_ne_nil _ _, by simp [hpath], ?_⟩
    obtain ⟨h₁, hrest, h₂⟩ | ⟨h₁, h₂⟩ := hqr
    · rw [if_pos h₁, h₂, if_neg hrest, List.append_nil]
    · have hne : r₂.rawQuery ≠ "" := by
        intro hem
        rw [hem] at h₂
        simpa using congrArg String.toList h₂
      rw [if_neg h₁, if_neg hne, h₂]
      simp
  · intro h
    obtain ⟨c, hc, hpath, hqr⟩ := h
    obtain ⟨x, rest, rfl⟩ := List.exists_cons_of_ne_nil hc
    by_cases h₂ : r₂.rawQuery = ""
    · rw [if_pos h₂] at hqr
      cases hqr
    · rw [if_neg h₂, List.cons_append] at hqr
      obtain ⟨rfl, hrest⟩ := List.cons_eq_cons.mp hqr
      refine ⟨.ofList rest, String.toList_inj.mp (by simp [hpath]), ?_⟩
      by_cases h₁ : r₁.rawQuery = ""
      · rw [if_pos h₁, List.append_nil] at hrest
        have hsame : r₂.rawQuery = String.ofList rest := by rw [← hrest, String.ofList_toList]
        exact .inl ⟨h₁, hsame ▸ h₂, hsame⟩
      · rw [if_neg h₁] at hrest
        exact .inr ⟨h₁, String.toList_inj.mp (by simp [hrest])⟩

theorem Shadows.target_eq (h : Shadows r₁ r₂) : target r₁ = target r₂ := by
  obtain ⟨c, -, hpath, hqr⟩ := shadows_iff.mp h
  rw [target, target, hpath, hqr, List.append_assoc]

/-- A path that another one goes on from is the same path, or is shadowed. -/
theorem same_or_shadows {c : List Char} (hpath : r₁.path.toList = r₂.path.toList ++ c)
    (hqr : queryPart r₂ = c ++ queryPart r₁) :
    r₁.path = r₂.path ∧ r₁.rawQuery = r₂.rawQuery ∨ Shadows r₁ r₂ := by
  by_cases hc : c = []
  · rw [hc, List.append_nil] at hpath
    rw [hc, List.nil_append] at hqr
    exact .inl ⟨String.toList_inj.mp hpath, (queryPart_injective hqr).symm⟩
  · exact .inr (shadows_iff.mpr ⟨c, hc, hpath, hqr⟩)

theorem target_eq_iff :
    target r₁ = target r₂ ↔
      r₁.path = r₂.path ∧ r₁.rawQuery = r₂.rawQuery ∨ Shadows r₁ r₂ ∨ Shadows r₂ r₁ := by
  constructor
  · intro h
    obtain ⟨c, hpath, hqr⟩ | ⟨c, hpath, hqr⟩ := List.append_eq_append_iff.mp h
    · obtain ⟨hp, hq⟩ | hsh := same_or_shadows hpath hqr
      · exact .inl ⟨hp.symm, hq.symm⟩
      · exact .inr (.inr hsh)
    · exact (same_or_shadows hpath hqr).imp_right .inl
  · intro h
    obtain ⟨hpath, hqr⟩ | hsh | hsh := h
    · rw [target, target, queryPart, queryPart, hpath, hqr]
    · exact hsh.target_eq
    · exact hsh.target_eq.symm

theorem Shadows.path_ne (h : Shadows r₁ r₂) : r₁.path ≠ r₂.path := by
  obtain ⟨c, hc, hpath, -⟩ := shadows_iff.mp h
  intro hsame
  rw [hsame] at hpath
  exact hc (List.append_right_eq_self.mp hpath.symm)

end Parts

/-- **The fingerprints of two write requests tell them apart exactly if, given one method and body, neither
shadows the other.** -/
theorem fingerprint_identifies_iff (hashBody : Bool) (r₁ r₂ : IdemRequest)
    (hm₁ : isWriteMethod r₁.method = true) (hm₂ : isWriteMethod r₂.method = true)
    (hh₁ : HashedBy hashBody r₁) (hh₂ : HashedBy hashBody r₂) :
    (fingerprintInput r₁ = fingerprintInput r₂ → SameRequest r₁ r₂) ↔
      (r₁.method = r₂.method → r₁.bodyHash = r₂.bodyHash → ¬ Shadows r₁ r₂ ∧ ¬ Shadows r₂ r₁) := by
  rw [fingerprintInput_eq_iff hm₁ hm₂ hh₁ hh₂, target_eq_iff]
  constructor
  · intro h hm hh
    refine ⟨fun hsh => ?_, fun hsh => ?_⟩
    · exact hsh.path_ne (h ⟨hm, hh, .inr (.inl hsh)⟩).path
    · exact hsh.path_ne (h ⟨hm, hh, .inr (.inr hsh)⟩).path.symm
  · intro h heq
    obtain ⟨hm, hh, ht⟩ := heq
    obtain ⟨hnot₁, hnot₂⟩ := h hm hh
    obtain ⟨hpath, hqr⟩ | hsh | hsh := ht
    · exact ⟨hm, hpath, hqr, hh⟩
    · exact absurd hsh hnot₁
    · exact absurd hsh hnot₂

/-! ### Soft and hard deletions -/

private def deletion (path rawQuery : String) : IdemRequest := ⟨"DELETE", path, rawQuery, "", fun _ => []⟩

theorem query_tells_apart :
    fingerprintInput (deletion "/v1/files/x" "") ≠ fingerprintInput (deletion "/v1/files/x" "hard=1") := by
  intro hsame
  have h := (fingerprint_identifies_iff false (deletion "/v1/files/x" "") (deletion "/v1/files/x" "hard=1")
    (by decide) (by decide) rfl rfl).mpr (fun _ _ => ⟨fun h => h.path_ne rfl, fun h => h.path_ne rfl⟩) hsame
  exact absurd h.rawQuery (by decide)

/-- The soft deletion of the key `x?hard=1` and the hard deletion of `x`, as they are sent. -/
theorem escaped_query_collides :
    parseRequestURI "/v1/files/x%3Fhard=1" = some ("/v1/files/x?hard=1", "") ∧
      parseRequestURI "/v1/files/x?hard=1" = some ("/v1/files/x", "hard=1") ∧
      fingerprintInput (deletion "/v1/files/x?hard=1" "") = fingerprintInput (deletion "/v1/files/x" "hard=1") ∧
      ¬ SameRequest (deletion "/v1/files/x?hard=1" "") (deletion "/v1/files/x" "hard=1") := by
  refine ⟨by decide +kernel, by decide +kernel, by decide +kernel, fun h => ?_⟩
  exact absurd h.path (by decide)

end AeroVault.Rest
