import AeroVault.Auth.SigV4

/-! The hash of a signed payload.

`PrepareBody` puts a `payloadVerifier` before a body whose hash the request declares. It passes on what
the source gives, and compares the hash once: when the source ends, or when the declared length has
been read. A consumer stops at the first read that does not end with a nil error. However the source
cuts the body into reads, it ends cleanly only after all of the body, with the declared hash, and a
body with another hash ends in an error (`signed_payload_verified`). -/
namespace AeroVault.Auth
open Lib

inductive PayloadError
  | signature (err : SigError)
  | hashMismatch
  | bodyMissing
  | source (err : SourceError)
  deriving DecidableEq

structure PayloadVerifier where
  /-- What has been written to the digest. -/
  digest : List UInt8
  expected : GoString
  length : Int
  read : Int
  checked : Bool
  deriving DecidableEq

/-- What `PrepareBody` makes of the body. -/
inductive PreparedBody
  | unchanged
  /-- The reader of signed chunks. -/
  | streaming
  | verified (v : PayloadVerifier)
  deriving DecidableEq

/-- What one `Read` of the source gives. -/
abbrev SourceRead := List UInt8 × Option SourceError

section Verifier
variable (text : TextFunctions) (sha : List UInt8 → GoString)

def prepareBody (hasBody : Bool) (r : HttpRequest) : Except PayloadError PreparedBody :=
  let payloadHash := r.get "X-Amz-Content-Sha256"
  if payloadHash = [] ∨ payloadHash = unsignedPayload then .ok .unchanged
  else if payloadHash = streamingPayload then .ok .streaming
  else do
    (validatePayloadHash payloadHash).mapError .signature
    if r.contentLength = 0 then
      refuseIf (sha [] ≠ text.toLower payloadHash) .hashMismatch
      return .unchanged
    else
      refuseIf (hasBody = false) .bodyMissing
      return .verified ⟨[], text.toLower payloadHash, r.contentLength, 0, false⟩

/-- `payloadVerifier.Read`, of a source that gives `r`. -/
def PayloadVerifier.pass (v : PayloadVerifier) (r : SourceRead) :
    (List UInt8 × Option PayloadError) × PayloadVerifier :=
  let v := {v with digest := v.digest ++ r.1, read := v.read + r.1.length}
  if v.checked = false ∧ (r.2 = some .eof ∨ 0 ≤ v.length ∧ v.read = v.length) then
    let v := {v with checked := true}
    if sha v.digest ≠ v.expected then ((r.1, some .hashMismatch), v) else ((r.1, r.2.map .source), v)
  else ((r.1, r.2.map .source), v)

/-- What the source gives up to its first read that does not end with a nil error. -/
def drain : List SourceRead → SourceRead
  | [] => ([], none)
  | (data, some e) :: _ => (data, some e)
  | (data, none) :: rest => (data ++ (drain rest).1, (drain rest).2)

/-- What a consumer receives, up to the first read that does not end with a nil error. -/
def PayloadVerifier.drain (v : PayloadVerifier) : List SourceRead → List UInt8 × Option PayloadError
  | [] => ([], none)
  | r :: rest =>
    match v.pass sha r with
    | ((data, some e), _) => (data, some e)
    | ((data, none), v) => (data ++ (v.drain rest).1, (v.drain rest).2)

variable {text sha} {v : PayloadVerifier}

/-- After the comparison the verifier only passes on. -/
theorem drain_checked (h : v.checked = true) (reads : List SourceRead) :
    v.drain sha reads = ((drain reads).1, (drain reads).2.map .source) := by
  induction reads generalizing v with
  | nil => rfl
  | cons r rest ih =>
    obtain ⟨data, _ | e⟩ := r
    · simp [PayloadVerifier.drain, PayloadVerifier.pass, drain, h, ih]
    · simp [PayloadVerifier.drain, PayloadVerifier.pass, drain, h]

/-- Before it, the hash of all that the source gives decides, if that is the whole body. -/
theorem drain_unchecked (sha : List UInt8 → GoString) (hch : v.checked = false)
    (hopen : 0 ≤ v.length → v.read < v.length) (reads : List SourceRead)
    (hmost : 0 ≤ v.length → v.read + (drain reads).1.length ≤ v.length) :
    v.drain sha reads = ((drain reads).1,
      if ((drain reads).2 = some .eof ∨ 0 ≤ v.length ∧ v.read + (drain reads).1.length = v.length) ∧
          sha (v.digest ++ (drain reads).1) ≠ v.expected then some .hashMismatch
      else (drain reads).2.map .source) := by
  induction reads generalizing v with
  | nil =>
    have hno : ¬ (0 ≤ v.length ∧ v.read = v.length) := fun h => (hopen h.1).ne h.2
    simp [PayloadVerifier.drain, drain, hno]
  | cons r rest ih =>
    obtain ⟨data, _ | e⟩ := r
    · simp only [drain, List.length_append, Int.natCast_add, ← Int.add_assoc] at hmost ⊢
      by_cases hfull : 0 ≤ v.length ∧ v.read + data.length = v.length
      · -- All of the body has been read: nothing more can come.
        have hnil : (drain rest).1 = [] := by
          rw [← List.length_eq_zero_iff]
          omega
        by_cases hsha : sha (v.digest ++ data) = v.expected
        · simp [PayloadVerifier.drain, PayloadVerifier.pass, hch, hfull, hsha, drain_checked, hnil]
        · simp [PayloadVerifier.drain, PayloadVerifier.pass, hch, hfull, hsha, hnil]
      · have hlt : 0 ≤ v.length → v.read + data.length < v.length := by
          intro hl
          omega
        have hrest := ih (v := ⟨v.digest ++ data, v.expected, v.length, v.read + data.length, false⟩) rfl hlt
          hmost
        simp [PayloadVerifier.drain, PayloadVerifier.pass, hch, hfull, hrest]
    · by_cases hend : e = .eof ∨ 0 ≤ v.length ∧ v.read + data.length = v.length
      · by_cases hsha : sha (v.digest ++ data) = v.expected
        · simp [PayloadVerifier.drain, PayloadVerifier.pass, drain, hch, hend, hsha]
        · simp [PayloadVerifier.drain, PayloadVerifier.pass, drain, hch, hend, hsha]
      · simp [PayloadVerifier.drain, PayloadVerifier.pass, drain, hend]

/-- The hash that the request declares. -/
def declaredHash (text : TextFunctions) (r : HttpRequest) : GoString :=
  text.toLower (r.get "X-Amz-Content-Sha256")

variable {hasBody : Bool} {r : HttpRequest}

theorem prepareBody_verified (h : prepareBody text sha hasBody r = .ok (.verified v)) :
    r.contentLength ≠ 0 ∧ v = ⟨[], declaredHash text r, r.contentLength, 0, false⟩ := by
  simp only [prepareBody] at h
  split at h
  · cases h
  · split at h
    · cases h
    · obtain ⟨-, -, h⟩ := bind_eq_ok.mp h
      split at h
      · obtain ⟨-, -, h⟩ := bind_eq_ok.mp h
        cases h
      · rename_i hne
        obtain ⟨-, -, h⟩ := bind_eq_ok.mp h
        cases h
        exact ⟨hne, rfl⟩

/-- **A signed payload is verified however it is read.** A consumer that comes to a clean end has
received all that the source gave, and its hash is the declared one; and if the source has given its
last byte, or its end, and the hash is another, then the consumer has got an error. -/
theorem signed_payload_verified (h : prepareBody text sha hasBody r = .ok (.verified v))
    (reads : List SourceRead)
    (hmost : 0 ≤ r.contentLength → (drain reads).1.length ≤ r.contentLength) :
    (∀ got, v.drain sha reads = (got, some (.source .eof)) →
      drain reads = (got, some .eof) ∧ sha got = declaredHash text r) ∧
    (sha (drain reads).1 ≠ declaredHash text r →
      (drain reads).2 = some .eof ∨ 0 ≤ r.contentLength ∧ (drain reads).1.length = r.contentLength →
        (v.drain sha reads).2 = some .hashMismatch) := by
  obtain ⟨hne, rfl⟩ := prepareBody_verified h
  have hall := drain_unchecked sha (v := ⟨[], declaredHash text r, r.contentLength, 0, false⟩) rfl
    (fun hl => lt_of_le_of_ne hl hne.symm) reads (by simpa using hmost)
  simp only [Int.zero_add] at hall
  constructor
  · intro got hgot
    obtain ⟨rfl, hclean⟩ := Prod.mk.inj (hall.symm.trans hgot)
    split_ifs at hclean with hbad
    · cases hclean
    · obtain ⟨e, hend, he⟩ := Option.map_eq_some_iff.mp hclean
      cases he
      refine ⟨Prod.ext rfl hend, ?_⟩
      by_contra hsha
      exact hbad ⟨.inl hend, hsha⟩
  · intro hsha hend
    rw [hall, if_pos ⟨hend, hsha⟩]

/-- A put of the byte 1 whose declared hash is 64 zeros. -/
def hashedRequest : HttpRequest :=
  sampleRequest (ascii "/b/k") [] [(ascii "x-amz-content-sha256", List.replicate 64 48)] 1
    presignedRequest.path_one_line

/-- The byte comes first, and the end after an empty read. -/
theorem hashed_request_verified :
    (⟨[], List.replicate 64 48, 1, 0, false⟩ : PayloadVerifier).drain (fun _ => List.replicate 64 48)
        [([1], none), ([], none), ([], some .eof)] = ([1], some (.source .eof)) ∧
      declaredHash plainText hashedRequest = List.replicate 64 48 := by
  have hprep : prepareBody plainText (fun _ => .replicate 64 48) true hashedRequest =
      .ok (.verified ⟨[], .replicate 64 48, 1, 0, false⟩) := by decide +kernel
  have hall := (signed_payload_verified hprep [([1], none), ([], none), ([], some .eof)] (by decide)).1 [1] rfl
  exact ⟨rfl, hall.2.symm⟩

end Verifier

end AeroVault.Auth
