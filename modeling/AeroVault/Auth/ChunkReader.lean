import AeroVault.Lib.ByteSource

/-! The body of a streaming upload: chunks that are signed one after another.

`verifiedChunkReader` reads a header, the data and the line end of a chunk, and checks
the signature over the data and the signature before it; an empty chunk ends the body.
Whatever the stream and the sizes of the reads, what is delivered is the data of chunks
whose signatures were checked. But the reader passes on the `io.EOF` of a source that
ends between two of its reads, and the caller cannot tell that from the end of the body:
`reads_are_verified_iff` says for which streams this does not happen, and
`cut_body_ends_cleanly` is one for which it does. -/
namespace AeroVault.Auth
open Lib List

/-- The errors of the reader: those of the source, and its own. -/
inductive ReadError
  | source (e : SourceError)
  | malformedHeader | missingSignature | malformedSignature
  | chunkTooLarge
  | malformedTerminator
  | signatureMismatch
  deriving DecidableEq

/-- `io.EOF`. -/
abbrev ReadError.eof : ReadError := .source .eof

structure ChunkReader where
  reader : Source
  current : List UInt8
  previousSig : List UInt8
  done : Bool
  deriving DecidableEq

def maxChunkSize : Nat := 16 * 2 ^ 20

/-! ### The header -/

/-- The bytes of an ASCII text. -/
def ascii (s : String) : List UInt8 := s.toList.map fun c => c.toNat.toUInt8

def newline : UInt8 := 10

def lineEnd : List UInt8 := [13, newline]

def hexDigit (b : UInt8) : Option Nat :=
  if 48 ≤ b.toNat ∧ b.toNat ≤ 57 then some (b.toNat - 48)
  else if 97 ≤ b.toNat ∧ b.toNat ≤ 102 then some (b.toNat - 87)
  else if 65 ≤ b.toNat ∧ b.toNat ≤ 70 then some (b.toNat - 55)
  else none

/-- A number without a sign. -/
def parseHexDigits (digits : List UInt8) : Option Nat :=
  if digits = [] then none
  else digits.foldlM (fun n b => (hexDigit b).map (n * 16 + ·)) 0

/-- `strconv.ParseInt(s, 16, 64)`. -/
def parseHexInt (s : List UInt8) : Option Int :=
  match s with
  | 45 :: digits => (parseHexDigits digits).bind fun n => if n ≤ 2 ^ 63 then some (-n) else none
  | 43 :: digits => (parseHexDigits digits).bind fun n => if n < 2 ^ 63 then some n else none
  | digits => (parseHexDigits digits).bind fun n => if n < 2 ^ 63 then some n else none

/-- The two fields of a header, as numbers. -/
def headerFields (sizeField signature : List UInt8) : Except ReadError (Nat × List UInt8) :=
  match parseHexInt sizeField with
  | some size =>
    if size < 0 ∨ signature.length ≠ 64 then .error .malformedHeader
    else if signature.all (fun b => (hexDigit b).isSome) then .ok (size.toNat, signature)
    else .error .malformedSignature
  | none => .error .malformedHeader

/-- The size and the signature of a header line. -/
def parseHeader (line : List UInt8) : Except ReadError (Nat × List UInt8) :=
  if 4096 < line.length ∨ ¬ lineEnd <:+ line then .error .malformedHeader
  else
    match (line.take (line.length - 2)).splitOn 59 with
    | [sizeField, sigField] =>
      if (ascii "chunk-signature=").isPrefixOf sigField then
        headerFields sizeField (sigField.drop (ascii "chunk-signature=").length)
      else .error .missingSignature
    | _ => .error .missingSignature

def readChunkHeader (s : Source) : Except ReadError ((Nat × List UInt8) × Source) := do
  let line ← (s.readString newline).mapError .source
  let header ← parseHeader line.1
  return (header, line.2)

def consumeCRLF (s : Source) : Except ReadError Source := do
  let suffix ← (s.readFull 2).mapError .source
  refuseIf (suffix.1 ≠ lineEnd) .malformedTerminator
  return suffix.2

/-! ### Chunks -/

/-- `strings.ToLower`, of a byte. -/
def lowerByte (b : UInt8) : UInt8 := if 65 ≤ b.toNat ∧ b.toNat ≤ 90 then b + 32 else b

section Reader
variable (sign : List UInt8 → List UInt8 → List UInt8)

/-- `loadChunk`, where `sign` is the signature of some data after a signature. -/
def loadChunk (r : ChunkReader) : Except ReadError ChunkReader := do
  let header ← readChunkHeader r.reader
  let size := header.1.1
  refuseIf (maxChunkSize < size) .chunkTooLarge
  let data ← (header.2.readFull size).mapError .source
  let reader ← consumeCRLF data.2
  let expected := sign r.previousSig data.1
  refuseIf (expected ≠ header.1.2.map lowerByte) .signatureMismatch
  return ⟨reader, data.1, expected, size == 0⟩

/-! ### What a load does -/

/-- The bytes begin with a chunk whose signature follows on the one before it. -/
def ChunkAt (prev bytes data rest : List UInt8) : Prop :=
  ∃ line signature, cutAfter newline bytes = some (line, data ++ (lineEnd ++ rest)) ∧
    parseHeader line = .ok (data.length, signature) ∧ data.length ≤ maxChunkSize ∧
    sign prev data = signature.map lowerByte

/-- The bytes end before a chunk does, where the reader is between two reads: in the
header line, right after it, or right after the data. -/
def Cut (bytes : List UInt8) : Prop :=
  newline ∉ bytes ∨
    ∃ line tail size signature, cutAfter newline bytes = some (line, tail) ∧
      parseHeader line = .ok (size, signature) ∧ size ≤ maxChunkSize ∧ (tail = [] ∨ tail.length = size)

variable {sign} {r r' : ChunkReader} {prev bytes data rest : List UInt8}

theorem readChunkHeader_ok_iff {s s' : Source} {header : Nat × List UInt8} :
    readChunkHeader s = .ok (header, s') ↔
      ∃ line, cutAfter newline s.bytes = some (line, s'.bytes) ∧ parseHeader line = .ok header ∧
        s'.ending = s.ending := by
  simp only [readChunkHeader, bind_eq_ok, wrapped_ok_iff]
  constructor
  · intro h
    obtain ⟨⟨line, s''⟩, hl, header', hh, h⟩ := h
    cases h
    obtain ⟨hcut, hend⟩ := Source.readString_ok_iff.mp hl
    exact ⟨line, hcut, hh, hend⟩
  · intro h
    obtain ⟨line, hcut, hh, hend⟩ := h
    exact ⟨(line, s'), Source.readString_ok_iff.mpr ⟨hcut, hend⟩, header, hh, rfl⟩

theorem consumeCRLF_ok_iff {s s' : Source} :
    consumeCRLF s = .ok s' ↔ s.bytes = lineEnd ++ s'.bytes ∧ s'.ending = s.ending := by
  simp only [consumeCRLF, bind_eq_ok, wrapped_ok_iff, refuseIf_ok]
  constructor
  · intro h
    obtain ⟨⟨suffix, s''⟩, hrd, _, hsf, h⟩ := h
    cases h
    obtain ⟨-, hby, hend⟩ := Source.readFull_ok_iff.mp hrd
    have hl : suffix = lineEnd := not_not.mp hsf
    exact ⟨hl ▸ hby, hend⟩
  · intro h
    exact ⟨(lineEnd, s'), Source.readFull_ok_iff.mpr ⟨rfl, h.1, h.2⟩, (), not_not.mpr rfl, rfl⟩

theorem loadChunk_ok_iff :
    loadChunk sign r = .ok r' ↔
      ∃ data rest, ChunkAt sign r.previousSig r.reader.bytes data rest ∧
        r' = ⟨⟨rest, r.reader.ending⟩, data, sign r.previousSig data, data.length == 0⟩ := by
  simp only [loadChunk, bind_eq_ok, wrapped_ok_iff, refuseIf_ok]
  constructor
  · intro h
    obtain ⟨⟨⟨size, signature⟩, s₁⟩, hh, _, hm, ⟨data, s₂⟩, hd, s₃, hend, _, hsg, h⟩ := h
    cases h
    obtain ⟨line, hcut, hpr, he₁⟩ := readChunkHeader_ok_iff.mp hh
    obtain ⟨rfl, hb₁, he₂⟩ := Source.readFull_ok_iff.mp hd
    obtain ⟨hb₂, he₃⟩ := consumeCRLF_ok_iff.mp hend
    rw [hb₁, hb₂] at hcut
    refine ⟨data, s₃.bytes, ⟨line, signature, hcut, hpr, Nat.not_lt.mp hm, not_not.mp hsg⟩, ?_⟩
    rw [← he₁, ← he₂, ← he₃]
  · intro h
    obtain ⟨data, rest, ⟨line, signature, hcut, hpr, hm, hsg⟩, rfl⟩ := h
    refine ⟨((data.length, signature), ⟨data ++ (lineEnd ++ rest), r.reader.ending⟩),
      readChunkHeader_ok_iff.mpr ⟨line, hcut, hpr, rfl⟩, (), Nat.not_lt.mpr hm,
      (data, ⟨lineEnd ++ rest, r.reader.ending⟩), Source.readFull_ok_iff.mpr ⟨rfl, rfl, rfl⟩,
      ⟨rest, r.reader.ending⟩, consumeCRLF_ok_iff.mpr ⟨rfl, rfl⟩, (), not_not.mpr hsg, rfl⟩

theorem consumeCRLF_eof_iff {s : Source} : consumeCRLF s = .error .eof ↔ s.ending = .eof ∧ s.bytes = [] := by
  simp only [consumeCRLF, checked_error_iff, wrapped_error_iff, ReadError.source.injEq, exists_eq_right,
    Source.readFull_eof_iff]
  simp

/-- The parser has no error of the source. -/
theorem parseHeader_ne_eof (line : List UInt8) : parseHeader line ≠ .error .eof := by
  have hf (sizeField signature : List UInt8) : headerFields sizeField signature ≠ .error .eof := by
    unfold headerFields
    split
    · split_ifs <;> simp
    · simp
  unfold parseHeader
  split_ifs
  · simp
  · split
    · split_ifs
      · exact hf _ _
      · simp
    · simp

theorem readChunkHeader_eof_iff {s : Source} :
    readChunkHeader s = .error .eof ↔ s.ending = .eof ∧ newline ∉ s.bytes := by
  simp only [readChunkHeader, checked_error_iff, wrapped_error_iff, ReadError.source.injEq, Source.readString_error_iff]
  simp [parseHeader_ne_eof, and_comm]

/-- After a header: the source ends before the data, or before the line end. -/
theorem data_eof_iff {s : Source} {n : Nat} :
    (s.ending = .eof ∧ s.bytes = [] ∧ 0 < n ∨
        ∃ p, s.readFull n = .ok p ∧ p.2.ending = .eof ∧ p.2.bytes = []) ↔
      s.ending = .eof ∧ (s.bytes = [] ∨ s.bytes.length = n) := by
  constructor
  · intro h
    obtain ⟨hend, hnil, -⟩ | ⟨⟨data, s'⟩, hrd, hend, hnil⟩ := h
    · exact ⟨hend, .inl hnil⟩
    · obtain ⟨rfl, hby, hend'⟩ := Source.readFull_ok_iff.mp hrd
      refine ⟨hend' ▸ hend, .inr ?_⟩
      rw [hby, show s'.bytes = [] from hnil, append_nil]
  · intro h
    obtain ⟨hend, hcut⟩ := h
    by_cases hl : s.bytes.length = n
    · refine .inr ⟨(s.bytes, ⟨[], s.ending⟩), Source.readFull_ok_iff.mpr ⟨hl, ?_, rfl⟩, hend, rfl⟩
      exact (append_nil _).symm
    · have hnil := hcut.resolve_right hl
      refine .inl ⟨hend, hnil, Nat.pos_of_ne_zero fun hz => hl ?_⟩
      rw [hnil, hz, length_nil]

theorem loadChunk_eof_iff : loadChunk sign r = .error .eof ↔ r.reader.ending = .eof ∧ Cut r.reader.bytes := by
  simp only [loadChunk, checked_error_iff, wrapped_error_iff, refuseIf_error, refuseIf_ok,
    ReadError.source.injEq, exists_eq_right, readChunkHeader_eof_iff, Source.readFull_eof_iff,
    consumeCRLF_eof_iff, wrapped_ok_iff, reduceCtorEq, and_false, false_or, pure_ne_error, exists_false,
    or_false]
  constructor
  · intro h
    obtain ⟨hend, hl⟩ | ⟨⟨⟨size, signature⟩, s⟩, hh, _, hm, hd⟩ := h
    · exact ⟨hend, .inl hl⟩
    · obtain ⟨line, hcut, hpr, hen⟩ := readChunkHeader_ok_iff.mp hh
      obtain ⟨hend, ht⟩ := data_eof_iff.mp hd
      exact ⟨hen ▸ hend, .inr ⟨line, s.bytes, size, signature, hcut, hpr, Nat.not_lt.mp hm, ht⟩⟩
  · intro h
    obtain ⟨hend, hl | ⟨line, tail, size, signature, hcut, hpr, hm, ht⟩⟩ := h
    · exact .inl ⟨hend, hl⟩
    · exact .inr ⟨((size, signature), ⟨tail, r.reader.ending⟩),
        readChunkHeader_ok_iff.mpr ⟨line, hcut, hpr, rfl⟩, (), Nat.not_lt.mpr hm,
        data_eof_iff.mpr ⟨hend, ht⟩⟩

/-- A chunk and a cut cannot both begin at one place. -/
theorem ChunkAt.not_cut (h : ChunkAt sign prev bytes data rest) : ¬ Cut bytes := by
  obtain ⟨line, signature, hcut, hpr, -⟩ := h
  intro hno
  obtain hl | ⟨line', tail, size, signature', hcut', hpr', -, ht⟩ := hno
  · rw [cutAfter_eq_none.mpr hl] at hcut
    cases hcut
  · rw [hcut] at hcut'
    cases hcut'
    rw [hpr] at hpr'
    cases hpr'
    simp [lineEnd] at ht

theorem ChunkAt.unique {data' rest' : List UInt8} (h : ChunkAt sign prev bytes data rest)
    (h' : ChunkAt sign prev bytes data' rest') : data = data' ∧ rest = rest' := by
  obtain ⟨line, signature, hcut, hpr, -⟩ := h
  obtain ⟨line', signature', hcut', hpr', -⟩ := h'
  rw [hcut] at hcut'
  obtain ⟨rfl, ht⟩ := Prod.mk.inj (Option.some.inj hcut')
  rw [hpr] at hpr'
  obtain ⟨hl, -⟩ := Prod.mk.inj (Except.ok.inj hpr')
  obtain ⟨rfl, hrs⟩ := append_inj ht hl
  exact ⟨rfl, append_cancel_left hrs⟩

theorem loadChunk_shorter (h : loadChunk sign r = .ok r') :
    r'.reader.bytes.length < r.reader.bytes.length := by
  obtain ⟨data, rest, ⟨line, signature, hcut, -⟩, rfl⟩ := loadChunk_ok_iff.mp h
  obtain ⟨hby, -⟩ := cutAfter_eq_some.mp hcut
  simp [hby, lineEnd]
  omega

/-! ### Reading -/

variable (sign) in
/-- The loop of `Read`, until there is something to deliver. -/
def fill (r : ChunkReader) : Except ReadError ChunkReader :=
  if r.current ≠ [] then .ok r
  else if r.done then .error .eof
  else
    match _h : loadChunk sign r with
    | .error e => .error e
    | .ok r' => fill r'
termination_by r.reader.bytes.length
decreasing_by exact loadChunk_shorter _h

variable (sign) in
def read (n : Nat) (r : ChunkReader) : Except ReadError (List UInt8 × ChunkReader) :=
  if n = 0 then .ok ([], r)
  else do
    let r ← fill sign r
    return (r.current.take n, {r with current := r.current.drop n})

variable (sign) in
/-- Reads of the given sizes, up to the first that fails: what they deliver, and the error. -/
def deliver : List Nat → ChunkReader → List UInt8 × Option ReadError
  | [], _ => ([], none)
  | n :: sizes, r =>
    match read sign n r with
    | .error e => ([], some e)
    | .ok (bytes, r') => (bytes ++ (deliver sizes r').1, (deliver sizes r').2)

/-- The reader after some bytes of a chunk were delivered. -/
def inChunk (ending : SourceError) (rest left signature : List UInt8) : ChunkReader :=
  ⟨⟨rest, ending⟩, left, signature, false⟩

theorem fill_current (h : r.current ≠ []) : fill sign r = .ok r := by
  rw [fill]
  simp [h]

theorem fill_done (h : r.current = []) (hd : r.done = true) : fill sign r = .error .eof := by
  rw [fill]
  simp [h, hd]

theorem fill_load (h : r.current = []) (hd : r.done = false) :
    fill sign r = loadChunk sign r >>= fill sign := by
  rw [fill]
  simp only [h, hd, ne_eq, not_true_eq_false, if_false, Bool.false_eq_true]
  split
  next hl => rw [hl]; rfl
  next hl => rw [hl]; rfl

section Read
variable {n : Nat} (hn : n ≠ 0)
include hn

theorem read_eq : read sign n r =
    fill sign r >>= fun r => pure (r.current.take n, {r with current := r.current.drop n}) := by
  unfold read
  rw [if_neg hn]

theorem read_current (h : r.current ≠ []) :
    read sign n r = .ok (r.current.take n, {r with current := r.current.drop n}) := by
  rw [read_eq hn, fill_current h]
  rfl

theorem read_done (h : r.current = []) (hd : r.done = true) : read sign n r = .error .eof := by
  rw [read_eq hn, fill_done h hd]
  rfl

theorem read_error {e : ReadError} (h : r.current = []) (hd : r.done = false)
    (hl : loadChunk sign r = .error e) : read sign n r = .error e := by
  rw [read_eq hn, fill_load h hd, hl]
  rfl

theorem read_last (h : r.current = []) (hd : r.done = false)
    (hch : ChunkAt sign r.previousSig r.reader.bytes [] rest) : read sign n r = .error .eof := by
  rw [read_eq hn, fill_load h hd, loadChunk_ok_iff.mpr ⟨[], rest, hch, rfl⟩]
  show fill sign _ >>= _ = _
  rw [fill_done rfl rfl]
  rfl

theorem read_chunk (h : r.current = []) (hdn : r.done = false) (hd : data ≠ [])
    (hch : ChunkAt sign r.previousSig r.reader.bytes data rest) :
    read sign n r =
      .ok (data.take n, inChunk r.reader.ending rest (data.drop n) (sign r.previousSig data)) := by
  have hl : (data.length == 0) = false := by simpa using hd
  rw [read_eq hn, fill_load h hdn, loadChunk_ok_iff.mpr ⟨data, rest, hch, rfl⟩, hl]
  show fill sign _ >>= _ = _
  rw [fill_current hd]
  rfl

end Read

/-! ### Chains of chunks -/

variable (sign) in
/-- The bytes begin with these chunks, each signed after the one before it. -/
inductive Verified : List UInt8 → List UInt8 → List (List UInt8) → List UInt8 → Prop
  | nil {prev bytes : List UInt8} : Verified prev bytes [] bytes
  | cons {prev bytes data rest rest' : List UInt8} {payloads : List (List UInt8)} :
    ChunkAt sign prev bytes data rest → Verified (sign prev data) rest payloads rest' →
      Verified prev bytes (data :: payloads) rest'

/-- A chain of chunks with data up to a cut is the longest one. -/
theorem Verified.not_last {payloads payloads' : List (List UInt8)} {rest' : List UInt8}
    (h : Verified sign prev bytes payloads rest) (hne : [] ∉ payloads) (hcut : Cut rest)
    (h' : Verified sign prev bytes payloads' rest') : payloads'.getLast? ≠ some [] := by
  induction h generalizing payloads' with
  | nil =>
    cases h' with
    | nil => simp
    | cons hch _ => exact absurd hcut hch.not_cut
  | @cons prev bytes data rest₁ rest₂ payloads hch hrs ih =>
    cases h' with
    | nil => simp
    | @cons _ _ data' rest₁' _ payloads' hch' hrs' =>
      obtain ⟨rfl, rfl⟩ := hch.unique hch'
      obtain ⟨hd, hne⟩ := not_or.mp (mt mem_cons.mpr hne)
      have hl := ih hne hcut hrs'
      cases payloads' with
      | nil => simpa using Ne.symm hd
      | cons next others => simpa using hl

/-- Reads of the sizes of the chunks, and one more. -/
theorem deliver_cut {payloads : List (List UInt8)} (h : Verified sign prev bytes payloads rest)
    (hne : [] ∉ payloads) (hcut : Cut rest) :
    deliver sign (payloads.map length ++ [1]) (inChunk .eof bytes [] prev) =
      (payloads.flatten, some .eof) := by
  induction h with
  | @nil prev bytes =>
    have hld : loadChunk sign (inChunk .eof bytes [] prev) = .error .eof := loadChunk_eof_iff.mpr ⟨rfl, hcut⟩
    simp [deliver, read_error Nat.one_ne_zero rfl rfl hld]
  | @cons prev bytes data rest₁ rest₂ payloads hch hrs ih =>
    obtain ⟨hd, hne⟩ := not_or.mp (mt mem_cons.mpr hne)
    have hl : data.length ≠ 0 := fun hz => hd (length_eq_zero_iff.mp hz).symm
    have hrd : read sign data.length (inChunk .eof bytes [] prev) =
        .ok (data.take data.length, inChunk .eof rest₁ (data.drop data.length) (sign prev data)) :=
      read_chunk hl rfl rfl (.symm hd) hch
    simp [deliver, hrd, ih hne hcut]

variable (sign) in
/-- What reads may deliver, from a reader that may be in a chunk: the rest of the chunk and
the data of the chunks that follow. They end with `io.EOF` after the last chunk, or where
the source ends. -/
def Delivers (r : ChunkReader) (out : List UInt8) (err : Option ReadError) : Prop :=
  ∃ payloads rest, Verified sign r.previousSig r.reader.bytes payloads rest ∧
    out <+: r.current ++ payloads.flatten ∧ (err ≠ none → out = r.current ++ payloads.flatten) ∧
    (err = some .eof → r.done = true ∨ payloads.getLast? = some [] ∨
      (r.reader.ending = .eof ∧ [] ∉ payloads ∧ Cut rest))

variable {out : List UInt8} {err : Option ReadError} {n : Nat}

theorem Delivers.current (h : Delivers sign {r with current := r.current.drop n} out err) :
    Delivers sign r (r.current.take n ++ out) err := by
  obtain ⟨payloads, rest, hv, hpr, hall, heof⟩ := h
  have hsp : r.current ++ payloads.flatten = r.current.take n ++ (r.current.drop n ++ payloads.flatten) := by
    rw [← append_assoc, take_append_drop]
  refine ⟨payloads, rest, hv, ?_, fun herr => ?_, heof⟩
  · rw [hsp]
    exact (prefix_append_right_inj _).mpr hpr
  · rw [hsp, ← hall herr]

theorem Delivers.chunk (hcr : r.current = []) (hd : data ≠ [])
    (hch : ChunkAt sign r.previousSig r.reader.bytes data rest)
    (h : Delivers sign (inChunk r.reader.ending rest (data.drop n) (sign r.previousSig data)) out err) :
    Delivers sign r (data.take n ++ out) err := by
  obtain ⟨payloads, rest', hv, hpr, hall, heof⟩ := h
  have hsp : r.current ++ (data :: payloads).flatten = data.take n ++ (data.drop n ++ payloads.flatten) := by
    rw [hcr, nil_append, flatten_cons, ← append_assoc, take_append_drop]
  refine ⟨data :: payloads, rest', .cons hch hv, ?_, fun herr => ?_, fun herr => .inr ?_⟩
  · rw [hsp]
    exact (prefix_append_right_inj _).mpr hpr
  · rw [hsp, hall herr]
    rfl
  · obtain hno | hl | ⟨hend, hne, hcut⟩ := heof herr
    · cases hno
    · exact .inl (by cases payloads <;> simp_all)
    · exact .inr ⟨hend, by simp [hne, Ne.symm hd], hcut⟩

theorem delivers_error {e : ReadError} (hcr : r.current = []) (h : loadChunk sign r = .error e) :
    Delivers sign r [] (some e) := by
  refine ⟨[], r.reader.bytes, .nil, by simp, fun _ => by simp [hcr], fun heof => .inr (.inr ?_)⟩
  rw [Option.some.inj heof] at h
  obtain ⟨hend, hcut⟩ := loadChunk_eof_iff.mp h
  exact ⟨hend, by simp, hcut⟩

theorem delivers_last (hcr : r.current = [])
    (hch : ChunkAt sign r.previousSig r.reader.bytes [] rest) : Delivers sign r [] (some .eof) :=
  ⟨[[]], rest, .cons hch .nil, by simp, fun _ => by simp [hcr], fun _ => .inr (.inl rfl)⟩

theorem deliver_delivers (sizes : List Nat) (r : ChunkReader) (hdone : r.done = true → r.current = []) :
    Delivers sign r (deliver sign sizes r).1 (deliver sign sizes r).2 := by
  induction sizes generalizing r with
  | nil => exact ⟨[], r.reader.bytes, .nil, by simp [deliver], by simp [deliver], by simp [deliver]⟩
  | cons n sizes ih =>
    unfold deliver
    by_cases hn : n = 0
    · have hrd : read sign n r = .ok ([], r) := by simp [read, hn]
      simpa only [hrd, nil_append] using ih r hdone
    · by_cases hcur : r.current = []
      · cases hd : r.done with
        | true =>
          rw [read_done hn hcur hd]
          exact ⟨[], r.reader.bytes, .nil, by simp, fun _ => by simp [hcur], fun _ => .inl hd⟩
        | false =>
          cases hl : loadChunk sign r with
          | error e =>
            rw [read_error hn hcur hd hl]
            exact delivers_error hcur hl
          | ok r' =>
            obtain ⟨data, rest, hch, -⟩ := loadChunk_ok_iff.mp hl
            by_cases hdt : data = []
            · subst hdt
              rw [read_last hn hcur hd hch]
              exact delivers_last hcur hch
            · rw [read_chunk hn hcur hd hdt hch]
              exact .chunk hcur hdt hch (ih _ nofun)
      · rw [read_current hn hcur]
        refine .current (ih _ fun hd => ?_)
        exact absurd (hdone hd) hcur

/-! ### The body -/

/-- The reader of a body, after the signature of the request. -/
def newChunkReader (seed : List UInt8) (body : Source) : ChunkReader := ⟨body, [], seed, false⟩

variable (sign) in
/-- What reads of the given sizes deliver is the data of chunks with a chained signature,
in full when they end, and they end with `io.EOF` only after an empty one. -/
def ReadsVerified (seed : List UInt8) (body : Source) (sizes : List Nat) : Prop :=
  ∃ payloads rest, Verified sign seed body.bytes payloads rest ∧
    (deliver sign sizes (newChunkReader seed body)).1 <+: payloads.flatten ∧
    ((deliver sign sizes (newChunkReader seed body)).2 ≠ none →
      (deliver sign sizes (newChunkReader seed body)).1 = payloads.flatten) ∧
    ((deliver sign sizes (newChunkReader seed body)).2 = some .eof → payloads.getLast? = some [])

variable (sign) in
/-- The source ends with `io.EOF` after chunks with data, where the reader is between two reads. -/
def CutShort (seed : List UInt8) (body : Source) : Prop :=
  body.ending = .eof ∧
    ∃ payloads rest, Verified sign seed body.bytes payloads rest ∧ [] ∉ payloads ∧ Cut rest

theorem not_readsVerified {seed : List UInt8} {body : Source} {payloads : List (List UInt8)}
    (hend : body.ending = .eof) (h : Verified sign seed body.bytes payloads rest) (hne : [] ∉ payloads)
    (hcut : Cut rest) : ¬ ReadsVerified sign seed body (payloads.map length ++ [1]) := by
  intro hreads
  obtain ⟨payloads', rest', hv, -, -, hl⟩ := hreads
  have hd : deliver sign (payloads.map length ++ [1]) (newChunkReader seed body) =
      (payloads.flatten, some .eof) := by
    have hrd : newChunkReader seed body = inChunk .eof body.bytes [] seed := by
      rw [← hend]
      rfl
    rw [hrd]
    exact deliver_cut h hne hcut
  rw [hd] at hl
  exact h.not_last hne hcut hv (hl rfl)

/-- **Every way to read a body delivers verified chunks and ends cleanly only after the last
one**, exactly if the body is not cut short. -/
theorem reads_are_verified_iff (sign : List UInt8 → List UInt8 → List UInt8) (seed : List UInt8)
    (body : Source) : (∀ sizes, ReadsVerified sign seed body sizes) ↔ ¬ CutShort sign seed body := by
  constructor
  · intro h hcs
    obtain ⟨hend, payloads, rest, hv, hne, hcut⟩ := hcs
    exact not_readsVerified hend hv hne hcut (h _)
  · intro h sizes
    have hd : Delivers sign (newChunkReader seed body) _ _ :=
      deliver_delivers sizes (newChunkReader seed body) nofun
    obtain ⟨payloads, rest, hv, hpr, hall, heof⟩ := hd
    refine ⟨payloads, rest, hv, hpr, hall, fun herr => ?_⟩
    obtain hno | hl | ⟨hend, hne, hcut⟩ := heof herr
    · cases hno
    · exact hl
    · exact absurd ⟨hend, payloads, rest, hv, hne, hcut⟩ h

end Reader

/-! ### A body that is cut between two chunks -/

/-- A signature, and a function that always returns it. -/
def sampleSig : List UInt8 := replicate 64 97

def sampleSign (_ _ : List UInt8) : List UInt8 := sampleSig

/-- One chunk with two bytes; the empty chunk after it is missing. -/
def cutBody : Source :=
  ⟨ascii "2;chunk-signature=" ++ sampleSig ++ lineEnd ++ (ascii "hi" ++ lineEnd), .eof⟩

theorem cutBody_verified : Verified sampleSign sampleSig cutBody.bytes [ascii "hi"] [] := by
  have hch : ChunkAt sampleSign sampleSig cutBody.bytes (ascii "hi") [] := by
    refine ⟨ascii "2;chunk-signature=" ++ sampleSig ++ lineEnd, sampleSig, ?_, ?_, ?_, ?_⟩ <;>
      decide +kernel
  exact .cons hch .nil

/-- **A body without its last chunk ends cleanly**: the data of the first chunk is
delivered, and then `io.EOF`. -/
theorem cut_body_ends_cleanly :
    deliver sampleSign [2, 1] (newChunkReader sampleSig cutBody) = (ascii "hi", some .eof) ∧
      ¬ ReadsVerified sampleSign sampleSig cutBody [2, 1] := by
  have hcut : Cut [] := .inl not_mem_nil
  exact ⟨deliver_cut cutBody_verified (by decide) hcut,
    not_readsVerified rfl cutBody_verified (by decide) hcut⟩

end AeroVault.Auth
