import AeroVault.Ai.Canonical

/-! Indexing an object for search.

`IndexObjectByID` loads a row, removes the chunks of the key's other versions, and
replaces the chunks of the row by the pieces of the text it extracts. Every call to
the repository, the store, the extractor, the embedder and the sinks may fail; which
ones do is an input (`IndexStep → Bool`).

An index that returns nil reflects the current content exactly when no chunk was
there that it does not remove and every sink takes every piece (`index_reflects_iff`): it
returns before the removal when there is nothing to index, it goes on when the removal
fails, and a vector index leaves out a piece without a vector. So the text of
replaced content can stay searchable (`unsupported_content_keeps_old_text`). -/
namespace AeroVault.Ai
open Lib Lib.Attempt Repository Service List

/-! ### Chunking -/

structure Chunker where
  window : Int
  overlap : Int

/-- `NewChunker`. -/
def Chunker.standard : Chunker := ⟨600, 80⟩

/-- The window and the step between two windows, with the defaults filled in. -/
def Chunker.sizes (c : Chunker) : Nat × Nat :=
  let window := if c.window ≤ 0 then 600 else c.window
  let overlap := if c.overlap < 0 ∨ c.overlap ≥ window then window / 8 else c.overlap
  let step := if window - overlap ≤ 0 then window else window - overlap
  (window.toNat, step.toNat)

/-- The loop of `Chunk`: each step leaves fewer runes, so that many steps are enough. -/
def windows (window step : Nat) : Nat → List Char → List String
  | 0, _ => []
  | fuel + 1, runes =>
    let piece := GoText.trimSpace (String.ofList (runes.take window))
    let rest := if runes.length ≤ window then [] else windows window step fuel (runes.drop step)
    if piece = "" then rest else piece :: rest

def Chunker.chunk (c : Chunker) (text : String) : List String :=
  let runes := (GoText.trimSpace text).toList
  if runes = [] then [] else windows c.sizes.1 c.sizes.2 runes.length runes

open GoText (trimSpace isSpace)

/-- The loop is at its last window within so many steps. -/
def endsIn (window step : Nat) : Nat → List Char → Bool
  | 0, _ => false
  | fuel + 1, runes => runes.length ≤ window || endsIn window step fuel (runes.drop step)

/-- No piece is longer than a window, and a passage at most one rune longer than the overlap that
neither starts nor ends with a space is in a piece. -/
structure Covers (window overlap : Nat) (runes : List Char) (pieces : List String) : Prop where
  short : ∀ piece ∈ pieces, piece.toList.length ≤ window
  passages : ∀ q, q <:+: runes → q.length ≤ overlap + 1 → q.head?.map isSpace = some false →
    q.getLast?.map isSpace = some false → ∃ piece ∈ pieces, q <:+: piece.toList

section Windows
variable {window step fuel : Nat} {runes : List Char} (hs : 0 < step) (hsw : step ≤ window)

theorem mem_windows {piece : String} : piece ∈ windows window step (fuel + 1) runes ↔
    piece ≠ "" ∧ piece = trimSpace (String.ofList (runes.take window)) ∨
      window < runes.length ∧ piece ∈ windows window step fuel (runes.drop step) := by
  simp only [windows]
  split_ifs <;> grind

include hs hsw

theorem endsIn_of_length_le (hf : 0 < fuel) (hl : runes.length ≤ fuel) :
    endsIn window step fuel runes = true := by
  induction fuel generalizing runes with
  | zero => omega
  | succ fuel ih =>
    simp only [endsIn, Bool.or_eq_true, decide_eq_true_eq]
    by_cases hlast : runes.length ≤ window
    · exact .inl hlast
    · exact .inr (ih (by omega) (by simp; omega))

/-- A passage that a window cuts begins behind the start of the next one. -/
theorem covers_windows (hf : runes.length ≤ fuel) :
    Covers window (window - step) runes (windows window step fuel runes) := by
  induction fuel generalizing runes with
  | zero =>
    rw [length_eq_zero_iff.mp (Nat.le_zero.mp hf)]
    exact ⟨nofun, by simp +contextual⟩
  | succ fuel ih =>
    refine ⟨fun piece h => ?_, fun q h hlen hq hq' => ?_⟩
    · obtain ⟨-, rfl⟩ | ⟨hl, hm⟩ := mem_windows.mp h
      · have hle := (List.rdropWhile_prefix isSpace ((runes.take window).dropWhile isSpace)).length_le
        simpa [trimSpace, GoText.trimFunc] using
          (hle.trans (dropWhile_suffix isSpace).length_le).trans (length_take_le _ _)
      · exact (ih (by simp; omega)).short piece hm
    · obtain ⟨before, behind, rfl⟩ := h
      by_cases hin : (before ++ q).length ≤ window
      · have hpiece := GoText.infix_trimFunc hq hq' (l := (before ++ q ++ behind).take window)
          ⟨before, behind.take (window - (before ++ q).length), by rw [take_append, take_of_length_le hin]⟩
        refine ⟨_, mem_windows.mpr (.inl ⟨fun he => ?_, rfl⟩), hpiece⟩
        simp_all [trimSpace]
      · simp only [length_append] at hin hf
        have hdrop : (before ++ q ++ behind).drop step = before.drop step ++ q ++ behind := by
          rw [append_assoc, drop_append_of_le_length (by omega), append_assoc]
        obtain ⟨piece, hm, hi⟩ := (ih (by simp; omega)).passages q ⟨_, behind, hdrop.symm⟩ hlen hq hq'
        exact ⟨piece, mem_windows.mpr (.inr ⟨by simp; omega, hm⟩), hi⟩

end Windows

/-- **Chunking loses no short passage**: the loop ends, and its chunks cover the trimmed text. -/
theorem chunk_covers (c : Chunker) (text : String) :
    let runes := (trimSpace text).toList
    (runes ≠ [] → endsIn c.sizes.1 c.sizes.2 runes.length runes = true) ∧
      Covers c.sizes.1 (c.sizes.1 - c.sizes.2) runes (c.chunk text) := by
  intro runes
  have hchunk : c.chunk text = windows c.sizes.1 c.sizes.2 runes.length runes := by
    grind [Chunker.chunk, windows]
  have hz : 0 < c.sizes.2 ∧ c.sizes.2 ≤ c.sizes.1 := by
    grind [Chunker.sizes]
  rw [hchunk]
  exact ⟨fun hne => endsIn_of_length_le hz.1 hz.2 (length_pos_of_ne_nil hne) le_rfl,
    covers_windows hz.1 hz.2 le_rfl⟩

/-! ### The indexer and what it works on -/

structure ChunkRef where
  tenantID : String
  bucket : String
  key : String
  objectID : Int
  deriving DecidableEq

inductive StoreError
  | sseCustomerKeyRequired
  | other
  deriving DecidableEq

inductive ExtractError
  | unsupported
  | other
  deriving DecidableEq

/-- The errors of the indexer, one for each text. -/
inductive IndexError
  /-- A call that failed, with the text it is wrapped in. -/
  | failed (what : String)
  | sinkConfiguration
  | noEmbedder
  | objectIDNotPositive
  | chunkRef (objectID : Int) (cause : SearchError)
  | refConflict (source : String) (got : ChunkRef)
  | unresolvedCleanup (objectID : Int)
  | emptyReread (objectID : Int)
  | chunkRowID (objectID id : Int)
  | chunkRowDuplicated (objectID id : Int)
  | extract (key : String)
  deriving DecidableEq

/-- A secondary index: whether it leaves out rows without a vector, as Qdrant does and BM25
does not, and what it holds for each reference. -/
structure Sink where
  vectorsOnly : Bool
  held : ChunkRef → List Chunk

structure PIIDetector where
  /-- The tag of a text in which `Scan` finds something. -/
  scan : String → Option String
  redact : String → String

structure Corpus where
  objects : Objects
  /-- `store.Get`. -/
  store : String → Except StoreError Bytes
  chunks : List Chunk
  nextChunkID : Int
  sinks : List Sink

structure Indexer where
  /-- A sink was registered that cannot be used. -/
  sinkFault : Bool
  extractor : String → Bytes → Except ExtractError String
  chunker : Chunker
  /-- The name and the vectors of an embedder. -/
  embedder : Option (String × (List String → List Embedding))
  pii : Option PIIDetector
  redact : Bool
  hasTagger : Bool

/-- The calls that may fail. Those of `deleteRefChunks` are told apart by the object. -/
inductive IndexStep
  | loadObject | currentObject | listVersions | listVanished
  | observeObject (objectID : Int)
  | observeChunks (objectID : Int)
  | deleteChunks (objectID : Int)
  | sinkDelete (objectID : Int) (sink : Nat)
  | storeGet | extract | tag | embed | deleteOld | insert | listForSinks
  | sinkUpsert (sink : Nat)
  deriving DecidableEq

/-- One call of the indexer: which steps fail, and the time of a tag. -/
structure IndexCall where
  fails : IndexStep → Bool
  now : Nat

abbrev Indexing (α : Type) := Attempt Corpus IndexError α

/-- The step fails with the error, if it is one that fails. -/
def IndexCall.step (call : IndexCall) (at' : IndexStep) (what : String) : Indexing Unit :=
  Attempt.ofExcept (refuseIf (call.fails at' = true) (.failed what))

def readCorpus {α : Type} (f : Corpus → α) : Indexing α := call fun c => (.ok (f c), c)

def changeCorpus (f : Corpus → Corpus) : Indexing Unit := call fun c => (.ok (), f c)

/-! ### References -/

def refOf (obj : Object) : ChunkRef := ⟨obj.path.tenantID, obj.path.bucket, obj.path.key, obj.id⟩

def ChunkRef.validate (ref : ChunkRef) : Except IndexError Unit :=
  match validateChunkRef ref.tenantID ref.bucket ref.key ref.objectID with
  | .ok () => .ok ()
  | .error e => .error (.chunkRef ref.objectID e)

def refFromObject (obj : Object) : Except IndexError ChunkRef := do
  (refOf obj).validate
  return refOf obj

def Chunk.ref (c : Chunk) : ChunkRef := ⟨c.tenantID, c.bucket, c.objectKey, c.objectID⟩

/-- The loop of `validateChunksForRef`. -/
def validateRows (ref : ChunkRef) (seen : List Int) : List Chunk → Except IndexError Unit
  | [] => .ok ()
  | c :: rest => do
    refuseIf (c.id ≤ 0) (.chunkRowID ref.objectID c.id)
    refuseIf (c.id ∈ seen) (.chunkRowDuplicated ref.objectID c.id)
    refuseIf (Chunk.ref c ≠ ref) (.refConflict "canonical chunk rows" (Chunk.ref c))
    validateRows ref (c.id :: seen) rest

def validateChunksForRef (ref : ChunkRef) (chunks : List Chunk) : Except IndexError Unit := do
  ref.validate
  validateRows ref [] chunks

def refFromChunks (objectID : Int) (chunks : List Chunk) : Except IndexError ChunkRef :=
  match chunks with
  | [] => .error (.unresolvedCleanup objectID)
  | first :: _ => do
    let ref : ChunkRef := ⟨first.tenantID, first.bucket, first.objectKey, objectID⟩
    validateChunksForRef ref chunks
    return ref

/-! ### Removing chunks -/

/-- `DeleteChunksForObject`. -/
def Corpus.deleteChunks (c : Corpus) (objectID : Int) : Corpus :=
  {c with chunks := c.chunks.filter fun row => row.objectID != objectID}

def rowByID (objects : Objects) (objectID : Int) : Option Object :=
  objects.rows.find? fun o => (o.id : Int) == objectID

/-- A change to the sinks one after another, up to the first that fails. -/
def changeSinks (fails : Nat → Bool) (f : Sink → Sink) (i : Nat) : List Sink → Bool × List Sink
  | [] => (true, [])
  | sink :: rest =>
    if fails i then (false, sink :: rest)
    else
      let changed := changeSinks fails f (i + 1) rest
      (changed.1, f sink :: changed.2)

def updateSinks (fails : Nat → Bool) (f : Sink → Sink) (what : String) : Indexing Unit :=
  call fun c =>
    let changed := changeSinks fails f 0 c.sinks
    (if changed.1 then .ok () else .error (.failed what), {c with sinks := changed.2})

def Sink.takes (sink : Sink) (row : Chunk) : Bool := !sink.vectorsOnly || row.embedding != []

/-- A sink's `DeleteScopedObjectChunks` and `UpsertScopedObjectChunks`: what it holds for
the reference is replaced. -/
def Sink.replace (ref : ChunkRef) (rows : List Chunk) (sink : Sink) : Sink :=
  {sink with held := Function.update sink.held ref (rows.filter sink.takes)}

def validateObservedObjectRef (call : IndexCall) (ref : ChunkRef) : Indexing Unit := do
  Attempt.ofExcept ref.validate
  call.step (.observeObject ref.objectID) "observe object"
  let row ← readCorpus fun c => rowByID c.objects ref.objectID
  match row with
  | none => return
  | some obj =>
    let observed ← Attempt.ofExcept (refFromObject obj)
    Attempt.ofExcept (refuseIf (observed ≠ ref) (.refConflict "persisted ref" observed))

def validateObservedChunks (call : IndexCall) (ref : ChunkRef) : Indexing Unit := do
  call.step (.observeChunks ref.objectID) "observe chunks"
  let rows ← readCorpus fun c => listChunksForObject c.chunks ref.objectID
  Attempt.ofExcept (if rows = [] then .ok () else validateChunksForRef ref rows)

/-- The rows are looked at only if there is a sink to tell. -/
def validateForSinks (call : IndexCall) (ref : ChunkRef) : Indexing Unit := do
  let sinks ← readCorpus Corpus.sinks
  if sinks.isEmpty then return else validateObservedChunks call ref

def validateChunkSinks (ix : Indexer) : Except IndexError Unit :=
  refuseIf (ix.sinkFault = true) .sinkConfiguration

section Body
variable (ix : Indexer) (call : IndexCall)

def deleteRefChunks (ref : ChunkRef) : Indexing Unit := do
  Attempt.ofExcept ref.validate
  Attempt.ofExcept (validateChunkSinks ix)
  validateObservedObjectRef call ref
  validateForSinks call ref
  call.step (.deleteChunks ref.objectID) "delete chunks"
  changeCorpus fun c => c.deleteChunks ref.objectID
  updateSinks (fun i => call.fails (.sinkDelete ref.objectID i)) (Sink.replace ref []) "sink delete chunks"

/-- The chunks of every version of the key but the current one are removed. -/
def deleteOtherVersions (currentID : Nat) : List Object → Indexing Unit
  | [] => return
  | version :: rest => do
    if version.id = currentID then deleteOtherVersions currentID rest
    else
      let ref ← Attempt.ofExcept (refFromObject version)
      deleteRefChunks ix call ref
      deleteOtherVersions currentID rest

/-- `prepareCurrentObject`: whether the row is the live one of its key. -/
def prepareCurrentObject (obj : Object) : Indexing Bool := do
  let ref ← Attempt.ofExcept (refFromObject obj)
  call.step .currentObject "get object"
  let current ← readCorpus fun c =>
    getObject c.objects ⟨defaultTenant obj.path.tenantID, obj.path.bucket, obj.path.key⟩
  match current with
  | none =>
    deleteRefChunks ix call ref
    return false
  | some current =>
    if current.id ≠ obj.id then
      deleteRefChunks ix call ref
      return false
    else
      call.step .listVersions "list object versions"
      let versions ← readCorpus fun c =>
        listObjectVersions c.objects ⟨defaultTenant obj.path.tenantID, obj.path.bucket, obj.path.key⟩
      deleteOtherVersions ix call current.id versions
      return true

def cleanupVanishedObject (objectID : Int) (tenant : String)
    (expected : Option ChunkRef) : Indexing Unit := do
  Attempt.ofExcept (match expected with
    | some ref => refuseIf (ref.objectID ≠ objectID) (.refConflict "object" ref)
    | none => .ok ())
  call.step .listVanished "list vanished object chunks"
  let chunks ← readCorpus fun c => listChunksForObject c.chunks objectID
  let sinks ← readCorpus Corpus.sinks
  let ref ← Attempt.ofExcept (match expected with
    | some ref => do
      if chunks ≠ [] then validateChunksForRef ref chunks
      return some ref
    | none => do
      if chunks = [] then
        refuseIf (sinks ≠ []) (.unresolvedCleanup objectID)
        return none
      else
        let ref ← refFromChunks objectID chunks
        return some ref)
  match ref with
  | none => return
  | some ref =>
    Attempt.ofExcept (refuseIf (tenant ≠ "" ∧ ref.tenantID ≠ tenant) (.refConflict "job tenant" ref))
    deleteRefChunks ix call ref

/-! ### Indexing -/

/-- The text that is chunked: the extracted one or, where configured, its redacted copy. -/
def Indexer.finalText (ix : Indexer) (text : String) : String :=
  match ix.pii with
  | some pii => if ix.redact then pii.redact text else text
  | none => text

/-- `SetObjectTagsByID`, whose errors are only logged. -/
def Corpus.setTags (c : Corpus) (now id : Nat) (tags : GoMap) : Corpus :=
  match updateObjectTagsByID now id tags c.objects with
  | .ok objects => {c with objects := objects}
  | .error _ => c

def Indexer.scan (ix : Indexer) (text : String) : Option String := ix.pii.bind fun pii => pii.scan text

/-- `applyPII`: the tag that a scan leaves on the row, and the text to be chunked. -/
def applyPII (obj : Object) (text : String) : Indexing String := do
  changeCorpus fun c =>
    match ix.scan text with
    | some tag =>
      if ix.hasTagger && !call.fails .tag then
        c.setTags call.now obj.id (obj.tags.set "pii_scan" tag)
      else c
    | none => c
  return ix.finalText text

/-- The rows of the pieces, before they have an identifier. A piece without a vector has
no embedding. -/
def buildChunks (obj : Object) (model : String) (vectors : List Embedding) (i : Nat) :
    List String → List Chunk
  | [] => []
  | piece :: rest =>
    let embedding := (vectors[i]?).getD []
    ⟨0, obj.id, obj.path.tenantID, obj.path.bucket, obj.path.key, i, piece, embedding, embedding.length,
      model⟩ :: buildChunks obj model vectors (i + 1) rest

/-- Rows in the order of insertion, with the next identifiers. -/
def numberRows (next : Int) : List Chunk → List Chunk
  | [] => []
  | c :: rest => {c with id := next, tenantID := defaultTenant c.tenantID} :: numberRows (next + 1) rest

/-- `InsertChunks`. -/
def Corpus.insertChunks (c : Corpus) (rows : List Chunk) : Corpus :=
  {c with chunks := c.chunks ++ numberRows c.nextChunkID rows, nextChunkID := c.nextChunkID + rows.length}

def pushToSinks (call : IndexCall) (ref : ChunkRef) : Indexing Unit := do
  let sinks ← readCorpus Corpus.sinks
  if sinks.isEmpty then return
  else
    call.step .listForSinks "list chunks for sinks"
    let rows ← readCorpus fun c => listChunksForObject c.chunks ref.objectID
    Attempt.ofExcept (refuseIf (rows = []) (.emptyReread ref.objectID))
    Attempt.ofExcept (validateChunksForRef ref rows)
    updateSinks (fun i => call.fails (.sinkUpsert i)) (Sink.replace ref rows) "sink upsert chunks"

/-- `indexLoadedObject`, up to the embedding. -/
def loadPieces (obj : Object) : Indexing (List String) := do
  call.step .storeGet "storage get"
  let content ← readCorpus fun c => c.store obj.storageKey
  match content with
  | .error .sseCustomerKeyRequired => return []
  | .error .other => throw (.failed "storage get")
  | .ok data =>
    Attempt.ofExcept (refuseIf (call.fails .extract = true) (.extract obj.path.key))
    match ix.extractor obj.contentType data with
    | .error .unsupported => return []
    | .error .other => throw (.extract obj.path.key)
    | .ok text =>
      let text ← applyPII ix call obj text
      return ix.chunker.chunk text

/-- The rows of the object are deleted; a failure is only logged. -/
def deleteOld (call : IndexCall) (objectID : Int) (c : Corpus) : Corpus :=
  if call.fails .deleteOld then c else c.deleteChunks objectID

def indexLoadedObject (obj : Object) (ref : ChunkRef)
    (model : String) (embed : List String → List Embedding) : Indexing Bool := do
  let pieces ← loadPieces ix call obj
  if pieces.isEmpty then return false
  else
    call.step .embed "embed"
    changeCorpus (deleteOld call obj.id)
    call.step .insert "insert chunks"
    changeCorpus fun c => c.insertChunks (buildChunks obj model (embed pieces) 0 pieces)
    pushToSinks call ref
    return true

def indexObject (objectID : Int) (tenant : String)
    (expected : Option ChunkRef) : Indexing Bool := do
  Attempt.ofExcept (validateChunkSinks ix)
  match ix.embedder with
  | none => throw .noEmbedder
  | some (model, embed) =>
    Attempt.ofExcept (refuseIf (objectID ≤ 0) .objectIDNotPositive)
    call.step .loadObject "get object"
    let row ← readCorpus fun c => rowByID c.objects objectID
    match row with
    | none =>
      cleanupVanishedObject ix call objectID tenant expected
      return false
    | some obj =>
      let ref ← Attempt.ofExcept (refFromObject obj)
      Attempt.ofExcept (refuseIf (tenant ≠ "" ∧ ref.tenantID ≠ tenant) (.refConflict "object tenant" ref))
      Attempt.ofExcept (match expected with
        | some want => refuseIf (ref ≠ want) (.refConflict "expected ref" ref)
        | none => .ok ())
      let current ← prepareCurrentObject ix call obj
      if current then indexLoadedObject ix call obj ref model embed else return false

/-- `IndexObjectByID`. -/
def indexObjectByID (objectID : Int) : Indexing Unit := do
  let _ ← indexObject ix call objectID "" none
  return

end Body

/-! ### What the steps do -/

section Steps
variable {call : IndexCall} {c c' : Corpus} {u : Unit}

@[simp] theorem returns_step {at' : IndexStep} {what : String} :
    Returns (call.step at' what) c u c' ↔ call.fails at' = false ∧ c' = c := by
  simp [IndexCall.step]

@[simp] theorem returns_readCorpus {α : Type} {f : Corpus → α} {a : α} :
    Returns (readCorpus f) c a c' ↔ a = f c ∧ c' = c := by
  rw [readCorpus, returns_call]
  simp [eq_comm]

@[simp] theorem returns_changeCorpus {f : Corpus → Corpus} : Returns (changeCorpus f) c u c' ↔ c' = f c := by
  rw [changeCorpus, returns_call]
  simp [eq_comm]

theorem changeSinks_ok {fails : Nat → Bool} {f : Sink → Sink} {i : Nat} {sinks : List Sink}
    (h : (changeSinks fails f i sinks).1 = true) : (changeSinks fails f i sinks).2 = sinks.map f := by
  induction sinks generalizing i with
  | nil => rfl
  | cons sink rest ih =>
    unfold changeSinks at h ⊢
    by_cases hi : fails i = true
    · rw [if_pos hi] at h
      cases h
    · rw [if_neg hi] at h ⊢
      rw [map_cons, ← ih h]

theorem returns_updateSinks {fails : Nat → Bool} {f : Sink → Sink} {what : String}
    (h : Returns (updateSinks fails f what) c u c') : c' = {c with sinks := c.sinks.map f} := by
  obtain ⟨hok, rfl⟩ := Prod.mk.inj h
  by_cases hall : (changeSinks fails f 0 c.sinks).1 = true
  · rw [changeSinks_ok hall]
  · rw [if_neg hall] at hok
    cases hok

end Steps

/-- What is stored and held for a reference is as it was. -/
structure Untouched (ref : ChunkRef) (c c' : Corpus) : Prop where
  rows : listChunksForObject c'.chunks ref.objectID = listChunksForObject c.chunks ref.objectID
  sinks : c'.sinks.map (fun sink => (sink.vectorsOnly, sink.held ref)) =
    c.sinks.map fun sink => (sink.vectorsOnly, sink.held ref)
  store : c'.store = c.store

variable {ix : Indexer} {call : IndexCall} {c c' c'' : Corpus} {ref other : ChunkRef} {u : Unit}
  {obj : Object}

theorem Untouched.refl (ref : ChunkRef) (c : Corpus) : Untouched ref c c := ⟨rfl, rfl, rfl⟩

theorem Untouched.trans (h : Untouched ref c c') (h' : Untouched ref c' c'') : Untouched ref c c'' :=
  ⟨h'.rows.trans h.rows, h'.sinks.trans h.sinks, h'.store.trans h.store⟩

theorem listChunksForObject_deleteChunks_ne {objectID removed : Int} (h : objectID ≠ removed) :
    listChunksForObject (c.deleteChunks removed).chunks objectID = listChunksForObject c.chunks objectID := by
  unfold listChunksForObject Corpus.deleteChunks
  rw [filter_filter]
  refine congrArg _ (filter_congr fun row _ => ?_)
  by_cases hrow : row.objectID = objectID
  · simp [hrow, h]
  · simp [hrow]

theorem untouched_deleted (hne : other.objectID ≠ ref.objectID) :
    Untouched ref c {c.deleteChunks other.objectID with
      sinks := c.sinks.map (Sink.replace other [])} where
  rows := listChunksForObject_deleteChunks_ne hne.symm
  sinks := by
    have hother : ref ≠ other := fun heq => hne (congrArg ChunkRef.objectID heq.symm)
    rw [map_map]
    refine map_congr_left fun sink _ => ?_
    exact congrArg (sink.vectorsOnly, ·) (Function.update_of_ne hother _ _)
  store := rfl

theorem returns_validateObservedObjectRef
    (h : Returns (validateObservedObjectRef call ref) c u c') : c' = c := by
  simp only [validateObservedObjectRef, returns_bind, returns_ofExcept, returns_step, returns_readCorpus] at h
  obtain ⟨_, _, ⟨-, rfl⟩, _, _, ⟨-, rfl⟩, row, _, ⟨-, rfl⟩, h⟩ := h
  cases row with
  | none => exact (returns_pure.mp h).2
  | some obj =>
    simp only [returns_bind, returns_ofExcept] at h
    obtain ⟨_, _, ⟨-, rfl⟩, -, rfl⟩ := h
    rfl

theorem returns_validateForSinks (h : Returns (validateForSinks call ref) c u c') : c' = c := by
  simp only [validateForSinks, returns_bind] at h
  obtain ⟨sinks, _, ⟨-, rfl⟩, h⟩ := h
  split at h
  · exact (returns_pure.mp h).2
  · simp only [validateObservedChunks, returns_bind, returns_ofExcept, returns_step] at h
    obtain ⟨_, _, ⟨-, rfl⟩, _, _, ⟨-, rfl⟩, -, rfl⟩ := h
    rfl

theorem returns_deleteRefChunks (h : Returns (deleteRefChunks ix call ref) c u c') :
    c' = {c.deleteChunks ref.objectID with sinks := c.sinks.map (Sink.replace ref [])} := by
  simp only [deleteRefChunks, returns_bind, returns_ofExcept, returns_step, returns_changeCorpus] at h
  obtain ⟨_, _, ⟨-, rfl⟩, _, _, ⟨-, rfl⟩, _, c₁, hobject, _, c₂, hch, _, _, ⟨-, rfl⟩, _, _, rfl, hsn⟩ := h
  obtain rfl := returns_validateObservedObjectRef hobject
  obtain rfl := returns_validateForSinks hch
  exact returns_updateSinks hsn

/-- The chunks of one object go, and those of the others stay. -/
theorem untouched_deleteRefChunks (hne : other.objectID ≠ ref.objectID)
    (h : Returns (deleteRefChunks ix call other) c u c') : Untouched ref c c' := by
  rw [returns_deleteRefChunks h]
  exact untouched_deleted hne

theorem refFromObject_ok (h : refFromObject obj = .ok ref) : ref = refOf obj ∧ obj.path.tenantID ≠ "" := by
  simp only [refFromObject, bind_eq_ok] at h
  obtain ⟨_, hv, href⟩ := h
  refine ⟨(Except.ok.inj href).symm, ?_⟩
  unfold ChunkRef.validate at hv
  split at hv
  next hok => exact validateChunkRef_ok hok
  · cases hv

theorem returns_deleteOtherVersions {versions : List Object}
    (h : Returns (deleteOtherVersions ix call obj.id versions) c u c') :
    Untouched (refOf obj) c c' := by
  induction versions generalizing c with
  | nil =>
    simp only [deleteOtherVersions, returns_pure] at h
    rw [h.2]
    exact .refl _ _
  | cons version rest ih =>
    unfold deleteOtherVersions at h
    split at h
    · exact ih h
    next hid =>
      simp only [returns_bind, returns_ofExcept] at h
      obtain ⟨ref, _, ⟨href, rfl⟩, _, c₁, hd, hrs⟩ := h
      obtain ⟨rfl, -⟩ := refFromObject_ok href
      have hne : (refOf version).objectID ≠ (refOf obj).objectID := by
        show (version.id : Int) ≠ obj.id
        exact_mod_cast hid
      exact (untouched_deleteRefChunks hne hd).trans (ih hrs)

/-- The live row of its key is current, and stays as it is indexed. -/
theorem returns_prepareCurrentObject {current : Bool} (hl : getObject c.objects obj.path = some obj)
    (h : Returns (prepareCurrentObject ix call obj) c current c') :
    current = true ∧ Untouched (refOf obj) c c' := by
  simp only [prepareCurrentObject, returns_bind, returns_ofExcept, returns_step, returns_readCorpus] at h
  obtain ⟨ref, _, ⟨href, rfl⟩, _, _, ⟨-, rfl⟩, row, _, ⟨hrow, rfl⟩, h⟩ := h
  have hpath : (⟨defaultTenant obj.path.tenantID, obj.path.bucket, obj.path.key⟩ : Path) = obj.path := by
    simp [defaultTenant, (refFromObject_ok href).2]
  rw [hpath, hl] at hrow
  subst hrow
  simp only [ne_eq, not_true_eq_false, if_false, returns_bind, returns_step] at h
  obtain ⟨_, _, ⟨-, rfl⟩, versions, _, ⟨-, rfl⟩, _, c₁, hd, rfl, rfl⟩ := h
  exact ⟨rfl, returns_deleteOtherVersions hd⟩

/-! ### What is to be indexed -/

/-- The pieces of the text that the current bytes of the row contain: none, if they are
encrypted with the customer's key or of an unsupported type. -/
def currentPieces (ix : Indexer) (c : Corpus) (obj : Object) : List String :=
  match c.store obj.storageKey with
  | .error _ => []
  | .ok data =>
    match ix.extractor obj.contentType data with
    | .error _ => []
    | .ok text => ix.chunker.chunk (ix.finalText text)

theorem setTags_untouched {now id : Nat} {tags : GoMap} :
    Untouched ref c (c.setTags now id tags) := by
  unfold Corpus.setTags
  split
  · exact ⟨rfl, rfl, rfl⟩
  · exact .refl ref c

theorem returns_applyPII {text out : String} (h : Returns (applyPII ix call obj text) c out c') :
    out = ix.finalText text ∧ Untouched ref c c' := by
  obtain ⟨_, _, rfl, rfl, rfl⟩ := h
  refine ⟨rfl, ?_⟩
  split
  · split
    · exact setTags_untouched
    · exact .refl ref c
  · exact .refl ref c

theorem returns_loadPieces {pieces : List String} (h : Returns (loadPieces ix call obj) c pieces c') :
    pieces = currentPieces ix c obj ∧ Untouched ref c c' := by
  simp only [loadPieces, returns_bind, returns_step, returns_readCorpus] at h
  obtain ⟨_, _, ⟨-, rfl⟩, content, c₀, ⟨rfl, rfl⟩, h⟩ := h
  unfold currentPieces
  cases hst : c₀.store obj.storageKey with
  | error e =>
    rw [hst] at h
    cases e with
    | sseCustomerKeyRequired =>
      obtain ⟨rfl, rfl⟩ := returns_pure.mp h
      exact ⟨rfl, .refl ref c'⟩
    | other => exact absurd h returns_throw
  | ok data =>
    simp only [hst, returns_bind, returns_ofExcept] at h
    obtain ⟨_, _, ⟨-, rfl⟩, h⟩ := h
    cases ht : ix.extractor obj.contentType data with
    | error e =>
      rw [ht] at h
      cases e with
      | unsupported =>
        obtain ⟨rfl, rfl⟩ := returns_pure.mp h
        exact ⟨by simp only [ht], .refl ref c'⟩
      | other => exact absurd h returns_throw
    | ok text =>
      simp only [ht, returns_bind, returns_pure] at h
      obtain ⟨out, c₁, hpii, rfl, rfl⟩ := h
      obtain ⟨rfl, hun⟩ := returns_applyPII hpii
      exact ⟨by simp only [ht], hun⟩

/-- The positions and texts of rows. -/
def rowTexts (rows : List Chunk) : List (Int × String) := rows.map fun row => (row.seq, row.content)

/-- The positions and texts that pieces are stored with, the first at `i`. -/
def indexedFrom (i : Nat) : List String → List (Int × String)
  | [] => []
  | piece :: rest => ((i : Int), piece) :: indexedFrom (i + 1) rest

theorem le_of_mem_indexedFrom {i : Nat} {pieces : List String} {p : Int × String}
    (h : p ∈ indexedFrom i pieces) : (i : Int) ≤ p.1 := by
  induction pieces generalizing i with
  | nil => cases h
  | cons piece rest ih =>
    rw [indexedFrom, mem_cons] at h
    obtain rfl | h := h
    · exact le_refl _
    · have := ih h
      omega

theorem pairwise_indexedFrom (i : Nat) (pieces : List String) :
    (indexedFrom i pieces).Pairwise fun a b => a.1 ≤ b.1 := by
  induction pieces generalizing i with
  | nil => exact .nil
  | cons piece rest ih =>
    refine pairwise_cons.mpr ⟨fun p hp => ?_, ih (i + 1)⟩
    have := le_of_mem_indexedFrom hp
    omega

section Insertion
variable {model : String} {vectors : List Embedding} {pieces : List String}

/-- The rows that are inserted for pieces. -/
def insertedRows (obj : Object) (model : String) (vectors : List Embedding) (next : Int)
    (pieces : List String) : List Chunk :=
  numberRows next (buildChunks obj model vectors 0 pieces)

/-- The vector of the piece at `i`; without one the row has no embedding. -/
def vectorAt (vectors : List Embedding) (i : Nat) : Embedding := (vectors[i]?).getD []

/-- What the number of a row leaves alone. -/
def columns (row : Chunk) : (Int × Embedding) × Int × String := ((row.objectID, row.embedding), row.seq, row.content)

theorem columns_numberRows (next : Int) (rows : List Chunk) :
    (numberRows next rows).map columns = rows.map columns := by
  induction rows generalizing next with
  | nil => rfl
  | cons row rest ih => exact congrArg (_ :: ·) (ih (next + 1))

theorem columns_buildChunks (i : Nat) : (buildChunks obj model vectors i pieces).map columns =
    (indexedFrom i pieces).map fun p => ((↑obj.id, vectorAt vectors p.1.toNat), p) := by
  induction pieces generalizing i with
  | nil => rfl
  | cons piece rest ih => exact congrArg (_ :: ·) (ih (i + 1))

theorem columns_insertedRows (next : Int) : (insertedRows obj model vectors next pieces).map columns =
    (indexedFrom 0 pieces).map fun p => ((↑obj.id, vectorAt vectors p.1.toNat), p) :=
  (columns_numberRows ..).trans (columns_buildChunks 0)

theorem rowTexts_insertedRows (next : Int) :
    rowTexts (insertedRows obj model vectors next pieces) = indexedFrom 0 pieces := by
  have htexts (rows : List Chunk) : rowTexts rows = (rows.map columns).map Prod.snd := by rw [map_map]; rfl
  rw [htexts, columns_insertedRows, map_map]
  exact map_id _

theorem indices_indexedFrom (i : Nat) : (indexedFrom i pieces).map (·.1.toNat) = range' i pieces.length := by
  induction pieces generalizing i with
  | nil => rfl
  | cons piece rest ih => exact congrArg (i :: ·) (ih (i + 1))

/-- The rows of pieces have the vectors of the pieces. -/
theorem vectored_insertedRows {next : Int} :
    (∀ row ∈ insertedRows obj model vectors next pieces, row.embedding ≠ []) ↔
      ∀ i < pieces.length, vectorAt vectors i ≠ [] := by
  have hcol := forall_mem_map (f := columns) (P := fun x => x.1.2 ≠ [])
    (l := insertedRows obj model vectors next pieces)
  have hix := forall_mem_map (f := (·.1.toNat)) (P := fun i => vectorAt vectors i ≠ []) (l := indexedFrom 0 pieces)
  rw [columns_insertedRows, forall_mem_map] at hcol
  rw [indices_indexedFrom] at hix
  exact hcol.symm.trans (hix.symm.trans (by simp [mem_range'_1]))

theorem filter_insertedRows (next : Int) :
    (insertedRows obj model vectors next pieces).filter (fun row => row.objectID == (obj.id : Int)) =
      insertedRows obj model vectors next pieces := by
  refine filter_eq_self.mpr fun row hrow => beq_iff_eq.mpr ?_
  obtain ⟨p, -, hp⟩ := mem_map.mp (columns_insertedRows next ▸ mem_map_of_mem hrow)
  exact (congrArg (·.1.1) hp).symm

theorem listChunksForObject_eq_nil {rows : List Chunk} {objectID : Int} :
    listChunksForObject rows objectID = [] ↔ rows.filter (fun row => row.objectID == objectID) = [] := by
  rw [← length_eq_zero_iff, ← length_eq_zero_iff, listChunksForObject, length_insertionSort]

/-- Where there were no rows of the object, they are those of the pieces after the insertion. -/
theorem listChunksForObject_insert {kept : List Chunk} {next : Int} (h : listChunksForObject kept obj.id = []) :
    listChunksForObject (kept ++ insertedRows obj model vectors next pieces) obj.id =
      insertedRows obj model vectors next pieces := by
  have hsorted : (insertedRows obj model vectors next pieces).Pairwise fun a b => a.seq ≤ b.seq := by
    have hpr := pairwise_indexedFrom 0 pieces
    rw [← rowTexts_insertedRows next, rowTexts, pairwise_map] at hpr
    exact hpr
  rw [listChunksForObject, filter_append, listChunksForObject_eq_nil.mp h, filter_insertedRows, nil_append,
    hsorted.insertionSort_eq]

/-- The rows of the object after the insertion are those of the pieces exactly when there
were none before. -/
theorem rowTexts_insert_iff {kept : List Chunk} {next : Int} :
    rowTexts (listChunksForObject (kept ++ insertedRows obj model vectors next pieces) obj.id) =
        indexedFrom 0 pieces ↔
      listChunksForObject kept obj.id = [] := by
  constructor
  · intro h
    have htexts : rowTexts (insertedRows obj model vectors next pieces) = indexedFrom 0 pieces :=
      rowTexts_insertedRows next
    rw [← htexts] at h
    -- A row that was kept makes the list longer.
    have hl := congrArg length h
    simp only [rowTexts, length_map, listChunksForObject, length_insertionSort,
      filter_append, filter_insertedRows, length_append] at hl
    exact listChunksForObject_eq_nil.mpr (length_eq_zero_iff.mp (by omega))
  · intro h
    rw [listChunksForObject_insert h, rowTexts_insertedRows]

end Insertion

/-! ### What an index leaves -/

/-- The rows and what the sinks hold are the pieces of the current content. -/
structure Reflects (ix : Indexer) (c c' : Corpus) (obj : Object) : Prop where
  rows : rowTexts (listChunksForObject c'.chunks obj.id) = indexedFrom 0 (currentPieces ix c obj)
  sinks : ∀ sink ∈ c'.sinks, rowTexts (sink.held (refOf obj)) = indexedFrom 0 (currentPieces ix c obj)

/-- What the embedder answers for pieces. -/
def Indexer.vectors (ix : Indexer) (pieces : List String) : List Embedding :=
  match ix.embedder with
  | some (_, embed) => embed pieces
  | none => []

/-- No chunk is there that the call does not replace, and no sink leaves out a piece. -/
structure Fresh (ix : Indexer) (call : IndexCall) (c : Corpus) (obj : Object) : Prop where
  /-- Content without text is not preceded by content with text. -/
  skipped : currentPieces ix c obj = [] →
    listChunksForObject c.chunks obj.id = [] ∧ ∀ sink ∈ c.sinks, sink.held (refOf obj) = []
  /-- The removal of the old rows, whose failure is ignored, fails only if there are none. -/
  deleted : currentPieces ix c obj ≠ [] → call.fails .deleteOld = true →
    listChunksForObject c.chunks obj.id = []
  /-- A sink that leaves out rows without a vector gets a vector for each piece. -/
  vectored : ∀ sink ∈ c.sinks, sink.vectorsOnly = true → ∀ i < (currentPieces ix c obj).length,
    vectorAt (ix.vectors (currentPieces ix c obj)) i ≠ []

theorem returns_pushToSinks (h : Returns (pushToSinks call ref) c u c') :
    c'.chunks = c.chunks ∧ c'.sinks.map Sink.vectorsOnly = c.sinks.map Sink.vectorsOnly ∧
      ∀ sink ∈ c'.sinks, sink.held ref = (listChunksForObject c.chunks ref.objectID).filter sink.takes := by
  simp only [pushToSinks, returns_bind] at h
  obtain ⟨sinks, c₀, ⟨rfl, rfl⟩, h⟩ := h
  split at h
  next hem =>
    obtain ⟨-, rfl⟩ := returns_pure.mp h
    refine ⟨rfl, rfl, fun sink hsn => ?_⟩
    rw [isEmpty_iff.mp hem] at hsn
    cases hsn
  · simp only [returns_bind, returns_ofExcept, returns_step] at h
    obtain ⟨_, _, ⟨-, rfl⟩, rows, c₁, ⟨rfl, rfl⟩, _, _, ⟨-, rfl⟩, _, c₂, ⟨-, rfl⟩, hsink⟩ := h
    obtain rfl := returns_updateSinks hsink
    refine ⟨rfl, map_map.trans rfl, fun sink hsn => ?_⟩
    obtain ⟨old, -, rfl⟩ := mem_map.mp hsn
    exact Function.update_self ..

theorem listChunksForObject_deleteChunks_self (c : Corpus) (objectID : Int) :
    listChunksForObject (c.deleteChunks objectID).chunks objectID = [] := by
  rw [eq_nil_iff_forall_not_mem]
  intro row hrow
  rw [mem_listChunksForObject, Corpus.deleteChunks, mem_filter] at hrow
  simp [hrow.2] at hrow

theorem reflects_skip_iff (hpc : currentPieces ix c obj = []) (h : Untouched (refOf obj) c c') :
    Reflects ix c c' obj ↔ Fresh ix call c obj := by
  have hnil (rows : List Chunk) : rowTexts rows = [] ↔ rows = [] := map_eq_nil_iff
  have hsink : (∀ sink ∈ c'.sinks, sink.held (refOf obj) = []) ↔ ∀ sink ∈ c.sinks, sink.held (refOf obj) = [] := by
    have hm (sinks : List Sink) : (∀ sink ∈ sinks, sink.held (refOf obj) = []) ↔
        ∀ p ∈ sinks.map (fun sink => (sink.vectorsOnly, sink.held (refOf obj))), p.2 = [] := by simp
    rw [hm, hm, h.sinks]
  have hrw : listChunksForObject c'.chunks obj.id = listChunksForObject c.chunks obj.id := h.rows
  constructor
  · intro hrf
    obtain ⟨hr, hs⟩ := hrf
    rw [hpc, indexedFrom] at hr
    simp only [hpc, indexedFrom, hnil] at hs
    exact ⟨fun _ => ⟨hrw ▸ (hnil _).mp hr, hsink.mp hs⟩, absurd hpc, by simp [hpc]⟩
  · intro hf
    obtain ⟨hr, hs⟩ := hf.skipped hpc
    refine ⟨?_, fun sink hsn => ?_⟩
    · rw [hrw, hr, hpc]
      rfl
    · rw [hsink.mpr hs sink hsn, hpc]
      rfl

theorem deleteOld_sinks (call : IndexCall) (objectID : Int) (c : Corpus) :
    (deleteOld call objectID c).sinks.map Sink.vectorsOnly = c.sinks.map Sink.vectorsOnly := by
  unfold deleteOld
  split <;> rfl

theorem listChunksForObject_deleteOld (call : IndexCall) (c : Corpus) (objectID : Int) :
    listChunksForObject (deleteOld call objectID c).chunks objectID = [] ↔
      (call.fails .deleteOld = true → listChunksForObject c.chunks objectID = []) := by
  unfold deleteOld
  split
  next hf => simp [hf]
  next hf => simp [hf, listChunksForObject_deleteChunks_self]

/-- A sink holds all rows of the pieces exactly when none that it needs a vector for is without. -/
theorem filter_takes_iff {sink : Sink} {model : String} {vectors : List Embedding} {next : Int}
    {pieces : List String} :
    rowTexts ((insertedRows obj model vectors next pieces).filter sink.takes) = indexedFrom 0 pieces ↔
      (sink.vectorsOnly = true → ∀ i < pieces.length, vectorAt vectors i ≠ []) := by
  have htakes : (∀ row ∈ insertedRows obj model vectors next pieces, sink.takes row = true) ↔
      (sink.vectorsOnly = true → ∀ i < pieces.length, vectorAt vectors i ≠ []) := by
    have hem : (∀ row ∈ insertedRows obj model vectors next pieces, row.embedding ≠ []) ↔
        ∀ i < pieces.length, vectorAt vectors i ≠ [] := vectored_insertedRows
    rw [← hem]
    cases hv : sink.vectorsOnly <;> simp [Sink.takes, hv]
  have htexts : rowTexts (insertedRows obj model vectors next pieces) = indexedFrom 0 pieces :=
    rowTexts_insertedRows next
  rw [← htakes, ← htexts]
  constructor
  · intro h
    have hl := congrArg length h
    rw [rowTexts, rowTexts, length_map, length_map] at hl
    exact length_filter_eq_length_iff.mp hl
  · intro h
    rw [filter_eq_self.mpr h]

theorem reflects_indexed_iff {model : String} {c₁ : Corpus}
    (hne : currentPieces ix c obj ≠ []) (h : Untouched (refOf obj) c c₁)
    (hps : Returns (pushToSinks call (refOf obj)) ((deleteOld call obj.id c₁).insertChunks
        (buildChunks obj model (ix.vectors (currentPieces ix c obj)) 0 (currentPieces ix c obj))) u c') :
    Reflects ix c c' obj ↔ Fresh ix call c obj := by
  obtain ⟨hch, hkinds, hsink⟩ := returns_pushToSinks hps
  have hkinds' : c'.sinks.map Sink.vectorsOnly = c.sinks.map Sink.vectorsOnly := by
    have hun := congrArg (map Prod.fst) h.sinks
    rw [map_map, map_map] at hun
    exact hkinds.trans ((deleteOld_sinks call obj.id c₁).trans hun)
  have hfresh (hnone : listChunksForObject (deleteOld call obj.id c₁).chunks obj.id = []) :
      listChunksForObject ((deleteOld call obj.id c₁).insertChunks (buildChunks obj model
        (ix.vectors (currentPieces ix c obj)) 0 (currentPieces ix c obj))).chunks (refOf obj).objectID =
        insertedRows obj model (ix.vectors (currentPieces ix c obj)) (deleteOld call obj.id c₁).nextChunkID
          (currentPieces ix c obj) :=
    listChunksForObject_insert hnone
  have hkp := listChunksForObject_deleteOld call c₁ obj.id
  rw [show listChunksForObject c₁.chunks obj.id = listChunksForObject c.chunks obj.id from h.rows] at hkp
  constructor
  · intro hrf
    have hrows := hrf.rows
    rw [hch] at hrows
    have hnone := rowTexts_insert_iff.mp hrows
    refine ⟨fun hnil => absurd hnil hne, fun _ => hkp.mp hnone, fun sink hsn hv => ?_⟩
    obtain ⟨sink', hsn', hv'⟩ := mem_map.mp (hkinds' ▸ mem_map_of_mem (f := Sink.vectorsOnly) hsn)
    have hs := hrf.sinks sink' hsn'
    rw [hsink sink' hsn', hfresh hnone] at hs
    exact filter_takes_iff.mp hs (hv'.trans hv)
  · intro hf
    have hnone := hkp.mpr (hf.deleted hne)
    refine ⟨?_, fun sink hsn => ?_⟩
    · rw [hch]
      exact rowTexts_insert_iff.mpr hnone
    · obtain ⟨old, hold, hv⟩ := mem_map.mp (hkinds' ▸ mem_map_of_mem (f := Sink.vectorsOnly) hsn)
      rw [hsink sink hsn, hfresh hnone]
      exact filter_takes_iff.mpr fun hs => hf.vectored old hold (hv.trans hs)

theorem reflects_loaded_iff {model : String} {embed : List String → List Embedding} {indexed : Bool}
    {c₀ : Corpus} (hem : ix.embedder = some (model, embed)) (h₀ : Untouched (refOf obj) c c₀)
    (h : Returns (indexLoadedObject ix call obj (refOf obj) model embed) c₀ indexed c') :
    Reflects ix c c' obj ↔ Fresh ix call c obj := by
  simp only [indexLoadedObject, returns_bind] at h
  obtain ⟨pieces, c₁, hld, h⟩ := h
  have hl : pieces = currentPieces ix c₀ obj ∧ Untouched (refOf obj) c₀ c₁ := returns_loadPieces hld
  obtain ⟨hpc, h₁⟩ := hl
  have hcr : currentPieces ix c obj = pieces := by
    rw [hpc, currentPieces, currentPieces, h₀.store]
  subst hcr
  split at h
  next hnone =>
    obtain ⟨-, rfl⟩ := returns_pure.mp h
    exact reflects_skip_iff (isEmpty_iff.mp hnone) (h₀.trans h₁)
  next hpcs =>
    simp only [returns_bind, returns_step, returns_changeCorpus] at h
    obtain ⟨_, _, ⟨-, rfl⟩, _, _, rfl, _, _, ⟨-, rfl⟩, _, _, rfl, _, _, hps, -, rfl⟩ := h
    have hne : currentPieces ix c obj ≠ [] := fun hnil => hpcs (isEmpty_iff.mpr hnil)
    have hvs : embed (currentPieces ix c obj) = ix.vectors (currentPieces ix c obj) := by rw [Indexer.vectors, hem]
    exact reflects_indexed_iff hne (h₀.trans h₁) (hvs ▸ hps)

theorem rowByID_of_mem (hm : obj ∈ c.objects.rows) : rowByID c.objects obj.id = some obj := by
  cases hrow : rowByID c.objects obj.id with
  | none => exact absurd (beq_self_eq_true (obj.id : Int)) (find?_eq_none.mp hrow obj hm)
  | some row =>
    have hfound := find?_some hrow
    have hid : (row.id : Int) = obj.id := by simpa using hfound
    exact congrArg some (eq_of_id (mem_of_find?_eq_some hrow) hm (by exact_mod_cast hid))

/-- An index of a row that is stored goes on to its content if the row is current. -/
theorem returns_indexObject {tenant : String} {expected : Option ChunkRef} {indexed : Bool}
    (hm : obj ∈ c.objects.rows) (h : Returns (indexObject ix call obj.id tenant expected) c indexed c') :
    ∃ c₀ current model embed, ix.embedder = some (model, embed) ∧
      Returns (prepareCurrentObject ix call obj) c current c₀ ∧
      Returns (if current then indexLoadedObject ix call obj (refOf obj) model embed else return false)
        c₀ indexed c' := by
  simp only [indexObject, returns_bind, returns_ofExcept] at h
  obtain ⟨_, _, ⟨-, rfl⟩, h⟩ := h
  cases hem : ix.embedder with
  | none =>
    rw [hem] at h
    exact absurd h returns_throw
  | some embedder =>
    simp only [hem, returns_bind, returns_ofExcept, returns_step, returns_readCorpus] at h
    obtain ⟨_, _, ⟨-, rfl⟩, _, _, ⟨-, rfl⟩, row, c₀, ⟨rfl, rfl⟩, h⟩ := h
    rw [rowByID_of_mem hm] at h
    simp only [returns_bind, returns_ofExcept] at h
    obtain ⟨ref, _, ⟨href, rfl⟩, _, _, ⟨-, rfl⟩, _, c₁, ⟨-, rfl⟩, current, c₂, hpr, h⟩ := h
    obtain ⟨rfl, -⟩ := refFromObject_ok href
    exact ⟨c₂, current, _, _, rfl, hpr, h⟩

/-- An index of a live row gets as far as the row's content. -/
theorem returns_indexObject_live {tenant : String} {expected : Option ChunkRef} {indexed : Bool}
    (hl : getObject c.objects obj.path = some obj)
    (h : Returns (indexObject ix call obj.id tenant expected) c indexed c') :
    ∃ c₀ model embed, ix.embedder = some (model, embed) ∧ Untouched (refOf obj) c c₀ ∧
      Returns (indexLoadedObject ix call obj (refOf obj) model embed) c₀ indexed c' := by
  obtain ⟨c₀, current, model, embed, hem, hpr, h⟩ := returns_indexObject (getObject_some hl).1 h
  obtain ⟨rfl, hun⟩ := returns_prepareCurrentObject hl hpr
  exact ⟨c₀, model, embed, hem, hun, h⟩

/-- **An index of a live row that returns nil leaves exactly the pieces of the current
content** as the rows of the object and in every sink, if and only if no chunk was there
that it does not replace and no sink leaves out a piece for want of a vector. -/
theorem index_reflects_iff (ix : Indexer) (call : IndexCall) (c c' : Corpus) (obj : Object)
    (hlive : getObject c.objects obj.path = some obj)
    (h : Returns (indexObjectByID ix call obj.id) c () c') :
    Reflects ix c c' obj ↔ Fresh ix call c obj := by
  simp only [indexObjectByID, returns_bind] at h
  obtain ⟨indexed, _, h, -, rfl⟩ := h
  obtain ⟨c₀, model, embed, hem, hun, hl⟩ := returns_indexObject_live hlive h
  exact reflects_loaded_iff hem hun hl

/-! ### Old text that stays -/

/-- A row of key `a`, stored under `s`, with the given type. -/
def noteRow (contentType : String) : Object where
  id := 1
  path := ⟨"default", "b", "a"⟩
  storageKey := "s"
  size := 1
  contentType := contentType
  acl := "private"

/-- The row, with the chunk of the text it held before. -/
def rewritten (contentType : String) : Corpus where
  objects := ⟨[noteRow contentType], 2, by simp, by simp [noteRow, Row.id]⟩
  store _ := .ok [98]
  chunks := [⟨1, 1, "default", "b", "a", 0, "old", [], 0, "m"⟩]
  nextChunkID := 2
  sinks := [⟨false, fun _ => []⟩, ⟨true, fun _ => []⟩]

/-- An indexer that reads plain text only. -/
def plainIndexer : Indexer where
  sinkFault := false
  extractor contentType _ := if contentType = "text/plain" then .ok "new" else .error .unsupported
  chunker := Chunker.standard
  embedder := some ("m", fun pieces => pieces.map fun _ => [1])
  pii := none
  redact := false
  hasTagger := false

def noFailure : IndexCall := ⟨fun _ => false, 0⟩

/-- Text that is replaced by text: the old chunk goes. -/
theorem rewritten_text_reflects :
    getObject (rewritten "text/plain").objects (noteRow "text/plain").path = some (noteRow "text/plain") ∧
      ∃ c', Returns (indexObjectByID plainIndexer noFailure (noteRow "text/plain").id)
          (rewritten "text/plain") () c' ∧
        Reflects plainIndexer (rewritten "text/plain") c' (noteRow "text/plain") := by
  have hl : getObject (rewritten "text/plain").objects (noteRow "text/plain").path =
      some (noteRow "text/plain") := by decide +kernel
  refine ⟨hl, _, rfl, ?_⟩
  refine (index_reflects_iff plainIndexer noFailure _ _ (noteRow "text/plain") hl rfl).mpr ⟨?_, ?_, ?_⟩
  · intro h
    exact absurd h (by decide +kernel)
  · intro _ h
    cases h
  · decide +kernel

/-- **Text that is replaced by a picture stays searchable**: the index returns nil, and the
old chunk is still there. -/
theorem unsupported_content_keeps_old_text :
    ∃ c', Returns (indexObjectByID plainIndexer noFailure (noteRow "image/png").id)
        (rewritten "image/png") () c' ∧
      getObject (rewritten "image/png").objects (noteRow "image/png").path = some (noteRow "image/png") ∧
      currentPieces plainIndexer (rewritten "image/png") (noteRow "image/png") = [] ∧
      rowTexts (listChunksForObject c'.chunks (noteRow "image/png").id) = [(0, "old")] := by
  refine ⟨rewritten "image/png", rfl, ?_, rfl, ?_⟩
  · decide +kernel
  · decide +kernel

end AeroVault.Ai
