import AeroVault.Lib.Attempt
import AeroVault.Repository.Chunks
import AeroVault.Service.Vault

/-! Canonical search hits.

A hit is canonical when it has the identity and the text of a chunk row of the
current object. `canonicalizeHits` proves this of each hit against the repository or
fails; it never repairs a hit. Everything outside (the context, the readers' faults,
the authorizer) is a function of a hidden state, and may answer as it likes. -/
namespace AeroVault.Ai
open Lib Lib.Attempt Repository Service List

/-! ### Errors -/

/-- The errors that `errors.Is` is asked for. -/
inductive Sentinel
  | resourceBoundaryFault | canonicalHit | spaceBound | tenantUnavailable | tenantDisabled
  | canceled | deadlineExceeded
  | denied | forbidden | serviceNotFound | repositoryNotFound
  deriving DecidableEq

/-- The texts of `canonicalReject`, with the values in them. -/
inductive Rejection
  | chunkIdentity (chunkID other : Int)
  | objectIdentity (objectID : Int)
  | crossTenant (chunkID : Int)
  | outsideBucket (chunkID : Int)
  | noResourceReader
  | duplicateChunk (chunkID : Int)
  | notPartOf (chunkID objectID : Int)
  | invalidObjectID (objectID : Int)
  | objectIDMismatch (objectID rowID : Int)
  | tenantMismatch (objectID : Int)
  | notCurrent (objectID : Int)
  | incompleteChunkScope (objectID : Int)
  | duplicateRow (objectID chunkID : Int)
  | scopeMismatch (chunkID : Int)
  | payloadMismatch (chunkID : Int)
  | noRepository
  | notObserved (objectID : Int)
  | noSnapshot
  | injected (chunkID : Int)
  | duplicated (chunkID : Int)
  deriving DecidableEq

/-- A read of `canonicalResolver`, in the text of its error. -/
inductive Lookup
  | object (objectID : Int)
  | chunks (objectID : Int)
  | currentObject
  deriving DecidableEq

inductive SearchError
  /-- An error of an outside party, by what it wraps. -/
  | outside (wraps : List Sentinel)
  | joined (first second : SearchError)
  | canonical (why : Rejection)
  /-- `%w: hit scope: %w` and the like. -/
  | canonicalScope (cause : SearchError)
  | canonicalLookup (what : Lookup) (cause : SearchError)
  | incompleteChunkScope
  | chunkObjectID
  | boundaryFault (message : String)
  | queryRequired
  | noEmbedder
  | noBM25
  | invalidMode (mode : String)
  | embedQuery (cause : SearchError)
  | noVectors
  | searchChunks (cause : SearchError)
  | lexicalSearch (cause : SearchError)
  deriving DecidableEq

/-- `errors.Is`. -/
def SearchError.is (sentinel : Sentinel) : SearchError → Bool
  | .outside wraps => wraps.contains sentinel
  | .joined first second => first.is sentinel || second.is sentinel
  | .canonical _ => sentinel == .canonicalHit
  | .canonicalScope cause | .canonicalLookup _ cause =>
    sentinel == .canonicalHit || cause.is sentinel
  | .boundaryFault _ => sentinel == .resourceBoundaryFault
  | .embedQuery cause | .searchChunks cause | .lexicalSearch cause => cause.is sentinel
  | .incompleteChunkScope | .chunkObjectID | .queryRequired | .noEmbedder | .noBM25
  | .invalidMode _ | .noVectors => false

/-- `errors.Join` with an error that may be nil. -/
def SearchError.join (e : SearchError) : Option SearchError → SearchError
  | none => e
  | some other => .joined e other

/-! ### Requests, hits and what is outside -/

structure Request where
  tenant : String
  /-- Empty for all buckets of the tenant. -/
  bucket : String
  query : String
  k : Int
  mode : String
  caller : String
  reqID : String
  deriving DecidableEq

structure Hit where
  score : Float32
  chunk : String
  chunkID : Int
  objectID : Int
  bucket : String
  objectKey : String
  seq : Int
  embedModel : String

/-- The state of everything outside, and what `CanReadObject` has allowed in this call. -/
structure World (ω : Type) where
  hidden : ω
  allowed : List Path

abbrev M (ω α : Type) := Attempt (World ω) SearchError α

/-- An interface value: nil, a typed nil, or a party to call. -/
inductive Port (α : Type)
  | absent
  | typedNil
  | present (party : α)

def Port.nilLike {α : Type} : Port α → Bool
  | .present _ => false
  | .absent | .typedNil => true

def Port.isAbsent {α : Type} : Port α → Bool
  | .absent => true
  | .typedNil | .present _ => false

/-- The tables that a search reads, which it does not change. -/
structure Repo where
  objects : Objects
  chunks : List Chunk

/-- A reader of a repository. Each read may fail. -/
structure Reader (ω : Type) where
  repo : Repo
  fault : ω → Option SearchError × ω

variable {ω : Type}

/-- `ctx.Err()`. -/
abbrev Context (ω : Type) := ω → Option SearchError × ω

/-- A question to an outside party whose answer is an error or nil. -/
def askOutside (f : ω → Option SearchError × ω) : M ω (Option SearchError) :=
  call fun w => (.ok (f w.hidden).1, {w with hidden := (f w.hidden).2})

/-- A request to an outside party. -/
def fetch {α : Type} (f : ω → Except SearchError α × ω) : M ω α :=
  call fun w => ((f w.hidden).1, {w with hidden := (f w.hidden).2})

def failWith : Option SearchError → Except SearchError Unit
  | none => .ok ()
  | some e => .error e

/-- Stop with the context's error, if it has one. -/
def checkContext (ctx : Context ω) : M ω Unit := do
  let err ← askOutside ctx
  Attempt.ofExcept (failWith err)

/-- A lookup's result: the reader's fault or a missing row, joined with the context's
error, or else the rows. -/
def lookupResult {α : Type} (what : Lookup) (cancelled : Option SearchError) :
    Option SearchError → Except SearchError α → Except SearchError α
  | some fault, _ => .error (.canonicalLookup what (fault.join cancelled))
  | none, .error missing => .error (.canonicalLookup what (missing.join cancelled))
  | none, .ok rows =>
    match cancelled with
    | some e => .error (.canonicalLookup what e)
    | none => .ok rows

def readRows {α : Type} (ctx : Context ω) (reader : Reader ω) (what : Lookup)
    (rows : Repo → Except SearchError α) : M ω α := do
  let fault ← askOutside reader.fault
  let cancelled ← askOutside ctx
  Attempt.ofExcept (lookupResult what cancelled fault (rows reader.repo))

/-! ### Canonical objects -/

/-- `access.ValidateChunkRef`. -/
def validateChunkRef (tenant bucket key : String) (objectID : Int) : Except SearchError Unit := do
  refuseIf (tenant = "" ∨ bucket = "" ∨ key = "") .incompleteChunkScope
  refuseIf (objectID ≤ 0) .chunkObjectID

def validateHitShape (req : Request) (hit : Hit) : Except SearchError Unit := do
  refuseIf (hit.chunkID ≤ 0 ∨ hit.seq < 0) (.canonical (.chunkIdentity hit.chunkID hit.seq))
  refuseIf (req.bucket ≠ "" ∧ hit.bucket ≠ req.bucket) (.canonical (.outsideBucket hit.chunkID))
  (validateChunkRef req.tenant hit.bucket hit.objectKey hit.objectID).mapError .canonicalScope

def validateCanonicalObject (tenant : String) (objectID : Int) (obj : Object) :
    Except SearchError Unit := do
  refuseIf ((obj.id : Int) ≠ objectID ∨ (obj.id : Int) ≤ 0)
    (.canonical (.objectIDMismatch objectID obj.id))
  refuseIf (obj.path.tenantID ≠ tenant) (.canonical (.tenantMismatch objectID))
  (validateChunkRef obj.path.tenantID obj.path.bucket obj.path.key obj.id).mapError .canonicalScope
  refuseIf (obj.deletedAt ≠ none ∨ obj.versionTombstone = true) (.canonical (.notCurrent objectID))

def sameObjectContent (expected current : Object) : Bool :=
  expected.etag == current.etag && expected.size == current.size &&
    expected.storageKey == current.storageKey && expected.backend == current.backend &&
    expected.contentType == current.contentType && expected.updatedAt == current.updatedAt

def sameObjectObservation (expected current : Object) : Bool :=
  expected.id == current.id && expected.path == current.path &&
    expected.versionID == current.versionID && sameObjectContent expected current

/-- A missing row is the reader's `ErrNotFound`. -/
def found : Option Object → Except SearchError Object
  | some obj => .ok obj
  | none => .error (.outside [.repositoryNotFound])

def currentCanonicalObject (ctx : Context ω) (repo : Port (Reader ω)) (tenant : String)
    (expected : Object) : M ω Unit := do
  checkContext ctx
  match repo with
  | .present reader =>
    let current ← readRows ctx reader .currentObject fun r =>
      found (getObject r.objects ⟨defaultTenant tenant, expected.path.bucket, expected.path.key⟩)
    Attempt.ofExcept (validateCanonicalObject tenant expected.id current)
    Attempt.ofExcept
      (refuseIf (sameObjectObservation expected current = false) (.canonical (.notObserved expected.id)))
  | _ => throw (.canonical .noRepository)

abbrev ChunkMap := AList fun _ : Int => Chunk

def completeFrom (tenant : String) (obj : Object) (chunks : ChunkMap) :
    List Chunk → Except SearchError ChunkMap
  | [] => .ok chunks
  | chunk :: rest => do
    refuseIf (chunk.id ≤ 0 ∨ chunk.seq < 0 ∨ chunk.objectID ≠ obj.id ∨ chunk.tenantID ≠ tenant ∨
      chunk.bucket ≠ obj.path.bucket ∨ chunk.objectKey ≠ obj.path.key)
      (.canonical (.incompleteChunkScope obj.id))
    refuseIf (chunk.id ∈ chunks) (.canonical (.duplicateRow obj.id chunk.id))
    completeFrom tenant obj (chunks.insert chunk.id chunk) rest

/-- `completeCanonicalChunks`. -/
def completeCanonicalChunks (tenant : String) (obj : Object) (rows : List Chunk) :
    Except SearchError ChunkMap := completeFrom tenant obj ∅ rows

structure CanonicalObject where
  object : Object
  chunks : ChunkMap

/-- The objects that a resolver has read. -/
abbrev Resolver := AList fun _ : Int => CanonicalObject

/-- The parties that `canonicalizeHits` talks to. -/
structure Readers (ω : Type) where
  repo : Port (Reader ω)
  resources : Port (Reader ω)

/-- `canonicalResolver.object`, for one that was not read before. -/
def readObject (ctx : Context ω) (readers : Readers ω) (reader : Reader ω) (tenant : String)
    (objectID : Int) : M ω CanonicalObject := do
  checkContext ctx
  let obj ← readRows ctx reader (.object objectID) fun r =>
    found (r.objects.rows.find? fun o => (o.id : Int) == objectID)
  Attempt.ofExcept (validateCanonicalObject tenant objectID obj)
  currentCanonicalObject ctx readers.repo tenant obj
  let rows ← readRows ctx reader (.chunks objectID) fun r => .ok (listChunksForObject r.chunks objectID)
  let chunks ← Attempt.ofExcept (completeCanonicalChunks tenant obj rows)
  currentCanonicalObject ctx readers.repo tenant obj
  return ⟨obj, chunks⟩

def resolveObject (ctx : Context ω) (readers : Readers ω) (reader : Reader ω) (tenant : String)
    (resolver : Resolver) (objectID : Int) : M ω (CanonicalObject × Resolver) := do
  Attempt.ofExcept (refuseIf (objectID ≤ 0) (.canonical (.invalidObjectID objectID)))
  match resolver.lookup objectID with
  | some cached => return (cached, resolver)
  | none =>
    let value ← readObject ctx readers reader tenant objectID
    return (value, resolver.insert objectID value)

def matchHitToCanonical (tenant : String) (hit : Hit) (objTenant objBucket objKey : String)
    (chunk : Chunk) : Except SearchError Unit := do
  refuseIf (objTenant ≠ tenant ∨ objBucket ≠ hit.bucket ∨ objKey ≠ hit.objectKey)
    (.canonical (.scopeMismatch hit.chunkID))
  refuseIf (chunk.objectID ≠ hit.objectID ∨ chunk.bucket ≠ hit.bucket ∨
    chunk.objectKey ≠ hit.objectKey ∨ chunk.seq ≠ hit.seq ∨ chunk.content ≠ hit.chunk ∨
    chunk.embedModel ≠ hit.embedModel) (.canonical (.payloadMismatch hit.chunkID))

def chunkOf (object : CanonicalObject) (hit : Hit) : Except SearchError Chunk :=
  match object.chunks.lookup hit.chunkID with
  | some chunk => .ok chunk
  | none => .error (.canonical (.notPartOf hit.chunkID hit.objectID))

/-- `canonicalResolver.resolve`. -/
def resolve (ctx : Context ω) (readers : Readers ω) (reader : Reader ω) (tenant : String)
    (resolver : Resolver) (hit : Hit) : M ω (Chunk × Resolver) := do
  let (object, resolver) ← resolveObject ctx readers reader tenant resolver hit.objectID
  let chunk ← Attempt.ofExcept (chunkOf object hit)
  let path := object.object.path
  Attempt.ofExcept (matchHitToCanonical tenant hit path.tenantID path.bucket path.key chunk)
  return (chunk, resolver)

/-- The loop of `canonicalizeHits`: the chunk of each hit, by its identifier. -/
def canonicalizeFrom (ctx : Context ω) (readers : Readers ω) (reader : Reader ω) (req : Request)
    (resolver : Resolver) (chunks : ChunkMap) : List Hit → M ω ChunkMap
  | [] => return chunks
  | hit :: rest => do
    Attempt.ofExcept (validateHitShape req hit)
    let (chunk, resolver) ← resolve ctx readers reader req.tenant resolver hit
    Attempt.ofExcept (refuseIf (hit.chunkID ∈ chunks) (.canonical (.duplicateChunk hit.chunkID)))
    canonicalizeFrom ctx readers reader req resolver (chunks.insert hit.chunkID chunk) rest

structure CanonicalResult where
  hits : List Hit
  chunks : ChunkMap

def canonicalizeHits (ctx : Context ω) (readers : Readers ω) (req : Request) (hits : List Hit) :
    M ω CanonicalResult := do
  checkContext ctx
  match readers.resources with
  | .present reader =>
    let chunks ← canonicalizeFrom ctx readers reader req ∅ ∅ hits
    return ⟨hits, chunks⟩
  | _ => throw (.canonical .noResourceReader)

/-! ### What the reads establish -/

section Reads
variable {ctx : Context ω} {w w' : World ω}

@[simp] theorem returns_askOutside {f : ω → Option SearchError × ω} {e : Option SearchError} :
    Returns (askOutside f) w e w' ↔ e = (f w.hidden).1 ∧ w' = {w with hidden := (f w.hidden).2} := by
  show ((.ok (f w.hidden).1 : Except SearchError (Option SearchError)), _) = (.ok e, w') ↔ _
  simp [eq_comm]

theorem allowed_checkContext {u : Unit} (h : Returns (checkContext ctx) w u w') : w'.allowed = w.allowed := by
  simp only [checkContext, returns_bind, returns_ofExcept] at h
  obtain ⟨_, v, ⟨-, rfl⟩, -, rfl⟩ := h
  rfl

theorem lookupResult_ok {α : Type} {what : Lookup} {cancelled fault : Option SearchError}
    {rows : Except SearchError α} {a : α} (h : lookupResult what cancelled fault rows = .ok a) :
    rows = .ok a := by
  cases fault with
  | some e => cases h
  | none =>
    cases rows with
    | error e => cases h
    | ok b =>
      cases cancelled with
      | some e => cases h
      | none => exact h

theorem returns_readRows {α : Type} {reader : Reader ω} {what : Lookup}
    {rows : Repo → Except SearchError α} {a : α} (h : Returns (readRows ctx reader what rows) w a w') :
    rows reader.repo = .ok a ∧ w'.allowed = w.allowed := by
  simp only [readRows, returns_bind, returns_ofExcept] at h
  obtain ⟨_, v, ⟨-, rfl⟩, _, v', ⟨-, rfl⟩, hrw, rfl⟩ := h
  exact ⟨lookupResult_ok hrw, rfl⟩

theorem found_ok {row : Option Object} {o : Object} (h : found row = .ok o) : row = some o := by
  cases row with
  | none => cases h
  | some a => exact congrArg some (Except.ok.inj h)

end Reads

variable {objectID : Int} {u : Unit}

theorem validateChunkRef_ok {tenant bucket key : String}
    (h : validateChunkRef tenant bucket key objectID = .ok u) : tenant ≠ "" := by
  simp only [validateChunkRef, bind_eq_ok, refuseIf_ok] at h
  obtain ⟨_, hsc, -⟩ := h
  exact fun hem => hsc (.inl hem)

/-- The object is the live row of its key, and the chunks are rows stored for it. -/
structure IsCurrent (r : Repo) (tenant : String) (v : CanonicalObject) : Prop where
  live : getObject r.objects ⟨tenant, v.object.path.bucket, v.object.path.key⟩ = some v.object
  chunks : ∀ id c, v.chunks.lookup id = some c → c ∈ r.chunks ∧ c.id = id ∧
    c.objectID = v.object.id ∧ c.tenantID = tenant

variable {r : Repo} {tenant : String} {ctx : Context ω} {readers : Readers ω} {reader : Reader ω}
  {w w' : World ω} {req : Request}

/-- The repository and the canonical resources are readers of the same tables. -/
def ReadsSame (readers : Readers ω) (reader : Reader ω) : Prop :=
  ∃ current, readers.repo = .present current ∧ current.repo = reader.repo

theorem returns_currentCanonicalObject {expected : Object} (hrp : ReadsSame readers reader)
    (hexp : expected ∈ reader.repo.objects.rows)
    (h : Returns (currentCanonicalObject ctx readers.repo tenant expected) w u w') :
    getObject reader.repo.objects ⟨tenant, expected.path.bucket, expected.path.key⟩ = some expected ∧
      w'.allowed = w.allowed := by
  obtain ⟨same, hsame, ht⟩ := hrp
  simp only [currentCanonicalObject, hsame, returns_bind, returns_ofExcept] at h
  obtain ⟨_, v, hctx, current, v', hrd, _, _, ⟨hv, rfl⟩, -, rfl⟩ := h
  obtain ⟨hfound, hqt⟩ := returns_readRows hrd
  rw [ht] at hfound
  have hg := found_ok hfound
  simp only [validateCanonicalObject, bind_eq_ok, refuseIf_ok, wrapped_ok_iff] at hv
  obtain ⟨_, hid, _, htn, _, href, -⟩ := hv
  have hsame : current = expected := by
    refine eq_of_id (getObject_some hg).1 hexp ?_
    have hint : (current.id : Int) = expected.id := by
      by_contra hne
      exact hid (.inl hne)
    exact_mod_cast hint
  have hd : defaultTenant tenant = tenant := by
    have hne := validateChunkRef_ok href
    rw [not_not.mp htn] at hne
    simp [defaultTenant, hne]
  rw [hsame, hd] at hg
  exact ⟨hg, hqt.trans (allowed_checkContext hctx)⟩

variable {chunks : ChunkMap}

theorem completeFrom_ok {obj : Object} {rows : List Chunk} {m : ChunkMap}
    (h : completeFrom tenant obj chunks rows = .ok m) {id : Int} {c : Chunk} (hc : m.lookup id = some c) :
    chunks.lookup id = some c ∨ c ∈ rows ∧ c.id = id ∧ c.objectID = obj.id ∧ c.tenantID = tenant := by
  induction rows generalizing chunks with
  | nil =>
    cases h
    exact .inl hc
  | cons chunk rest ih =>
    simp only [completeFrom, bind_eq_ok, refuseIf_ok, not_or] at h
    obtain ⟨_, ⟨-, -, hobject, ht, -⟩, _, -, hrs⟩ := h
    obtain hbf | ⟨hm, hf⟩ := ih hrs
    · by_cases hid : id = chunk.id
      · rw [hid, AList.lookup_insert] at hbf
        cases hbf
        exact .inr ⟨mem_cons_self, hid.symm, not_not.mp hobject, not_not.mp ht⟩
      · rw [AList.lookup_insert_ne hid] at hbf
        exact .inl hbf
    · exact .inr ⟨mem_cons_of_mem _ hm, hf⟩

theorem returns_readObject {v : CanonicalObject} (hrp : ReadsSame readers reader)
    (h : Returns (readObject ctx readers reader tenant objectID) w v w') :
    IsCurrent reader.repo tenant v ∧ (v.object.id : Int) = objectID ∧ w'.allowed = w.allowed := by
  simp only [readObject, returns_bind, returns_ofExcept] at h
  obtain ⟨_, w₁, hctx, obj, w₂, hrd, _, _, ⟨hv, rfl⟩, _, w₃, hcr, rows, w₄, hrw, m, _,
    ⟨hm, rfl⟩, _, w₅, hag, rfl, rfl⟩ := h
  obtain ⟨hfound, hqt⟩ := returns_readRows hrd
  obtain ⟨hl, hqt'⟩ := returns_readRows hrw
  have hmem := mem_of_find?_eq_some (found_ok hfound)
  obtain ⟨hlv, hqt₃⟩ := returns_currentCanonicalObject hrp hmem hcr
  obtain ⟨-, hqt₅⟩ := returns_currentCanonicalObject hrp hmem hag
  refine ⟨⟨hlv, fun id c hc => ?_⟩, ?_, ?_⟩
  · obtain hem | ⟨hcm, hf⟩ := completeFrom_ok hm hc
    · simp at hem
    · rw [← Except.ok.inj hl] at hcm
      exact ⟨(mem_listChunksForObject.mp hcm).1, hf⟩
  · simp only [validateCanonicalObject, bind_eq_ok, refuseIf_ok] at hv
    obtain ⟨_, hid, -⟩ := hv
    by_contra hne
    exact hid (.inl hne)
  · rw [hqt₅, hqt', hqt₃, hqt, allowed_checkContext hctx]

/-- Every object that a resolver has read is current. -/
def ResolverSound (r : Repo) (tenant : String) (resolver : Resolver) : Prop :=
  ∀ id v, resolver.lookup id = some v → IsCurrent r tenant v ∧ (v.object.id : Int) = id

variable {resolver : Resolver}

theorem returns_resolveObject {resolver' : Resolver} {v : CanonicalObject}
    (hrp : ReadsSame readers reader) (hs : ResolverSound reader.repo tenant resolver)
    (h : Returns (resolveObject ctx readers reader tenant resolver objectID) w (v, resolver') w') :
    (IsCurrent reader.repo tenant v ∧ (v.object.id : Int) = objectID) ∧
      ResolverSound reader.repo tenant resolver' ∧ w'.allowed = w.allowed := by
  simp only [resolveObject, returns_bind, returns_ofExcept] at h
  obtain ⟨_, _, ⟨-, rfl⟩, h⟩ := h
  cases hl : resolver.lookup objectID with
  | some cached =>
    simp only [hl, returns_pure] at h
    obtain ⟨⟨rfl, rfl⟩, rfl⟩ := h
    exact ⟨hs objectID v hl, hs, rfl⟩
  | none =>
    simp only [hl, returns_bind, returns_pure] at h
    obtain ⟨value, _, hrd, ⟨rfl, rfl⟩, rfl⟩ := h
    obtain ⟨hcr, hid, hqt⟩ := returns_readObject hrp hrd
    refine ⟨⟨hcr, hid⟩, fun id a ha => ?_, hqt⟩
    by_cases hsame : id = objectID
    · rw [hsame, AList.lookup_insert] at ha
      cases ha
      exact ⟨hcr, hid.trans hsame.symm⟩
    · rw [AList.lookup_insert_ne hsame] at ha
      exact hs id a ha

/-- **The hit is the chunk row**, and the row is stored for the live current object of
the tenant. -/
structure IsCanonical (r : Repo) (tenant : String) (hit : Hit) (c : Chunk) : Prop where
  live : ∃ o, getObject r.objects ⟨tenant, hit.bucket, hit.objectKey⟩ = some o ∧
    (o.id : Int) = hit.objectID
  stored : c ∈ r.chunks
  tenantID : c.tenantID = tenant
  id : c.id = hit.chunkID
  objectID : c.objectID = hit.objectID
  bucket : c.bucket = hit.bucket
  objectKey : c.objectKey = hit.objectKey
  seq : c.seq = hit.seq
  content : c.content = hit.chunk
  embedModel : c.embedModel = hit.embedModel

/-- What `matchHitToCanonical` compares of the chunk. -/
structure SamePayload (hit : Hit) (c : Chunk) : Prop where
  objectID : c.objectID = hit.objectID
  bucket : c.bucket = hit.bucket
  objectKey : c.objectKey = hit.objectKey
  seq : c.seq = hit.seq
  content : c.content = hit.chunk
  embedModel : c.embedModel = hit.embedModel

variable {hit : Hit} {c : Chunk}

theorem matchHitToCanonical_ok {objTenant objBucket objKey : String}
    (h : matchHitToCanonical tenant hit objTenant objBucket objKey c = .ok u) :
    objBucket = hit.bucket ∧ objKey = hit.objectKey ∧ SamePayload hit c := by
  simp only [matchHitToCanonical, bind_eq_ok, refuseIf_ok, not_or, not_not] at h
  obtain ⟨_, ⟨-, hbc, hkey⟩, hobject, hcb, hck, hseq, hcn, hm⟩ := h
  exact ⟨hbc, hkey, hobject, hcb, hck, hseq, hcn, hm⟩

theorem chunkOf_ok {object : CanonicalObject} (h : chunkOf object hit = .ok c) :
    object.chunks.lookup hit.chunkID = some c := by
  unfold chunkOf at h
  split at h
  next chunk hch => exact hch.trans (congrArg some (Except.ok.inj h))
  · cases h

theorem returns_resolve {resolver' : Resolver}
    (hrp : ReadsSame readers reader) (hs : ResolverSound reader.repo tenant resolver)
    (h : Returns (resolve ctx readers reader tenant resolver hit) w (c, resolver') w') :
    IsCanonical reader.repo tenant hit c ∧ ResolverSound reader.repo tenant resolver' ∧
      w'.allowed = w.allowed := by
  simp only [resolve, returns_bind, returns_ofExcept, returns_pure] at h
  obtain ⟨⟨v, resolver₁⟩, w₁, hobject, chunk, _, ⟨hch, rfl⟩, _, _, ⟨hm, rfl⟩, ⟨rfl, rfl⟩, rfl⟩ := h
  obtain ⟨⟨hcr, hid⟩, hs', hqt⟩ := returns_resolveObject hrp hs hobject
  obtain ⟨hbc, hkey, hpy⟩ := matchHitToCanonical_ok hm
  obtain ⟨hst, hcid, -, ht⟩ := hcr.chunks _ _ (chunkOf_ok hch)
  have hl := hcr.live
  rw [hbc, hkey] at hl
  exact ⟨⟨⟨v.object, hl, hid⟩, hst, ht, hcid, hpy.objectID, hpy.bucket,
    hpy.objectKey, hpy.seq, hpy.content, hpy.embedModel⟩, hs', hqt⟩

/-! ### Snapshots -/

theorem validateHitShape_ok (h : validateHitShape req hit = .ok u) :
    req.bucket ≠ "" → hit.bucket = req.bucket := by
  simp only [validateHitShape, bind_eq_ok, refuseIf_ok] at h
  obtain ⟨_, -, _, hbc, -⟩ := h
  intro hnamed
  by_contra hne
  exact hbc ⟨hnamed, hne⟩

/-- Hits that were found canonical, with the chunk of each. -/
structure Snapshot (r : Repo) (req : Request) (hits : List Hit) (chunks : ChunkMap) : Prop where
  nodup : (hits.map Hit.chunkID).Nodup
  bucket : ∀ hit ∈ hits, req.bucket ≠ "" → hit.bucket = req.bucket
  canonical : ∀ hit ∈ hits, ∃ c, chunks.lookup hit.chunkID = some c ∧ IsCanonical r req.tenant hit c
  arises : ∀ id c, chunks.lookup id = some c → ∃ hit ∈ hits, hit.chunkID = id

theorem Snapshot.nil : Snapshot r req [] ∅ where
  nodup := nodup_nil
  bucket := nofun
  canonical := nofun
  arises id c h := by simp at h

variable {hits : List Hit}

theorem Snapshot.snoc (h : Snapshot r req hits chunks) (hbc : req.bucket ≠ "" → hit.bucket = req.bucket)
    (hcan : IsCanonical r req.tenant hit c) (hnew : hit.chunkID ∉ chunks) :
    Snapshot r req (hits ++ [hit]) (chunks.insert hit.chunkID c) := by
  have hf : ∀ other ∈ hits, other.chunkID ≠ hit.chunkID := by
    intro other hother heq
    obtain ⟨c', hc', -⟩ := h.canonical other hother
    refine hnew (AList.lookup_isSome.mp ?_)
    rw [← heq, hc']
    rfl
  refine ⟨?_, fun other hother => ?_, fun other hother => ?_, fun id c' hc' => ?_⟩
  · rw [map_append, map_singleton]
    refine nodup_append.mpr ⟨h.nodup, nodup_singleton _, fun a ha b hb => ?_⟩
    obtain ⟨other, hother, rfl⟩ := mem_map.mp ha
    rw [mem_singleton.mp hb]
    exact hf other hother
  · obtain hother | hother := mem_append.mp hother
    · exact h.bucket other hother
    · rw [mem_singleton.mp hother]
      exact hbc
  · obtain hother | hother := mem_append.mp hother
    · rw [AList.lookup_insert_ne (hf other hother)]
      exact h.canonical other hother
    · rw [mem_singleton.mp hother]
      exact ⟨c, AList.lookup_insert _, hcan⟩
  · by_cases hid : id = hit.chunkID
    · exact ⟨hit, by simp, hid.symm⟩
    · rw [AList.lookup_insert_ne hid] at hc'
      obtain ⟨other, hother, heq⟩ := h.arises id c' hc'
      exact ⟨other, mem_append_left _ hother, heq⟩

theorem returns_canonicalizeFrom {seen : List Hit} {m : ChunkMap}
    (hrp : ReadsSame readers reader) (hs : ResolverSound reader.repo req.tenant resolver)
    (hsn : Snapshot reader.repo req seen chunks)
    (h : Returns (canonicalizeFrom ctx readers reader req resolver chunks hits) w m w') :
    Snapshot reader.repo req (seen ++ hits) m ∧ w'.allowed = w.allowed := by
  -- The invariant: the hits seen so far are a snapshot, and the resolver's objects are current.
  induction hits generalizing resolver seen chunks w with
  | nil =>
    obtain ⟨rfl, rfl⟩ := h
    rw [append_nil]
    exact ⟨hsn, rfl⟩
  | cons hit rest ih =>
    simp only [canonicalizeFrom, returns_bind, returns_ofExcept, refuseIf_ok] at h
    obtain ⟨_, _, ⟨hsh, rfl⟩, ⟨c, resolver'⟩, w₁, hrs, _, _, ⟨hnew, rfl⟩, hrest⟩ := h
    obtain ⟨hcn, hs', hqt⟩ := returns_resolve hrp hs hrs
    obtain ⟨hall, hqt'⟩ := ih hs' (hsn.snoc (validateHitShape_ok hsh) hcn hnew) hrest
    rw [append_assoc] at hall
    exact ⟨hall, hqt'.trans hqt⟩

/-- **What `canonicalizeHits` returns is a snapshot of its input.** -/
theorem returns_canonicalizeHits {result : CanonicalResult}
    (hrp : ReadsSame readers reader) (hrs : readers.resources = .present reader)
    (h : Returns (canonicalizeHits ctx readers req hits) w result w') :
    result.hits = hits ∧ Snapshot reader.repo req hits result.chunks ∧ w'.allowed = w.allowed := by
  simp only [canonicalizeHits, hrs, returns_bind] at h
  obtain ⟨_, w₁, hctx, m, w₂, hf, rfl, rfl⟩ := h
  have hem : ResolverSound reader.repo req.tenant ∅ := fun id v hv => by simp at hv
  obtain ⟨hall, hqt⟩ := returns_canonicalizeFrom hrp hem Snapshot.nil hf
  exact ⟨rfl, hall, hqt.trans (allowed_checkContext hctx)⟩

end AeroVault.Ai
