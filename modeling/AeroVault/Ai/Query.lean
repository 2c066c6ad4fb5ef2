import AeroVault.Ai.Canonical

/-! Search queries.

The retrieval backends, the result cache, the reranker, the boundary and the
authorizer are outside parties: they answer from a hidden state, whatever they like.
Their candidates go through `admitHits`, which proves each hit canonical and asks the
authorizer for its object, and after a reranking they go through it again.

`query_delivers` says what a configured search returns against all of them: canonical
hits of objects that `CanReadObject` has allowed in this call, none twice. -/
namespace AeroVault.Ai
open Lib Lib.Attempt Repository Service List

/-! ### The parties of a search -/

structure SearchHit where
  chunk : Chunk
  score : Float32

structure Ranked where
  chunkID : Int
  score : Float32
  chunk : Chunk

structure Embedder (ω : Type) where
  name : String
  embed : List String → ω → Except SearchError (List Embedding) × ω

/-- A hit of the in-process index, with its document. -/
structure BM25Hit where
  chunkID : Int
  score : Float
  objectID : Int
  tenant : String
  bucket : String
  objectKey : String
  seq : Int
  content : String
  embedModel : String

structure ResultCache (ω : Type) where
  get : String → ω → Option (List Hit) × ω
  put : String → List Hit → ω → ω

/-- The shared boundary behind a search's. -/
structure BoundaryCore (ω : Type) where
  checkBucket : String → String → ω → Option SearchError × ω
  /-- `CheckCoverage` of the tenant. -/
  checkCoverage : String → ω → Option SearchError × ω

structure Boundary (ω : Type) where
  core : Option (BoundaryCore ω)
  /-- The boundary was made from readers, and whether they are nil. -/
  readers : Bool
  bindingNil : Bool
  coverageNil : Bool

structure Search (ω : Type) extends Readers ω where
  embedder : Port (Embedder ω)
  bm25 : Option (String → String → String → Int → ω → List BM25Hit × ω)
  rerank : Port (String → List Hit → Int → ω → Except SearchError (List Hit) × ω)
  vindex : Port (String → String → Embedding → Int → ω → Except SearchError (List SearchHit) × ω)
  lexical : Port (String → String → String → Int → ω → Except SearchError (List SearchHit) × ω)
  results : Option (ResultCache ω)
  hitAuth : Port (String → String → String → ω → Option SearchError × ω)
  hitAuthConfigured : Bool
  boundary : Option (Boundary ω)
  canonical : Bool
  /-- `RecordUsage`, whose errors are only logged. -/
  recordUsage : Request → List Hit → ω → ω

variable {ω : Type}

/-! ### Validation and boundaries -/

def Search.bm25Available (s : Search ω) : Bool := s.bm25.isSome || !s.lexical.isAbsent

def Search.embedderAvailable (s : Search ω) : Bool := !s.embedder.nilLike

def validateMode (s : Search ω) (mode : String) : Except SearchError Unit :=
  if mode = "vector" then refuseIf (s.embedderAvailable = false) .noEmbedder
  else if mode = "bm25" then refuseIf (s.bm25Available = false) .noBM25
  else if mode = "hybrid" then do
    refuseIf (s.embedderAvailable = false) .noEmbedder
    refuseIf (s.bm25Available = false) .noBM25
  else .error (.invalidMode mode)

/-- `Request.validate`: the request with its defaults filled in. -/
def validate (s : Search ω) (req : Request) : Except SearchError Request := do
  refuseIf (req.query = "") .queryRequired
  let mode := if req.mode = "" then "vector" else req.mode
  validateMode s mode
  return {req with
    k := if req.k ≤ 0 ∨ req.k > 100 then 10 else req.k
    caller := if req.caller = "" then "rest:search" else req.caller
    mode := mode}

def Boundary.configuredError (b : Boundary ω) : Except SearchError Unit := do
  refuseIf (b.core.isNone = true) (.boundaryFault "missing search resource boundary")
  refuseIf (b.readers = true ∧ (b.bindingNil = true ∨ b.coverageNil = true))
    (.boundaryFault "missing search boundary reader")

/-- A typed nil is a backend that was set and cannot be called. -/
def Port.isTypedNil {α : Type} : Port α → Bool
  | .typedNil => true
  | .absent | .present _ => false

def configuredResourceError (s : Search ω) : Except SearchError Unit := do
  refuseIf (s.canonical = true ∧ (s.resources.nilLike = true ∨ s.repo.nilLike = true))
    (.boundaryFault "missing canonical resource reader")
  match s.boundary with
  | some b => b.configuredError
  | none => .ok ()
  refuseIf (s.hitAuthConfigured = true ∧ s.hitAuth.nilLike = true)
    (.boundaryFault "missing hit authorizer")
  refuseIf (s.rerank.isTypedNil = true ∨ s.vindex.isTypedNil = true ∨ s.lexical.isTypedNil = true)
    (.boundaryFault "typed-nil search backend")

/-- `SearchResourceBoundary.check`. -/
def Boundary.check (b : Boundary ω) (tenant bucket : String) (hidden : ω) : Option SearchError × ω :=
  match b.core with
  | none => (some (.boundaryFault "missing search resource boundary"), hidden)
  | some core =>
    if bucket ≠ "" then core.checkBucket tenant bucket hidden else core.checkCoverage tenant hidden

section Search
variable (s : Search ω) (ctx : Context ω) (req : Request)

def boundaryP1 : M ω Unit := do
  checkContext ctx
  match s.boundary with
  | none => return
  | some b =>
    let err ← askOutside (b.check req.tenant req.bucket)
    Attempt.ofExcept (failWith err)

def boundaryP0 : M ω Unit := do
  checkContext ctx
  Attempt.ofExcept (configuredResourceError s)
  match s.boundary with
  | none => return
  | some b =>
    let err ← askOutside (b.check req.tenant req.bucket)
    Attempt.ofExcept (failWith err)

/-! ### Retrieval -/

def securityResourceError (e : SearchError) : Bool :=
  e.is .resourceBoundaryFault || e.is .canonicalHit || e.is .spaceBound || e.is .tenantUnavailable ||
    e.is .tenantDisabled

def matchesEmbedModel (current chunk : String) : Bool := current == "" || chunk == current

def toRanked (hits : List SearchHit) (queryModel : String) : List Ranked :=
  (hits.filter fun h => matchesEmbedModel queryModel h.chunk.embedModel).map fun h =>
    ⟨h.chunk.id, h.score, h.chunk⟩

/-- A party that is called although it is nil; the source panics there. -/
def calledNil : SearchError := .boundaryFault "nil party called"

def searchVector : M ω (List Ranked) := do
  checkContext ctx
  match s.embedder, s.vindex with
  | .present embedder, .present vindex =>
    let vecs ← wrapError .embedQuery (fetch (embedder.embed [req.query]))
    match vecs with
    | [] => throw .noVectors
    | vec :: _ =>
      checkContext ctx
      let hits ← wrapError .searchChunks
        (fetch (vindex req.tenant req.bucket vec (min (req.k * 2) 100)))
      return toRanked hits embedder.name
  | _, _ => throw calledNil

def BM25Hit.toRanked (h : BM25Hit) : Ranked where
  chunkID := h.chunkID
  score := h.score.toFloat32
  chunk := {
    id := h.chunkID, objectID := h.objectID, tenantID := h.tenant, bucket := h.bucket
    objectKey := h.objectKey, seq := h.seq, content := h.content, embedding := [], dim := 0
    embedModel := h.embedModel }

def queryModel (s : Search ω) : String :=
  match s.embedder with
  | .present embedder => embedder.name
  | _ => ""

def searchLexical : M ω (List Ranked) := do
  checkContext ctx
  match s.lexical, s.bm25 with
  | .present lexical, _ =>
    let hits ← wrapError .lexicalSearch
      (fetch (lexical req.tenant req.bucket req.query (req.k * 2)))
    return toRanked hits (queryModel s)
  | .absent, some bm25 =>
    let raw ← fetch fun hidden =>
      let answer := bm25 req.tenant req.query req.bucket (req.k * 2) hidden
      (.ok answer.1, answer.2)
    return (raw.filter fun h => matchesEmbedModel (queryModel s) h.embedModel).map BM25Hit.toRanked
  | _, _ => throw calledNil

/-- One list of `rrfMerge`: the weight of the rank is added, and the chunk is the last
one seen in the vector list or, failing that, the first one of the lexical list. -/
def rrfAdd (replace : Bool) (acc : AList fun _ : Int => Float × Chunk) (rank : Nat) :
    List Ranked → AList fun _ : Int => Float × Chunk
  | [] => acc
  | h :: rest =>
    let weight := 1.0 / (60.0 + (rank + 1).toFloat)
    let entry := match acc.lookup h.chunkID with
      | some (score, chunk) => (score + weight, if replace then h.chunk else chunk)
      | none => (weight, h.chunk)
    rrfAdd replace (acc.insert h.chunkID entry) (rank + 1) rest

/-- Ahead in the merged ranking: a higher score, then a smaller identifier. -/
def Ranked.ahead (a b : Ranked) : Bool :=
  decide (b.score < a.score) || (a.score == b.score && decide (a.chunkID < b.chunkID))

def rrfMerge (vecHits bm25Hits : List Ranked) : List Ranked :=
  let acc := rrfAdd false (rrfAdd true ∅ 0 vecHits) 0 bm25Hits
  let merged := acc.entries.map fun e => Ranked.mk e.1 e.2.1.toFloat32 e.2.2
  merged.insertionSort fun a b => b.ahead a = false

def trimToOverK (merged : List Ranked) (overK : Int) : List Ranked :=
  if overK ≤ 0 ∨ (merged.length : Int) ≤ overK then merged else merged.take overK.toNat

def hitOfRanked (h : Ranked) : Hit :=
  ⟨h.score, h.chunk.content, h.chunkID, h.chunk.objectID, h.chunk.bucket, h.chunk.objectKey, h.chunk.seq,
    h.chunk.embedModel⟩

def hitsFromRanked (merged : List Ranked) : List Hit := merged.map hitOfRanked

def validateRankedScope (req : Request) : List Ranked → Except SearchError Unit
  | [] => .ok ()
  | hit :: rest => do
    refuseIf (hit.chunkID ≤ 0 ∨ hit.chunk.id ≠ hit.chunkID)
      (.canonical (.chunkIdentity hit.chunkID hit.chunk.id))
    refuseIf (hit.chunk.objectID ≤ 0) (.canonical (.objectIdentity hit.chunk.objectID))
    refuseIf (hit.chunk.tenantID ≠ req.tenant) (.canonical (.crossTenant hit.chunkID))
    validateHitShape req (hitOfRanked hit)
    validateRankedScope req rest

def validateRetrieved : List (List Ranked) → M ω Unit
  | [] => return
  | hits :: rest => do
    Attempt.ofExcept (validateRankedScope req hits)
    if s.canonical then
      let _ ← canonicalizeHits ctx s.toReaders req (hitsFromRanked hits)
    validateRetrieved rest

/-- The error of a result, and its value or nil. -/
def errorOf {α : Type} : Except SearchError α → Option SearchError
  | .error e => some e
  | .ok _ => none

def hitsOf : Except SearchError (List Ranked) → List Ranked
  | .ok hits => hits
  | .error _ => []

/-- A hybrid search goes on with the half that did not fail. -/
def mergeHybrid (vec lex : Except SearchError (List Ranked)) : Except SearchError (List Ranked) :=
  match vec, lex with
  | .error e, .error _ => .error e
  | .error _, .ok bm25Hits => .ok bm25Hits
  | .ok vecHits, .error _ => .ok vecHits
  | .ok vecHits, .ok bm25Hits => .ok (rrfMerge vecHits bm25Hits)

def retrievalSecurityError (vec lex : Except SearchError (List Ranked)) : Option SearchError :=
  ([errorOf vec, errorOf lex].filterMap id).find? securityResourceError

def mergeRetrieved (vec lex : Except SearchError (List Ranked)) : M ω (List Ranked) := do
  Attempt.ofExcept (failWith (retrievalSecurityError vec lex))
  let cancelled ← askOutside ctx
  Attempt.ofExcept (match cancelled with
    | none => .ok ()
    | some e => .error (((errorOf vec).or (errorOf lex)).getD e))
  validateRetrieved s ctx req [hitsOf vec, hitsOf lex]
  let merged ← Attempt.ofExcept (
    if req.mode = "vector" then vec
    else if req.mode = "bm25" then lex
    else if req.mode = "hybrid" then mergeHybrid vec lex
    else .ok [])
  return trimToOverK merged (req.k * 3)

def searchAndMerge : M ω (List Ranked) := do
  let vec ← if req.mode = "vector" ∨ req.mode = "hybrid" then observe (searchVector s ctx req)
    else pure (.ok [])
  Attempt.ofExcept (failWith ((errorOf vec).filter securityResourceError))
  let lex ← if req.mode = "bm25" ∨ req.mode = "hybrid" then observe (searchLexical s ctx req)
    else pure (.ok [])
  mergeRetrieved s ctx req vec lex

/-! ### Admission -/

def ordinaryHitDenial (e : SearchError) : Bool :=
  if securityResourceError e || e.is .canceled || e.is .deadlineExceeded then false
  else e.is .denied || e.is .forbidden || e.is .serviceNotFound || e.is .repositoryNotFound

/-- `CanReadObject`; what it allows is remembered. -/
def canReadObject (auth : String → String → String → ω → Option SearchError × ω)
    (tenant bucket key : String) : M ω (Option SearchError) :=
  call fun w =>
    let answer := auth tenant bucket key w.hidden
    match answer.1 with
    | none => (.ok none, ⟨answer.2, ⟨tenant, bucket, key⟩ :: w.allowed⟩)
    | some e => (.ok (some e), ⟨answer.2, w.allowed⟩)

/-- The loop of `filterAuthorizedHits`. -/
def filterFrom (ctx : Context ω) (auth : String → String → String → ω → Option SearchError × ω)
    (tenant : String) : List Hit → M ω (List Hit)
  | [] => return []
  | hit :: rest => do
    checkContext ctx
    let err ← canReadObject auth tenant hit.bucket hit.objectKey
    let cancelled ← askOutside ctx
    match err, cancelled with
    | some e, some c => throw (.joined e c)
    | none, some c => throw c
    | none, none =>
      let kept ← filterFrom ctx auth tenant rest
      return hit :: kept
    | some e, none => if ordinaryHitDenial e then filterFrom ctx auth tenant rest else throw e

def filterAuthorizedHits (hits : List Hit) : M ω (List Hit) := do
  checkContext ctx
  match s.hitAuth with
  | .absent => return hits
  | .typedNil => throw calledNil
  | .present auth => filterFrom ctx auth req.tenant hits

def validateShapes (req : Request) : List Hit → Except SearchError Unit
  | [] => .ok ()
  | hit :: rest => do
    validateHitShape req hit
    validateShapes req rest

/-- The admitted hits, and whether any was left out. -/
def admitHits (hits : List Hit) : M ω (List Hit × Bool) := do
  if s.canonical then
    let snapshot ← canonicalizeHits ctx s.toReaders req hits
    let filtered ← filterAuthorizedHits s ctx req snapshot.hits
    if !s.hitAuth.isAbsent then
      let _ ← canonicalizeHits ctx s.toReaders req filtered
    return (filtered, filtered.length != hits.length)
  else
    Attempt.ofExcept (validateShapes req hits)
    checkContext ctx
    return (hits, false)

/-! ### Reranking and delivery -/

def trimHits (hits : List Hit) (k : Int) : List Hit :=
  if k > 0 ∧ (hits.length : Int) > k then hits.take k.toNat else hits

def retainAdmittedHits (reranked admitted : List Hit) : List Hit :=
  reranked.filter fun hit => admitted.any fun a => a.chunkID == hit.chunkID

def snapshotChunk (chunks : ChunkMap) (hit : Hit) : Except SearchError Chunk :=
  match chunks.lookup hit.chunkID with
  | some chunk => .ok chunk
  | none => .error (.canonical (.injected hit.chunkID))

/-- The loop of `guardReranked`. -/
def guardFrom (chunks : ChunkMap) (tenant : String) (seen : List Int) :
    List Hit → Except SearchError (List Hit)
  | [] => .ok []
  | hit :: rest => do
    let chunk ← snapshotChunk chunks hit
    refuseIf (hit.chunkID ∈ seen) (.canonical (.duplicated hit.chunkID))
    matchHitToCanonical tenant hit tenant hit.bucket hit.objectKey chunk
    let kept ← guardFrom chunks tenant (hit.chunkID :: seen) rest
    return hit :: kept

def guardReranked (input : CanonicalResult) (reranked : List Hit) (tenant : String) :
    Except SearchError (List Hit) := guardFrom input.chunks tenant [] reranked

/-- `rerankerFailure`, of the reranker's error and the context's. -/
def rerankerFailure (err cancelled : Option SearchError) : Option SearchError :=
  match err, cancelled with
  | some e, some c => some (.joined e c)
  | none, some c => some c
  | some e, none =>
    if securityResourceError e || e.is .canceled || e.is .deadlineExceeded then some e else none
  | none, none => none

def rankAdmitted (ctx : Context ω)
    (rerank : String → List Hit → Int → ω → Except SearchError (List Hit) × ω) (req : Request)
    (snapshot : CanonicalResult) : M ω (List Hit) := do
  let reranked ← observe (fetch (rerank req.query snapshot.hits req.k))
  let cancelled ← askOutside ctx
  Attempt.ofExcept (failWith (rerankerFailure (errorOf reranked) cancelled))
  Attempt.ofExcept (match reranked with
    | .error _ => .ok snapshot.hits
    | .ok hits => guardReranked snapshot hits req.tenant)

def rerankOrTrim (hits : List Hit) : M ω (List Hit) := do
  match s.rerank, hits with
  | .absent, _ => return trimHits hits req.k
  | _, [] => return trimHits hits req.k
  | .typedNil, _ => throw calledNil
  | .present rerank, _ =>
    boundaryP1 s ctx req
    let (hits, _) ← admitHits s ctx req hits
    if hits.isEmpty then return hits
    let snapshot ← canonicalizeHits ctx s.toReaders req hits
    let reranked ← rankAdmitted ctx rerank req snapshot
    let (admitted, _) ← admitHits s ctx req hits
    return trimHits (retainAdmittedHits reranked admitted) req.k

def deliverFresh (hits : List Hit) : M ω (List Hit) := do
  let (hits, _) ← admitHits s ctx req hits
  let hits ← rerankOrTrim s ctx req hits
  boundaryP1 s ctx req
  return hits

/-- `deliverCached`: cached candidates are delivered like fresh ones. -/
def deliverCached (hits : List Hit) : M ω (List Hit) := deliverFresh s ctx req hits

/-- An effect on what is outside. -/
def tell (f : ω → ω) : M ω Unit := call fun w => (.ok (), {w with hidden := f w.hidden})

def resultCacheKey (req : Request) : String :=
  "\x1f".intercalate [req.tenant, req.bucket, req.mode, toString req.k, req.query]

def queryFresh : M ω (List Hit) := do
  let merged ← searchAndMerge s ctx req
  Attempt.ofExcept (validateRankedScope req merged)
  let out := hitsFromRanked merged
  let guarded ← deliverFresh s ctx req out
  tell (s.recordUsage req guarded)
  match s.results with
  | some cache => tell (cache.put (resultCacheKey req) out)
  | none => pure ()
  return guarded

def lookupResults (s : Search ω) (req : Request) : M ω (Option (List Hit)) :=
  match s.results with
  | none => return none
  | some cache => fetch fun hidden =>
    let answer := cache.get (resultCacheKey req) hidden
    (.ok answer.1, answer.2)

def query : M ω (List Hit) := do
  checkContext ctx
  let req ← Attempt.ofExcept (validate s req)
  boundaryP0 s ctx req
  match ← lookupResults s req with
  | some cached =>
    let hits ← deliverCached s ctx req cached
    tell (s.recordUsage req hits)
    return hits
  | none => queryFresh s ctx req

end Search

/-! ### What is admitted -/

variable {s : Search ω} {ctx : Context ω} {req : Request} {reader : Reader ω} {w w' : World ω}
  {hits out : List Hit}

/-- A search with canonical resources and a hit authorizer, over one repository. -/
structure Guarded (s : Search ω) (reader : Reader ω) : Prop where
  canonical : s.canonical = true
  resources : s.resources = .present reader
  repo : ReadsSame s.toReaders reader
  hitAuth : ∃ auth, s.hitAuth = .present auth

def hitPath (tenant : String) (hit : Hit) : Path := ⟨tenant, hit.bucket, hit.objectKey⟩

/-- Hits that were found canonical and whose objects were allowed. -/
structure Admitted (r : Repo) (req : Request) (hits : List Hit) (w : World ω) : Prop where
  snapshot : ∃ chunks, Snapshot r req hits chunks
  allowed : ∀ hit ∈ hits, hitPath req.tenant hit ∈ w.allowed

theorem returns_canReadObject {auth : String → String → String → ω → Option SearchError × ω}
    {tenant bucket key : String} {err : Option SearchError}
    (h : Returns (canReadObject auth tenant bucket key) w err w') :
    w.allowed ⊆ w'.allowed ∧ (err = none → ⟨tenant, bucket, key⟩ ∈ w'.allowed) := by
  rw [canReadObject, returns_call] at h
  dsimp only at h
  split at h
  · cases h
    exact ⟨subset_cons_self _ _, fun _ => mem_cons_self⟩
  · obtain ⟨herr, rfl⟩ := Prod.mk.inj h
    cases herr
    exact ⟨.refl _, nofun⟩

theorem returns_filterFrom {auth : String → String → String → ω → Option SearchError × ω}
    {tenant : String} (h : Returns (filterFrom ctx auth tenant hits) w out w') :
    out.Sublist hits ∧ w.allowed ⊆ w'.allowed ∧ ∀ hit ∈ out, hitPath tenant hit ∈ w'.allowed := by
  induction hits generalizing w out with
  | nil =>
    obtain ⟨rfl, rfl⟩ := h
    exact ⟨.refl _, .refl _, nofun⟩
  | cons hit rest ih =>
    simp only [filterFrom, returns_bind, returns_askOutside] at h
    obtain ⟨_, w₁, hctx, err, w₂, hask, cancelled, w₃, ⟨-, rfl⟩, h⟩ := h
    obtain ⟨hgrows, hal⟩ := returns_canReadObject hask
    rw [allowed_checkContext hctx] at hgrows
    cases err with
    | none =>
      cases cancelled with
      | some c => exact absurd h returns_throw
      | none =>
        simp only [returns_bind] at h
        obtain ⟨kept, w₄, hkp, rfl, rfl⟩ := h
        obtain ⟨hsub, hm, hall⟩ := ih hkp
        refine ⟨hsub.cons_cons hit, fun p hp => hm (hgrows hp), fun other hother => ?_⟩
        obtain rfl | hother := mem_cons.mp hother
        · exact hm (hal rfl)
        · exact hall other hother
    | some e =>
      cases cancelled with
      | some c => exact absurd h returns_throw
      | none =>
        dsimp only at h
        split at h
        · obtain ⟨hsub, hm, hall⟩ := ih h
          exact ⟨hsub.cons hit, fun p hp => hm (hgrows hp), hall⟩
        · exact absurd h returns_throw

/-- **Admission**: what is let through is canonical, and was allowed just now. -/
theorem returns_admitHits (hs : Guarded s reader) {denied : Bool}
    (h : Returns (admitHits s ctx req hits) w (out, denied) w') :
    Admitted reader.repo req out w' ∧ out.Sublist hits ∧ w.allowed ⊆ w'.allowed := by
  obtain ⟨auth, hat⟩ := hs.hitAuth
  have hpr : (!s.hitAuth.isAbsent) = true := by rw [hat]; rfl
  simp only [admitHits, hs.canonical, hpr, if_true, returns_bind, returns_pure] at h
  obtain ⟨snapshot, w₁, hfr, filtered, w₂, hf, result, w₃, hsc, ⟨rfl, -⟩, rfl⟩ := h
  obtain ⟨heq, -, hqt⟩ := returns_canonicalizeHits hs.repo hs.resources hfr
  obtain ⟨-, hsn, hqt'⟩ := returns_canonicalizeHits hs.repo hs.resources hsc
  simp only [filterAuthorizedHits, hat, returns_bind] at hf
  obtain ⟨_, w₄, hctx, hf⟩ := hf
  rw [heq] at hf
  obtain ⟨hsub, hg, hall⟩ := returns_filterFrom hf
  rw [allowed_checkContext hctx, hqt] at hg
  exact ⟨⟨⟨result.chunks, hsn⟩, hqt' ▸ hall⟩, hsub, hqt' ▸ hg⟩

/-! ### What is delivered -/

/-- Canonical hits in the requested bucket whose objects were allowed, none twice. -/
structure Delivered (r : Repo) (req : Request) (hits : List Hit) (w : World ω) : Prop where
  canonical : ∀ hit ∈ hits, ∃ c, IsCanonical r req.tenant hit c
  bucket : ∀ hit ∈ hits, req.bucket ≠ "" → hit.bucket = req.bucket
  allowed : ∀ hit ∈ hits, hitPath req.tenant hit ∈ w.allowed
  nodup : (hits.map Hit.chunkID).Nodup

variable {r : Repo}

theorem Admitted.delivered (h : Admitted r req hits w) : Delivered r req hits w := by
  obtain ⟨chunks, hsn⟩ := h.snapshot
  refine ⟨fun hit hh => ?_, hsn.bucket, h.allowed, hsn.nodup⟩
  obtain ⟨c, -, hcn⟩ := hsn.canonical hit hh
  exact ⟨c, hcn⟩

theorem Delivered.sublist (h : Delivered r req hits w) (hsub : out.Sublist hits) :
    Delivered r req out w where
  canonical hit hh := h.canonical hit (hsub.subset hh)
  bucket hit hh := h.bucket hit (hsub.subset hh)
  allowed hit hh := h.allowed hit (hsub.subset hh)
  nodup := h.nodup.sublist (hsub.map _)

theorem Delivered.later (h : Delivered r req hits w) (hsame : w'.allowed = w.allowed) :
    Delivered r req hits w' where
  canonical := h.canonical
  bucket := h.bucket
  allowed hit hh := hsame ▸ h.allowed hit hh
  nodup := h.nodup

theorem trimHits_sublist (hits : List Hit) {k : Int} : (trimHits hits k).Sublist hits := by
  unfold trimHits
  split_ifs
  · exact take_sublist _ _
  · exact .refl _

/-- What a reranking may return: hits of the snapshot, with their payload, none twice. -/
structure Guards (chunks : ChunkMap) (out : List Hit) : Prop where
  payload : ∀ hit ∈ out, ∃ c, chunks.lookup hit.chunkID = some c ∧ SamePayload hit c
  nodup : (out.map Hit.chunkID).Nodup

theorem guardFrom_ok {chunks : ChunkMap} {tenant : String} {seen : List Int} {reranked : List Hit}
    (h : guardFrom chunks tenant seen reranked = .ok out) :
    Guards chunks out ∧ ∀ hit ∈ out, hit.chunkID ∉ seen := by
  induction reranked generalizing seen out with
  | nil =>
    cases h
    exact ⟨⟨nofun, nodup_nil⟩, nofun⟩
  | cons hit rest ih =>
    simp only [guardFrom, bind_eq_ok, refuseIf_ok] at h
    obtain ⟨chunk, hch, _, hnew, _, hmt, kept, hkp, ho⟩ := h
    cases ho
    obtain ⟨hg, hf⟩ := ih hkp
    have hl : chunks.lookup hit.chunkID = some chunk := by
      unfold snapshotChunk at hch
      split at hch
      next c hc => exact hc.trans (congrArg some (Except.ok.inj hch))
      · cases hch
    have hpy := (matchHitToCanonical_ok hmt).2.2
    refine ⟨⟨fun other hother => ?_, ?_⟩, fun other hother => ?_⟩
    · obtain rfl | hother := mem_cons.mp hother
      · exact ⟨chunk, hl, hpy⟩
      · exact hg.payload other hother
    · rw [map_cons, nodup_cons]
      refine ⟨fun hm => ?_, hg.nodup⟩
      obtain ⟨other, hother, heq⟩ := mem_map.mp hm
      exact hf other hother (heq ▸ mem_cons_self)
    · obtain rfl | hother := mem_cons.mp hother
      · exact hnew
      · exact fun hm => hf other hother (mem_cons_of_mem _ hm)

theorem IsCanonical.samePayload {tenant : String} {hit : Hit} {c : Chunk} (h : IsCanonical r tenant hit c) :
    SamePayload hit c := ⟨h.objectID, h.bucket, h.objectKey, h.seq, h.content, h.embedModel⟩

theorem Snapshot.guards {chunks : ChunkMap} (h : Snapshot r req hits chunks) : Guards chunks hits := by
  refine ⟨fun hit hh => ?_, h.nodup⟩
  obtain ⟨c, hl, hcn⟩ := h.canonical hit hh
  exact ⟨c, hl, hcn.samePayload⟩

/-- A hit with the identifier and the payload of a canonical chunk is canonical, at the
place of any other hit of that chunk. -/
theorem IsCanonical.transfer {tenant : String} {hit other : Hit} {c : Chunk}
    (h : IsCanonical r tenant other c) (hpy : SamePayload hit c) (hid : other.chunkID = hit.chunkID) :
    IsCanonical r tenant hit c ∧ hit.bucket = other.bucket ∧ hit.objectKey = other.objectKey := by
  have hbc : hit.bucket = other.bucket := hpy.bucket.symm.trans h.bucket
  have hkey : hit.objectKey = other.objectKey := hpy.objectKey.symm.trans h.objectKey
  have hobject : hit.objectID = other.objectID := hpy.objectID.symm.trans h.objectID
  refine ⟨⟨?_, h.stored, h.tenantID, h.id.trans hid, hpy.objectID, hpy.bucket,
    hpy.objectKey, hpy.seq, hpy.content, hpy.embedModel⟩, hbc, hkey⟩
  rw [hbc, hkey, hobject]
  exact h.live

/-- What is left of a guarded reranking once it is cut down to what was admitted again. -/
theorem retain_delivered {chunks : ChunkMap} {admitted reranked : List Hit}
    (hsn : Snapshot r req hits chunks) (hguards : Guards chunks reranked)
    (hadmitted : Admitted r req admitted w) (hsub : admitted.Sublist hits) :
    Delivered r req (retainAdmittedHits reranked admitted) w := by
  have hpl : ∀ hit ∈ retainAdmittedHits reranked admitted, ∃ other ∈ admitted, ∃ c,
      IsCanonical r req.tenant hit c ∧ hit.bucket = other.bucket ∧ hit.objectKey = other.objectKey := by
    intro hit hh
    obtain ⟨hrr, hany⟩ := mem_filter.mp hh
    obtain ⟨other, hother, hid⟩ := any_eq_true.mp hany
    have hid : other.chunkID = hit.chunkID := by simpa using hid
    obtain ⟨c, hl, hpy⟩ := hguards.payload hit hrr
    obtain ⟨c', hl', hcn⟩ := hsn.canonical other (hsub.subset hother)
    rw [hid, hl] at hl'
    cases hl'
    exact ⟨other, hother, c, hcn.transfer hpy hid⟩
  have hd := hadmitted.delivered
  refine ⟨fun hit hh => ?_, fun hit hh hnamed => ?_, fun hit hh => ?_, ?_⟩
  · obtain ⟨_, -, c, hcn, -⟩ := hpl hit hh
    exact ⟨c, hcn⟩
  · obtain ⟨other, hother, -, -, hbc, -⟩ := hpl hit hh
    rw [hbc]
    exact hd.bucket other hother hnamed
  · obtain ⟨other, hother, -, -, hbc, hkey⟩ := hpl hit hh
    have hpath : hitPath req.tenant hit = hitPath req.tenant other := by simp [hitPath, hbc, hkey]
    rw [hpath]
    exact hd.allowed other hother
  · exact hguards.nodup.sublist (filter_sublist.map _)

/-! ### Steps that ask for nothing -/

theorem allowed_boundaryP1 {u : Unit} (h : Returns (boundaryP1 s ctx req) w u w') :
    w'.allowed = w.allowed := by
  simp only [boundaryP1, returns_bind] at h
  obtain ⟨_, w₁, hctx, h⟩ := h
  rw [← allowed_checkContext hctx]
  cases hb : s.boundary with
  | none =>
    simp only [hb, returns_pure] at h
    rw [h.2]
  | some b =>
    simp only [hb, returns_bind, returns_ofExcept] at h
    obtain ⟨_, _, ⟨-, rfl⟩, -, rfl⟩ := h
    rfl

theorem allowed_tell {f : ω → ω} {u : Unit} (h : Returns (tell f) w u w') : w'.allowed = w.allowed := by
  cases h
  rfl

theorem returns_rankAdmitted {rerank : String → List Hit → Int → ω → Except SearchError (List Hit) × ω}
    {result : CanonicalResult} (hh : result.hits = hits) (hsn : Snapshot r req hits result.chunks)
    (h : Returns (rankAdmitted ctx rerank req result) w out w') :
    Guards result.chunks out ∧ w'.allowed = w.allowed := by
  simp only [rankAdmitted, returns_bind, returns_askOutside, returns_ofExcept] at h
  obtain ⟨reranked, w₁, ho, _, _, ⟨-, rfl⟩, _, _, ⟨-, rfl⟩, hout, rfl⟩ := h
  have hwr : w₁.allowed = w.allowed := by
    cases ho
    rfl
  refine ⟨?_, hwr⟩
  cases reranked with
  | error e =>
    cases hout
    rw [hh]
    exact hsn.guards
  | ok list => exact (guardFrom_ok hout).1

theorem returns_rerankOrTrim (hs : Guarded s reader) (hadmitted : Admitted reader.repo req hits w)
    (h : Returns (rerankOrTrim s ctx req hits) w out w') : Delivered reader.repo req out w' := by
  have ht : ∀ {v : World ω}, Returns (pure (trimHits hits req.k) : M ω (List Hit)) w out v →
      Delivered reader.repo req out v := by
    intro v hpr
    obtain ⟨rfl, rfl⟩ := returns_pure.mp hpr
    exact hadmitted.delivered.sublist (trimHits_sublist hits)
  unfold rerankOrTrim at h
  split at h
  · exact ht h
  · exact ht h
  · exact absurd h returns_throw
  next rerank _ =>
    simp only [returns_bind] at h
    obtain ⟨_, w₁, hbn, ⟨again, denied⟩, w₂, hag, h⟩ := h
    obtain ⟨hadmitted₂, -, -⟩ := returns_admitHits hs hag
    split at h
    · obtain ⟨rfl, rfl⟩ := returns_pure.mp h
      exact hadmitted₂.delivered
    · simp only [returns_bind] at h
      obtain ⟨result, w₃, hcn, reranked, w₄, hrn, ⟨admitted, denied'⟩, w₅, hl, rfl, rfl⟩ := h
      obtain ⟨hh, hsn, -⟩ := returns_canonicalizeHits hs.repo hs.resources hcn
      obtain ⟨hg, -⟩ := returns_rankAdmitted hh hsn hrn
      obtain ⟨hadmitted₃, hsub, -⟩ := returns_admitHits hs hl
      have hd := retain_delivered hsn hg hadmitted₃ hsub
      exact hd.sublist (trimHits_sublist _)

/-- Whatever the candidates are, fresh or cached. -/
theorem returns_deliverFresh (hs : Guarded s reader)
    (h : Returns (deliverFresh s ctx req hits) w out w') : Delivered reader.repo req out w' := by
  simp only [deliverFresh, returns_bind, returns_pure] at h
  obtain ⟨⟨admitted, denied⟩, w₁, hadm, list, w₂, hrr, _, w₃, hbn, rfl, rfl⟩ := h
  obtain ⟨hadmitted, -, -⟩ := returns_admitHits hs hadm
  have hd := returns_rerankOrTrim hs hadmitted hrr
  exact hd.later (allowed_boundaryP1 hbn)

theorem returns_queryFresh (hs : Guarded s reader)
    (h : Returns (queryFresh s ctx req) w out w') : Delivered reader.repo req out w' := by
  simp only [queryFresh, returns_bind, returns_ofExcept] at h
  obtain ⟨merged, w₁, -, _, _, ⟨-, rfl⟩, guarded, w₂, hdl, _, w₃, hus, h⟩ := h
  have hd := (returns_deliverFresh hs hdl).later (allowed_tell hus)
  cases hrs : s.results with
  | none =>
    simp only [hrs] at h
    obtain ⟨rfl, rfl⟩ := h
    exact hd
  | some cache =>
    simp only [hrs, returns_bind] at h
    obtain ⟨_, w₄, hput, rfl, rfl⟩ := h
    exact hd.later (allowed_tell hput)

theorem validate_ok {req' : Request} (h : validate s req = .ok req') :
    req'.tenant = req.tenant ∧ req'.bucket = req.bucket := by
  simp only [validate, bind_eq_ok] at h
  obtain ⟨_, -, _, -, hreq⟩ := h
  cases hreq
  exact ⟨rfl, rfl⟩

theorem Delivered.congr {req' : Request} (h : Delivered r req' hits w)
    (hreq : req'.tenant = req.tenant ∧ req'.bucket = req.bucket) : Delivered r req hits w := by
  obtain ⟨ht, hbc⟩ := hreq
  refine ⟨?_, ?_, ?_, h.nodup⟩
  · rw [← ht]
    exact h.canonical
  · rw [← hbc]
    exact h.bucket
  · rw [← ht]
    exact h.allowed

/-- **A search with canonical resources and a hit authorizer returns only canonical hits
of the tenant, in the requested bucket, whose objects `CanReadObject` allowed in this call,
and none twice**: whatever the backends, the cache and the reranker answer. -/
theorem query_delivers (s : Search ω) (reader : Reader ω) (hs : Guarded s reader) (ctx : Context ω)
    (req : Request) (start : ω) (hits : List Hit) (w' : World ω)
    (h : Returns (query s ctx req) ⟨start, []⟩ hits w') :
    Delivered reader.repo req hits w' := by
  simp only [query, returns_bind, returns_ofExcept] at h
  obtain ⟨_, w₁, -, req', _, ⟨hv, rfl⟩, _, w₂, -, cached, w₃, -, h⟩ := h
  refine .congr ?_ (validate_ok hv)
  cases cached with
  | none => exact returns_queryFresh hs h
  | some list =>
    simp only [returns_bind] at h
    obtain ⟨out, w₄, hd, _, w₅, hus, rfl, rfl⟩ := h
    exact (returns_deliverFresh hs hd).later (allowed_tell hus)

/-! ### A search over two objects -/

def sampleRow (key : String) : Object where
  path := ⟨"acme", "docs", key⟩
  versionID := "v1"
  backend := "local"
  storageKey := "acme/docs/" ++ key
  size := 4
  etag := "etag"
  contentType := "text/plain"
  storageClass := "STANDARD"
  acl := "private"
  createdAt := 1
  updatedAt := 1

def sampleChunk (id : Int) (key text : String) : Chunk :=
  ⟨id, id, "acme", "docs", key, 0, text, [], 0, "model"⟩

def sampleReader : Reader Unit where
  repo := ⟨((Table.empty.insert (sampleRow "a")).insert (sampleRow "b")),
    [sampleChunk 1 "a" "alpha", sampleChunk 2 "b" "beta"]⟩
  fault := fun w => (none, w)

/-- Both objects are found, the reranker turns the hits around, and only `a` may be read. -/
def sampleSearch : Search Unit where
  repo := .present sampleReader
  resources := .present sampleReader
  embedder := .present ⟨"model", fun _ w => (.ok [[]], w)⟩
  bm25 := none
  rerank := .present fun _ hits _ w => (.ok hits.reverse, w)
  vindex := .present fun _ _ _ _ w =>
    (.ok [⟨sampleChunk 2 "b" "beta", 0⟩, ⟨sampleChunk 1 "a" "alpha", 0⟩], w)
  lexical := .absent
  results := none
  hitAuth := .present fun _ _ key w => (if key = "a" then none else some (.outside [.denied]), w)
  hitAuthConfigured := true
  boundary := none
  canonical := true
  recordUsage := fun _ _ w => w

theorem sample_query_delivers :
    ∃ hits w', Returns
        (query sampleSearch (fun w => (none, w)) ⟨"acme", "docs", "alpha", 5, "", "", ""⟩) ⟨(), []⟩ hits w' ∧
      hits.map Hit.chunkID = [1] ∧
      Delivered sampleReader.repo ⟨"acme", "docs", "alpha", 5, "", "", ""⟩ hits w' := by
  have hg : Guarded sampleSearch sampleReader := ⟨rfl, rfl, ⟨sampleReader, rfl, rfl⟩, ⟨_, rfl⟩⟩
  have hids : (runFrom (query sampleSearch (fun w => (none, w))
      ⟨"acme", "docs", "alpha", 5, "", "", ""⟩) ⟨(), []⟩).1.toOption.map (map Hit.chunkID) =
        some [1] := by decide +kernel
  cases hrun : runFrom (query sampleSearch (fun w => (none, w))
      ⟨"acme", "docs", "alpha", 5, "", "", ""⟩) ⟨(), []⟩ with
  | mk result w' =>
    cases result with
    | error e => simp [hrun, Except.toOption] at hids
    | ok hits =>
      refine ⟨hits, w', hrun, by simpa [hrun, Except.toOption] using hids, ?_⟩
      exact query_delivers sampleSearch sampleReader hg _ _ () hits w' hrun

end AeroVault.Ai
