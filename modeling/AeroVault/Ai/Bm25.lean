import AeroVault.Ai.Indexer
import AeroVault.Lib.Keyed
import AeroVault.Lib.Ranking

/-! The lexical index of the chunks.

One set of maps and counters holds the documents of all tenants. A call replaces or removes the
documents of one object, one document after the other, and keeps the totals, the document frequencies
and the list of each object's documents up to date. A search goes through the documents of one tenant,
takes its statistics from those alone, and ranks what scores.

However the calls go, the counters are those of the documents, and what a tenant finds depends only on
the calls for that tenant (`lexical_index_isolated`). The order in which Go goes through a map is free,
and so is the arithmetic of a score: it is any function of the tenant's statistics and of the document's
length and counts, in any type of numbers that can be compared. -/
namespace AeroVault.Ai
open Lib Repository List Function Keyed

/-! ### Tokens -/

/-- The tables of Unicode: lower case, and the letters and numbers. -/
structure Runes where
  toLower : Char → Char
  letterOrNumber : Char → Bool

/-- The runs of letters and numbers with at least two bytes. -/
def tokenize (runes : Runes) (text : String) : List String :=
  let pieces := (text.toList.map runes.toLower).splitOnP fun c => !runes.letterOrNumber c
  (pieces.map String.ofList).filter fun m => 2 ≤ m.utf8ByteSize

/-! ### The index -/

structure Bm25Doc where
  tenant : String
  bucket : String
  objectKey : String
  objectID : Int
  seq : Int
  content : String
  embedModel : String
  length : Nat
  /-- How often each term occurs. -/
  tokens : Multiset String
  deriving DecidableEq

/-- A document with its chunk ID. -/
abbrev DocRow := Int × Bm25Doc

structure Bm25 where
  docs : Keyed (Prod.fst : DocRow → Int)
  /-- Missing terms give 0. -/
  df : String → Int
  objDocs : Int → List Int
  /-- The quotient, before it is rounded. -/
  avgLen : ℚ
  totalDoc : Int
  totalLen : Int
  dirty : Bool

def newBM25 : Bm25 := ⟨.empty, fun _ => 0, fun _ => [], 0, 0, 0, false⟩

def docRow (runes : Runes) (c : Chunk) : DocRow :=
  let toks := tokenize runes c.content
  (c.id, ⟨c.tenantID, c.bucket, c.objectKey, c.objectID, c.seq, c.content, c.embedModel, toks.length, toks⟩)

def insertDocLocked (runes : Runes) (b : Bm25) (c : Chunk) : Bm25 :=
  let toks := tokenize runes c.content
  {b with
    df := fun t => if t ∈ toks then b.df t + 1 else b.df t
    docs := b.docs.put (docRow runes c)
    objDocs := update b.objDocs c.objectID (b.objDocs c.objectID ++ [c.id])
    totalDoc := b.totalDoc + 1
    totalLen := b.totalLen + toks.length}

/-- One turn of the loop in `removeObjectLocked`. -/
def removeDoc (b : Bm25) (id : Int) : Bm25 :=
  match b.docs.get? id with
  | none => b
  | some (_, d) =>
    {b with
      df := fun t => if t ∈ d.tokens then (if b.df t ≤ 1 then 0 else b.df t - 1) else b.df t
      totalLen := b.totalLen - d.length
      totalDoc := b.totalDoc - 1
      docs := b.docs.remove id}

def removeObjectLocked (b : Bm25) (objectID : Int) : Bm25 :=
  let removed := (b.objDocs objectID).foldl removeDoc b
  {removed with objDocs := update removed.objDocs objectID []}

def recomputeAvgLenLocked (b : Bm25) : Bm25 :=
  {b with avgLen := if b.totalDoc > 0 then b.totalLen / b.totalDoc else 0}

/-! ### Scoped calls -/

inductive Bm25Error
  /-- `bm25 upsert: %w`, and the same for a delete. -/
  | ref (what : String) (cause : SearchError)
  | chunkIDNotPositive
  | refConflict (source : String) (got : ChunkRef)
  | duplicateChunkID (id : Int)
  | missingDoc (objectID id : Int)
  | foreignChunkID (id : Int)
  deriving DecidableEq

def Bm25Doc.ref (d : Bm25Doc) : ChunkRef := ⟨d.tenant, d.bucket, d.objectKey, d.objectID⟩

def validateIncoming (ref : ChunkRef) (incoming : List Int) : List Chunk → Except Bm25Error Unit
  | [] => .ok ()
  | c :: rest => do
    refuseIf (c.id ≤ 0) .chunkIDNotPositive
    refuseIf (Chunk.ref c ≠ ref) (.refConflict "bm25 chunk row" (Chunk.ref c))
    refuseIf (c.id ∈ incoming) (.duplicateChunkID c.id)
    validateIncoming ref (c.id :: incoming) rest

def validateExistingObjectLocked (b : Bm25) (ref : ChunkRef) : Except Bm25Error Unit :=
  (b.objDocs ref.objectID).forM fun id =>
    match b.docs.get? id with
    | none => .error (.missingDoc ref.objectID id)
    | some (_, doc) => refuseIf (doc.ref ≠ ref) (.refConflict ("bm25 object " ++ toString ref.objectID) doc.ref)

/-- The last loop is over a map: which of several IDs its error names is free, here it is the first. -/
def validateScopedChunksLocked (b : Bm25) (ref : ChunkRef) (chunks : List Chunk) : Except Bm25Error Unit := do
  validateIncoming ref [] chunks
  validateExistingObjectLocked b ref
  (chunks.map Chunk.id).forM fun id =>
    refuseIf ((b.docs.get? id).isSome ∧ id ∉ b.objDocs ref.objectID) (.foreignChunkID id)

inductive ScopedCall
  | upsert (ref : ChunkRef) (chunks : List Chunk)
  | delete (ref : ChunkRef)

def ScopedCall.ref : ScopedCall → ChunkRef
  | .upsert ref _ => ref
  | .delete ref => ref

def ScopedCall.chunks : ScopedCall → List Chunk
  | .upsert _ chunks => chunks
  | .delete _ => []

/-- The checks of a call, before anything is changed. -/
def ScopedCall.validate (b : Bm25) : ScopedCall → Except Bm25Error Unit
  | .upsert ref chunks => do
    (validateChunkRef ref.tenantID ref.bucket ref.key ref.objectID).mapError (.ref "bm25 upsert")
    validateScopedChunksLocked b ref chunks
  | .delete ref => do
    (validateChunkRef ref.tenantID ref.bucket ref.key ref.objectID).mapError (.ref "bm25 delete")
    validateExistingObjectLocked b ref

/-- `UpsertScopedObjectChunks` and `DeleteScopedObjectChunks`, which inserts nothing. -/
def ScopedCall.apply (runes : Runes) (b : Bm25) (call : ScopedCall) : Except Bm25Error Unit × Bm25 :=
  match call.validate b with
  | .error err => (.error err, b)
  | .ok () =>
    let replaced := call.chunks.foldl (insertDocLocked runes) (removeObjectLocked b call.ref.objectID)
    (.ok (), {recomputeAvgLenLocked replaced with dirty := true})

def scopedStep (runes : Runes) (b : Bm25) (call : ScopedCall) : Bm25 := (call.apply runes b).2

/-! ### Search -/

section Search

variable {S : Type*} [LinearOrder S] [Zero S] [Add S]

structure Bm25Hit (S : Type*) where
  chunkID : Int
  score : S
  doc : Bm25Doc

/-- What one term adds, from the tenant's number and total length of documents, the length of the document,
the frequency of the term in it and its document frequency. -/
abbrev Weight (S : Type*) := (tenantDocs tenantLen length tf df : Nat) → S

def ofTenant (tenant : String) (rows : List DocRow) : List DocRow := rows.filter fun r => r.2.tenant = tenant

/-- The score of a document, among the documents of its tenant. -/
def scoreDoc (weight : Weight S) (terms : List String) (owned : List DocRow) (d : Bm25Doc) : S :=
  let tenantDocs := owned.length
  let tenantLen := (owned.map fun r => r.2.length).sum
  let tenantDF (term : String) := owned.countP fun r => 0 < r.2.tokens.count term
  terms.foldl (fun score t =>
    let tf := d.tokens.count t
    let df := tenantDF t
    if tf = 0 then score
    else if df = 0 then score
    else score + weight tenantDocs tenantLen d.length tf df) 0

/-- The two loops go over the map in orders of their own. -/
def collectCandidates (weight : Weight S) (runes : Runes) (first second : List DocRow)
    (tenant query bucket : String) : List (Bm25Hit S) :=
  let terms := tokenize runes query
  if terms = [] then []
  else
    let owned := ofTenant tenant first
    if owned.length = 0 then []
    else
      second.filterMap fun (id, d) =>
        if d.tenant ≠ tenant ∨ (bucket ≠ "" ∧ d.bucket ≠ bucket) then none
        else
          let score := scoreDoc weight terms owned d
          if score > 0 then some ⟨id, score, d⟩ else none

/-- The first hit is swapped to the left of the second. -/
abbrev Bm25Hit.before (h g : Bm25Hit S) : Prop :=
  h.score > g.score ∨ (h.score = g.score ∧ h.chunkID < g.chunkID)

def sortHitsDesc (hits : List (Bm25Hit S)) : List (Bm25Hit S) := rank Bm25Hit.before hits

def rankAndTrim (candidates : List (Bm25Hit S)) (k : Nat) : List (Bm25Hit S) := (sortHitsDesc candidates).take k

def search (weight : Weight S) (runes : Runes) (first second : List DocRow) (tenant query bucket : String)
    (limit : Int) : List (Bm25Hit S) :=
  if limit ≤ 0 then []
  else rankAndTrim (collectCandidates weight runes first second tenant query bucket) limit.toNat

end Search

/-! ### The counters -/

section Counters

variable {runes : Runes} {b : Bm25}

/-- The totals and the document frequencies are those of the documents. -/
structure Tallied (b : Bm25) : Prop where
  totalDoc : b.totalDoc = b.docs.rows.length
  totalLen : b.totalLen = (b.docs.rows.map fun r => r.2.length).sum
  df : ∀ t, b.df t = b.docs.rows.countP fun r => t ∈ r.2.tokens

/-- The lists of the objects are those of the documents. -/
structure Listed (b : Bm25) : Prop where
  nodup : ∀ objectID, (b.objDocs objectID).Nodup
  mem : ∀ objectID id, id ∈ b.objDocs objectID ↔ ∃ d, b.docs.get? id = some (id, d) ∧ d.objectID = objectID

theorem Tallied.removeDoc (h : Tallied b) (id : Int) : Tallied (removeDoc b id) := by
  unfold Ai.removeDoc
  split
  · exact h
  next d hg =>
    have hpr := perm_remove hg
    refine ⟨?_, ?_, fun t => ?_⟩
    · have hl := hpr.length_eq
      rw [length_cons] at hl
      show b.totalDoc - 1 = ((b.docs.remove id).rows.length : Int)
      rw [h.totalDoc, hl]
      omega
    · have hsum := (hpr.map fun r => r.2.length).sum_eq
      rw [map_cons, sum_cons] at hsum
      rw [h.totalLen, hsum, Int.natCast_add]
      exact add_sub_cancel_left _ _
    · have hcn := hpr.countP_eq fun r => t ∈ r.2.tokens
      rw [countP_cons] at hcn
      show (if t ∈ d.tokens then (if b.df t ≤ 1 then 0 else b.df t - 1) else b.df t) = _
      rw [h.df, hcn]
      by_cases ht : t ∈ d.tokens
      · simp only [ht, decide_true]
        split_ifs <;> omega
      · simp only [ht, decide_false, if_false, Bool.false_eq_true, Nat.add_zero]

theorem Tallied.insertDoc (h : Tallied b) {c : Chunk} (hnew : b.docs.get? c.id = none) :
    Tallied (insertDocLocked runes b c) := by
  have hrw : (insertDocLocked runes b c).docs.rows = b.docs.rows ++ [docRow runes c] := rows_put hnew
  refine ⟨?_, ?_, fun t => ?_⟩
  · rw [hrw, length_append]
    show b.totalDoc + 1 = _
    rw [h.totalDoc]
    rfl
  · rw [hrw, map_append, sum_append]
    show b.totalLen + (tokenize runes c.content).length = _
    rw [h.totalLen]
    simp [docRow]
  · rw [hrw, countP_append]
    show (if t ∈ tokenize runes c.content then b.df t + 1 else b.df t) = _
    rw [h.df]
    by_cases ht : t ∈ tokenize runes c.content
    · simp [docRow, ht]
    · simp [docRow, ht]

/-! ### Removing an object -/

theorem rows_removeDoc (b : Bm25) (id : Int) :
    (removeDoc b id).docs.rows = b.docs.rows.filter (fun r => r.1 ≠ id) ∧
      (removeDoc b id).objDocs = b.objDocs := by
  unfold removeDoc
  split
  next hnone =>
    refine ⟨(filter_eq_self.mpr fun r hr => decide_eq_true ?_).symm, rfl⟩
    intro hid
    exact get?_eq_none.mp hnone (hid ▸ mem_map_of_mem hr)
  · exact ⟨rfl, rfl⟩

theorem rows_removeDocs (b : Bm25) (ids : List Int) :
    (ids.foldl removeDoc b).docs.rows = b.docs.rows.filter (fun r => r.1 ∉ ids) ∧
      (ids.foldl removeDoc b).objDocs = b.objDocs := by
  induction ids generalizing b with
  | nil => exact ⟨(filter_eq_self.mpr fun r _ => by simp).symm, rfl⟩
  | cons id ids ih =>
    obtain ⟨hrw, hl⟩ := ih (removeDoc b id)
    rw [foldl_cons, hrw, hl, (rows_removeDoc b id).1, (rows_removeDoc b id).2, filter_filter]
    simp [Bool.and_comm]

theorem Tallied.removeDocs (h : Tallied b) (ids : List Int) : Tallied (ids.foldl Ai.removeDoc b) := by
  induction ids generalizing b with
  | nil => exact h
  | cons id ids ih => exact ih (h.removeDoc id)

theorem Tallied.removeObject (h : Tallied b) (objectID : Int) : Tallied (removeObjectLocked b objectID) := by
  have hrm := h.removeDocs (b.objDocs objectID)
  exact ⟨hrm.totalDoc, hrm.totalLen, hrm.df⟩

theorem Listed.mem_of_row (h : Listed b) {r : DocRow} (hr : r ∈ b.docs.rows) (objectID : Int) :
    r.1 ∈ b.objDocs objectID ↔ r.2.objectID = objectID := by
  rw [h.mem, get?_key hr]
  constructor
  · rintro ⟨d, hd, hobject⟩
    rw [Option.some.inj hd]
    exact hobject
  · intro hobject
    exact ⟨r.2, rfl, hobject⟩

theorem rows_removeObject (h : Listed b) (objectID : Int) :
    (removeObjectLocked b objectID).docs.rows = b.docs.rows.filter fun r => r.2.objectID ≠ objectID := by
  show ((b.objDocs objectID).foldl removeDoc b).docs.rows = _
  rw [(rows_removeDocs b _).1]
  refine filter_congr fun r hr => ?_
  rw [decide_eq_decide, h.mem_of_row hr]

theorem Listed.removeObject (h : Listed b) (objectID : Int) : Listed (removeObjectLocked b objectID) := by
  have hl : (removeObjectLocked b objectID).objDocs = update b.objDocs objectID [] := by
    show update ((b.objDocs objectID).foldl removeDoc b).objDocs objectID [] = _
    rw [(rows_removeDocs b _).2]
  refine ⟨fun o => ?_, fun o id => ?_⟩
  · rw [hl]
    by_cases ho : o = objectID
    · rw [ho, update_self]
      exact nodup_nil
    · rw [update_of_ne ho]
      exact h.nodup o
  · simp only [get?_eq_some, rows_removeObject h, mem_filter, decide_eq_true_eq]
    rw [hl]
    by_cases ho : o = objectID
    · rw [ho, update_self]
      simp
    · rw [update_of_ne ho, h.mem]
      simp only [get?_eq_some, and_true]
      constructor
      · rintro ⟨d, hm, rfl⟩
        exact ⟨d, ⟨hm, ho⟩, rfl⟩
      · rintro ⟨d, ⟨hm, -⟩, rfl⟩
        exact ⟨d, hm, rfl⟩

/-! ### Inserting the chunks of an object -/

theorem Listed.insertDoc (h : Listed b) {c : Chunk} (hnew : b.docs.get? c.id = none) :
    Listed (insertDocLocked runes b c) := by
  have hfresh (o : Int) : c.id ∉ b.objDocs o := by
    intro hmem
    obtain ⟨d, hd, -⟩ := (h.mem o c.id).mp hmem
    cases hnew.symm.trans hd
  have hrows : (insertDocLocked runes b c).docs.rows = b.docs.rows ++ [docRow runes c] := rows_put hnew
  have hl : (insertDocLocked runes b c).objDocs =
      update b.objDocs c.objectID (b.objDocs c.objectID ++ [c.id]) := rfl
  have hmem (o id : Int) : id ∈ (insertDocLocked runes b c).objDocs o ↔
      id ∈ b.objDocs o ∨ (id = c.id ∧ c.objectID = o) := by
    rw [hl]
    by_cases ho : o = c.objectID
    · rw [ho, update_self, mem_append, mem_singleton]
      simp
    · rw [update_of_ne ho]
      simp [Ne.symm ho]
  refine ⟨fun o => ?_, fun o id => ?_⟩
  · rw [hl]
    by_cases ho : o = c.objectID
    · rw [ho, update_self]
      exact nodup_append.mpr ⟨h.nodup _, nodup_singleton _, fun a ha a' ha' => by
        rw [mem_singleton.mp ha']
        exact fun heq => hfresh _ (heq ▸ ha)⟩
    · rw [update_of_ne ho]
      exact h.nodup o
  · rw [hmem, h.mem]
    simp only [get?_eq_some, hrows, mem_append, mem_singleton, and_true]
    constructor
    · rintro (⟨d, hd, rfl⟩ | ⟨rfl, rfl⟩)
      · exact ⟨d, .inl hd, rfl⟩
      · exact ⟨_, .inr rfl, rfl⟩
    · rintro ⟨d, hd | hd, rfl⟩
      · exact .inl ⟨d, hd, rfl⟩
      · cases hd
        exact .inr ⟨rfl, rfl⟩

/-- New IDs, no two the same, are appended. -/
theorem insertDocs {r : Runes} {chunks : List Chunk} (ht : Tallied b) (hl : Listed b)
    (hnew : ∀ c ∈ chunks, b.docs.get? c.id = none) (hnod : (chunks.map Chunk.id).Nodup) :
    (chunks.foldl (insertDocLocked r) b).docs.rows = b.docs.rows ++ chunks.map (docRow r) ∧
      Tallied (chunks.foldl (insertDocLocked r) b) ∧ Listed (chunks.foldl (insertDocLocked r) b) := by
  induction chunks generalizing b with
  | nil => exact ⟨(append_nil _).symm, ht, hl⟩
  | cons c chunks ih =>
    obtain ⟨hc, hnod⟩ := nodup_cons.mp hnod
    have hf := hnew c mem_cons_self
    have hrw : (insertDocLocked r b c).docs.rows = b.docs.rows ++ [docRow r c] := rows_put hf
    have hrs : ∀ c' ∈ chunks, (insertDocLocked r b c).docs.get? c'.id = none := by
      intro c' hc'
      rw [get?_eq_none, hrw, map_append, mem_append, not_or]
      refine ⟨get?_eq_none.mp (hnew c' (mem_cons_of_mem _ hc')), ?_⟩
      intro hid
      have hid : c'.id = c.id := mem_singleton.mp hid
      exact hc (hid ▸ mem_map_of_mem hc')
    obtain ⟨hall, htl, hls⟩ := ih (ht.insertDoc hf) (hl.insertDoc hf) hrs hnod
    refine ⟨?_, htl, hls⟩
    rw [foldl_cons, hall, hrw, append_assoc]
    rfl

end Counters

/-! ### What a call does -/

section Calls

variable {runes : Runes} {b : Bm25} {ref : ChunkRef} {call : ScopedCall}

theorem validateIncoming_ok {incoming : List Int} {chunks : List Chunk}
    (h : validateIncoming ref incoming chunks = .ok ()) :
    (∀ c ∈ chunks, Chunk.ref c = ref ∧ c.id ∉ incoming) ∧ (chunks.map Chunk.id).Nodup := by
  induction chunks generalizing incoming with
  | nil => exact ⟨nofun, nodup_nil⟩
  | cons c chunks ih =>
    obtain ⟨_, -, h⟩ := bind_eq_ok.mp h
    obtain ⟨_, href, h⟩ := bind_eq_ok.mp h
    obtain ⟨_, hf, h⟩ := bind_eq_ok.mp h
    obtain ⟨hrs, hnd⟩ := ih h
    refine ⟨fun c' hc' => ?_, nodup_cons.mpr ⟨fun hm => ?_, hnd⟩⟩
    · rcases mem_cons.mp hc' with rfl | hc'
      · exact ⟨not_not.mp (refuseIf_ok.mp href), refuseIf_ok.mp hf⟩
      · exact ⟨(hrs c' hc').1, fun hm => (hrs c' hc').2 (mem_cons_of_mem _ hm)⟩
    · obtain ⟨c', hc', hid⟩ := mem_map.mp hm
      exact (hrs c' hc').2 (hid ▸ mem_cons_self)

/-- What the documents of the object hold is the reference. -/
theorem validateExisting_ok (hl : Listed b) (h : validateExistingObjectLocked b ref = .ok ()) {r : DocRow}
    (hr : r ∈ b.docs.rows) (hobject : r.2.objectID = ref.objectID) : r.2.ref = ref := by
  have hd := forM_eq_ok h ((hl.mem_of_row hr _).mpr hobject)
  rw [get?_key hr] at hd
  exact not_not.mp (refuseIf_ok.mp hd)

/-- What is known of a call that passes its checks. -/
structure Admissible (b : Bm25) (call : ScopedCall) : Prop where
  chunks : ∀ c ∈ call.chunks, Chunk.ref c = call.ref
  nodup : (call.chunks.map Chunk.id).Nodup
  existing : ∀ r ∈ b.docs.rows, r.2.objectID = call.ref.objectID → r.2.ref = call.ref
  free : ∀ c ∈ call.chunks, b.docs.get? c.id = none ∨ c.id ∈ b.objDocs call.ref.objectID

theorem admitted_of_validate (hl : Listed b) (h : call.validate b = .ok ()) : Admissible b call := by
  cases call with
  | delete ref =>
    obtain ⟨_, -, h⟩ := bind_eq_ok.mp h
    exact ⟨nofun, nodup_nil, fun r => validateExisting_ok hl h, nofun⟩
  | upsert ref chunks =>
    obtain ⟨_, -, h⟩ := bind_eq_ok.mp h
    obtain ⟨_, hin, h⟩ := bind_eq_ok.mp h
    obtain ⟨_, hex, h⟩ := bind_eq_ok.mp h
    obtain ⟨hch, hnd⟩ := validateIncoming_ok hin
    refine ⟨fun c hc => (hch c hc).1, hnd, fun r => validateExisting_ok hl hex, fun c hc => ?_⟩
    have hfree := forM_eq_ok h (mem_map_of_mem hc)
    rw [refuseIf_ok, not_and_or, Option.not_isSome_iff_eq_none, not_not] at hfree
    exact hfree

/-- The rows of the object are replaced. -/
def replaceRows (runes : Runes) (rows : List DocRow) (call : ScopedCall) : List DocRow :=
  rows.filter (fun r => r.2.objectID ≠ call.ref.objectID) ++ call.chunks.map (docRow runes)

/-- The counters are those of the documents. -/
structure Consistent (b : Bm25) : Prop extends Tallied b, Listed b where
  avgLen : b.avgLen = if b.totalDoc > 0 then (b.totalLen : ℚ) / b.totalDoc else 0

theorem apply_ok (h : Consistent b) (hadmitted : Admissible b call) (hv : call.validate b = .ok ()) :
    (scopedStep runes b call).docs.rows = replaceRows runes b.docs.rows call ∧
      Consistent (scopedStep runes b call) := by
  have hrem := rows_removeObject h.toListed call.ref.objectID
  have hnew : ∀ c ∈ call.chunks, (removeObjectLocked b call.ref.objectID).docs.get? c.id = none := by
    intro c hc
    rw [get?_eq_none, hrem]
    intro hm
    obtain ⟨r, hr, hid⟩ := mem_map.mp hm
    obtain ⟨hr, hother⟩ := mem_filter.mp hr
    refine of_decide_eq_true hother ?_
    rcases hadmitted.free c hc with hnone | hl
    · exact absurd (mem_map.mpr ⟨r, hr, hid⟩) (get?_eq_none.mp hnone)
    · exact (h.mem_of_row hr _).mp (hid ▸ hl)
  obtain ⟨hrw, ht, hl⟩ := insertDocs (h.toTallied.removeObject call.ref.objectID)
    (h.toListed.removeObject call.ref.objectID) hnew hadmitted.nodup
  unfold scopedStep ScopedCall.apply
  rw [hv]
  refine ⟨?_, ?_⟩
  · rw [replaceRows, ← hrem]
    exact hrw
  · exact ⟨⟨ht.totalDoc, ht.totalLen, ht.df⟩, ⟨hl.nodup, hl.mem⟩, rfl⟩

theorem apply_error {err : Bm25Error} (h : (call.apply runes b).1 = .error err) :
    (call.apply runes b).2 = b := by
  unfold ScopedCall.apply at h ⊢
  split at h
  · rfl
  · cases h

theorem validate_of_apply (h : (call.apply runes b).1 = .ok ()) : call.validate b = .ok () := by
  unfold ScopedCall.apply at h
  split at h
  · cases h
  next hv => exact hv

theorem consistent_step (b : Bm25) (call : ScopedCall) (h : Consistent b) :
    Consistent (scopedStep runes b call) := by
  cases hrs : (call.apply runes b).1 with
  | error err =>
    rw [scopedStep, apply_error hrs]
    exact h
  | ok u =>
    have hv := validate_of_apply hrs
    exact (apply_ok h (admitted_of_validate h.toListed hv) hv).2

theorem consistent_new : Consistent newBM25 :=
  ⟨⟨rfl, rfl, fun _ => rfl⟩, ⟨fun _ => nodup_nil, fun _ _ => ⟨nofun, fun ⟨_, hd, _⟩ => nomatch hd⟩⟩, rfl⟩

end Calls

/-! ### One tenant -/

section Tenant

variable {runes : Runes} {b : Bm25} {tenant : String} {call : ScopedCall}

def callsOf (tenant : String) (calls : List ScopedCall) : List ScopedCall :=
  calls.filter fun call => call.ref.tenantID = tenant

/-- A call that is not refused. -/
def Accepted (runes : Runes) (b : Bm25) (call : ScopedCall) : Prop := (call.apply runes b).1 = .ok ()

theorem tenant_docRow (hadmitted : Admissible b call) {r : DocRow}
    (hr : r ∈ call.chunks.map (docRow runes)) : r.2.tenant = call.ref.tenantID := by
  obtain ⟨c, hc, rfl⟩ := mem_map.mp hr
  exact congrArg ChunkRef.tenantID (hadmitted.chunks c hc)

/-- A call for another tenant leaves the tenant's documents, and one for the tenant changes them in a way that
depends on nothing else. -/
theorem ofTenant_step (h : Consistent b) (hac : Accepted runes b call) :
    ofTenant tenant (scopedStep runes b call).docs.rows =
      if call.ref.tenantID = tenant then replaceRows runes (ofTenant tenant b.docs.rows) call
      else ofTenant tenant b.docs.rows := by
  have hv := validate_of_apply hac
  have hadmitted := admitted_of_validate h.toListed hv
  rw [(apply_ok h hadmitted hv).1, replaceRows, ofTenant, filter_append, filter_filter]
  split_ifs with ht
  · rw [replaceRows, ofTenant, filter_filter]
    congr 1
    · exact filter_congr fun r _ => Bool.and_comm _ _
    · refine filter_eq_self.mpr fun r hr => decide_eq_true ?_
      rw [tenant_docRow hadmitted hr, ht]
  · have hnone : (call.chunks.map (docRow runes)).filter (fun r => r.2.tenant = tenant) = [] := by
      refine filter_eq_nil_iff.mpr fun r hr => ?_
      rw [tenant_docRow hadmitted hr, decide_eq_true_eq]
      exact ht
    rw [hnone, append_nil]
    refine filter_congr fun r hr => ?_
    rw [Bool.and_eq_left_iff_imp, decide_eq_true_eq, decide_eq_true_eq]
    intro hr' hobject
    exact ht (congrArg ChunkRef.tenantID (hadmitted.existing r hr hobject) ▸ hr')

theorem ofTenant_run (h : Consistent b) {calls : List ScopedCall}
    (hac : Each (scopedStep runes) (Accepted runes) b calls) :
    ofTenant tenant (run (scopedStep runes) b calls).docs.rows =
      (callsOf tenant calls).foldl (replaceRows runes) (ofTenant tenant b.docs.rows) := by
  induction calls generalizing b with
  | nil => rfl
  | cons call calls ih =>
    obtain ⟨hcall, hcl⟩ := hac
    show ofTenant tenant (run (scopedStep runes) (scopedStep runes b call) calls).docs.rows = _
    rw [ih (consistent_step b call h) hcl, ofTenant_step h hcall, callsOf, callsOf, filter_cons]
    by_cases ht : call.ref.tenantID = tenant
    · simp only [ht, decide_true, if_true, foldl_cons]
    · simp only [ht, decide_false, if_false, Bool.false_eq_true]

end Tenant

/-! ### Searches of one tenant -/

section Places

variable {S : Type*} [LinearOrder S]

/-- Higher scores go first, and then lower chunk IDs. -/
def Bm25Hit.place (h : Bm25Hit S) : Sᵒᵈ ×ₗ Int := toLex (OrderDual.toDual h.score, h.chunkID)

theorem before_iff_place (h g : Bm25Hit S) : h.before g ↔ h.place < g.place := by
  rw [Bm25Hit.place, Bm25Hit.place, Prod.Lex.toLex_lt_toLex]
  exact .rfl

end Places

section Searches

variable {S : Type*} [Zero S] [Add S] {weight : Weight S} {runes : Runes}
  {first second first' second' : List DocRow} {tenant query bucket : String}

theorem scoreDoc_perm {terms : List String} {owned owned' : List DocRow} (h : owned.Perm owned') :
    scoreDoc weight terms owned = scoreDoc weight terms owned' := by
  funext d
  have hdf (t : String) := h.countP_eq fun r => 0 < r.2.tokens.count t
  simp only [scoreDoc, h.length_eq, (h.map _).sum_eq, hdf]

variable [LinearOrder S]

theorem collectCandidates_perm (hfr : (ofTenant tenant first).Perm (ofTenant tenant first'))
    (hsec : (ofTenant tenant second).Perm (ofTenant tenant second')) :
    (collectCandidates weight runes first second tenant query bucket).Perm
      (collectCandidates weight runes first' second' tenant query bucket) := by
  -- The second loop passes over the other tenants' documents, so it may as well run over the tenant's own.
  have ho (f : DocRow → Option (Bm25Hit S)) (hf : ∀ r, r.2.tenant ≠ tenant → f r = none)
      (rows : List DocRow) : rows.filterMap f = (ofTenant tenant rows).filterMap f := by
    rw [ofTenant, filterMap_filter]
    refine filterMap_congr fun r _ => ?_
    split_ifs with hr
    · rfl
    · exact hf r (by simpa using hr)
  unfold collectCandidates
  dsimp only
  rw [hfr.length_eq, scoreDoc_perm hfr]
  split_ifs
  · exact .nil
  · exact .nil
  · rw [ho _ (fun r hr => if_pos (.inl hr)) second, ho _ (fun r hr => if_pos (.inl hr)) second']
    exact hsec.filterMap _

theorem mem_collectCandidates {h : Bm25Hit S}
    (hm : h ∈ collectCandidates weight runes first second tenant query bucket) :
    (h.chunkID, h.doc) ∈ second := by
  unfold collectCandidates at hm
  dsimp only at hm
  split_ifs at hm
  · cases hm
  · cases hm
  · obtain ⟨⟨id, d⟩, hrow, hh⟩ := mem_filterMap.mp hm
    split_ifs at hh
    cases hh
    exact hrow

theorem search_eq {rows rows' : List DocRow} (hnod : (rows.map Prod.fst).Nodup)
    (hsame : ofTenant tenant rows = ofTenant tenant rows') (hf : first.Perm rows)
    (hsec : second.Perm rows) (hf' : first'.Perm rows') (hsec' : second'.Perm rows') {limit : Int} :
    search weight runes first second tenant query bucket limit =
      search weight runes first' second' tenant query bucket limit := by
  have ho {l l' : List DocRow} (hl : l.Perm rows) (hl' : l'.Perm rows') :
      (ofTenant tenant l).Perm (ofTenant tenant l') := by
    have hl : (ofTenant tenant l).Perm (ofTenant tenant rows) := hl.filter _
    have hl' : (ofTenant tenant l').Perm (ofTenant tenant rows') := hl'.filter _
    rw [hsame] at hl
    exact hl.trans hl'.symm
  have hpr : (collectCandidates weight runes first second tenant query bucket).Perm
      (collectCandidates weight runes first' second' tenant query bucket) :=
    collectCandidates_perm (ho hf hf') (ho hsec hsec')
  have hinj : Set.InjOn Bm25Hit.place
      {h | h ∈ collectCandidates weight runes first second tenant query bucket} := by
    intro h hh g hg hpl
    obtain ⟨hsc, hid⟩ := Prod.mk.inj (toLex_inj.mp hpl)
    have hrow := inj_on_of_nodup_map hnod (hsec.mem_iff.mp (mem_collectCandidates hh))
      (hsec.mem_iff.mp (mem_collectCandidates hg)) hid
    obtain ⟨-, hd⟩ := Prod.mk.inj hrow
    cases h
    cases hid
    cases hd
    cases hsc
    rfl
  unfold search rankAndTrim sortHitsDesc
  rw [rank_eq_of_perm before_iff_place hpr hinj]

end Searches

/-- **However calls go, the counters of the index are those of its documents, and a call that fails
changes nothing. After accepted calls, what a tenant finds depends only on the calls for that tenant, in
whatever order the maps are gone through.** -/
theorem lexical_index_isolated {S : Type*} [LinearOrder S] [Zero S] [Add S] (weight : Weight S)
    (runes : Runes) :
    (∀ calls, Consistent (run (scopedStep runes) newBM25 calls)) ∧
      (∀ b call err, (ScopedCall.apply runes b call).1 = .error err → (call.apply runes b).2 = b) ∧
      ∀ tenant calls calls', Each (scopedStep runes) (Accepted runes) newBM25 calls →
        Each (scopedStep runes) (Accepted runes) newBM25 calls' → callsOf tenant calls = callsOf tenant calls' →
        ∀ first second first' second', first.Perm (run (scopedStep runes) newBM25 calls).docs.rows →
          second.Perm (run (scopedStep runes) newBM25 calls).docs.rows →
          first'.Perm (run (scopedStep runes) newBM25 calls').docs.rows →
          second'.Perm (run (scopedStep runes) newBM25 calls').docs.rows →
          ∀ query bucket limit, search weight runes first second tenant query bucket limit =
            search weight runes first' second' tenant query bucket limit := by
  refine ⟨run_keeps consistent_step consistent_new, fun b call err => apply_error, ?_⟩
  intro tenant calls calls' hac hac' hsame first second first' second' hf hsc
    hf' hsc' query bucket limit
  refine search_eq (nodup _) ?_ hf hsc hf' hsc'
  rw [ofTenant_run consistent_new hac, ofTenant_run consistent_new hac', hsame]

end AeroVault.Ai
