import AeroVault.Repository.Objects

/-! The `chunks` table: the pieces of text that objects are searched by. -/
namespace AeroVault.Repository

/-- The components of a vector, as the bits of `float32`. -/
abbrev Embedding := List UInt32

/-- A row of `chunks`, or what an index says is one. -/
structure Chunk where
  id : Int
  objectID : Int
  tenantID : String
  bucket : String
  objectKey : String
  seq : Int
  content : String
  embedding : Embedding
  dim : Int
  embedModel : String
  deriving DecidableEq

/-- `ORDER BY seq ASC`. -/
def listChunksForObject (chunks : List Chunk) (objectID : Int) : List Chunk :=
  (chunks.filter fun c => c.objectID == objectID).insertionSort fun a b => a.seq ≤ b.seq

theorem mem_listChunksForObject {chunks : List Chunk} {objectID : Int} {c : Chunk} :
    c ∈ listChunksForObject chunks objectID ↔ c ∈ chunks ∧ c.objectID = objectID := by
  simp [listChunksForObject]

end AeroVault.Repository
