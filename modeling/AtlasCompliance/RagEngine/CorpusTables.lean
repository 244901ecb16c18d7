import AtlasCompliance.Java.Instant
import AtlasCompliance.Lib.Json
import AtlasCompliance.RagEngine.Chunk

/-! The document and the chunk table with their constraints: a pair of tables that breaks one cannot be
built, and an insert that would break one is refused. -/
namespace AtlasCompliance.RagEngine
open Java

/-- The columns of `atlas_document` but the time of ingestion. -/
structure StoredDocument where
  id : UUID
  sourceUri : String
  sourceLayer : ℤ
  title : Option String
  clearance : String
  contentSha256 : String
  trusted : Bool
  deriving DecidableEq

/-- A row of `atlas_document`. -/
structure DocumentRow extends StoredDocument where
  ingestedAt : Instant

/-- A row of `atlas_chunk`, with the members of its metadata; the text index is computed from the
content. -/
structure ChunkRow (E : Type) where
  id : UUID
  documentId : UUID
  chunkIndex : ℕ
  content : List Char
  clearance : String
  metadata : List (String × Json)
  embedding : List E

/-- The labels of both `CHECK` constraints. -/
def CLEARANCES : List String := ["public","analyst","compliance","restricted"]

/-- The dimension of the `vector` column. -/
def VECTOR_DIM : ℕ := 768

/-- The two tables. -/
@[ext] structure Tables (E : Type) where
  document : List DocumentRow
  chunk : List (ChunkRow E)
  documentKey : (document.map fun d => d.id).Nodup
  documentLayer : ∀ d ∈ document, -32768 ≤ d.sourceLayer ∧ d.sourceLayer ≤ 32767
  documentClearance : ∀ d ∈ document, d.clearance ∈ CLEARANCES
  chunkKey : (chunk.map fun c => c.id).Nodup
  chunkIndex : (chunk.map fun c => (c.documentId,c.chunkIndex)).Nodup
  reference : ∀ c ∈ chunk, c.documentId ∈ document.map fun d => d.id
  chunkClearance : ∀ c ∈ chunk, c.clearance ∈ CLEARANCES
  dimension : ∀ c ∈ chunk, c.embedding.length = VECTOR_DIM

namespace Tables
variable {E : Type}

/-- Both tables after `TRUNCATE TABLE atlas_document CASCADE`. -/
def empty : Tables E where
  document := []
  chunk := []
  documentKey := List.nodup_nil
  documentLayer := by simp
  documentClearance := by simp
  chunkKey := List.nodup_nil
  chunkIndex := List.nodup_nil
  reference := by simp
  chunkClearance := by simp
  dimension := by simp

/-- A new key behind keys that are distinct. -/
theorem nodup_concat {α : Type} {keys : List α} {key : α} (h : keys.Nodup) (hkey : key ∉ keys) :
    (keys ++ [key]).Nodup := h.append (List.nodup_singleton key) (by simpa using hkey)

/-- Insert a document. -/
def insertDocument (t : Tables E) (row : DocumentRow) : Option (Tables E) :=
  if h : row.id ∉ (t.document.map fun d => d.id) ∧
      (-32768 ≤ row.sourceLayer ∧ row.sourceLayer ≤ 32767) ∧ row.clearance ∈ CLEARANCES then
    some { t with
      document := t.document ++ [row]
      documentKey := by
        rw [List.map_append]
        exact nodup_concat t.documentKey h.1
      documentLayer := List.forall_mem_append.mpr ⟨t.documentLayer,by simpa using h.2.1⟩
      documentClearance := List.forall_mem_append.mpr ⟨t.documentClearance,by simpa using h.2.2⟩
      reference := fun c hc => by
        rw [List.map_append]
        exact List.mem_append_left _ (t.reference c hc) }
  else none

/-- Insert a chunk. -/
def insertChunk (t : Tables E) (row : ChunkRow E) : Option (Tables E) :=
  if h : row.id ∉ (t.chunk.map fun c => c.id) ∧
      (row.documentId,row.chunkIndex) ∉ (t.chunk.map fun c => (c.documentId,c.chunkIndex)) ∧
      row.documentId ∈ (t.document.map fun d => d.id) ∧ row.clearance ∈ CLEARANCES ∧
      row.embedding.length = VECTOR_DIM then
    some { t with
      chunk := t.chunk ++ [row]
      chunkKey := by
        rw [List.map_append]
        exact nodup_concat t.chunkKey h.1
      chunkIndex := by
        rw [List.map_append]
        exact nodup_concat t.chunkIndex h.2.1
      reference := List.forall_mem_append.mpr ⟨t.reference,by simpa using h.2.2.1⟩
      chunkClearance := List.forall_mem_append.mpr ⟨t.chunkClearance,by simpa using h.2.2.2.1⟩
      dimension := List.forall_mem_append.mpr ⟨t.dimension,by simpa using h.2.2.2.2⟩ }
  else none

theorem insertDocument_ok {t t' : Tables E} {row : DocumentRow}
    (h : t.insertDocument row = some t') : t'.document = t.document ++ [row] ∧ t'.chunk = t.chunk := by
  unfold insertDocument at h
  split_ifs at h
  obtain rfl := Option.some.inj h
  exact ⟨rfl,rfl⟩

theorem insertChunk_ok {t t' : Tables E} {row : ChunkRow E} (h : t.insertChunk row = some t') :
    t'.document = t.document ∧ t'.chunk = t.chunk ++ [row] := by
  unfold insertChunk at h
  split_ifs at h
  obtain rfl := Option.some.inj h
  exact ⟨rfl,rfl⟩

end Tables
end AtlasCompliance.RagEngine
