import AtlasCompliance.RagEngine.CorpusTables
import AtlasCompliance.RagEngine.LlmReranker
import AtlasCompliance.RagEngine.QueryService
import AtlasCompliance.RagEngine.ReciprocalRankFusion

/-! Hybrid retrieval over the chunk table. The clearance predicate stands in both queries before any
order or limit, so that a caller's result depends on the rows that the caller may see only. -/
namespace AtlasCompliance.RagEngine
open Java

/-- Of a blank value the configuration takes the default. -/
def blankToDefault (value : Option String) (default : String) : String :=
  (value.filter fun s => !Text.isBlank s).getD default

/-- Limits are not negative; the database refuses such a query. -/
structure RetrievalProperties where
  denseK : ℕ
  sparseK : ℕ
  rrfK : ℤ
  topK : ℤ
  reranker : String
  sparseQuery : String

namespace RetrievalProperties

def ofConfigured (denseK sparseK : Option ℕ) (rrfK topK : Option ℤ)
    (reranker sparseQuery : Option String) : RetrievalProperties :=
  ⟨denseK.getD 20,sparseK.getD 20,rrfK.getD 60,topK.getD 6,blankToDefault reranker "rrf",
    blankToDefault sparseQuery "plainto"⟩

def tsqueryFunction (props : RetrievalProperties) : String :=
  if Text.equalsIgnoreCase props.sparseQuery "websearch" then "websearch_to_tsquery"
  else "plainto_tsquery"

def llmReranker (props : RetrievalProperties) : Bool := Text.equalsIgnoreCase props.reranker "llm"

end RetrievalProperties

/-- What the embedding model and the database compute: vectors, distances, text matches and their
ranks, the text of a metadata value, and the order in which the database returns rows of one score, which
tells rows with different ids apart. -/
structure Search (E : Type) where
  embed : String → List E
  distance : List E → List E → ℚ
  textMatch : String → String → List Char → Bool
  textRank : String → String → List Char → ℚ
  valueText : Json → String
  tie : ChunkRow E → ChunkRow E → Bool
  tie_trans : ∀ a b c, tie a b = true → tie b c = true → tie a c = true
  tie_total : ∀ a b, (tie a b || tie b a) = true
  tie_id : ∀ a b, tie a b = true → tie b a = true → a.id = b.id

variable {E : Type}

/-- The rows that `clearance = ANY(?)` lets through. -/
def visibleRows (caller : Clearance) (rows : List (ChunkRow E)) : List (ChunkRow E) :=
  rows.filter fun row => decide (row.clearance ∈ visibleLabels caller)

namespace Search
variable (S : Search E)

/-- `ORDER BY` a key. -/
def orderBy (key : ChunkRow E → ℚ) (a b : ChunkRow E) : Bool :=
  key a < key b || (key a = key b && S.tie a b)

/-- `toString` of a metadata value that is there and not null. -/
def metadataText (row : ChunkRow E) (name : String) : Option String :=
  ((row.metadata.lookup name).filter (· ≠ .null)).map S.valueText

/-- `ChunkRowMapper.mapRow`. -/
def mapRow (row : ChunkRow E) (score : ℚ) : RetrievedChunk ℚ :=
  ⟨row.id,row.documentId,String.ofList row.content,row.clearance,S.metadataText row "docId",
    S.metadataText row "title",S.metadataText row "sourceUri",score⟩

/-- `DenseRetriever.retrieve`. -/
def dense (rows : List (ChunkRow E)) (query : String) (caller : Clearance) (k : ℕ) :
    List (RetrievedChunk ℚ) :=
  let distance := fun row : ChunkRow E => S.distance row.embedding (S.embed query)
  (((visibleRows caller rows).mergeSort (S.orderBy distance)).take k).map fun row =>
    S.mapRow row (1 - distance row)

/-- `SparseRetriever.retrieve`. -/
def sparse (tsqueryFn : String) (rows : List (ChunkRow E)) (query : String) (caller : Clearance)
    (k : ℕ) : List (RetrievedChunk ℚ) :=
  let score := fun row : ChunkRow E => S.textRank tsqueryFn query row.content
  ((((visibleRows caller rows).filter fun row => S.textMatch tsqueryFn query row.content).mergeSort
    (S.orderBy fun row => -score row)).take k).map fun row => S.mapRow row (score row)

variable {S}

theorem orderBy_iff {key : ChunkRow E → ℚ} {a b : ChunkRow E} : S.orderBy key a b = true ↔
    key a < key b ∨ key a = key b ∧ S.tie a b = true := by
  simp [orderBy]

theorem orderBy_trans (key : ChunkRow E → ℚ) (a b c : ChunkRow E) (hab : S.orderBy key a b = true)
    (hbc : S.orderBy key b c = true) : S.orderBy key a c = true := by
  rw [orderBy_iff] at hab hbc ⊢
  obtain hab | ⟨hab,htie⟩ := hab
  · obtain hbc | ⟨hbc,-⟩ := hbc
    · exact Or.inl (hab.trans hbc)
    · exact Or.inl (hbc ▸ hab)
  · obtain hbc | ⟨hbc,htie'⟩ := hbc
    · exact Or.inl (hab ▸ hbc)
    · exact Or.inr ⟨hab.trans hbc,S.tie_trans a b c htie htie'⟩

theorem orderBy_total (key : ChunkRow E → ℚ) (a b : ChunkRow E) :
    (S.orderBy key a b || S.orderBy key b a) = true := by
  rw [Bool.or_eq_true,orderBy_iff,orderBy_iff]
  obtain hlt | heq | hlt := lt_trichotomy (key a) (key b)
  · exact Or.inl (Or.inl hlt)
  · obtain htie | htie := Bool.or_eq_true _ _ ▸ S.tie_total a b
    · exact Or.inl (Or.inr ⟨heq,htie⟩)
    · exact Or.inr (Or.inr ⟨heq.symm,htie⟩)
  · exact Or.inr (Or.inl hlt)

/-- Rows with distinct ids have one order only. -/
theorem mergeSort_eq_of_perm (key : ChunkRow E → ℚ) {rows rows' : List (ChunkRow E)}
    (hperm : rows.Perm rows') (hkey : (rows.map fun row => row.id).Nodup) :
    rows.mergeSort (S.orderBy key) = rows'.mergeSort (S.orderBy key) := by
  have hsorted := List.pairwise_mergeSort (orderBy_trans (S := S) key) (orderBy_total key)
  refine List.Perm.eq_of_pairwise ?_ (hsorted rows) (hsorted rows')
    ((List.mergeSort_perm _ _).trans (hperm.trans (List.mergeSort_perm _ _).symm))
  intro a b ha hb hab hba
  rw [orderBy_iff] at hab hba
  have htie : S.tie a b = true ∧ S.tie b a = true := by
    obtain hlt | ⟨heq,htie⟩ := hab
    · obtain hlt' | ⟨heq',-⟩ := hba
      · exact absurd hlt hlt'.not_gt
      · exact absurd heq'.symm hlt.ne
    · obtain hlt' | ⟨-,htie'⟩ := hba
      · exact absurd heq.symm hlt'.ne
      · exact ⟨htie,htie'⟩
  exact List.inj_on_of_nodup_map hkey (List.mem_mergeSort.mp ha)
    (hperm.mem_iff.mpr (List.mem_mergeSort.mp hb)) (S.tie_id a b htie.1 htie.2)

/-- The dense leg sees the visible rows only. -/
theorem dense_of_visible {rows rows' : List (ChunkRow E)} {caller : Clearance}
    (hsame : (visibleRows caller rows).Perm (visibleRows caller rows'))
    (hkey : (rows.map fun row => row.id).Nodup) (query : String) (k : ℕ) :
    S.dense rows query caller k = S.dense rows' query caller k := by
  have hsort := mergeSort_eq_of_perm (S := S)
    (fun row => S.distance row.embedding (S.embed query)) hsame
    (hkey.sublist (List.filter_sublist.map _))
  simp only [dense,hsort]

/-- The sparse leg sees the visible rows only. -/
theorem sparse_of_visible {rows rows' : List (ChunkRow E)} {caller : Clearance}
    (hsame : (visibleRows caller rows).Perm (visibleRows caller rows'))
    (hkey : (rows.map fun row => row.id).Nodup) (tsqueryFn query : String) (k : ℕ) :
    S.sparse tsqueryFn rows query caller k = S.sparse tsqueryFn rows' query caller k := by
  have hmatched : ((visibleRows caller rows).filter fun row =>
      S.textMatch tsqueryFn query row.content).Perm ((visibleRows caller rows').filter fun row =>
        S.textMatch tsqueryFn query row.content) := hsame.filter _
  have hsub : List.Sublist ((visibleRows caller rows).filter fun row =>
      S.textMatch tsqueryFn query row.content) rows := List.filter_sublist.trans List.filter_sublist
  have hsort := mergeSort_eq_of_perm (S := S)
    (fun row => -S.textRank tsqueryFn query row.content) hmatched (hkey.sublist (hsub.map _))
  simp only [sparse,hsort]

/-- Chunks keep the ids of their rows. -/
theorem ids_map_mapRow (rows : List (ChunkRow E)) (score : ChunkRow E → ℚ) :
    ids (rows.map fun row => S.mapRow row (score row)) = rows.map fun row => row.id := by
  rw [ids,List.map_map]
  rfl

theorem ids_dense_nodup {rows : List (ChunkRow E)} (hkey : (rows.map fun row => row.id).Nodup)
    (query : String) (caller : Clearance) (k : ℕ) : (ids (S.dense rows query caller k)).Nodup := by
  rw [dense,ids_map_mapRow]
  refine List.Nodup.sublist ((List.take_sublist _ _).map _) ?_
  exact ((List.mergeSort_perm _ _).map _).nodup_iff.mpr (hkey.sublist (List.filter_sublist.map _))

theorem ids_sparse_nodup {rows : List (ChunkRow E)} (hkey : (rows.map fun row => row.id).Nodup)
    (tsqueryFn query : String) (caller : Clearance) (k : ℕ) :
    (ids (S.sparse tsqueryFn rows query caller k)).Nodup := by
  rw [sparse,ids_map_mapRow]
  refine List.Nodup.sublist ((List.take_sublist _ _).map _) ?_
  refine ((List.mergeSort_perm _ _).map _).nodup_iff.mpr (hkey.sublist ?_)
  exact (List.filter_sublist.trans List.filter_sublist).map _

end Search

/-- The retriever over a chunk table, with the reranker that is wired in. -/
structure HybridDocumentRetriever (E S : Type) where
  search : Search E
  props : RetrievalProperties
  fusion : ReciprocalRankFusion
  reranker : S

namespace HybridDocumentRetriever
variable {S : Type} (H : HybridDocumentRetriever E S)

/-- The two legs of a table can always be fused. -/
theorem fuse_isSome (t : Tables E) (query : String) (caller : Clearance) :
    ∃ fused, H.fusion.fuse [H.search.dense t.chunk query caller H.props.denseK,
      H.search.sparse H.props.tsqueryFunction t.chunk query caller H.props.sparseK] = some fused := by
  obtain ⟨fused,hfused,-⟩ := @ReciprocalRankFusion.fuse_fused ℚ H.fusion
    [H.search.dense t.chunk query caller H.props.denseK,
      H.search.sparse H.props.tsqueryFunction t.chunk query caller H.props.sparseK] (by
    intro l hl
    obtain rfl | hl := List.mem_cons.mp hl
    · exact Search.ids_dense_nodup t.chunkKey query caller _
    · obtain rfl := List.mem_singleton.mp hl
      exact Search.ids_sparse_nodup t.chunkKey _ query caller _)
  exact ⟨fused,hfused⟩

variable [Reranker S]

def effectiveTopK (topK : ℤ) : ℤ := if 0 < topK then topK else H.props.topK

/-- `retrieve`. -/
def retrieve (t : Tables E) (query : String) (caller : Clearance) (topK : ℤ) : RetrievalResult ℚ :=
  let dense := H.search.dense t.chunk query caller H.props.denseK
  let sparse := H.search.sparse H.props.tsqueryFunction t.chunk query caller H.props.sparseK
  let fused := (H.fusion.fuse [dense,sparse]).getD []
  let reranked := Reranker.rerank H.reranker query fused (H.effectiveTopK topK)
  ⟨reranked,⟨dense.length,sparse.length,fused.length,reranked.length,caller.label⟩⟩

/-- Of the requested number only the effective one counts. -/
theorem retrieve_of_effectiveTopK {t : Tables E} {topK topK' : ℤ}
    (h : H.effectiveTopK topK = H.effectiveTopK topK') (query : String) (caller : Clearance) :
    H.retrieve t query caller topK = H.retrieve t query caller topK' := by
  simp only [retrieve,h]

variable {H}

/-- Retrieval does not depend on rows that the caller must not see. -/
theorem retrieve_of_visible {t t' : Tables E} {caller : Clearance}
    (hsame : (visibleRows caller t.chunk).Perm (visibleRows caller t'.chunk)) (query : String)
    (topK : ℤ) : H.retrieve t query caller topK = H.retrieve t' query caller topK := by
  unfold retrieve
  rw [Search.dense_of_visible hsame t.chunkKey,Search.sparse_of_visible hsame t.chunkKey]

end HybridDocumentRetriever

/-- A caller below sees what a caller above sees, as far as the caller below may. -/
theorem visibleRows_visibleRows {caller above : Clearance} (h : above.atLeast caller = true)
    (rows : List (ChunkRow E)) :
    visibleRows caller (visibleRows above rows) = visibleRows caller rows := by
  have hsub : ∀ label ∈ visibleLabels caller, label ∈ visibleLabels above := by
    revert h
    cases caller <;> cases above <;> decide
  rw [visibleRows,visibleRows,visibleRows,List.filter_filter]
  refine List.filter_congr fun row _ => ?_
  by_cases hrow : row.clearance ∈ visibleLabels caller
  · simp [hrow,hsub _ hrow]
  · simp [hrow]

end AtlasCompliance.RagEngine
