import AtlasCompliance.Java.Units
import AtlasCompliance.RagEngine.Retrieval

/-! The query endpoint of the rag-engine: what it reads of a request, and the JSON of its response. -/
namespace AtlasCompliance.RagEngine
open Java

/-! ### The model of a tier -/

structure ModelTierProperties where
  tier2Model : Option String
  frontierModel : Option String
  frontierEnabled : Bool
  ftTierModel : Option String
  ftTierEnabled : Bool
  deriving DecidableEq

def blankToNull (v : Option String) : Option String := v.filter fun s => !Text.isBlank s

def ModelTierProperties.ofConfigured (tier2Model frontierModel : Option String)
    (frontierEnabled : Bool) (ftTierModel : Option String) (ftTierEnabled : Bool) :
    ModelTierProperties :=
  ⟨blankToNull tier2Model,blankToNull frontierModel,frontierEnabled,blankToNull ftTierModel,
    ftTierEnabled⟩

/-- The model of a tier label; without one the default model answers. The labels are ASCII letters whose
only capitals are ASCII too. -/
def resolveModel (props : ModelTierProperties) (tier : String) : Option String :=
  let normalized := String.ofList ((Text.strip tier).toList.map Char.toLower)
  if normalized = "tier2-mid" then props.tier2Model
  else if normalized = "tier3-frontier" then
    if props.frontierEnabled then props.frontierModel else none
  else if normalized = "tier-ft-citation" then
    if props.ftTierEnabled then props.ftTierModel else none
  else none

/-! ### Requests -/

/-- A missing query is the empty one, which is refused alike. -/
structure QueryRequest where
  query : String
  topK : Option ℤ
  includeContexts : Option Bool
  deriving DecidableEq

namespace QueryRequest

def topKOrDefault (r : QueryRequest) : ℤ := r.topK.getD 0

def includeContextsOrDefault (r : QueryRequest) : Bool := r.includeContexts.getD false

end QueryRequest

/-! ### Responses -/

structure RetrievalTrace where
  denseHits : ℕ
  sparseHits : ℕ
  fused : ℕ
  reranked : ℕ
  clearanceApplied : String

def RetrievalTrace.ofStats (s : RetrievalStats) : RetrievalTrace :=
  ⟨s.denseHits,s.sparseHits,s.fused,s.reranked,s.clearanceApplied⟩

structure ContextChunk where
  chunkId : String
  documentId : String
  clearance : String
  text : String

def ContextChunk.ofChunk {D : Type} (c : RetrievedChunk D) : ContextChunk :=
  ⟨String.ofList c.id.text,String.ofList c.documentId.text,c.clearance,c.content⟩

structure QueryResponse where
  answer : Option String
  citations : List (Citation ℚ)
  retrieval : RetrievalTrace
  contexts : Option (List ContextChunk)
  usage : Option TokenUsage

/-- `QueryResponse.from`. -/
def QueryResponse.ofResult (result : QaResult ℚ) (includeContexts : Bool) : QueryResponse :=
  ⟨result.answer,result.citations,RetrievalTrace.ofStats result.retrieval,
    if includeContexts then some (result.contexts.map ContextChunk.ofChunk) else none,result.usage⟩

section Serialisation

/-- A value that may be null. -/
def nullable {α : Type} (f : α → Json) (v : Option α) : Json := (v.map f).getD .null

/-- A member that is left out if it is null. -/
def member {α : Type} (name : String) (f : α → Json) (v : Option α) : List (String × Json) :=
  (v.map fun a => (name,f a)).toList

/-- Half of a surrogate pair, with which a snippet can end, stands as U+FFFD. -/
def Citation.toJson (c : Citation ℚ) : Json := .obj [("marker",.num c.marker),
  ("chunkId",.str (String.ofList c.chunkId.text)),
  ("documentId",.str (String.ofList c.documentId.text)),("docId",nullable Json.str c.docId),
  ("title",nullable Json.str c.title),("sourceUri",nullable Json.str c.sourceUri),
  ("clearance",.str c.clearance),("score",.num c.score),
  ("snippet",.str (String.ofList (Text.ofUnits c.snippet)))]

def RetrievalTrace.toJson (t : RetrievalTrace) : Json := .obj [("denseHits",.num t.denseHits),
  ("sparseHits",.num t.sparseHits),("fused",.num t.fused),("reranked",.num t.reranked),
  ("clearanceApplied",.str t.clearanceApplied)]

def ContextChunk.toJson (c : ContextChunk) : Json := .obj [("chunkId",.str c.chunkId),
  ("documentId",.str c.documentId),("clearance",.str c.clearance),("text",.str c.text)]

def TokenUsage.toJson (u : TokenUsage) : Json :=
  .obj [("promptTokens",nullable (fun n : ℤ => .num n) u.promptTokens),
    ("completionTokens",nullable (fun n : ℤ => .num n) u.completionTokens)]

def QueryResponse.toJson (r : QueryResponse) : Json := .obj (
  member "answer" Json.str r.answer ++
    ("citations",.arr (r.citations.map Citation.toJson))::("retrieval",r.retrieval.toJson)::
      (member "contexts" (fun cs => .arr (cs.map ContextChunk.toJson)) r.contexts ++
        member "usage" TokenUsage.toJson r.usage))

end Serialisation

/-- The controller over the service and the models of the tiers. -/
structure QueryController where
  service : QueryService ℚ
  tiers : ModelTierProperties

/-- `query` with the verified clearance, the tier and the output limit of the two headers; a blank query
is refused. -/
def QueryController.query (C : QueryController) (caller : Clearance) (tier : String)
    (maxOutputTokens : ℤ) (request : QueryRequest) : Option QueryResponse :=
  if Text.isBlank request.query then none
  else
    let max := if 0 < maxOutputTokens then some maxOutputTokens else none
    let answered := C.service.answer request.query caller request.topKOrDefault
      (resolveModel C.tiers tier) max
    some (QueryResponse.ofResult answered.result request.includeContextsOrDefault)

end AtlasCompliance.RagEngine
