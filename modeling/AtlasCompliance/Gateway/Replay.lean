import AtlasCompliance.Gateway.Egress
import AtlasCompliance.RagEngine.QueryApi

/-! The gateway in front of the rag-engine, and what an entry of the cache stands for: a replayed body is
the one that the rag-engine would write again when it reads the same of both requests. -/
namespace AtlasCompliance.Gateway
open Java Auth Handling

/-- The rag-engine as it is wired: its retriever, the guardrail, a chat model that answers a prompt in one
way only, and the models of the tiers. -/
structure RagEngineWiring (E S : Type) where
  retriever : RagEngine.HybridDocumentRetriever E S
  guardrail : RagEngine.InjectionGuardrail
  chatModel : RagEngine.Prompt → RagEngine.ChatResponse
  tiers : RagEngine.ModelTierProperties

namespace RagEngineWiring
variable {E S : Type} [RagEngine.Reranker S] (R : RagEngineWiring E S) (t : RagEngine.Tables E)

/-- The controller over a corpus. -/
def controller : RagEngine.QueryController :=
  ⟨⟨R.retriever.retrieve t,R.guardrail,R.chatModel⟩,R.tiers⟩

/-- `RagEngineClient.query`: the clearance travels in the signed assertion, the tier and the limit in
headers. -/
def query (caller : CallerClearance) (tier : ModelTier) (maxOutputTokens : ℤ)
    (request : GatewayQueryRequest) : Option Json :=
  ((R.controller t).query caller.clearance tier.label maxOutputTokens
    ⟨request.query,request.topK,request.includeContexts⟩).map RagEngine.QueryResponse.toJson

/-- Two requests of which the rag-engine reads the same: the number of chunks and the contexts with
their defaults, and the model behind the tier. -/
structure Alike (a b : Asked) : Prop where
  topK : R.retriever.effectiveTopK (a.request.topK.getD 0) =
    R.retriever.effectiveTopK (b.request.topK.getD 0)
  includeContexts : a.request.includeContexts.getD false = b.request.includeContexts.getD false
  model : RagEngine.resolveModel R.tiers a.tier.label = RagEngine.resolveModel R.tiers b.tier.label

variable {R t}

/-- Alike requests for the same text and clearance get the same body. -/
theorem Alike.query_eq {a b : Asked} (h : R.Alike a b) (hquery : a.request.query = b.request.query)
    (hclearance : a.caller.clearance = b.caller.clearance) (maxOutputTokens : ℤ) :
    R.query t a.caller a.tier maxOutputTokens a.request =
      R.query t b.caller b.tier maxOutputTokens b.request := by
  have hanswer : (R.controller t).service.answer b.request.query b.caller.clearance
      (a.request.topK.getD 0) = (R.controller t).service.answer b.request.query b.caller.clearance
        (b.request.topK.getD 0) :=
    RagEngine.QueryService.answer_of_retrieved (R.retriever.retrieve_of_effectiveTopK h.topK _ _)
      rfl rfl
  unfold query RagEngine.QueryController.query RagEngine.QueryRequest.topKOrDefault
    RagEngine.QueryRequest.includeContextsOrDefault
  rw [hquery,hclearance,hanswer,h.includeContexts]
  simp only [controller,h.model]

end RagEngineWiring

namespace GatewayQueryController
variable {E S : Type} [RagEngine.Reranker S] {R : RagEngineWiring E S} {corpus : RagEngine.Tables E}
  {G : GatewayQueryController} {o : Outside} {http : HttpRequest} {s t : Server}

end GatewayQueryController

/-! ### An empty corpus -/

/-- A search that tells rows by their ids; no row of the empty corpus is ever ranked. -/
def idSearch : RagEngine.Search Unit where
  embed := fun _ => []
  distance := fun _ _ => 0
  textMatch := fun _ _ _ => false
  textRank := fun _ _ _ => 0
  valueText := fun _ => ""
  tie := fun a b => decide (a.id.bits ≤ b.id.bits)
  tie_trans := fun a b c hab hbc => by
    simp only [decide_eq_true_eq] at hab hbc ⊢
    exact BitVec.le_trans hab hbc
  tie_total := fun a b => by
    simp only [Bool.or_eq_true,decide_eq_true_eq]
    exact BitVec.le_total _ _
  tie_id := fun a b hab hba => by
    simp only [decide_eq_true_eq] at hab hba
    have hbits : a.id.bits = b.id.bits := BitVec.le_antisymm hab hba
    cases ha : a.id
    cases hb : b.id
    rw [ha,hb] at hbits
    exact congrArg RagEngine.UUID.mk hbits

/-- The default configuration. -/
def defaultWiring : RagEngineWiring Unit RagEngine.RrfPassThroughReranker where
  retriever := ⟨idSearch,RagEngine.RetrievalProperties.ofConfigured none none none none none none,
    ⟨60,by decide⟩,⟨⟩⟩
  guardrail := .new asciiCasing true RagEngine.DEFAULT_PHRASES
  chatModel := fun _ => ⟨none,none⟩
  tiers := .ofConfigured (some "qwen2.5:7b-instruct") none false none false

/-- The body of a refusal. -/
def refusal (clearance : Clearance) (includeContexts : Bool) : Json := .obj (
  [("answer",.str RagEngine.NO_AUTHORIZED_INFO),("citations",.arr []),
    ("retrieval",.obj [("denseHits",.num 0),("sparseHits",.num 0),("fused",.num 0),
      ("reranked",.num 0),("clearanceApplied",.str clearance.label)])] ++
    if includeContexts then [("contexts",.arr [])] else [])

/-- Its text. -/
def refusalText (clearance : Clearance) (includeContexts : Bool) : String :=
  "\x7b\"answer\":\"" ++ RagEngine.NO_AUTHORIZED_INFO ++ "\",\"citations\":[],\"retrieval\":" ++
    "\x7b\"denseHits\":0,\"sparseHits\":0,\"fused\":0,\"reranked\":0,\"clearanceApplied\":\"" ++
    clearance.label ++ "\"\x7d" ++ (if includeContexts then ",\"contexts\":[]" else "") ++ "\x7d"

/-- The refusals with their texts. -/
def refusals : List (Json × String) :=
  (Clearance.values.product [false,true]).map fun p => (refusal p.1 p.2,refusalText p.1 p.2)

open GatewayQueryController in
/-- What the JSON library does with texts and the refusals. -/
def refusalJackson : Jackson := {jacksonOf "" .null with
  toString := fun j => (refusals.lookup j).getD ""
  readTree := fun text => (refusals.find? fun p => decide (p.2 = text)).map Prod.fst}

namespace GatewayQueryController

/-- The gateway in front of the empty corpus. -/
def refusing : GatewayQueryController := {gatewayOf true "" .null with
  ragEngine := defaultWiring.query .empty
  jackson := refusalJackson}

end GatewayQueryController

end AtlasCompliance.Gateway
