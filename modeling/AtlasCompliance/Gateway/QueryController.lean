import AtlasCompliance.Auth.Tokens
import AtlasCompliance.Gateway.Budget
import AtlasCompliance.Gateway.RateLimiter
import AtlasCompliance.Gateway.Routing
import AtlasCompliance.Gateway.Safety
import AtlasCompliance.Lib.Handling

/-! The query controller of the gateway, from a verified caller to the response. Every call it makes
can fail, before or after it had its effect on Redis. -/
namespace AtlasCompliance.Gateway
open Java Expiring Handling Auth

/-- A missing query is the empty one, which is refused alike. -/
structure GatewayQueryRequest where
  query : String
  topK : Option ℤ
  includeContexts : Option Bool
  deriving DecidableEq

/-- What the controller reads of an HTTP request. -/
structure HttpRequest where
  body : Option GatewayQueryRequest
  caller : Option CallerClearance
  qualityHint : Option String
  ftHint : Option String

/-- The calls that can fail, in the order in which they are made. -/
inductive Call
  | tryAcquire
  | budgetGet
  | embed
  | lookupCreate
  | ftSearch
  | retryCreate
  | retrySearch
  | sign
  | ragEngine
  | breaker
  | putCreate
  | hset
  | expire
  | incrByFloat
  | budgetExpire
  | recordCost
  | recordRedaction
  | recordRequest
  deriving DecidableEq

inductive Failure
  | responseStatus (code : ℕ) (reason : String)
  | downstreamUnavailable
  | jedisData (message : String)
  | outside (message : String)
  deriving DecidableEq

/-- How a call fails: whether it was carried out before it threw. -/
structure Fault where
  failure : Failure
  executed : Bool

/-- What a request meets: its faults, the time at which each call runs, the stamp of the rate limiter
and the times at which the two day keys are computed, and the latency it is told. -/
structure Outside where
  fault : Call → Option Fault
  clock : Call → ℕ
  stamp : ℕ
  checkedAt : ℕ
  recordedAt : ℕ
  latencyMs : ℚ

/-- What the rag-engine is asked: for whom, on which tier, and the redacted request. -/
structure Asked where
  caller : CallerClearance
  tier : ModelTier
  request : GatewayQueryRequest
  deriving DecidableEq

/-- The fields of one key of the semantic cache, and what was asked when it was stored, which nothing
reads. -/
structure CachedEntry where
  embedding : List ℚ
  clearance : String
  corpusVersion : String
  answer : String
  model : String
  asked : Asked
  deriving DecidableEq

/-- A hit, and what was asked when its entry was stored. -/
structure CacheHit where
  answerJson : String
  model : String
  similarity : ℚ
  asked : Asked

/-- Redis, the flag of the cache that its index is there, and a record of the bodies that the
rag-engine has returned and of the hits so far, which nothing reads. -/
structure Server where
  buckets : BucketDb
  budgets : String → RedisBudgetGuard.Cell
  cache : List (Entry ℕ CachedEntry)
  indexReady : Bool
  answers : List (Asked × Json)
  hits : List CacheHit

/-- A command on one key of the budgets. -/
def Server.onBudget (s : Server) (key : String)
    (f : RedisBudgetGuard.Cell → RedisBudgetGuard.Cell) : Server :=
  {s with budgets := Function.update s.budgets key (f (s.budgets key))}

structure CacheProperties where
  enabled : Bool
  simThreshold : ℚ
  ttlSeconds : ℕ
  corpusVersion : String

def CacheProperties.ofConfigured (enabled : Bool) (simThreshold : ℚ) (ttlSeconds : ℤ)
    (corpusVersion : Option String) : CacheProperties :=
  ⟨enabled,if 0 < simThreshold then simThreshold else 0.95,
    if 0 < ttlSeconds then ttlSeconds.toNat else 86400,blankTo corpusVersion "v1"⟩

/-- The nearest entry and its similarity; a search finds only what is there. -/
structure VectorSearch where
  nearest : List ℚ → List CachedEntry → Option (CachedEntry × ℚ)
  nearest_mem : ∀ {vec es r}, nearest vec es = some r → r.1 ∈ es

/-- The controller with what it is wired to; without a limiter or a budget guard all is allowed and
nothing recorded. -/
structure GatewayQueryController where
  rateLimiter : Option RedisRateLimiter
  requestLimits : RequestLimits
  costs : CostProperties
  budgetGuard : Option RedisBudgetGuard
  safety : SafetyProperties
  cacheProps : CacheProperties
  search : VectorSearch
  embed : String → List ℚ
  router : ModelRouter
  ragEngine : CallerClearance → ModelTier → ℤ → GatewayQueryRequest → Option Json
  jackson : Jackson

section Calls
variable {α : Type} (o : Outside)

/-- A call with an effect on the server. -/
def perform (call : Call) (f : Server → Server) : Handler Server Failure Unit :=
  match o.fault call with
  | none => modify f
  | some ⟨e,true⟩ => do
    modify f
    throw e
  | some ⟨e,false⟩ => throw e

/-- A call that only answers. -/
def ask (call : Call) (f : Server → α) : Handler Server Failure α :=
  match o.fault call with
  | none => do
    let s ← get
    pure (f s)
  | some fault => throw fault.failure

/-- `ResponseStatusException` unless the condition holds. -/
def require (ok : Bool) (code : ℕ) (reason : String) : Handler Server Failure Unit :=
  if ok then pure () else throw (.responseStatus code reason)

def present (code : ℕ) (reason : String) : Option α → Handler Server Failure α
  | some a => pure a
  | none => throw (.responseStatus code reason)

end Calls

namespace RedisSemanticCache
variable (o : Outside)

def KEY_PREFIX : String := "atlas:cache:"

/-- The message mentions `needle`, case ignored. -/
def mentions (message needle : String) : Bool :=
  decide (needle.toList <:+: message.toList.map Char.toLower)

/-- An index that is there already is as good as a new one. -/
def created : Failure → Handler Server Failure Unit
  | .jedisData message =>
    if mentions message "already exists" then pure () else throw (.jedisData message)
  | .responseStatus code reason => throw (.responseStatus code reason)
  | .downstreamUnavailable => throw .downstreamUnavailable
  | .outside message => throw (.outside message)

def ensureIndex (call : Call) : Handler Server Failure Unit := do
  let s ← get
  match s.indexReady with
  | true => pure ()
  | false => do
    tryCatch (perform o call id) created
    modify fun s => {s with indexReady := true}

/-- The entries that the search looks at: live ones with the two tags. -/
def partition (clearance corpusVersion : String) (now : ℕ) (cache : List (Entry ℕ CachedEntry)) :
    List CachedEntry :=
  ((cache.filter fun e => e.Live now).map Entry.value).filter fun e =>
    e.clearance = clearance ∧ e.corpusVersion = corpusVersion

/-- The nearest entry, if it is of the caller's clearance and near enough. -/
def topHit (simThreshold : ℚ) (clearance : String) : Option (CachedEntry × ℚ) → Option CacheHit
  | none => none
  | some (e,similarity) =>
    if e.clearance ≠ clearance then none
    else if similarity < simThreshold then none
    else some ⟨e.answer,e.model,similarity,e.asked⟩

section Lookup
variable (props : CacheProperties) (search : VectorSearch) (clearance : String) (queryVec : List ℚ)

/-- The hit that a search at `now` finds. -/
def found (now : ℕ) (s : Server) : Option CacheHit :=
  topHit props.simThreshold clearance
    (search.nearest queryVec (partition clearance props.corpusVersion now s.cache))

/-- A data error of the second search is a miss. -/
def missed : Failure → Handler Server Failure (Option CacheHit)
  | .jedisData _ => pure none
  | .responseStatus code reason => throw (.responseStatus code reason)
  | .downstreamUnavailable => throw .downstreamUnavailable
  | .outside message => throw (.outside message)

/-- The index was lost: it is created again and searched once more. -/
def retry : Handler Server Failure (Option CacheHit) := do
  modify fun s => {s with indexReady := false}
  ensureIndex o .retryCreate
  tryCatch (ask o .retrySearch
    (found props search clearance queryVec (o.clock .retrySearch))) missed

/-- A data error of the first search is a miss, unless it tells of a missing index. -/
def recover : Failure → Handler Server Failure (Option CacheHit)
  | .jedisData message =>
    if mentions message "no such index" then retry o props search clearance queryVec else pure none
  | .responseStatus code reason => throw (.responseStatus code reason)
  | .downstreamUnavailable => throw .downstreamUnavailable
  | .outside message => throw (.outside message)

def lookup : Handler Server Failure (Option CacheHit) :=
  match queryVec with
  | [] => pure none
  | _::_ => do
    ensureIndex o .lookupCreate
    tryCatch (ask o .ftSearch (found props search clearance queryVec (o.clock .ftSearch)))
      (recover o props search clearance queryVec)

end Lookup

/-- `EXPIRE` on the entry stored last. -/
def expireLast (now ttlSeconds : ℕ) : List (Entry ℕ CachedEntry) → List (Entry ℕ CachedEntry)
  | [] => []
  | [e] => [write now (some (ttlSeconds*1000)) e.value]
  | e::e'::rest => e::expireLast now ttlSeconds (e'::rest)

def put (props : CacheProperties) (asked : Asked) (queryVec : List ℚ) (answerJson : String)
    (model : Option String) : Handler Server Failure Unit :=
  match queryVec with
  | [] => pure ()
  | x::xs => do
    ensureIndex o .putCreate
    perform o .hset fun s => {s with cache := s.cache ++
      [⟨⟨x::xs,asked.caller.clearance.label,props.corpusVersion,answerJson,model.getD "",asked⟩,none⟩]}
    perform o .expire fun s =>
      {s with cache := expireLast (o.clock .expire) props.ttlSeconds s.cache}

end RedisSemanticCache

namespace GatewayQueryController
variable (G : GatewayQueryController) (o : Outside)

/-- The rate limit of the user, if there is one. -/
def rateLimited (user : String) : Handler Server Failure Unit :=
  match G.rateLimiter with
  | none => pure ()
  | some limiter => do
    let s ← get
    let r := limiter.tryAcquire RedisRateLimiter.keyTtl s.buckets
      ⟨user,o.stamp,o.clock .tryAcquire⟩
    perform o .tryAcquire fun s => {s with buckets := r.1}
    require r.2 429 "rate limit exceeded"

def validateInputSize (query : String) : Handler Server Failure Unit :=
  require (decide ((RequestLimits.estimateTokens query : ℤ) ≤ G.requestLimits.maxInputTokens)) 413
    ("query exceeds the maximum input size (" ++ toString G.requestLimits.maxInputTokens ++ " tokens)")

/-- The cost that the budget check asks about: the estimated prompt at the small tier. -/
def estimatedCost (query : String) : ℚ :=
  CostTable.costUnits G.costs .TIER1_SMALL (RequestLimits.estimateTokens query)
    G.requestLimits.maxOutputTokens

def budgetChecked (user : String) (estimatedCost : ℚ) : Handler Server Failure Unit :=
  match G.budgetGuard with
  | none => pure ()
  | some guard => do
    let spent ← ask o .budgetGet fun s => read (o.clock .budgetGet)
      (s.budgets (RedisBudgetGuard.key user (LocalDate.now o.checkedAt)))
    require (!RedisBudgetGuard.wouldExceed guard.dailyCapUnits spent estimatedCost) 402
      "daily budget exceeded"

/-- `redactIngress`. -/
def redactIngress (request : GatewayQueryRequest) : GatewayQueryRequest :=
  if G.safety.piiEnabled then
    {request with query :=
      String.ofList (PiiRedactor.redact G.safety.nameDenylist request.query.toList).text}
  else request

/-- The vector of the query and the hit in the cache, if the cache is on. -/
def consultCache (clearance query : String) : Handler Server Failure (List ℚ × Option CacheHit) :=
  match G.cacheProps.enabled with
  | false => pure ([],none)
  | true => do
    perform o .embed id
    let hit ← RedisSemanticCache.lookup o G.cacheProps G.search clearance (G.embed query)
    modify fun s => {s with hits := s.hits ++ hit.toList}
    pure (G.embed query,hit)

/-- The body that the rag-engine returns under the output limit. -/
def ragAnswer (asked : Asked) : Option Json :=
  G.ragEngine asked.caller asked.tier G.requestLimits.maxOutputTokens asked.request

/-- The call of the rag-engine inside the circuit breaker, which may not make it (a fault of the call)
or not hand its body on; any failure is one of the service. -/
def proxied (asked : Asked) : Handler Server Failure (Option Json) :=
  tryCatch (do
    perform o .ragEngine id
    modify fun s =>
      {s with answers := s.answers ++ ((G.ragAnswer asked).map fun body => (asked,body)).toList}
    perform o .breaker id
    pure (G.ragAnswer asked)) fun _ => throw .downstreamUnavailable

/-- A missing body is not stored. -/
def cachePut (asked : Asked) (queryVec : List ℚ) (model : Option String) :
    Option Json → Handler Server Failure Unit
  | none => pure ()
  | some answer => match G.cacheProps.enabled with
    | false => pure ()
    | true => RedisSemanticCache.put o G.cacheProps asked queryVec (G.jackson.toString answer) model

/-- The text of the answer, if it is not null. -/
def answerText (answer : Option Json) : String :=
  ((answer.bind (nonNull? "answer")).map G.jackson.asText).getD ""

/-- `usage.path(name).asInt(0)`. -/
def usageInt (name : String) (usage : Json) : ℤ := ((usage.get? name).map G.jackson.asInt).getD 0

/-- The tokens that were used, or an estimate where the answer does not say. -/
def tokens (answer : Option Json) (inputTokensEstimate : ℕ) : ℤ × ℤ :=
  let estimate : ℤ × ℤ := (inputTokensEstimate,RequestLimits.estimateTokens (G.answerText answer))
  match answer.bind (Json.get? "usage") with
  | none => estimate
  | some usage =>
    if 0 < G.usageInt "promptTokens" usage ∨ 0 < G.usageInt "completionTokens" usage then
      (G.usageInt "promptTokens" usage,G.usageInt "completionTokens" usage)
    else estimate

/-- The units that an answer of a tier costs. -/
def costUnits (tier : ModelTier) (query : String) (answer : Option Json) : ℚ :=
  let t := G.tokens answer (RequestLimits.estimateTokens query)
  CostTable.costUnits G.costs tier t.1 t.2

/-- `RedisBudgetGuard.record`. -/
def record (user : String) (actualCost : ℚ) : Handler Server Failure Unit :=
  match G.budgetGuard with
  | none => pure ()
  | some _ =>
    if actualCost ≤ 0 then pure ()
    else do
      let key := RedisBudgetGuard.key user (LocalDate.now o.recordedAt)
      perform o .incrByFloat fun s =>
        s.onBudget key (RedisBudgetGuard.incrByFloat (o.clock .incrByFloat) actualCost)
      perform o .budgetExpire fun s =>
        s.onBudget key (RedisBudgetGuard.expire (o.clock .budgetExpire))

/-- The body with its texts cleansed and its sections set; a missing body stays missing. -/
def envelope (answer : Option Json) (sections : Counts → Meta) : Option Json :=
  answer.map fun body =>
    let r := applyEgressSafety G.jackson G.safety body
    withSections r.1 (sections r.2)

/-- The sections of a hit. -/
def hitMeta (hit : CacheHit) (counts : Counts) : Meta :=
  ⟨"cache",some hit.model,false,true,hit.similarity,counts,0,0,0,o.latencyMs⟩

/-- The sections of an answer of the rag-engine. -/
def missMeta (decision : RoutingDecision) (tokens : ℤ × ℤ) (costUnits : ℚ) (counts : Counts) : Meta :=
  ⟨decision.tier.label,decision.model,decision.escalated,false,0,counts,tokens.1,tokens.2,costUnits,
    o.latencyMs⟩

/-- `fromCache` and the meters of a hit. -/
def fromCache (hit : CacheHit) : Handler Server Failure (Option Json) := do
  let body ← present 500 "cache decode error" (G.jackson.readTree hit.answerJson)
  perform o .recordRedaction id
  perform o .recordRequest id
  pure (G.envelope (some body) (hitMeta o hit))

/-- The meters of a miss. -/
def reported (response : Option Json) : Handler Server Failure (Option Json) := do
  perform o .recordCost id
  perform o .recordRedaction id
  perform o .recordRequest id
  pure response

/-- A miss: the tier, the rag-engine, the cache, the charge and the meters. -/
def answered (caller : CallerClearance) (http : HttpRequest) (request : GatewayQueryRequest)
    (queryVec : List ℚ) : Handler Server Failure (Option Json) := do
  let safeRequest := G.redactIngress request
  let decision := G.router.route safeRequest.query http.qualityHint http.ftHint
  perform o .sign id
  let answer ← G.proxied o ⟨caller,decision.tier,safeRequest⟩
  G.cachePut o ⟨caller,decision.tier,safeRequest⟩ queryVec decision.model answer
  let costUnits := G.costUnits decision.tier request.query answer
  G.record o caller.subject costUnits
  reported o (G.envelope answer (missMeta o decision
    (G.tokens answer (RequestLimits.estimateTokens request.query)) costUnits))

/-- What follows the checks: the cache, and the rag-engine where the cache has nothing. -/
def served (caller : CallerClearance) (http : HttpRequest) (request : GatewayQueryRequest) :
    Handler Server Failure (Option Json) := do
  let looked ← G.consultCache o caller.clearance.label (G.redactIngress request).query
  match looked.2 with
  | some hit => G.fromCache o hit
  | none => G.answered o caller http request looked.1

/-- `query`. -/
def query (http : HttpRequest) : Handler Server Failure (Option Json) := do
  let request ← present 400 "query is required"
    (http.body.filter fun r => !Text.isBlank r.query)
  let caller ← present 401 "missing verified clearance" http.caller
  G.rateLimited o caller.subject
  G.validateInputSize request.query
  G.budgetChecked o caller.subject (G.estimatedCost request.query)
  G.served o caller http request

/-! ### Runs -/

/-- Nothing in Redis, and no index known. -/
def start : Server := ⟨noBuckets,fun _ => none,[],false,[],[]⟩

/-- A request, or the loss of all that Redis holds. -/
inductive Event
  | request (http : HttpRequest) (o : Outside)
  | flush

def step (s : Server) : Event → Option Server
  | .request http o => some (exec (G.query o http) s).2
  | .flush => some {s with buckets := noBuckets, budgets := fun _ => none, cache := []}

end GatewayQueryController

end AtlasCompliance.Gateway
