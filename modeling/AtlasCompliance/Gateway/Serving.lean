import AtlasCompliance.Gateway.QueryController
import AtlasCompliance.Lib.Transition

/-! What each call of the query controller does to the server and what its result tells, up to the two
ways in which a response comes about. -/
namespace AtlasCompliance.Gateway
open Java Expiring Handling Auth

section Calls
variable {α P : Type} {o : Outside} {call : Call} {s t : Server} {p : Server → P}

theorem keeps_perform {f : Server → Server} (h : ∀ s, p (f s) = p s) :
    Keeps p (perform o call f) := by
  unfold perform
  split
  · exact keeps_modify h
  · exact (keeps_modify h).bind fun _ => keeps_throw p _
  · exact keeps_throw p _

theorem preserves_perform {I : Server → Prop} {f : Server → Server} (h : ∀ s, I s → I (f s)) :
    Preserves I (perform o call f) := by
  unfold perform
  split
  · exact preserves_modify h
  · exact (preserves_modify h).bind fun _ => preserves_throw I _
  · exact preserves_throw I _

theorem exec_perform {f : Server → Server} (hfault : o.fault call = none) :
    exec (perform o call f) s = (.ok (),f s) := by
  unfold perform
  rw [hfault]
  rfl

/-- A call without an effect fails with its fault. -/
theorem exec_perform_id {fault : Fault} (hfault : o.fault call = some fault) :
    exec (perform o call id) s = (.error fault.failure,s) := by
  unfold perform
  rw [hfault]
  obtain ⟨e,executed⟩ := fault
  cases executed <;> rfl

/-- A call that returned was carried out. -/
theorem perform_ok {f : Server → Server} {u : Unit} (h : exec (perform o call f) s = (.ok u,t)) :
    o.fault call = none ∧ t = f s := by
  cases hfault : o.fault call with
  | none =>
    rw [exec_perform hfault] at h
    exact ⟨rfl,(Prod.mk.inj h).2.symm⟩
  | some fault =>
    exfalso
    unfold perform at h
    rw [hfault] at h
    obtain ⟨e,executed⟩ := fault
    cases executed with
    | true =>
      rw [exec_bind_ok (exec_modify f s),exec_throw] at h
      cases (Prod.mk.inj h).1
    | false => cases (Prod.mk.inj h).1

theorem keeps_ask {f : Server → α} : Keeps p (ask o call f) := by
  unfold ask
  split
  · exact (keeps_get p).bind fun s => keeps_pure p _
  · exact keeps_throw p _

theorem exec_ask {f : Server → α} (hfault : o.fault call = none) :
    exec (ask o call f) s = (.ok (f s),s) := by
  unfold ask
  rw [hfault]
  rfl

theorem keeps_require {ok : Bool} {code : ℕ} {reason : String} : Keeps p (require ok code reason) := by
  unfold require
  exact (keeps_pure p _).ite (keeps_throw p _)

theorem require_ok {ok : Bool} {code : ℕ} {reason : String} {u : Unit}
    (h : exec (require ok code reason) s = (.ok u,t)) : ok = true ∧ t = s := by
  cases ok with
  | true => exact ⟨rfl,(Prod.mk.inj h).2.symm⟩
  | false => cases (Prod.mk.inj h).1

theorem keeps_present {code : ℕ} {reason : String} {a : Option α} :
    Keeps p (present code reason a) := by
  cases a with
  | none => exact keeps_throw p _
  | some a => exact keeps_pure p a

theorem present_ok {code : ℕ} {reason : String} {a : Option α} {b : α}
    (h : exec (present code reason a) s = (.ok b,t)) : a = some b ∧ t = s := by
  cases a with
  | none => cases (Prod.mk.inj h).1
  | some a =>
    obtain ⟨ha,ht⟩ := Prod.mk.inj h
    exact ⟨congrArg some (Except.ok.inj ha),ht.symm⟩

end Calls

/-! ### The cache -/

namespace RedisSemanticCache
variable {o : Outside} {props : CacheProperties} {search : VectorSearch} {clearance : String}
  {queryVec : List ℚ} {s t : Server}

/-- The server but for what the cache knows of its index. -/
def data (s : Server) : Server := {s with indexReady := true}

theorem keeps_created {P : Type} {p : Server → P} (e : Failure) : Keeps p (created e) := by
  cases e with
  | jedisData message => exact (keeps_pure p _).ite (keeps_throw p _)
  | responseStatus | downstreamUnavailable | outside => exact keeps_throw p _

theorem keeps_ensureIndex (call : Call) : Keeps data (ensureIndex o call) := by
  refine (keeps_get data).bind fun s => ?_
  cases s.indexReady with
  | true => exact keeps_pure data _
  | false =>
    exact ((keeps_perform fun _ => rfl).tryCatch fun e => keeps_created e).bind
      fun _ => keeps_modify fun _ => rfl

theorem ensureIndex_ok {call : Call} {u : Unit} (h : exec (ensureIndex o call) s = (.ok u,t)) :
    t.indexReady = true := by
  unfold ensureIndex at h
  rw [exec_bind_ok (exec_get s)] at h
  cases hready : s.indexReady with
  | true =>
    rw [hready] at h
    rw [← (Prod.mk.inj h).2,hready]
  | false =>
    rw [hready] at h
    obtain ⟨_,r,-,hmodify⟩ := exec_bind_eq_ok.mp h
    rw [exec_modify] at hmodify
    rw [← (Prod.mk.inj hmodify).2]

theorem exec_ensureIndex_of_ready {call : Call} (hready : s.indexReady = true) :
    exec (ensureIndex o call) s = (.ok (),s) := by
  unfold ensureIndex
  rw [exec_bind_ok (exec_get s),hready]
  rfl

theorem cache_of_data (h : data t = data s) : t.cache = s.cache :=
  (congrArg Server.cache h : (data t).cache = (data s).cache)

theorem keeps_missed {P : Type} {p : Server → P} (e : Failure) : Keeps p (missed e) := by
  cases e with
  | jedisData message => exact keeps_pure p _
  | responseStatus | downstreamUnavailable | outside => exact keeps_throw p _

theorem keeps_retry : Keeps data (retry o props search clearance queryVec) := by
  refine Keeps.bind (keeps_modify fun _ => rfl) fun _ => ?_
  exact (keeps_ensureIndex .retryCreate).bind fun _ => keeps_ask.tryCatch fun e => keeps_missed e

theorem keeps_recover (e : Failure) : Keeps data (recover o props search clearance queryVec e) := by
  cases e with
  | jedisData message => exact keeps_retry.ite (keeps_pure data _)
  | responseStatus | downstreamUnavailable | outside => exact keeps_throw data _

theorem keeps_lookup : Keeps data (lookup o props search clearance queryVec) := by
  cases queryVec with
  | nil => exact keeps_pure data _
  | cons x xs =>
    exact (keeps_ensureIndex .lookupCreate).bind fun _ =>
      keeps_ask.tryCatch fun e => keeps_recover e

theorem found_of_data {now : ℕ} (h : data t = data s) :
    found props search clearance queryVec now t = found props search clearance queryVec now s := by
  unfold found
  rw [cache_of_data h]

/-- A call whose failure is caught returns what it or the handler of the failure returns. -/
theorem tryCatch_ask_ok {α : Type} {call : Call} {f : Server → α}
    {g : Failure → Handler Server Failure α} {a : α}
    (h : exec (tryCatch (ask o call f) g) s = (.ok a,t)) :
    a = f s ∧ t = s ∨ ∃ e, exec (g e) s = (.ok a,t) := by
  cases hfault : o.fault call with
  | none =>
    rw [exec_tryCatch_ok (exec_ask hfault)] at h
    obtain ⟨ha,ht⟩ := Prod.mk.inj h
    exact Or.inl ⟨(Except.ok.inj ha).symm,ht.symm⟩
  | some fault =>
    have hthrow : exec (ask o call f) s = (.error fault.failure,s) := by
      unfold ask
      rw [hfault]
      rfl
    rw [exec_tryCatch_error hthrow] at h
    exact Or.inr ⟨fault.failure,h⟩

theorem missed_ok {e : Failure} {r : Option CacheHit} (h : exec (missed e) s = (.ok r,t)) :
    r = none ∧ t = s := by
  cases e with
  | jedisData message =>
    obtain ⟨hr,ht⟩ := Prod.mk.inj h
    exact ⟨(Except.ok.inj hr).symm,ht.symm⟩
  | responseStatus | downstreamUnavailable | outside => cases (Prod.mk.inj h).1

/-- A lookup that returns has found its answer in the cache as it was, or has none; it leaves the index
known. -/
structure Looked (props : CacheProperties) (search : VectorSearch) (clearance : String)
    (queryVec : List ℚ) (s t : Server) (r : Option CacheHit) : Prop where
  found : r = none ∨ ∃ now, found props search clearance queryVec now s = r
  ready : queryVec ≠ [] → t.indexReady = true

theorem retry_ok {r : Option CacheHit}
    (h : exec (retry o props search clearance queryVec) s = (.ok r,t)) :
    Looked props search clearance queryVec s t r := by
  unfold retry at h
  rw [exec_bind_ok (exec_modify _ s)] at h
  obtain ⟨_,q,hindex,hsearch⟩ := exec_bind_eq_ok.mp h
  have hdata : data q = data s := by
    have hkept := keeps_ensureIndex (o := o) .retryCreate {s with indexReady := false}
    rw [hindex] at hkept
    exact hkept
  have hready := ensureIndex_ok hindex
  obtain ⟨rfl,rfl⟩ | ⟨e,hmissed⟩ := tryCatch_ask_ok hsearch
  · exact ⟨Or.inr ⟨_,(found_of_data hdata).symm⟩,fun _ => hready⟩
  · obtain ⟨rfl,rfl⟩ := missed_ok hmissed
    exact ⟨Or.inl rfl,fun _ => hready⟩

theorem lookup_ok {r : Option CacheHit}
    (h : exec (lookup o props search clearance queryVec) s = (.ok r,t)) :
    Looked props search clearance queryVec s t r := by
  cases queryVec with
  | nil =>
    obtain ⟨hr,-⟩ := Prod.mk.inj h
    exact ⟨Or.inl (Except.ok.inj hr).symm,fun hne => absurd rfl hne⟩
  | cons x xs =>
    obtain ⟨_,q,hindex,hsearch⟩ := exec_bind_eq_ok.mp h
    have hdata : data q = data s := by
      have hkept := keeps_ensureIndex (o := o) .lookupCreate s
      rw [hindex] at hkept
      exact hkept
    have hready := ensureIndex_ok hindex
    obtain ⟨rfl,rfl⟩ | ⟨e,hrecover⟩ := tryCatch_ask_ok hsearch
    · exact ⟨Or.inr ⟨_,(found_of_data hdata).symm⟩,fun _ => hready⟩
    · cases e with
      | jedisData message =>
        by_cases hindex : mentions message "no such index" = true
        · rw [recover,if_pos hindex] at hrecover
          obtain ⟨hfound,hready⟩ := retry_ok hrecover
          refine ⟨hfound.imp id ?_,hready⟩
          rintro ⟨now,hnow⟩
          exact ⟨now,(found_of_data hdata).symm.trans hnow⟩
        · rw [recover,if_neg hindex] at hrecover
          obtain ⟨hr,ht⟩ := Prod.mk.inj hrecover
          obtain rfl := Except.ok.inj hr
          exact ⟨Or.inl rfl,fun _ => ht ▸ hready⟩
      | responseStatus | downstreamUnavailable | outside => cases (Prod.mk.inj hrecover).1

/-- What a hit tells of the entry behind it. -/
theorem found_some {now : ℕ} {hit : CacheHit}
    (h : found props search clearance queryVec now s = some hit) :
    ∃ c ∈ s.cache, c.Live now ∧ c.value.clearance = clearance ∧
      c.value.corpusVersion = props.corpusVersion ∧ c.value.answer = hit.answerJson ∧
        c.value.asked = hit.asked ∧ props.simThreshold ≤ hit.similarity := by
  unfold found topHit at h
  cases hnearest : search.nearest queryVec (partition clearance props.corpusVersion now s.cache) with
  | none =>
    rw [hnearest] at h
    cases h
  | some r =>
    obtain ⟨e,similarity⟩ := r
    rw [hnearest] at h
    simp only at h
    split_ifs at h with hclearance hnear
    obtain rfl := Option.some.inj h
    have hmem := search.nearest_mem hnearest
    simp only [partition,List.mem_filter,List.mem_map,decide_eq_true_eq] at hmem
    obtain ⟨⟨c,⟨hc,hlive⟩,rfl⟩,hpartition⟩ := hmem
    exact ⟨c,hc,hlive,hpartition.1,hpartition.2,rfl,rfl,not_lt.mp hnear⟩

end RedisSemanticCache

namespace GatewayQueryController
variable {G : GatewayQueryController} {o : Outside} {http : HttpRequest} {caller : CallerClearance}
  {request : GatewayQueryRequest} {s t : Server} {r : Option Json}

/-! ### The checks -/

/-- The server without its rate limits, which is all that the checks change. -/
def unlimited (s : Server) : Server := {s with buckets := noBuckets}

theorem keeps_rateLimited (user : String) : Keeps unlimited (G.rateLimited o user) := by
  unfold rateLimited
  cases G.rateLimiter with
  | none => exact keeps_pure unlimited _
  | some limiter =>
    refine (keeps_get unlimited).bind fun s => Keeps.bind (keeps_perform fun _ => rfl) fun _ => ?_
    exact keeps_require

theorem keeps_budgetChecked {P : Type} {p : Server → P} (user : String) (estimatedCost : ℚ) :
    Keeps p (G.budgetChecked o user estimatedCost) := by
  unfold budgetChecked
  cases G.budgetGuard with
  | none => exact keeps_pure p _
  | some guard => exact keeps_ask.bind fun spent => keeps_require

/-- The request passed the checks, which left the server as it was but for the rate limits. -/
structure Admitted (http : HttpRequest) (s s' : Server) (caller : CallerClearance)
    (request : GatewayQueryRequest) : Prop where
  body : http.body = some request
  query : Text.isBlank request.query = false
  caller : http.caller = some caller
  same : unlimited s' = unlimited s

/-- A request fails in the checks, or is served after them. -/
theorem query_cases (G : GatewayQueryController) (o : Outside) (http : HttpRequest) (s : Server) :
    (∃ e t, exec (G.query o http) s = (.error e,t) ∧ unlimited t = unlimited s) ∨
      ∃ caller request s', Admitted http s s' caller request ∧
        exec (G.query o http) s = exec (G.served o caller http request) s' := by
  have hkept : ∀ {α : Type} {h : Handler Server Failure α}, Keeps unlimited h → ∀ {s e t},
      exec h s = (e,t) → unlimited t = unlimited s := by
    intro α h hkeeps s e t hexec
    have hs := hkeeps s
    rwa [hexec] at hs
  unfold query
  obtain ⟨e,t,hx,hquery⟩ | ⟨request,q₁,hx,hquery⟩ := exec_bind_cases (present 400 "query is required"
    (http.body.filter fun r => !Text.isBlank r.query)) _ s
  · exact Or.inl ⟨e,t,hquery,hkept keeps_present hx⟩
  obtain ⟨hbody,rfl⟩ := present_ok hx
  rw [hquery]
  obtain ⟨e,t,hx,hquery⟩ | ⟨caller,q₂,hx,hquery⟩ := exec_bind_cases
    (present 401 "missing verified clearance" http.caller) _ q₁
  · exact Or.inl ⟨e,t,hquery,hkept keeps_present hx⟩
  obtain ⟨hcaller,rfl⟩ := present_ok hx
  rw [hquery]
  obtain ⟨e,t,hx,hquery⟩ | ⟨_,q₃,hx,hquery⟩ := exec_bind_cases (G.rateLimited o caller.subject) _ q₂
  · exact Or.inl ⟨e,t,hquery,hkept (keeps_rateLimited _) hx⟩
  have hlimited := hkept (keeps_rateLimited _) hx
  rw [hquery]
  obtain ⟨e,t,hx,hquery⟩ | ⟨_,q₄,hx,hquery⟩ := exec_bind_cases (G.validateInputSize request.query) _ q₃
  · exact Or.inl ⟨e,t,hquery,(hkept keeps_require hx).trans hlimited⟩
  obtain ⟨-,rfl⟩ := require_ok hx
  rw [hquery]
  obtain ⟨e,t,hx,hquery⟩ | ⟨_,q₅,hx,hquery⟩ := exec_bind_cases
    (G.budgetChecked o caller.subject (G.estimatedCost request.query)) _ q₄
  · exact Or.inl ⟨e,t,hquery,(hkept (keeps_budgetChecked _ _) hx).trans hlimited⟩
  have hfilter := Option.filter_eq_some_iff.mp hbody
  refine Or.inr ⟨caller,request,q₅,⟨hfilter.1,by simpa using hfilter.2,hcaller,?_⟩,hquery⟩
  exact (hkept (keeps_budgetChecked _ _) hx).trans hlimited

/-! ### The cache and the rag-engine -/

/-- The server without its record of hits and its knowledge of the index, which is all that looking
into the cache changes. -/
def unlooked (s : Server) : Server := {s with indexReady := true, hits := []}

theorem keeps_consultCache (clearance query : String) :
    Keeps unlooked (G.consultCache o clearance query) := by
  unfold consultCache
  cases G.cacheProps.enabled with
  | false => exact keeps_pure unlooked _
  | true =>
    refine Keeps.bind (keeps_perform fun _ => rfl) fun _ => Keeps.bind ?_ fun hit => ?_
    · refine RedisSemanticCache.keeps_lookup.of fun s t h => ?_
      exact congrArg (fun s : Server => {s with hits := []}) h
    · exact Keeps.bind (keeps_modify fun _ => rfl) fun _ => keeps_pure unlooked _

/-- What looking into the cache tells: the vector of the query, the hit with the entry behind it, and
that the index is known from then on. -/
structure Consulted (G : GatewayQueryController) (clearance query : String) (s s' : Server)
    (queryVec : List ℚ) (hit : Option CacheHit) : Prop where
  same : unlooked s' = unlooked s
  hits : s'.hits = s.hits ++ hit.toList
  entry : ∀ {x}, hit = some x → ∃ c ∈ s.cache, c.value.clearance = clearance ∧
    c.value.corpusVersion = G.cacheProps.corpusVersion ∧ c.value.answer = x.answerJson ∧
      c.value.asked = x.asked ∧ G.cacheProps.simThreshold ≤ x.similarity
  vector : queryVec = if G.cacheProps.enabled then G.embed query else []
  ready : queryVec ≠ [] → s'.indexReady = true

theorem consultCache_ok {clearance query : String} {x : List ℚ × Option CacheHit}
    (h : exec (G.consultCache o clearance query) s = (.ok x,t)) :
    G.Consulted clearance query s t x.1 x.2 := by
  have hsame := keeps_consultCache (G := G) (o := o) clearance query s
  rw [h] at hsame
  unfold consultCache at h
  cases henabled : G.cacheProps.enabled with
  | false =>
    rw [henabled] at h
    obtain ⟨hx,ht⟩ := Prod.mk.inj h
    obtain rfl := Except.ok.inj hx
    obtain rfl := ht
    exact ⟨hsame,by simp,by simp,by simp [henabled],by simp⟩
  | true =>
    rw [henabled] at h
    obtain ⟨_,q,hembed,hrest⟩ := exec_bind_eq_ok.mp h
    obtain ⟨-,hq⟩ := perform_ok hembed
    obtain rfl : q = s := hq
    obtain ⟨hit,q',hlookup,hrest⟩ := exec_bind_eq_ok.mp hrest
    rw [exec_bind_ok (exec_modify _ q'),exec_pure] at hrest
    obtain ⟨hx,ht⟩ := Prod.mk.inj hrest
    obtain rfl := Except.ok.inj hx
    have hdata : RedisSemanticCache.data q' = RedisSemanticCache.data q := by
      have hkept := @RedisSemanticCache.keeps_lookup o G.cacheProps G.search clearance (G.embed query) q
      rwa [hlookup] at hkept
    have hlooked := RedisSemanticCache.lookup_ok hlookup
    have hhits : q'.hits = q.hits :=
      (congrArg Server.hits hdata : (RedisSemanticCache.data q').hits = (RedisSemanticCache.data q).hits)
    refine ⟨hsame,?_,fun {x} hx => ?_,by rw [henabled]; rfl,fun hne => ?_⟩
    · rw [← ht,hhits]
    · obtain hnone | ⟨now,hfound⟩ := hlooked.found
      · cases hnone.symm.trans hx
      · obtain ⟨c,hc,-,hentry⟩ := RedisSemanticCache.found_some (hfound.trans hx)
        exact ⟨c,hc,hentry⟩
    · rw [← ht]
      exact hlooked.ready hne

/-- The rag-engine's body enters the record when the call returns. -/
def logged (s : Server) (asked : Asked) (answer : Option Json) : Server :=
  {s with answers := s.answers ++ (answer.map fun body => (asked,body)).toList}

theorem exec_proxied (asked : Asked) : exec (G.proxied o asked) s =
    if o.fault .ragEngine = none then
      (if o.fault .breaker = none then .ok (G.ragAnswer asked) else .error .downstreamUnavailable,
        logged s asked (G.ragAnswer asked))
    else (.error .downstreamUnavailable,s) := by
  unfold proxied
  cases hcall : o.fault .ragEngine with
  | some fault =>
    rw [exec_tryCatch_error (exec_bind_error (exec_perform_id hcall)),if_neg (by simp)]
    rfl
  | none =>
    rw [if_pos rfl]
    cases hbreaker : o.fault .breaker with
    | some fault =>
      rw [if_neg (by simp)]
      refine exec_tryCatch_error (e := fault.failure) ?_
      rw [exec_bind_ok (exec_perform hcall),exec_bind_ok (exec_modify _ _)]
      exact exec_bind_error (exec_perform_id hbreaker)
    | none =>
      rw [if_pos rfl]
      refine exec_tryCatch_ok ?_
      rw [exec_bind_ok (exec_perform hcall),exec_bind_ok (exec_modify _ _),
        exec_bind_ok (exec_perform hbreaker)]
      rfl

/-! ### What is stored and charged -/

/-- The server without the cache, which is all that storing an answer changes. -/
def uncached (s : Server) : Server := {s with cache := [],indexReady := true}

theorem keeps_cachePut (asked : Asked) (queryVec : List ℚ) (model : Option String)
    (answer : Option Json) : Keeps uncached (G.cachePut o asked queryVec model answer) := by
  cases answer with
  | none => exact keeps_pure uncached _
  | some body =>
    unfold cachePut
    cases G.cacheProps.enabled with
    | false => exact keeps_pure uncached _
    | true =>
      cases queryVec with
      | nil => exact keeps_pure uncached _
      | cons x xs =>
        refine Keeps.bind ?_ fun _ => Keeps.bind (keeps_perform fun _ => rfl) fun _ =>
          keeps_perform fun _ => rfl
        refine (RedisSemanticCache.keeps_ensureIndex .putCreate).of fun s t h => ?_
        exact congrArg (fun s : Server => {s with cache := []}) h

/-- The server without the budgets, which is all that the charge changes. -/
def uncharged (s : Server) : Server := {s with budgets := fun _ => none}

theorem keeps_record (user : String) (actualCost : ℚ) :
    Keeps uncharged (G.record o user actualCost) := by
  unfold record
  cases G.budgetGuard with
  | none => exact keeps_pure uncharged _
  | some guard =>
    refine (keeps_pure uncharged _).ite ?_
    exact Keeps.bind (keeps_perform fun _ => rfl) fun _ => keeps_perform fun _ => rfl

/-! ### How a response comes about -/

/-- What the rag-engine would be asked. -/
def asks (G : GatewayQueryController) (http : HttpRequest) (caller : CallerClearance)
    (request : GatewayQueryRequest) : Asked :=
  ⟨caller,(G.router.route (G.redactIngress request).query http.qualityHint http.ftHint).tier,
    G.redactIngress request⟩

/-- The response of the miss path. -/
def missResponse (G : GatewayQueryController) (o : Outside) (http : HttpRequest)
    (caller : CallerClearance) (request : GatewayQueryRequest) : Option Json :=
  let decision := G.router.route (G.redactIngress request).query http.qualityHint http.ftHint
  let answer := G.ragAnswer (G.asks http caller request)
  G.envelope answer (missMeta o decision
    (G.tokens answer (RequestLimits.estimateTokens request.query))
    (G.costUnits decision.tier request.query answer))

/-- The two ways to a response: an entry of the cache, or the rag-engine. -/
inductive Responds (G : GatewayQueryController) (o : Outside) (http : HttpRequest)
    (caller : CallerClearance) (request : GatewayQueryRequest) (s t : Server) : Option Json → Prop
  | hit {hit : CacheHit} {body : Json} (hits : t.hits = s.hits ++ [hit])
      (answers : t.answers = s.answers)
      (entry : ∃ c ∈ s.cache, c.value.clearance = caller.clearance.label ∧
        c.value.corpusVersion = G.cacheProps.corpusVersion ∧ c.value.answer = hit.answerJson ∧
          c.value.asked = hit.asked ∧ G.cacheProps.simThreshold ≤ hit.similarity)
      (read : G.jackson.readTree hit.answerJson = some body) :
      Responds G o http caller request s t (G.envelope (some body) (hitMeta o hit))
  | miss (hits : t.hits = s.hits)
      (answers : t.answers = s.answers ++ ((G.ragAnswer (G.asks http caller request)).map
        fun body => (G.asks http caller request,body)).toList) :
      Responds G o http caller request s t (G.missResponse o http caller request)

theorem keeps_fromCache {P : Type} {p : Server → P} (hit : CacheHit) : Keeps p (G.fromCache o hit) :=
  keeps_present.bind fun _ => (keeps_perform fun _ => rfl).bind fun _ =>
    (keeps_perform fun _ => rfl).bind fun _ => keeps_pure p _

theorem fromCache_ok {hit : CacheHit} (h : exec (G.fromCache o hit) s = (.ok r,t)) :
    ∃ body, G.jackson.readTree hit.answerJson = some body ∧
      r = G.envelope (some body) (hitMeta o hit) := by
  obtain ⟨body,q,hread,hrest⟩ := exec_bind_eq_ok.mp h
  obtain ⟨hbody,-⟩ := present_ok hread
  obtain ⟨_,q',-,hrest⟩ := exec_bind_eq_ok.mp hrest
  obtain ⟨_,q'',-,hrest⟩ := exec_bind_eq_ok.mp hrest
  exact ⟨body,hbody,(Except.ok.inj (Prod.mk.inj hrest).1).symm⟩

/-- The record of bodies and hits. -/
def noted (s : Server) : List (Asked × Json) × List CacheHit := (s.answers,s.hits)

theorem keeps_reported {P : Type} {p : Server → P} (response : Option Json) :
    Keeps p (reported o response) :=
  (keeps_perform fun _ => rfl).bind fun _ => (keeps_perform fun _ => rfl).bind fun _ =>
    (keeps_perform fun _ => rfl).bind fun _ => keeps_pure p _

theorem reported_ok {response : Option Json} (h : exec (reported o response) s = (.ok r,t)) :
    r = response := by
  obtain ⟨_,q₁,-,h₁⟩ := exec_bind_eq_ok.mp h
  obtain ⟨_,q₂,-,h₂⟩ := exec_bind_eq_ok.mp h₁
  obtain ⟨_,q₃,-,h₃⟩ := exec_bind_eq_ok.mp h₂
  exact (Except.ok.inj (Prod.mk.inj h₃).1).symm

theorem noted_of_keeps {α : Type} {x : Handler Server Failure α} (hkeeps : Keeps noted x)
    {a : Except Failure α} (h : exec x s = (a,t)) : noted t = noted s := by
  have hs := hkeeps s
  rwa [h] at hs

theorem answered_ok {queryVec : List ℚ}
    (h : exec (G.answered o caller http request queryVec) s = (.ok r,t)) :
    noted t = noted (logged s (G.asks http caller request) (G.ragAnswer (G.asks http caller request))) ∧
      r = G.missResponse o http caller request := by
  unfold answered at h
  obtain ⟨_,q₁,hsign,h₁⟩ := exec_bind_eq_ok.mp h
  obtain ⟨-,hq₁⟩ := perform_ok hsign
  obtain rfl : q₁ = s := hq₁
  obtain ⟨answer,q₂,hproxied,h₂⟩ := exec_bind_eq_ok.mp h₁
  rw [exec_proxied] at hproxied
  split_ifs at hproxied with hcall hbreaker
  · obtain ⟨hanswer,rfl⟩ := Prod.mk.inj hproxied
    obtain rfl := Except.ok.inj hanswer
    obtain ⟨_,q₃,hput,h₃⟩ := exec_bind_eq_ok.mp h₂
    obtain ⟨_,q₄,hrecord,h₄⟩ := exec_bind_eq_ok.mp h₃
    have hput' := noted_of_keeps ((keeps_cachePut _ _ _ _).of fun s t hst =>
      (congrArg noted hst : noted (uncached s) = noted (uncached t))) hput
    have hrecord' := noted_of_keeps ((keeps_record _ _).of fun s t hst =>
      (congrArg noted hst : noted (uncharged s) = noted (uncharged t))) hrecord
    have hreported := noted_of_keeps (keeps_reported _) h₄
    exact ⟨hreported.trans (hrecord'.trans hput'),reported_ok h₄⟩
  · cases (Prod.mk.inj hproxied).1
  · cases (Prod.mk.inj hproxied).1

/-- A response is one of an entry of the cache or of the rag-engine. -/
theorem served_ok (h : exec (G.served o caller http request) s = (.ok r,t)) :
    Responds G o http caller request s t r := by
  obtain ⟨looked,q,hconsult,hrest⟩ := exec_bind_eq_ok.mp h
  obtain ⟨queryVec,found⟩ := looked
  have hconsulted := consultCache_ok hconsult
  have hanswers : q.answers = s.answers :=
    (congrArg Server.answers hconsulted.same : (unlooked q).answers = (unlooked s).answers)
  cases found with
  | some hit =>
    obtain ⟨body,hread,rfl⟩ := fromCache_ok hrest
    have hnoted := noted_of_keeps (keeps_fromCache hit) hrest
    have hhits : t.hits = q.hits := congrArg Prod.snd hnoted
    have hsame : t.answers = q.answers := congrArg Prod.fst hnoted
    exact .hit (hhits.trans hconsulted.hits) (hsame.trans hanswers) (hconsulted.entry rfl) hread
  | none =>
    obtain ⟨hnoted,rfl⟩ := answered_ok hrest
    have hhits : t.hits = q.hits := congrArg Prod.snd hnoted
    have hsame : t.answers = q.answers ++ _ := congrArg Prod.fst hnoted
    refine .miss (hhits.trans ?_) (hanswers ▸ hsame)
    simpa using hconsulted.hits

theorem query_ok (h : exec (G.query o http) s = (.ok r,t)) :
    ∃ caller request, http.body = some request ∧ http.caller = some caller ∧
      Responds G o http caller request s t r := by
  obtain ⟨e,t',herror,-⟩ | ⟨caller,request,q,hadmitted,hserved⟩ := query_cases G o http s
  · rw [herror] at h
    cases (Prod.mk.inj h).1
  · refine ⟨caller,request,hadmitted.body,hadmitted.caller,?_⟩
    have hsame : ∀ {α : Type} (f : Server → α), (∀ s, f (unlimited s) = f s) → f q = f s := by
      intro α f hf
      rw [← hf q,hadmitted.same,hf s]
    rw [hserved] at h
    cases served_ok h with
    | hit hhits hanswers hentry hread =>
      refine .hit (hhits.trans ?_) (hanswers.trans (hsame Server.answers fun _ => rfl)) ?_ hread
      · rw [hsame Server.hits fun _ => rfl]
      · rw [← hsame Server.cache fun _ => rfl]
        exact hentry
    | miss hhits hanswers =>
      refine .miss (hhits.trans (hsame Server.hits fun _ => rfl)) (hanswers.trans ?_)
      rw [hsame Server.answers fun _ => rfl]

/-! ### What the cache holds -/

/-- Every entry is the text of a body that the rag-engine returned to what was asked, for a caller of
the entry's clearance. -/
def Backed (G : GatewayQueryController) (s : Server) : Prop :=
  ∀ c ∈ s.cache, ∃ body, (c.value.asked,body) ∈ s.answers ∧ G.ragAnswer c.value.asked = some body ∧
    c.value.answer = G.jackson.toString body ∧
      c.value.clearance = c.value.asked.caller.clearance.label

/-- What the invariant looks at. -/
def kept (s : Server) : List (Entry ℕ CachedEntry) × List (Asked × Json) := (s.cache,s.answers)

theorem Backed.of_kept (h : G.Backed s) (hkept : kept s = kept t) : G.Backed t := by
  have hcache : s.cache = t.cache := congrArg Prod.fst hkept
  have hanswers : s.answers = t.answers := congrArg Prod.snd hkept
  intro c hc
  rw [← hcache] at hc
  rw [← hanswers]
  exact h c hc

theorem backed_of_keeps {α : Type} {x : Handler Server Failure α} (hkeeps : Keeps kept x) :
    Preserves G.Backed x :=
  hkeeps.preserves fun _ _ hst hs => hs.of_kept hst.symm

/-- A deadline set on an entry leaves its fields as they are. -/
theorem mem_expireLast {now ttlSeconds : ℕ} {cache : List (Entry ℕ CachedEntry)}
    {c : Entry ℕ CachedEntry} (h : c ∈ RedisSemanticCache.expireLast now ttlSeconds cache) :
    ∃ d ∈ cache, d.value = c.value := by
  induction cache with
  | nil => cases h
  | cons e rest ih =>
    cases rest with
    | nil =>
      obtain rfl := List.mem_singleton.mp h
      exact ⟨e,List.mem_cons_self,rfl⟩
    | cons e' rest =>
      obtain rfl | hrest := List.mem_cons.mp h
      · exact ⟨c,List.mem_cons_self,rfl⟩
      · obtain ⟨d,hd,hvalue⟩ := ih hrest
        exact ⟨d,List.mem_cons_of_mem e hd,hvalue⟩

/-- The body that is about to be stored is in the record. -/
def Holding (G : GatewayQueryController) (asked : Asked) (body : Json) (s : Server) : Prop :=
  G.Backed s ∧ (asked,body) ∈ s.answers

theorem holding_of_keeps {α : Type} {x : Handler Server Failure α} {asked : Asked} {body : Json}
    (hkeeps : Keeps kept x) : Preserves (G.Holding asked body) x := by
  refine hkeeps.preserves fun s t hst hs => ⟨hs.1.of_kept hst.symm,?_⟩
  have hanswers : t.answers = s.answers := congrArg Prod.snd hst
  rw [hanswers]
  exact hs.2

theorem preserves_put {asked : Asked} {queryVec : List ℚ} {body : Json} {model : Option String}
    (hanswer : G.ragAnswer asked = some body) : Preserves (G.Holding asked body)
      (RedisSemanticCache.put o G.cacheProps asked queryVec (G.jackson.toString body) model) := by
  cases queryVec with
  | nil => exact preserves_pure _ _
  | cons x xs =>
    refine Preserves.bind ?_ fun _ => Preserves.bind (preserves_perform ?_) fun _ =>
      preserves_perform ?_
    · exact holding_of_keeps ((RedisSemanticCache.keeps_ensureIndex .putCreate).of fun s t hst =>
        (congrArg kept hst : kept (RedisSemanticCache.data s) = kept (RedisSemanticCache.data t)))
    · rintro s ⟨hbacked,hmem⟩
      refine ⟨fun c hc => ?_,hmem⟩
      obtain hc | hc := List.mem_append.mp hc
      · exact hbacked c hc
      · obtain rfl := List.mem_singleton.mp hc
        exact ⟨body,hmem,hanswer,rfl,rfl⟩
    · rintro s ⟨hbacked,hmem⟩
      refine ⟨fun c hc => ?_,hmem⟩
      obtain ⟨d,hd,hvalue⟩ := mem_expireLast hc
      exact hvalue ▸ hbacked d hd

theorem Backed.logged (h : G.Backed s) (asked : Asked) (answer : Option Json) :
    G.Backed (logged s asked answer) := by
  intro c hc
  obtain ⟨body,hmem,hrest⟩ := h c hc
  exact ⟨body,List.mem_append_left _ hmem,hrest⟩

theorem preserves_proxied (asked : Asked) : Preserves G.Backed (G.proxied o asked) := by
  intro s hs
  rw [exec_proxied]
  split_ifs
  · exact hs.logged _ _
  · exact hs.logged _ _
  · exact hs

theorem proxied_ok {asked : Asked} (h : exec (G.proxied o asked) s = (.ok r,t)) :
    r = G.ragAnswer asked ∧ t = logged s asked r := by
  rw [exec_proxied] at h
  split_ifs at h
  · obtain ⟨hr,ht⟩ := Prod.mk.inj h
    obtain rfl := Except.ok.inj hr
    exact ⟨rfl,ht.symm⟩
  · cases (Prod.mk.inj h).1
  · cases (Prod.mk.inj h).1

theorem keeps_kept_record (user : String) (actualCost : ℚ) :
    Keeps kept (G.record o user actualCost) :=
  (keeps_record user actualCost).of fun s t hst =>
    (congrArg kept hst : kept (uncharged s) = kept (uncharged t))

theorem preserves_answered (queryVec : List ℚ) :
    Preserves G.Backed (G.answered o caller http request queryVec) := by
  refine Preserves.bind (backed_of_keeps (keeps_perform fun _ => rfl)) fun _ =>
    Preserves.bind_of (preserves_proxied _) fun {s answer t} hs hproxied ht => ?_
  obtain ⟨hanswer,rfl⟩ := proxied_ok hproxied
  cases answer with
  | none =>
    exact ((backed_of_keeps (keeps_pure kept _)).bind fun _ =>
      (backed_of_keeps (keeps_kept_record _ _)).bind fun _ =>
        backed_of_keeps (keeps_reported _)) _ ht
  | some body =>
    have hholding : G.Holding (G.asks http caller request) body
        (GatewayQueryController.logged s (G.asks http caller request) (some body)) :=
      ⟨ht,List.mem_append_right _ (by simp)⟩
    refine (Preserves.bind ?_ (fun _ => (holding_of_keeps (keeps_kept_record _ _)).bind fun _ =>
      holding_of_keeps (keeps_reported _)) _ hholding).1
    unfold cachePut
    cases G.cacheProps.enabled with
    | false => exact preserves_pure _ _
    | true => exact preserves_put hanswer.symm

theorem preserves_served : Preserves G.Backed (G.served o caller http request) := by
  refine Preserves.bind ?_ fun looked => ?_
  · exact backed_of_keeps ((keeps_consultCache _ _).of fun s t hst =>
      (congrArg kept hst : kept (unlooked s) = kept (unlooked t)))
  · cases looked.2 with
    | some hit => exact backed_of_keeps (keeps_fromCache hit)
    | none => exact preserves_answered _

theorem Backed.step {ev : Event} (h : G.Backed s) (hstep : G.step s ev = some t) : G.Backed t := by
  cases ev with
  | request http o =>
    obtain rfl := Option.some.inj hstep
    obtain ⟨e,t',herror,hsame⟩ | ⟨caller,request,q,hadmitted,hserved⟩ := query_cases G o http s
    · rw [herror]
      exact h.of_kept (congrArg kept hsame.symm : kept (unlimited s) = kept (unlimited t'))
    · rw [hserved]
      exact preserves_served q (h.of_kept
        (congrArg kept hadmitted.same.symm : kept (unlimited s) = kept (unlimited q)))
  | flush =>
    obtain rfl := Option.some.inj hstep
    intro c hc
    cases hc

/-- In every state that is reached, the cache holds the texts of recorded bodies. -/
theorem backed_reachable (h : Transition.Reachable G.step start s) : G.Backed s := by
  refine h.invariant (fun s t ev hs hstep => hs.step hstep) ?_
  intro c hc
  cases hc

/-! ### A small gateway -/

/-- The first entry of the partition, as near as can be. -/
def firstEntry : VectorSearch where
  nearest := fun _ es => es.head?.map fun e => (e,1)
  nearest_mem := by
    intro vec es r h
    obtain ⟨e,he,rfl⟩ := Option.map_eq_some_iff.mp h
    exact List.mem_of_mem_head? he

/-- What the JSON library does with texts, whole numbers and one whole body. -/
def jacksonOf (text : String) (body : Json) : Jackson where
  asText := fun
    | .str s => s
    | .null | .bool _ | .num _ | .arr _ | .obj _ => ""
  asText_str := fun _ => rfl
  asInt := fun
    | .num q => q.floor
    | .null | .bool _ | .str _ | .arr _ | .obj _ => 0
  toString := fun _ => text
  readTree := fun t => if t = text then some body else none

/-- The defaults of the configuration without a rate limit, over a rag-engine that always returns one
body. -/
def gatewayOf (cacheEnabled : Bool) (text : String) (body : Json) : GatewayQueryController where
  rateLimiter := none
  requestLimits := RequestLimits.ofConfigured 0 0
  costs := CostProperties.ofConfigured 0 0 0 0
  budgetGuard := some (RedisBudgetGuard.ofConfigured 0)
  safety := ⟨true,true,[]⟩
  cacheProps := CacheProperties.ofConfigured cacheEnabled 0 0 none
  search := firstEntry
  embed := fun _ => [1]
  router := ⟨asciiCasing,RoutingProperties.ofConfigured none none none 0 false none false none,
    .TIER1_SMALL⟩
  ragEngine := fun _ _ _ _ => some body
  jackson := jacksonOf text body

/-- A request of a compliance officer for the reporting threshold. -/
def thresholdRequest : GatewayQueryRequest := ⟨"What is the reporting threshold?",none,none⟩

def httpOf (request : GatewayQueryRequest) (qualityHint : Option String) : HttpRequest :=
  ⟨some request,some ⟨"priya",.COMPLIANCE⟩,qualityHint,none⟩

end GatewayQueryController

end AtlasCompliance.Gateway
