import AtlasCompliance.Gateway.Replay
import AtlasCompliance.Lib.Observing

/-! Two runs of the gateway over corpora that differ above a clearance: what the server shows to callers
up to that clearance, and that the requests of everybody keep it the same in both runs. -/
namespace AtlasCompliance.Gateway
open Java Expiring Handling Auth

/-- No call fails. -/
def Outside.Undisturbed (o : Outside) : Prop := ∀ call, o.fault call = none

/-- The same with another latency. -/
def Outside.told (o : Outside) (latencyMs : ℚ) : Outside := {o with latencyMs := latencyMs}

/-- The cost section without the latency. -/
def withoutLatencyMs : Json → Json
  | .obj members => .obj (members.filter fun m => decide (m.1 ≠ "latencyMs"))
  | .null => .null
  | .bool b => .bool b
  | .num q => .num q
  | .str s => .str s
  | .arr elems => .arr elems

/-- A response without its latency. -/
def withoutLatency (response : Json) : Json :=
  match response.get? "cost" with
  | some cost => response.put "cost" (withoutLatencyMs cost)
  | none => response

theorem withoutLatency_withSections (body : Json) (m : Meta) (latencyMs : ℚ) :
    withoutLatency (withSections body {m with latencyMs := latencyMs}) =
      withoutLatency (withSections body m) := by
  have hput : ∀ j v w : Json, withoutLatencyMs v = withoutLatencyMs w →
      withoutLatency (j.put "cost" v) = withoutLatency (j.put "cost" w) := by
    intro j v w h
    cases j with
    | obj members =>
      simp only [withoutLatency,Json.get?_put_obj,Json.put_put,h]
    | null | bool | num | str | arr => rfl
  exact hput _ _ _ (by simp [Meta.cost,withoutLatencyMs])

/-- The same response but for the latency. -/
def SameApartLatency (r r' : Option Json) : Prop := r.map withoutLatency = r'.map withoutLatency

/-- What a server shows to callers up to a clearance: the rate limits, the budgets of these callers, and
the entries of the cache with their labels. -/
structure LowView where
  buckets : BucketDb
  budgets : String → ℕ → RedisBudgetGuard.Cell
  cache : List (Entry ℕ CachedEntry)

/-- The view where each user has one clearance. -/
def lowView (level : Clearance) (clearanceOf : String → Clearance) (s : Server) : LowView where
  buckets := s.buckets
  budgets user day :=
    if level.atLeast (clearanceOf user) then s.budgets (RedisBudgetGuard.key user day) else none
  cache := s.cache.filter fun e => decide (e.value.clearance ∈ RagEngine.visibleLabels level)

section View
variable {level : Clearance} {clearanceOf : String → Clearance} {s t : Server}

theorem mem_visibleLabels {caller : Clearance} :
    caller.label ∈ RagEngine.visibleLabels level ↔ level.atLeast caller = true := by
  cases level <;> cases caller <;> decide

theorem buckets_of_lowView (h : lowView level clearanceOf s = lowView level clearanceOf t) :
    s.buckets = t.buckets := congrArg LowView.buckets h

theorem lowView_withBuckets (h : lowView level clearanceOf s = lowView level clearanceOf t)
    (buckets : BucketDb) : lowView level clearanceOf {s with buckets := buckets} =
      lowView level clearanceOf {t with buckets := buckets} :=
  congrArg (fun v : LowView => (⟨buckets,v.budgets,v.cache⟩ : LowView)) h

theorem budget_of_lowView (h : lowView level clearanceOf s = lowView level clearanceOf t)
    {user : String} (hlow : level.atLeast (clearanceOf user) = true) (day : ℕ) :
    s.budgets (RedisBudgetGuard.key user day) = t.budgets (RedisBudgetGuard.key user day) := by
  have hcell := congrFun (congrFun (congrArg LowView.budgets h) user) day
  simpa only [lowView,hlow,if_true] using hcell

/-- A search with a label of the view looks at the entries of the view only. -/
theorem partition_of_lowView (h : lowView level clearanceOf s = lowView level clearanceOf t)
    {clearance : String} (hlow : clearance ∈ RagEngine.visibleLabels level) (corpusVersion : String)
    (now : ℕ) : RedisSemanticCache.partition clearance corpusVersion now s.cache =
      RedisSemanticCache.partition clearance corpusVersion now t.cache := by
  have hshown : ∀ cache : List (Entry ℕ CachedEntry),
      RedisSemanticCache.partition clearance corpusVersion now cache =
        RedisSemanticCache.partition clearance corpusVersion now
          (cache.filter fun e => decide (e.value.clearance ∈ RagEngine.visibleLabels level)) := by
    intro cache
    unfold RedisSemanticCache.partition
    rw [List.filter_map,List.filter_map,List.filter_filter,List.filter_filter,List.filter_filter]
    refine congrArg (List.map Entry.value) (List.filter_congr fun e _ => ?_)
    by_cases hlabel : e.value.clearance = clearance
    · simp [hlabel,hlow]
    · simp [hlabel]
  rw [hshown s.cache,hshown t.cache]
  exact congrArg _ (congrArg LowView.cache h)

end View

section Undisturbed
variable {o : Outside} {level : Clearance} {clearanceOf : String → Clearance} {s : Server}

theorem perform_undisturbed (ho : o.Undisturbed) (call : Call) (f : Server → Server) :
    perform o call f = modify f := by
  unfold perform
  rw [ho call]

theorem agree_ask {α P : Type} {p : Server → P} (ho : o.Undisturbed) (call : Call) {f : Server → α}
    (h : ∀ s t, p s = p t → f s = f t) : Agree p Eq (ask o call f) (ask o call f) := by
  intro s t hst
  rw [exec_ask (ho call),exec_ask (ho call)]
  exact ⟨.ok (h s t hst),hst⟩

theorem agree_require {P : Type} {p : Server → P} {ok : Bool} {code : ℕ} {reason : String} :
    Agree p Eq (require ok code reason) (require ok code reason) := by
  cases ok with
  | true => exact agree_pure rfl
  | false => exact agree_throw _

theorem agree_present {α P : Type} {p : Server → P} {code : ℕ} {reason : String} {a : Option α} :
    Agree p Eq (present code reason a) (present code reason a) := by
  cases a with
  | none => exact agree_throw _
  | some a => exact agree_pure rfl

theorem agree_perform_id {P : Type} {p : Server → P} (ho : o.Undisturbed) (call : Call) :
    Agree p Eq (perform o call id) (perform o call id) := by
  rw [perform_undisturbed ho]
  exact agree_modify fun _ _ h => h

namespace RedisSemanticCache
variable {props : CacheProperties} {search : VectorSearch} {clearance : String} {queryVec : List ℚ}

/-- The index is known afterwards, whether it was or not. -/
theorem exec_ensureIndex (ho : o.Undisturbed) (call : Call) :
    exec (ensureIndex o call) s = (.ok (),{s with indexReady := true}) := by
  cases hready : s.indexReady with
  | true =>
    rw [exec_ensureIndex_of_ready hready,← hready]
  | false =>
    unfold ensureIndex
    rw [exec_bind_ok (exec_get s),hready]
    have hcreate : exec (tryCatch (perform o call id) created) s = (.ok (),s) :=
      exec_tryCatch_ok (exec_perform (ho call))
    exact exec_bind_ok hcreate

/-- A lookup with a label of the view finds the same on both sides. -/
theorem agree_lookup (ho : o.Undisturbed) (hlow : clearance ∈ RagEngine.visibleLabels level) :
    Agree (lowView level clearanceOf) Eq (lookup o props search clearance queryVec)
      (lookup o props search clearance queryVec) := by
  cases queryVec with
  | nil => exact agree_pure rfl
  | cons x xs =>
    intro s t hst
    have hexec : ∀ q, exec (lookup o props search clearance (x::xs)) q =
        (.ok (found props search clearance (x::xs) (o.clock .ftSearch) q),
          {q with indexReady := true}) := by
      intro q
      refine (exec_bind_ok (exec_ensureIndex ho .lookupCreate)).trans ?_
      exact exec_tryCatch_ok (exec_ask (ho .ftSearch))
    rw [hexec s,hexec t]
    refine ⟨.ok ?_,hst⟩
    rw [found,found,partition_of_lowView hst hlow]

theorem expireLast_concat (now ttlSeconds : ℕ) (cache : List (Entry ℕ CachedEntry))
    (e : Entry ℕ CachedEntry) : expireLast now ttlSeconds (cache ++ [e]) =
      cache ++ [write now (some (ttlSeconds*1000)) e.value] := by
  induction cache with
  | nil => rfl
  | cons c cache ih =>
    cases cache with
    | nil => rfl
    | cons c' cache => exact congrArg (c::·) ih

/-- The entry that is stored. -/
def entryOf (props : CacheProperties) (asked : Asked) (queryVec : List ℚ) (answerJson : String)
    (model : Option String) : CachedEntry :=
  ⟨queryVec,asked.caller.clearance.label,props.corpusVersion,answerJson,model.getD "",asked⟩

theorem exec_put (ho : o.Undisturbed) {asked : Asked} {x : ℚ} {xs : List ℚ} {answerJson : String}
    {model : Option String} : exec (put o props asked (x::xs) answerJson model) s =
      (.ok (),{s with
        indexReady := true
        cache := s.cache ++ [write (o.clock .expire) (some (props.ttlSeconds*1000))
          (entryOf props asked (x::xs) answerJson model)]}) := by
  refine (exec_bind_ok (exec_ensureIndex ho .putCreate)).trans ?_
  refine (exec_bind_ok (exec_perform (ho .hset))).trans ?_
  refine (exec_perform (ho .expire)).trans ?_
  rw [expireLast_concat]
  rfl

end RedisSemanticCache
end Undisturbed

namespace GatewayQueryController
variable {G : GatewayQueryController} {o : Outside} {http : HttpRequest} {level : Clearance}
  {clearanceOf : String → Clearance} {user : String} {s t : Server}

/-- The controller in front of another rag-engine. -/
def onEngine (G : GatewayQueryController)
    (e : CallerClearance → ModelTier → ℤ → GatewayQueryRequest → Option Json) :
    GatewayQueryController := {G with ragEngine := e}

/-! ### What the parts of a request show -/

theorem agree_rateLimited (ho : o.Undisturbed) : Agree (lowView level clearanceOf) Eq
    (G.rateLimited o user) (G.rateLimited o user) := by
  unfold rateLimited
  cases G.rateLimiter with
  | none => exact agree_pure rfl
  | some limiter =>
    refine agree_get.bind fun s t hst => ?_
    rw [buckets_of_lowView hst]
    dsimp only
    rw [perform_undisturbed ho]
    refine Agree.bind (agree_modify fun q q' hq => ?_) fun _ _ _ => agree_require
    exact lowView_withBuckets hq _

theorem agree_budgetChecked (ho : o.Undisturbed) (hlow : level.atLeast (clearanceOf user) = true)
    (estimatedCost : ℚ) : Agree (lowView level clearanceOf) Eq
      (G.budgetChecked o user estimatedCost) (G.budgetChecked o user estimatedCost) := by
  unfold budgetChecked
  cases G.budgetGuard with
  | none => exact agree_pure rfl
  | some guard =>
    refine (agree_ask ho .budgetGet fun s t hst => ?_).bind fun spent spent' hspent => ?_
    · rw [budget_of_lowView hst hlow]
    · rw [hspent]
      exact agree_require

theorem agree_consultCache (ho : o.Undisturbed) {clearance : String}
    (hlow : clearance ∈ RagEngine.visibleLabels level) (query : String) :
    Agree (lowView level clearanceOf) Eq (G.consultCache o clearance query)
      (G.consultCache o clearance query) := by
  unfold consultCache
  cases G.cacheProps.enabled with
  | false => exact agree_pure rfl
  | true =>
    refine (agree_perform_id ho .embed).bind fun _ _ _ =>
      (RedisSemanticCache.agree_lookup ho hlow).bind fun hit hit' hhit => ?_
    rw [hhit]
    exact Agree.bind (agree_modify fun _ _ h => h) fun _ _ _ => agree_pure rfl

/-- The view does not show what the cache knows of its index, the bodies and the hits. -/
theorem keeps_lowView_consultCache (clearance query : String) :
    Keeps (lowView level clearanceOf) (G.consultCache o clearance query) :=
  (keeps_consultCache clearance query).of fun s t hst =>
    (congrArg (lowView level clearanceOf) hst :
      lowView level clearanceOf (unlooked s) = lowView level clearanceOf (unlooked t))

theorem agree_fromCache (ho : o.Undisturbed) (hit : CacheHit) (latencyMs : ℚ) :
    Agree (lowView level clearanceOf) SameApartLatency (G.fromCache o hit)
      (G.fromCache (o.told latencyMs) hit) := by
  unfold fromCache
  refine agree_present.bind fun body body' hbody => ?_
  rw [hbody]
  refine (agree_perform_id ho .recordRedaction).bind fun _ _ _ =>
    (agree_perform_id ho .recordRequest).bind fun _ _ _ => agree_pure ?_
  exact congrArg some (withoutLatency_withSections _ _ latencyMs).symm

theorem agree_cachePut (ho : o.Undisturbed) (asked : Asked) (queryVec : List ℚ)
    (model : Option String) (answer : Option Json) : Agree (lowView level clearanceOf) Eq
      (G.cachePut o asked queryVec model answer) (G.cachePut o asked queryVec model answer) := by
  unfold cachePut
  cases answer with
  | none => exact agree_pure rfl
  | some body =>
    cases G.cacheProps.enabled with
    | false => exact agree_pure rfl
    | true =>
      cases queryVec with
      | nil => exact agree_pure rfl
      | cons x xs =>
        intro s t hst
        rw [RedisSemanticCache.exec_put ho,RedisSemanticCache.exec_put ho]
        refine ⟨.ok rfl,?_⟩
        have hcache := congrArg LowView.cache hst
        simp only [lowView,List.filter_append,LowView.mk.injEq] at hcache ⊢
        exact ⟨congrArg LowView.buckets hst,congrArg LowView.budgets hst,by rw [hcache]⟩

/-- An entry above the view is not shown. -/
theorem keeps_lowView_cachePut (ho : o.Undisturbed) {asked : Asked}
    (hhigh : level.atLeast asked.caller.clearance = false) (queryVec : List ℚ)
    (model : Option String) (answer : Option Json) :
    Keeps (lowView level clearanceOf) (G.cachePut o asked queryVec model answer) := by
  unfold cachePut
  cases answer with
  | none => exact keeps_pure _ _
  | some body =>
    cases G.cacheProps.enabled with
    | false => exact keeps_pure _ _
    | true =>
      cases queryVec with
      | nil => exact keeps_pure _ _
      | cons x xs =>
        intro s
        have hlabel : asked.caller.clearance.label ∉ RagEngine.visibleLabels level := by
          rw [mem_visibleLabels,hhigh]
          exact Bool.false_ne_true
        rw [RedisSemanticCache.exec_put ho]
        simp [lowView,List.filter_append,RedisSemanticCache.entryOf,write,hlabel]

/-- A command on the budget of a caller of the view shows the same on both sides. -/
theorem lowView_onBudget (hst : lowView level clearanceOf s = lowView level clearanceOf t)
    (hlow : level.atLeast (clearanceOf user) = true) (day : ℕ)
    (f : RedisBudgetGuard.Cell → RedisBudgetGuard.Cell) :
    lowView level clearanceOf (s.onBudget (RedisBudgetGuard.key user day) f) =
      lowView level clearanceOf (t.onBudget (RedisBudgetGuard.key user day) f) := by
  simp only [lowView,LowView.mk.injEq]
  refine ⟨congrArg LowView.buckets hst,?_,congrArg LowView.cache hst⟩
  funext user' day'
  split_ifs with hlow'
  · by_cases hkey : RedisBudgetGuard.key user' day' = RedisBudgetGuard.key user day
    · simp only [Server.onBudget,hkey,Function.update_self,budget_of_lowView hst hlow]
    · simp only [Server.onBudget,Function.update_of_ne hkey,budget_of_lowView hst hlow']
  · rfl

/-- The budget of a caller above the view is not shown. -/
theorem lowView_onBudget_high (hhigh : level.atLeast (clearanceOf user) = false) (day : ℕ)
    (f : RedisBudgetGuard.Cell → RedisBudgetGuard.Cell) (s : Server) :
    lowView level clearanceOf (s.onBudget (RedisBudgetGuard.key user day) f) =
      lowView level clearanceOf s := by
  simp only [lowView,LowView.mk.injEq]
  refine ⟨rfl,?_,rfl⟩
  funext user' day'
  split_ifs with hlow'
  · have hkey : RedisBudgetGuard.key user' day' ≠ RedisBudgetGuard.key user day := by
      intro hkey
      rw [(RedisBudgetGuard.key_inj hkey).1,hhigh] at hlow'
      cases hlow'
    exact Function.update_of_ne hkey _ _
  · rfl

theorem agree_record (ho : o.Undisturbed) (hlow : level.atLeast (clearanceOf user) = true)
    (actualCost : ℚ) : Agree (lowView level clearanceOf) Eq (G.record o user actualCost)
      (G.record o user actualCost) := by
  unfold record
  cases G.budgetGuard with
  | none => exact agree_pure rfl
  | some guard =>
    dsimp only
    split_ifs
    · exact agree_pure rfl
    · rw [perform_undisturbed ho,perform_undisturbed ho]
      exact Agree.bind (agree_modify fun _ _ hst => lowView_onBudget hst hlow _ _) fun _ _ _ =>
        agree_modify fun _ _ hst => lowView_onBudget hst hlow _ _

theorem keeps_lowView_record (hhigh : level.atLeast (clearanceOf user) = false) (actualCost : ℚ) :
    Keeps (lowView level clearanceOf) (G.record o user actualCost) := by
  unfold record
  cases G.budgetGuard with
  | none => exact keeps_pure _ _
  | some guard =>
    refine (keeps_pure _ _).ite ?_
    exact (keeps_perform fun s => lowView_onBudget_high hhigh _ _ s).bind fun _ =>
      keeps_perform fun s => lowView_onBudget_high hhigh _ _ s

/-! ### The two controllers -/

section Engines
variable {e : CallerClearance → ModelTier → ℤ → GatewayQueryRequest → Option Json}
  {caller : CallerClearance} {request : GatewayQueryRequest} {latencyMs : ℚ}

theorem agree_proxied (ho : o.Undisturbed) {asked : Asked}
    (hsame : G.ragAnswer asked = (G.onEngine e).ragAnswer asked) :
    Agree (lowView level clearanceOf) Eq (G.proxied o asked)
      ((G.onEngine e).proxied (o.told latencyMs) asked) := by
  intro s t hst
  rw [exec_proxied,exec_proxied,← hsame]
  simp only [Outside.told,ho .ragEngine,ho .breaker,if_true]
  exact ⟨.ok rfl,hst⟩

theorem keeps_lowView_proxied (asked : Asked) :
    Keeps (lowView level clearanceOf) (G.proxied o asked) := by
  intro s
  rw [exec_proxied]
  split_ifs <;> rfl

theorem agree_answered (ho : o.Undisturbed) (hlow : level.atLeast (clearanceOf caller.subject) = true)
    (hsame : G.ragAnswer (G.asks http caller request) =
      (G.onEngine e).ragAnswer (G.asks http caller request)) (queryVec : List ℚ) :
    Agree (lowView level clearanceOf) SameApartLatency (G.answered o caller http request queryVec)
      ((G.onEngine e).answered (o.told latencyMs) caller http request queryVec) := by
  refine (agree_perform_id ho .sign).bind fun _ _ _ =>
    (agree_proxied ho hsame).bind fun answer answer' hanswer => ?_
  rw [← hanswer]
  refine (agree_cachePut ho _ _ _ _).bind fun _ _ _ => (agree_record ho hlow _).bind fun _ _ _ => ?_
  refine (agree_perform_id ho .recordCost).bind fun _ _ _ =>
    (agree_perform_id ho .recordRedaction).bind fun _ _ _ =>
      (agree_perform_id ho .recordRequest).bind fun _ _ _ => agree_pure ?_
  cases answer with
  | none => rfl
  | some body => exact congrArg some (withoutLatency_withSections _ _ latencyMs).symm

theorem agree_served (ho : o.Undisturbed) (hlow : level.atLeast caller.clearance = true)
    (hclearance : caller.clearance = clearanceOf caller.subject)
    (hsame : G.ragAnswer (G.asks http caller request) =
      (G.onEngine e).ragAnswer (G.asks http caller request)) :
    Agree (lowView level clearanceOf) SameApartLatency (G.served o caller http request)
      ((G.onEngine e).served (o.told latencyMs) caller http request) := by
  refine (agree_consultCache ho (mem_visibleLabels.mpr hlow) _).bind fun looked looked' hlooked => ?_
  rw [← hlooked]
  cases looked.2 with
  | some hit => exact agree_fromCache ho hit latencyMs
  | none => exact agree_answered ho (hclearance ▸ hlow) hsame looked.1

theorem keeps_lowView_served (ho : o.Undisturbed) (hhigh : level.atLeast caller.clearance = false)
    (hclearance : caller.clearance = clearanceOf caller.subject) :
    Keeps (lowView level clearanceOf) (G.served o caller http request) := by
  refine (keeps_lowView_consultCache _ _).bind fun looked => ?_
  cases looked.2 with
  | some hit => exact keeps_fromCache hit
  | none =>
    refine Keeps.bind (keeps_perform fun _ => rfl) fun _ => (keeps_lowView_proxied _).bind fun _ => ?_
    refine (keeps_lowView_cachePut ho hhigh _ _ _).bind fun _ => ?_
    exact (keeps_lowView_record (hclearance ▸ hhigh) _).bind fun _ => keeps_reported _

/-- A caller of the view gets the same response from both, and both look the same afterwards. -/
theorem agree_query (ho : o.Undisturbed) (hcaller : http.caller = some caller)
    (hlow : level.atLeast caller.clearance = true)
    (hclearance : caller.clearance = clearanceOf caller.subject)
    (hsame : ∀ asked : Asked, level.atLeast asked.caller.clearance = true →
      G.ragAnswer asked = (G.onEngine e).ragAnswer asked) :
    Agree (lowView level clearanceOf) SameApartLatency (G.query o http)
      ((G.onEngine e).query (o.told latencyMs) http) := by
  unfold query
  rw [hcaller]
  refine agree_present.bind fun request request' hrequest => ?_
  rw [← hrequest]
  refine Agree.bind (V := fun c c' => c = caller ∧ c' = caller) (agree_pure ⟨rfl,rfl⟩) ?_
  rintro c c' ⟨rfl,rfl⟩
  refine (agree_rateLimited ho).bind fun _ _ _ => agree_require.bind fun _ _ _ => ?_
  refine (agree_budgetChecked ho (hclearance ▸ hlow) _).bind fun _ _ _ => ?_
  exact agree_served ho hlow hclearance (hsame _ hlow)

/-- Whoever asks, both look the same afterwards. -/
theorem blind_query (ho : o.Undisturbed)
    (hclearance : ∀ caller ∈ http.caller, caller.clearance = clearanceOf caller.subject)
    (hsame : ∀ asked : Asked, level.atLeast asked.caller.clearance = true →
      G.ragAnswer asked = (G.onEngine e).ragAnswer asked) :
    Blind (lowView level clearanceOf) (G.query o http)
      ((G.onEngine e).query (o.told latencyMs) http) := by
  cases hcaller : http.caller with
  | none =>
    unfold query
    rw [hcaller]
    exact (agree_present.bind fun _ _ _ => Agree.bind (V := fun _ _ => False) (W := fun _ _ => False)
      (agree_throw _) fun _ _ h => h.elim).blind
  | some caller =>
    have hfixed := hclearance caller hcaller
    cases hlevel : level.atLeast caller.clearance with
    | true => exact (agree_query ho hcaller hlevel hfixed hsame).blind
    | false =>
      unfold query
      rw [hcaller]
      refine agree_present.bind_blind fun request request' hrequest => ?_
      rw [← hrequest]
      refine Agree.bind_blind (V := fun c c' => c = caller ∧ c' = caller) (agree_pure ⟨rfl,rfl⟩) ?_
      rintro c c' ⟨rfl,rfl⟩
      refine (agree_rateLimited ho).bind_blind fun _ _ _ => agree_require.bind_blind fun _ _ _ => ?_
      refine Keeps.blind ?_ ?_
      · exact (keeps_budgetChecked _ _).bind fun _ => keeps_lowView_served ho hlevel hfixed
      · exact (keeps_budgetChecked _ _).bind fun _ => keeps_lowView_served ho hlevel hfixed

end Engines

/-! ### Whole runs -/

/-- What happens in both runs at once: a request, with a latency of its own in each, or the loss of all
that Redis holds. Each user has one clearance. -/
inductive Event.Twin (clearanceOf : String → Clearance) : Event → Event → Prop
  | request {http : HttpRequest} {o : Outside} {latencyMs : ℚ} (ho : o.Undisturbed)
      (hclearance : ∀ caller ∈ http.caller, caller.clearance = clearanceOf caller.subject) :
      Twin clearanceOf (.request http o) (.request http (o.told latencyMs))
  | flush : Twin clearanceOf .flush .flush

/-- One event keeps the view the same on both sides. -/
theorem lowView_step {e : CallerClearance → ModelTier → ℤ → GatewayQueryRequest → Option Json}
    (hsame : ∀ asked : Asked, level.atLeast asked.caller.clearance = true →
      G.ragAnswer asked = (G.onEngine e).ragAnswer asked) {a b : Event} {s' t' : Server}
    (hst : lowView level clearanceOf s = lowView level clearanceOf t) (hab : Event.Twin clearanceOf a b)
    (hs : G.step s a = some s') (ht : (G.onEngine e).step t b = some t') :
    lowView level clearanceOf s' = lowView level clearanceOf t' := by
  cases hab with
  | request ho hclearance =>
    obtain rfl := Option.some.inj hs
    obtain rfl := Option.some.inj ht
    exact blind_query ho hclearance hsame s t hst
  | flush =>
    obtain rfl := Option.some.inj hs
    obtain rfl := Option.some.inj ht
    rfl

end GatewayQueryController

/-- Over corpora that show a caller the same chunks the rag-engine answers the same. -/
theorem RagEngineWiring.query_of_visible {E S : Type} [RagEngine.Reranker S] {R : RagEngineWiring E S}
    {corpus corpus' : RagEngine.Tables E} {level : Clearance} {caller : CallerClearance}
    (hvisible : (RagEngine.visibleRows level corpus.chunk).Perm
      (RagEngine.visibleRows level corpus'.chunk)) (hlow : level.atLeast caller.clearance = true)
    (tier : ModelTier) (maxOutputTokens : ℤ) (request : GatewayQueryRequest) :
    R.query corpus caller tier maxOutputTokens request =
      R.query corpus' caller tier maxOutputTokens request := by
  have hrows : (RagEngine.visibleRows caller.clearance corpus.chunk).Perm
      (RagEngine.visibleRows caller.clearance corpus'.chunk) := by
    rw [← RagEngine.visibleRows_visibleRows hlow,← RagEngine.visibleRows_visibleRows hlow corpus'.chunk]
    exact hvisible.filter _
  have hanswer : (R.controller corpus).service.answer request.query caller.clearance
      (request.topK.getD 0) = (R.controller corpus').service.answer request.query caller.clearance
        (request.topK.getD 0) :=
    RagEngine.QueryService.answer_of_retrieved
      (RagEngine.HybridDocumentRetriever.retrieve_of_visible hrows _ _) rfl rfl
  unfold RagEngineWiring.query RagEngine.QueryController.query RagEngine.QueryRequest.topKOrDefault
  simp only [hanswer]
  rfl

namespace GatewayQueryController

/-- In two runs of the same requests over corpora with the same chunks up to a clearance, a caller up to
that clearance gets the same response in both, whatever was asked before and by whom. -/
theorem noninterference {E S : Type} [RagEngine.Reranker S] (R : RagEngineWiring E S)
    (corpus corpus' : RagEngine.Tables E) (G : GatewayQueryController) (level : Clearance)
    (clearanceOf : String → Clearance) (hvisible : (RagEngine.visibleRows level corpus.chunk).Perm
      (RagEngine.visibleRows level corpus'.chunk)) (s₀ : Server) {evs evs' : List Event}
    (hevs : List.Forall₂ (Event.Twin clearanceOf) evs evs') {s s' : Server}
    (hs : Transition.run (G.onEngine (R.query corpus)).step s₀ evs = some s)
    (hs' : Transition.run (G.onEngine (R.query corpus')).step s₀ evs' = some s') {http : HttpRequest}
    {o : Outside} {latencyMs : ℚ} {caller : CallerClearance} (ho : o.Undisturbed)
    (hcaller : http.caller = some caller) (hclearance : caller.clearance = clearanceOf caller.subject)
    (hlow : level.atLeast caller.clearance = true) :
    (exec ((G.onEngine (R.query corpus)).query o http) s).1.map (Option.map withoutLatency) =
      (exec ((G.onEngine (R.query corpus')).query (o.told latencyMs) http) s').1.map
        (Option.map withoutLatency) := by
  have hsame : ∀ asked : Asked, level.atLeast asked.caller.clearance = true →
      (G.onEngine (R.query corpus)).ragAnswer asked =
        ((G.onEngine (R.query corpus)).onEngine (R.query corpus')).ragAnswer asked :=
    fun asked hasked => RagEngineWiring.query_of_visible hvisible hasked _ _ _
  have hstep : ∀ q q' a b r r', lowView level clearanceOf q = lowView level clearanceOf q' →
      Event.Twin clearanceOf a b → (G.onEngine (R.query corpus)).step q a = some r →
      (G.onEngine (R.query corpus')).step q' b = some r' →
      lowView level clearanceOf r = lowView level clearanceOf r' :=
    fun _ _ _ _ _ _ hst hab hr hr' => lowView_step hsame hst hab hr hr'
  have hview := Transition.run_related hstep hevs rfl hs hs'
  exact (agree_query ho hcaller hlow hclearance hsame s s' hview).1.map_eq fun _ _ h => h

/-- One document and one chunk above everybody but the highest. -/
def restrictedCorpus : RagEngine.Tables Unit where
  document := [⟨⟨⟨1⟩,"minutes.md",1,none,"restricted","",true⟩,.ofEpochSecond 0⟩]
  chunk := [⟨⟨2⟩,⟨1⟩,0,"Minutes of the board".toList,"restricted",[],
    List.replicate RagEngine.VECTOR_DIM ()⟩]
  documentKey := List.nodup_singleton _
  documentLayer := by simp
  documentClearance := by simp [RagEngine.CLEARANCES]
  chunkKey := List.nodup_singleton _
  chunkIndex := List.nodup_singleton _
  reference := by simp
  chunkClearance := by simp [RagEngine.CLEARANCES]
  dimension := by simp

/-- The board member sees everything, all others what is for compliance. -/
def boardClearance (user : String) : Clearance := if user = "rita" then .RESTRICTED else .COMPLIANCE

def boardRequest : HttpRequest :=
  ⟨some ⟨"What did the board decide?",none,none⟩,some ⟨"rita",.RESTRICTED⟩,none,none⟩

/-- The board member asks first, over a corpus with the minutes and one without. -/
theorem noninterference_restricted : ∃ s s',
    Transition.run (refusing.onEngine (defaultWiring.query .empty)).step start
      [.request boardRequest calm] = some s ∧
    Transition.run (refusing.onEngine (defaultWiring.query restrictedCorpus)).step start
      [.request boardRequest (calm.told 7)] = some s' ∧
    (exec ((refusing.onEngine (defaultWiring.query .empty)).query calm
      (httpOf thresholdRequest none)) s).1.map (Option.map withoutLatency) =
    (exec ((refusing.onEngine (defaultWiring.query restrictedCorpus)).query (calm.told 9)
      (httpOf thresholdRequest none)) s').1.map (Option.map withoutLatency) := by
  refine ⟨_,_,rfl,rfl,?_⟩
  refine noninterference defaultWiring .empty restrictedCorpus refusing .COMPLIANCE boardClearance ?_
    start (.cons (.request (fun _ => rfl) ?_) .nil) rfl rfl (fun _ => rfl) rfl rfl rfl
  · have hlabel : "restricted" ∉ RagEngine.visibleLabels .COMPLIANCE := by decide
    simp [RagEngine.visibleRows,RagEngine.Tables.empty,restrictedCorpus,hlabel]
  · intro caller hcaller
    obtain rfl := Option.some.inj hcaller
    rfl

end GatewayQueryController

end AtlasCompliance.Gateway
