import AtlasCompliance.Gateway.Serving

/-! What a request is charged: the estimate of the budget check beside the cost of the tier that is
chosen later, and whether the charge is carried out. -/
namespace AtlasCompliance.Gateway
open Java Expiring Handling Auth

/-! ### Estimated texts -/

namespace RequestLimits

/-- Four letters to a token. -/
theorem estimateTokens_letters {n : ℕ} (hn : 0 < n) :
    estimateTokens (String.ofList (List.replicate (4*n) 'x')) = n := by
  have hx : isWhitespace 'x' = false := by decide
  have hblank : Text.isBlank (String.ofList (List.replicate (4*n) 'x')) = false := by
    rw [Text.isBlank,String.toList_ofList]
    simp [List.all_replicate,hx,hn.ne']
  have hstrip : Text.strip (String.ofList (List.replicate (4*n) 'x')) =
      String.ofList (List.replicate (4*n) 'x') := by
    have hdrop : (List.replicate (4*n) 'x').dropWhile isWhitespace = List.replicate (4*n) 'x' := by
      rw [List.dropWhile_replicate,if_neg (by simp [hx])]
    have hrdrop : (List.replicate (4*n) 'x').rdropWhile isWhitespace = List.replicate (4*n) 'x' := by
      rw [List.rdropWhile,List.reverse_replicate,hdrop,List.reverse_replicate]
    rw [Text.strip,String.toList_ofList,hdrop,hrdrop]
  have hlength : Text.length (String.ofList (List.replicate (4*n) 'x')) = 4*n := by
    rw [Text.length,String.toList_ofList]
    simp
  unfold estimateTokens
  rw [if_neg (by simp [hblank]),hstrip,hlength]
  omega

end RequestLimits

/-! ### The estimate of the budget check -/

namespace GatewayQueryController
variable {G : GatewayQueryController}

/-- An answer that reports no usage, with a text of four letters to a token. -/
def unmetered (n : ℕ) : Json := .obj [("answer",.str (String.ofList (List.replicate (4*n) 'x')))]

theorem tokens_unmetered {n : ℕ} (hn : 0 < n) (inputTokensEstimate : ℕ) :
    G.tokens (some (unmetered n)) inputTokensEstimate = ((inputTokensEstimate : ℤ),(n : ℤ)) := by
  have hget : nonNull? "answer" (unmetered n) =
      some (.str (String.ofList (List.replicate (4*n) 'x'))) :=
    Option.filter_eq_some_iff.mpr ⟨rfl,by simp⟩
  have hanswer : G.answerText (some (unmetered n)) =
      String.ofList (List.replicate (4*n) 'x') := by
    rw [answerText,Option.bind_some,hget]
    exact G.jackson.asText_str _
  have husage : (some (unmetered n)).bind (Json.get? "usage") = none := rfl
  simp only [tokens,husage,hanswer,RequestLimits.estimateTokens_letters hn]

/-- Costs within the token bounds are dearest at the bounds. -/
theorem costUnits_le {tier : ModelTier} {p c p' c' : ℤ} (hp : p ≤ p') (hc : c ≤ c') :
    CostTable.costUnits G.costs tier p c ≤ CostTable.costUnits G.costs tier p' c' := by
  have htotal : max 0 p + max 0 c ≤ max 0 p' + max 0 c' := by omega
  have hunits := CostTable.unitsPer1k_pos G.costs tier
  unfold CostTable.costUnits
  gcongr

/-- At the same tokens, not all of them zero, the cost tells the price. -/
theorem costUnits_le_costUnits_iff {tier tier' : ModelTier} {p c : ℤ} (h : 0 < p ∨ 0 < c) :
    CostTable.costUnits G.costs tier p c ≤ CostTable.costUnits G.costs tier' p c ↔
      CostTable.unitsPer1k G.costs tier ≤ CostTable.unitsPer1k G.costs tier' := by
  have htotal : 0 < max 0 p + max 0 c := by omega
  have htotal' : (0 : ℚ) < ((max 0 p + max 0 c : ℤ) : ℚ)/1000 := by
    have hcast : (0 : ℚ) < ((max 0 p + max 0 c : ℤ) : ℚ) := by exact_mod_cast htotal
    positivity
  unfold CostTable.costUnits
  exact mul_le_mul_iff_right₀ htotal'

theorem costUnits_unmetered {n : ℕ} (hn : 0 < n) (tier : ModelTier) (query : String) :
    G.costUnits tier query (some (unmetered n)) =
      CostTable.costUnits G.costs tier (RequestLimits.estimateTokens query) n := by
  rw [costUnits,tokens_unmetered hn]

/-- The tier that answers a miss. -/
def tierOf (G : GatewayQueryController) (http : HttpRequest) (request : GatewayQueryRequest) :
    ModelTier :=
  (G.router.route (G.redactIngress request).query http.qualityHint http.ftHint).tier

/-- Whatever is answered within the bounds of the check's tokens costs at most the check's estimate. -/
def Covered (G : GatewayQueryController) (http : HttpRequest) (request : GatewayQueryRequest) : Prop :=
  ∀ answer, (G.tokens answer (RequestLimits.estimateTokens request.query)).1 ≤
      RequestLimits.estimateTokens request.query →
    (G.tokens answer (RequestLimits.estimateTokens request.query)).2 ≤
      G.requestLimits.maxOutputTokens →
    G.costUnits (G.tierOf http request) request.query answer ≤ G.estimatedCost request.query

/-- The estimate covers the answers exactly when the tier that the router chooses is no dearer than the
small one; the configuration makes the output limit positive. -/
theorem estimate_covers_iff (G : GatewayQueryController) (http : HttpRequest)
    (request : GatewayQueryRequest) (hmax : 0 < G.requestLimits.maxOutputTokens) :
    G.Covered http request ↔ CostTable.unitsPer1k G.costs (G.tierOf http request) ≤
      CostTable.unitsPer1k G.costs .TIER1_SMALL := by
  constructor
  · intro hcovers
    obtain ⟨n,hn⟩ := Int.eq_ofNat_of_zero_le hmax.le
    have hpos : 0 < n := by omega
    have htokens := @tokens_unmetered G n hpos (RequestLimits.estimateTokens request.query)
    have hle := hcovers (some (unmetered n)) (by rw [htokens]) (by rw [htokens,hn])
    rw [costUnits_unmetered hpos,estimatedCost,hn] at hle
    exact (costUnits_le_costUnits_iff (Or.inr (by omega))).mp hle
  · intro hprice answer hprompt hcompletion
    refine (costUnits_le hprompt hcompletion).trans ?_
    exact (costUnits_le_costUnits_iff (Or.inr hmax)).mpr hprice

set_option maxRecDepth 20000 in
theorem tierOf_small : (gatewayOf false "" .null).tierOf (httpOf thresholdRequest none)
    thresholdRequest = .TIER1_SMALL := by decide +kernel

set_option maxRecDepth 20000 in
theorem tierOf_high : (gatewayOf false "" .null).tierOf (httpOf thresholdRequest (some "high"))
    thresholdRequest = .TIER2_MID := by decide +kernel

/-- A request without hints goes to the small tier. -/
theorem estimate_covers_small :
    (gatewayOf false "" .null).Covered (httpOf thresholdRequest none) thresholdRequest :=
  (estimate_covers_iff _ _ _ (by decide)).mpr (by rw [tierOf_small])

/-- The quality hint is answered at more than twice the price. -/
theorem estimate_short_high : ¬ ∀ (G : GatewayQueryController) (http : HttpRequest)
    (request : GatewayQueryRequest), 0 < G.requestLimits.maxOutputTokens →
      G.Covered http request := by
  intro h
  have hle := h (gatewayOf false "" .null) (httpOf thresholdRequest (some "high")) thresholdRequest
    (by decide) (some (unmetered 1024)) (by rw [tokens_unmetered (by decide)])
    (by rw [tokens_unmetered (by decide)]; decide)
  rw [costUnits_unmetered (by decide),tierOf_high] at hle
  have hprice := (costUnits_le_costUnits_iff (Or.inr (by decide))).mp hle
  norm_num [CostTable.unitsPer1k,gatewayOf,CostProperties.ofConfigured,unitsOr] at hprice

/-! ### Whether the charge is carried out -/

end GatewayQueryController

namespace RedisBudgetGuard

/-- A new deadline changes nothing of what is read then. -/
theorem read_expire (now : ℕ) (cell : Cell) : read now (expire now cell) = read now cell := by
  cases cell with
  | none => rfl
  | some e =>
    by_cases hlive : e.Live now
    · have hwritten : (write now (some TTL) e.value).Live now := live_write_some.mpr (Nat.le_add_right _ _)
      have hexpire : expire now (some e) = some (write now (some TTL) e.value) := by
        simp [expire,Option.filter,hlive]
      rw [hexpire,read_of_live hwritten,read_of_live hlive]
      rfl
    · have hexpire : expire now (some e) = none := by simp [expire,Option.filter,hlive]
      rw [hexpire,read_of_not_live hlive]
      rfl

/-- An increment is seen later as long as the key has not run out in between. -/
theorem read_incrByFloat_iff {now later : ℕ} {cost : ℚ} {cell : Cell} (hclock : now ≤ later)
    (hcost : 0 < cost) : (read later (incrByFloat now cost cell)).getD 0 = (read later cell).getD 0 + cost ↔
      ∀ e ∈ cell, e.Live now → e.Live later := by
  have hnew : ∀ v : ℚ, read later (some (⟨v,none⟩ : Entry ℕ ℚ)) = some v :=
    fun v => read_of_live (by simp [Entry.Live])
  cases cell with
  | none => simp [incrByFloat,hnew]
  | some e =>
    by_cases hnow : e.Live now
    · have hincr : incrByFloat now cost (some e) = some ⟨e.value + cost,e.deadline⟩ := by
        simp [incrByFloat,read_of_live hnow,Option.filter,hnow]
      rw [hincr]
      by_cases hlater : e.Live later
      · have hkept : (⟨e.value + cost,e.deadline⟩ : Entry ℕ ℚ).Live later := hlater
        simp [read_of_live hkept,read_of_live hlater,hlater]
      · have hgone : ¬ (⟨e.value + cost,e.deadline⟩ : Entry ℕ ℚ).Live later := hlater
        simp [read_of_not_live hgone,read_of_not_live hlater,hnow,hlater,hcost.ne]
    · have hlater : ¬ e.Live later := fun h => hnow fun d hd => hclock.trans (h d hd)
      have hincr : incrByFloat now cost (some e) = some ⟨cost,none⟩ := by
        simp [incrByFloat,read_of_not_live hnow,Option.filter,hnow]
      simp [hincr,hnew,read_of_not_live hlater,hnow]

end RedisBudgetGuard

namespace GatewayQueryController

/-- What a read of a budget key tells, nothing counting as zero. -/
def counter (s : Server) (key : String) (now : ℕ) : ℚ := (read now (s.budgets key)).getD 0

section Record
variable {o : Outside} {s : Server} {user : String} {actualCost : ℚ}

/-- The charge enters the counter where there is a guard and the increment is carried out. -/
def Counted (G : GatewayQueryController) (o : Outside) : Prop :=
  G.budgetGuard.isSome = true ∧ ∀ fault ∈ o.fault .incrByFloat, fault.executed = true

theorem perform_effect {call : Call} {f : Server → Server} : (exec (perform o call f) s).2 =
    if ∀ fault ∈ o.fault call, fault.executed = true then f s else s := by
  cases hfault : o.fault call with
  | none => rw [exec_perform hfault,if_pos (by simp)]
  | some fault =>
    unfold perform
    rw [hfault]
    obtain ⟨e,executed⟩ := fault
    cases executed with
    | true =>
      rw [if_pos (by simp),exec_bind_ok (exec_modify f s)]
      rfl
    | false =>
      rw [if_neg (by simp)]
      rfl

theorem counter_onBudget (s : Server) (key : String) (now : ℕ)
    (f : RedisBudgetGuard.Cell → RedisBudgetGuard.Cell) :
    counter (s.onBudget key f) key now = (read now (f (s.budgets key))).getD 0 := by
  simp [counter,Server.onBudget]

/-- The key of the charge does not run out between its two commands. -/
def Lasting (o : Outside) (key : String) (s : Server) : Prop :=
  ∀ e ∈ s.budgets key, e.Live (o.clock .incrByFloat) → e.Live (o.clock .budgetExpire)

theorem counter_add_iff {a cost : ℚ} : a = a + cost ↔ cost = 0 := by
  constructor
  · intro h
    linarith
  · rintro rfl
    ring

/-- The charge is carried out: nothing is due, or it is counted under a key that lasts. -/
theorem counter_record_iff (G : GatewayQueryController) (hclock : o.clock .incrByFloat ≤ o.clock .budgetExpire)
    (hcost : 0 ≤ actualCost) {key : String} (hkey : key = RedisBudgetGuard.key user (LocalDate.now o.recordedAt)) :
    counter (exec (G.record o user actualCost) s).2 key (o.clock .budgetExpire) =
        counter s key (o.clock .budgetExpire) + actualCost ↔
      actualCost = 0 ∨ (Counted G o ∧ Lasting o key s) := by
  unfold record
  cases hguard : G.budgetGuard with
  | none => simp [Counted,hguard]
  | some guard =>
    obtain rfl | hpos := hcost.eq_or_lt
    · simp
    rw [if_neg (not_le.mpr hpos),← hkey]
    let incremented := s.onBudget key (RedisBudgetGuard.incrByFloat (o.clock .incrByFloat) actualCost)
    have heffect := @perform_effect o s .incrByFloat fun s =>
      s.onBudget key (RedisBudgetGuard.incrByFloat (o.clock .incrByFloat) actualCost)
    have hincremented : counter incremented key (o.clock .budgetExpire) =
        counter s key (o.clock .budgetExpire) + actualCost ↔ Lasting o key s := by
      rw [counter_onBudget]
      exact RedisBudgetGuard.read_incrByFloat_iff hclock hpos
    have hexpired : ∀ s : Server, counter (exec (perform o .budgetExpire fun s =>
        s.onBudget key (RedisBudgetGuard.expire (o.clock .budgetExpire))) s).2 key (o.clock .budgetExpire) =
          counter s key (o.clock .budgetExpire) := by
      intro s
      rw [perform_effect]
      split_ifs
      · rw [counter_onBudget,RedisBudgetGuard.read_expire]
        rfl
      · rfl
    have hfinal : counter (exec (perform o .incrByFloat (fun s => s.onBudget key
        (RedisBudgetGuard.incrByFloat (o.clock .incrByFloat) actualCost)) >>= fun _ =>
          perform o .budgetExpire fun s => s.onBudget key
            (RedisBudgetGuard.expire (o.clock .budgetExpire))) s).2 key (o.clock .budgetExpire) =
        counter (if ∀ fault ∈ o.fault .incrByFloat, fault.executed = true then incremented else s) key
          (o.clock .budgetExpire) := by
      rw [← heffect]
      obtain ⟨e,t,hincr,hrest⟩ | ⟨u,t,hincr,hrest⟩ := exec_bind_cases (perform o .incrByFloat fun s =>
        s.onBudget key (RedisBudgetGuard.incrByFloat (o.clock .incrByFloat) actualCost))
        (fun _ => perform o .budgetExpire fun s => s.onBudget key
          (RedisBudgetGuard.expire (o.clock .budgetExpire))) s
      · rw [hrest,hincr]
      · rw [hrest,hexpired,hincr]
    have hnone : actualCost ≠ 0 := hpos.ne'
    by_cases hexec : ∀ fault ∈ o.fault .incrByFloat, fault.executed = true
    · rw [if_pos hexec] at hfinal
      have hcounted : Counted G o := ⟨by simp [hguard],hexec⟩
      rw [hfinal]
      exact hincremented.trans (by simp [hnone,hcounted])
    · rw [if_neg hexec] at hfinal
      have hcounted : ¬ Counted G o := fun h => hexec h.2
      have hsame := @counter_add_iff (counter s key (o.clock .budgetExpire)) actualCost
      rw [hfinal]
      exact hsame.trans (by simp [hcounted])

end Record

section Paid
variable {G : GatewayQueryController} {o : Outside} {http : HttpRequest} {caller : CallerClearance}
  {request : GatewayQueryRequest} {s : Server} {queryVec : List ℚ} {body : Json}

theorem perform_fails {call : Call} {f : Server → Server} (hfault : o.fault call ≠ none) :
    ∃ e t, exec (perform o call f) s = (.error e,t) := by
  cases hperform : exec (perform o call f) s with
  | mk out t => cases out with
    | error e => exact ⟨e,t,rfl⟩
    | ok u => exact absurd (perform_ok hperform).1 hfault

/-- The store of an answer goes through where its two writes do. -/
def Storable (G : GatewayQueryController) (o : Outside) (queryVec : List ℚ) : Prop :=
  G.cacheProps.enabled = true → queryVec ≠ [] → o.fault .hset = none ∧ o.fault .expire = none

theorem cachePut_returns (asked : Asked) (model : Option String)
    (hready : queryVec ≠ [] → s.indexReady = true) : (Storable G o queryVec →
        ∃ t, exec (G.cachePut o asked queryVec model (some body)) s = (.ok (),t)) ∧
      (¬ Storable G o queryVec →
        ∃ e t, exec (G.cachePut o asked queryVec model (some body)) s = (.error e,t)) := by
  unfold cachePut
  cases henabled : G.cacheProps.enabled with
  | false => exact ⟨fun _ => ⟨s,rfl⟩,fun h => absurd (fun hon => by simp [henabled] at hon) h⟩
  | true =>
    cases queryVec with
    | nil => exact ⟨fun _ => ⟨s,rfl⟩,fun h => absurd (fun _ hne => absurd rfl hne) h⟩
    | cons x xs =>
      simp only [RedisSemanticCache.put]
      rw [exec_bind_ok (RedisSemanticCache.exec_ensureIndex_of_ready (hready (by simp)))]
      refine ⟨fun h => ?_,fun h => ?_⟩
      · obtain ⟨hset,hexpire⟩ := h henabled (by simp)
        rw [exec_bind_ok (exec_perform hset),exec_perform hexpire]
        exact ⟨_,rfl⟩
      · by_cases hset : o.fault .hset = none
        · rw [exec_bind_ok (exec_perform hset)]
          exact perform_fails fun hexpire => h fun _ _ => ⟨hset,hexpire⟩
        · obtain ⟨e,t,hfails⟩ := @perform_fails o s .hset _ hset
          exact ⟨e,t,exec_bind_error hfails⟩

/-- The key of a request's charge. -/
def chargeKey (o : Outside) (user : String) : String :=
  RedisBudgetGuard.key user (LocalDate.now o.recordedAt)

theorem costUnits_nonneg (G : GatewayQueryController) (tier : ModelTier) (query : String) (answer : Option Json) :
    0 ≤ G.costUnits tier query answer := by
  have hunits := CostTable.unitsPer1k_pos G.costs tier
  unfold costUnits CostTable.costUnits
  positivity

theorem counter_congr {t : Server} (h : t.budgets = s.budgets) (key : String) (now : ℕ) :
    counter t key now = counter s key now := by rw [counter,counter,h]

/-- The meters leave the counter as the charge left it. -/
theorem counter_bind_reported (charge : Handler Server Failure Unit) (response : Option Json) (key : String)
    (now : ℕ) : counter (exec (charge >>= fun _ => reported o response) s).2 key now =
      counter (exec charge s).2 key now := by
  obtain ⟨e,t,hcharge,hrest⟩ | ⟨u,t,hcharge,hrest⟩ := exec_bind_cases charge (fun _ => reported o response) s
  · rw [hrest,hcharge]
  · rw [hrest,hcharge]
    exact counter_congr (keeps_reported response t) key now

/-- The route of a miss. -/
def decisionOf (G : GatewayQueryController) (http : HttpRequest) (request : GatewayQueryRequest) :
    RoutingDecision :=
  G.router.route (G.redactIngress request).query http.qualityHint http.ftHint

theorem answered_eq : G.answered o caller http request queryVec = (do
    perform o .sign id
    let answer ← G.proxied o (G.asks http caller request)
    G.cachePut o (G.asks http caller request) queryVec (G.decisionOf http request).model answer
    G.record o caller.subject (G.costUnits (G.tierOf http request) request.query answer)
    reported o (G.envelope answer (missMeta o (G.decisionOf http request)
      (G.tokens answer (RequestLimits.estimateTokens request.query))
      (G.costUnits (G.tierOf http request) request.query answer)))) := rfl

/-- What the counter is after a paid answer. -/
theorem answered_counter_iff (hclock : o.clock .incrByFloat ≤ o.clock .budgetExpire)
    (hready : queryVec ≠ [] → s.indexReady = true) (hsign : o.fault .sign = none)
    (hcall : o.fault .ragEngine = none) (hbody : G.ragAnswer (G.asks http caller request) = some body) :
    counter (exec (G.answered o caller http request queryVec) s).2 (chargeKey o caller.subject)
          (o.clock .budgetExpire) =
        counter s (chargeKey o caller.subject) (o.clock .budgetExpire) +
          G.costUnits (G.tierOf http request) request.query (some body) ↔
      G.costUnits (G.tierOf http request) request.query (some body) = 0 ∨
        (o.fault .breaker = none ∧ Storable G o queryVec ∧ Counted G o ∧
          Lasting o (chargeKey o caller.subject) s) := by
  have huncharged : ∀ {t : Server}, t.budgets = s.budgets → o.fault .breaker ≠ none ∨ ¬ Storable G o queryVec →
      (counter t (chargeKey o caller.subject) (o.clock .budgetExpire) =
          counter s (chargeKey o caller.subject) (o.clock .budgetExpire) +
            G.costUnits (G.tierOf http request) request.query (some body) ↔
        G.costUnits (G.tierOf http request) request.query (some body) = 0 ∨
          (o.fault .breaker = none ∧ Storable G o queryVec ∧ Counted G o ∧
            Lasting o (chargeKey o caller.subject) s)) := by
    intro t ht hstopped
    rw [counter_congr ht,counter_add_iff]
    tauto
  rw [answered_eq,exec_bind_ok (exec_perform hsign)]
  by_cases hbreaker : o.fault .breaker = none
  · have hproxied : exec (G.proxied o (G.asks http caller request)) s =
        (.ok (some body),logged s (G.asks http caller request) (some body)) := by
      rw [exec_proxied,if_pos hcall,if_pos hbreaker,hbody]
    rw [id,exec_bind_ok hproxied]
    obtain ⟨hreturns,hfails⟩ := @cachePut_returns G o (logged s (G.asks http caller request) (some body))
      queryVec body (G.asks http caller request) (G.decisionOf http request).model hready
    have hkept := (keeps_cachePut (G := G) (o := o) (G.asks http caller request) queryVec
      (G.decisionOf http request).model (some body)).of
        (fun s t h => (congrArg Server.budgets h : (uncached s).budgets = (uncached t).budgets))
        (logged s (G.asks http caller request) (some body))
    by_cases hstored : Storable G o queryVec
    · obtain ⟨t,ht⟩ := hreturns hstored
      rw [ht] at hkept
      have hbudgets : t.budgets = s.budgets := hkept
      have hlasting : Lasting o (chargeKey o caller.subject) t ↔ Lasting o (chargeKey o caller.subject) s := by
        rw [Lasting,Lasting,hbudgets]
      have hrecorded := counter_record_iff (s := t) G hclock
        (costUnits_nonneg G (G.tierOf http request) request.query (some body))
        (rfl : chargeKey o caller.subject = _)
      rw [counter_congr hbudgets,hlasting] at hrecorded
      rw [exec_bind_ok ht]
      refine Iff.trans ?_ (hrecorded.trans (by simp [hbreaker,hstored]))
      rw [counter_bind_reported]
    · obtain ⟨e,t,ht⟩ := hfails hstored
      rw [ht] at hkept
      rw [exec_bind_error ht]
      exact huncharged hkept (Or.inr hstored)
  · have hproxied : exec (G.proxied o (G.asks http caller request)) s =
        (.error .downstreamUnavailable,logged s (G.asks http caller request) (some body)) := by
      rw [exec_proxied,if_pos hcall,if_neg hbreaker,hbody]
    rw [id,exec_bind_error hproxied]
    exact huncharged rfl (Or.inl hbreaker)

/-- What follows the call of the rag-engine leaves the record of its bodies. -/
theorem keeps_answers_rest (asked : Asked) (model : Option String) (user : String) (cost : Option Json → ℚ)
    (response : Option Json → Option Json) (answer : Option Json) : Keeps Server.answers (do
      G.cachePut o asked queryVec model answer
      G.record o user (cost answer)
      reported o (response answer)) := by
  refine Keeps.bind ?_ fun _ => Keeps.bind ?_ fun _ => keeps_reported _
  · exact (keeps_cachePut asked queryVec model answer).of fun s t h =>
      (congrArg Server.answers h : (uncached s).answers = (uncached t).answers)
  · exact (keeps_record user (cost answer)).of fun s t h =>
      (congrArg Server.answers h : (uncharged s).answers = (uncharged t).answers)

/-- A miss adds the body to the record exactly where the call is made. -/
theorem answered_answers : (exec (G.answered o caller http request queryVec) s).2.answers =
    if o.fault .sign = none ∧ o.fault .ragEngine = none then
      (logged s (G.asks http caller request) (G.ragAnswer (G.asks http caller request))).answers
    else s.answers := by
  rw [answered_eq]
  by_cases hsign : o.fault .sign = none
  · rw [exec_bind_ok (exec_perform hsign),id]
    by_cases hcall : o.fault .ragEngine = none
    · rw [if_pos ⟨hsign,hcall⟩]
      by_cases hbreaker : o.fault .breaker = none
      · have hproxied : exec (G.proxied o (G.asks http caller request)) s =
            (.ok (G.ragAnswer (G.asks http caller request)),
              logged s (G.asks http caller request) (G.ragAnswer (G.asks http caller request))) := by
          rw [exec_proxied,if_pos hcall,if_pos hbreaker]
        rw [exec_bind_ok hproxied]
        exact keeps_answers_rest _ _ _ _ _ _ _
      · have hproxied : exec (G.proxied o (G.asks http caller request)) s =
            (.error .downstreamUnavailable,
              logged s (G.asks http caller request) (G.ragAnswer (G.asks http caller request))) := by
          rw [exec_proxied,if_pos hcall,if_neg hbreaker]
        rw [exec_bind_error hproxied]
    · have hproxied : exec (G.proxied o (G.asks http caller request)) s =
          (.error .downstreamUnavailable,s) := by
        rw [exec_proxied,if_neg hcall]
      rw [exec_bind_error hproxied,if_neg fun h => hcall h.2]
  · obtain ⟨fault,hfault⟩ := Option.ne_none_iff_exists'.mp hsign
    rw [exec_bind_error (exec_perform_id hfault),if_neg fun h => hsign h.1]

/-- A request that has the body of an answer added to the record is served by the rag-engine: what it asked,
and the state in which it did. -/
theorem query_paid {asked : Asked} (hpaid : (exec (G.query o http) s).2.answers = s.answers ++ [(asked,body)]) :
    ∃ caller request q queryVec, http.body = some request ∧ asked = G.asks http caller request ∧
      G.ragAnswer asked = some body ∧ o.fault .sign = none ∧ o.fault .ragEngine = none ∧
      q.budgets = s.budgets ∧ queryVec = (if G.cacheProps.enabled then G.embed asked.request.query else []) ∧
      (queryVec ≠ [] → q.indexReady = true) ∧
      exec (G.query o http) s = exec (G.answered o caller http request queryVec) q := by
  have hsame : ∀ {t : Server}, t.answers = s.answers → t.answers ≠ s.answers ++ [(asked,body)] := by
    intro t ht h
    rw [ht] at h
    simpa using congrArg List.length h
  obtain ⟨e,t,herror,hunlimited⟩ | ⟨caller,request,s',hadmitted,hserved⟩ := query_cases G o http s
  · rw [herror] at hpaid
    exact absurd hpaid (hsame (congrArg Server.answers hunlimited :
      (unlimited t).answers = (unlimited s).answers))
  have hanswers : s'.answers = s.answers := (congrArg Server.answers hadmitted.same :
    (unlimited s').answers = (unlimited s).answers)
  have hbudgets : s'.budgets = s.budgets := (congrArg Server.budgets hadmitted.same :
    (unlimited s').budgets = (unlimited s).budgets)
  rw [hserved] at hpaid ⊢
  unfold served at hpaid ⊢
  obtain ⟨e,t,hconsult,hrest⟩ | ⟨⟨queryVec,found⟩,q,hconsult,hrest⟩ := exec_bind_cases
    (G.consultCache o caller.clearance.label (G.redactIngress request).query) _ s'
  · rw [hrest] at hpaid
    have hkept := keeps_consultCache (G := G) (o := o) caller.clearance.label (G.redactIngress request).query s'
    rw [hconsult] at hkept
    exact absurd hpaid (hsame ((congrArg Server.answers hkept :
      (unlooked t).answers = (unlooked s').answers).trans hanswers))
  have hconsulted := consultCache_ok hconsult
  have hlooked : q.answers = s.answers := (congrArg Server.answers hconsulted.same :
    (unlooked q).answers = (unlooked s').answers).trans hanswers
  rw [hrest] at hpaid ⊢
  cases found with
  | some hit => exact absurd hpaid (hsame ((keeps_fromCache hit q).trans hlooked))
  | none =>
    have hadded := @answered_answers G o http caller request q queryVec
    split_ifs at hadded with hmade
    · have hlogged := hadded.symm.trans hpaid
      rw [logged,hlooked,List.append_cancel_left_eq] at hlogged
      cases hanswer : G.ragAnswer (G.asks http caller request) with
      | none =>
        rw [hanswer] at hlogged
        cases hlogged
      | some b =>
        rw [hanswer] at hlogged
        obtain ⟨rfl,rfl⟩ := Prod.mk.inj (List.singleton_inj.mp hlogged)
        refine ⟨caller,request,q,queryVec,hadmitted.body,rfl,hanswer,hmade.1,hmade.2,?_,
          hconsulted.vector,hconsulted.ready,rfl⟩
        exact (congrArg Server.budgets hconsulted.same :
          (unlooked q).budgets = (unlooked s').budgets).trans hbudgets
    · exact absurd hpaid (hsame (hadded.trans hlooked))

/-- The query of an HTTP request. -/
def queryOf (http : HttpRequest) : String := (http.body.map GatewayQueryRequest.query).getD ""

/-- A paid answer is charged exactly where nothing is due, or the breaker hands the answer on, its store
goes through, and the charge is counted under a key that lasts. -/
theorem no_lost_charge_iff (G : GatewayQueryController) {asked : Asked}
    (hclock : o.clock .incrByFloat ≤ o.clock .budgetExpire)
    (hpaid : (exec (G.query o http) s).2.answers = s.answers ++ [(asked,body)]) :
    counter (exec (G.query o http) s).2 (chargeKey o asked.caller.subject) (o.clock .budgetExpire) =
        counter s (chargeKey o asked.caller.subject) (o.clock .budgetExpire) +
          G.costUnits asked.tier (queryOf http) (some body) ↔
      G.costUnits asked.tier (queryOf http) (some body) = 0 ∨
        (o.fault .breaker = none ∧ Storable G o (G.embed asked.request.query) ∧ Counted G o ∧
          Lasting o (chargeKey o asked.caller.subject) s) := by
  obtain ⟨caller,request,q,queryVec,hbody,rfl,hanswer,hsign,hcall,hbudgets,hvector,hready,hquery⟩ :=
    query_paid hpaid
  have hpath := @answered_counter_iff G o http caller request q queryVec body hclock hready hsign hcall hanswer
  have hstorable : Storable G o queryVec ↔
      Storable G o (G.embed (G.asks http caller request).request.query) := by
    cases henabled : G.cacheProps.enabled with
    | false => simp [Storable,henabled]
    | true =>
      rw [henabled,if_pos rfl] at hvector
      rw [hvector]
  have hlasting : Lasting o (chargeKey o caller.subject) q ↔ Lasting o (chargeKey o caller.subject) s := by
    rw [Lasting,Lasting,hbudgets]
  have hof : queryOf http = request.query := by simp [queryOf,hbody]
  rw [counter_congr hbudgets,hstorable,hlasting] at hpath
  rw [hquery,hof]
  exact hpath

end Paid

/-! ### A store that fails after the paid call -/

/-- The connection is lost when the answer is to be stored. -/
def storeDown : Outside :=
  ⟨fun call => if call = .hset then some ⟨.outside "connection lost",false⟩ else none,fun _ => 0,0,0,0,0⟩

/-- A gateway with its cache on, over a rag-engine with a short answer. -/
def cachingGateway : GatewayQueryController := gatewayOf true "" (unmetered 1)

def shortRequest : GatewayQueryRequest := ⟨"?",none,none⟩

def shortAsked : Asked := cachingGateway.asks (httpOf shortRequest none) ⟨"priya",.COMPLIANCE⟩ shortRequest

set_option maxRecDepth 20000 in
theorem storeDown_paid : (exec (cachingGateway.query storeDown (httpOf shortRequest none)) start).2.answers =
    start.answers ++ [(shortAsked,unmetered 1)] := by decide +kernel

/-- The answer costs something, and the counter stays as it was. -/
theorem storeDown_uncharged : ¬ ∀ (G : GatewayQueryController) (o : Outside) (http : HttpRequest) (s : Server)
    (asked : Asked) (body : Json), o.clock .incrByFloat ≤ o.clock .budgetExpire →
      (exec (G.query o http) s).2.answers = s.answers ++ [(asked,body)] →
        counter (exec (G.query o http) s).2 (chargeKey o asked.caller.subject) (o.clock .budgetExpire) =
          counter s (chargeKey o asked.caller.subject) (o.clock .budgetExpire) +
            G.costUnits asked.tier (queryOf http) (some body) := by
  intro h
  have hcharged := h cachingGateway storeDown (httpOf shortRequest none) start shortAsked (unmetered 1)
    le_rfl storeDown_paid
  revert hcharged
  decide +kernel

theorem no_lost_charge_iff_storeDown : storeDown.clock .incrByFloat ≤ storeDown.clock .budgetExpire ∧
    (exec (cachingGateway.query storeDown (httpOf shortRequest none)) start).2.answers =
      start.answers ++ [(shortAsked,unmetered 1)] ∧
    (counter (exec (cachingGateway.query storeDown (httpOf shortRequest none)) start).2
          (chargeKey storeDown shortAsked.caller.subject) (storeDown.clock .budgetExpire) =
        counter start (chargeKey storeDown shortAsked.caller.subject) (storeDown.clock .budgetExpire) +
          cachingGateway.costUnits shortAsked.tier (queryOf (httpOf shortRequest none)) (some (unmetered 1)) ↔
      cachingGateway.costUnits shortAsked.tier (queryOf (httpOf shortRequest none)) (some (unmetered 1)) = 0 ∨
        (storeDown.fault .breaker = none ∧
          Storable cachingGateway storeDown (cachingGateway.embed shortAsked.request.query) ∧
          Counted cachingGateway storeDown ∧
          Lasting storeDown (chargeKey storeDown shortAsked.caller.subject) start)) :=
  ⟨le_rfl,storeDown_paid,no_lost_charge_iff cachingGateway le_rfl storeDown_paid⟩

end GatewayQueryController

end AtlasCompliance.Gateway
