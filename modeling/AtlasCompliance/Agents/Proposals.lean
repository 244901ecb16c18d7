import AtlasCompliance.Agents.Decision
import AtlasCompliance.Gateway.Egress
import AtlasCompliance.McpTools.ArgsDigest
import AtlasCompliance.RagEngine.QueryApi

/-! From a response of the rag-engine, through the gateway's filter and the agent's contexts, to the
arguments that the tool server validates. -/
namespace AtlasCompliance.Agents
open Python McpTools Gateway RagEngine

/-- `RunRequest`, as the API accepts it. -/
structure RunRequest where
  query : String
  account : String
  period : String
  query_length : 1 ≤ query.length
  account_length : 1 ≤ account.length
  period_pattern : SarInputValidator.periodMatches period = true

/-- What the gateway makes of a body of the rag-engine: its texts are cleansed and its sections set. -/
def relayed (J : Jackson) (safety : SafetyProperties) (m : Meta) (r : QueryResponse) : Json :=
  withSections (applyEgressSafety J safety r.toJson).1 m

/-- The arguments of a proposal as the tool server binds them. -/
def ProposedAction.toolArgs (p : ProposedAction) (run : String) : ToolArgs :=
  ⟨some p.args.account,some p.args.period,some p.args.rationale,
    some (boundCitations p.args.citations),some run⟩

section Responses

/-- A citation without the member `n`, whose snippet is a text. -/
structure Unmarked (citation : Json) : Prop where
  object : ∃ members, citation = .obj members
  n : citation.get? "n" = none
  snippet : ∃ text, citation.get? "snippet" = some (.str text)

/-- A response that the agent can read, whose citations have no member `n`. -/
structure Legible (resp : Json) (cs : List Json) : Prop where
  object : ∃ members, resp = .obj members
  answer : resp.get? "answer" = none ∨ ∃ text, resp.get? "answer" = some (.str text)
  cited : resp.get? "citations" = some (.arr cs)
  unmarked : ∀ c ∈ cs, Unmarked c

variable {resp : Json} {citations : List Json}

theorem orElse_str (text : String) : orElse (.str text) (.str "") = .str text := by
  by_cases h : text = ""
  · rw [h]
    rfl
  · simp [orElse,truthy,h]

theorem Legible.get_answer (h : Legible resp citations) :
    ∃ text, get resp "answer" (.str "") = .ok (.str text) := by
  obtain hnone | ⟨text,htext⟩ := h.answer
  · exact ⟨"",get_eq_ok.mpr ⟨h.object,by rw [hnone]; rfl⟩⟩
  · exact ⟨text,get_eq_ok.mpr ⟨h.object,by rw [htext]; rfl⟩⟩

theorem citationsOf_legible (h : Legible resp citations) : citationsOf resp = .ok citations := by
  have hget : get resp "citations" (.arr []) = .ok (.arr citations) :=
    get_eq_ok.mpr ⟨h.object,by rw [h.cited]; rfl⟩
  have horElse : orElse (.arr citations) (.arr []) = .arr citations := by
    cases citations <;> rfl
  rw [citationsOf,hget]
  exact congrArg iterate horElse

theorem markerOf_unmarked {c : Json} (h : Unmarked c) : markerOf c = .null := by
  rw [markerOf,get_eq_ok.mpr ⟨h.object,rfl⟩,h.n]
  rfl

theorem citedMarkers_legible (h : Legible resp citations) : citedMarkers citations = [] := by
  refine List.filter_eq_nil_iff.mpr fun n hn => ?_
  obtain ⟨c,hc,rfl⟩ := List.mem_map.mp hn
  simp [markerOf_unmarked (h.unmarked c hc)]

theorem exists_retrieveNode {F : Type} (h : Legible resp citations) (py : Runtime F)
    (s : AgentState F) :
    ∃ t, retrieveNode py resp s = .ok t := by
  obtain ⟨answer,hanswer⟩ := h.get_answer
  have hciting : citationsOf resp = .ok citations := citationsOf_legible h
  simp only [citationsOf,bind_eq_ok] at hciting
  obtain ⟨raw,hraw,hciting⟩ := hciting
  have hamounts : extractAmounts py (.str answer) = .ok (amountsOf py answer.toList) :=
    extractAmounts_eq_ok.mpr ⟨fun _ => ⟨answer,rfl⟩,rfl⟩
  let contextFrom : Json → Context := fun c => ⟨.null,(c.get? "documentId").getD .null,
    (c.get? "clearance").getD .null,.str (textOf "snippet" c)⟩
  have hcontexts : citations.mapM (fun c => do
      return (⟨← get c "n" .null,← get c "documentId" .null,← get c "clearance" .null,
        ← get c "snippet" .null⟩ : Context)) = Except.ok (citations.map contextFrom) := by
    rw [mapM_eq_ok]
    refine List.forall₂_map_right_iff.mpr (List.forall₂_same.mpr fun c hc => ?_)
    obtain ⟨hobject,hn,text,htext⟩ := h.unmarked c hc
    have hget : ∀ name, get c name .null = .ok ((c.get? name).getD .null) :=
      fun name => get_eq_ok.mpr ⟨hobject,rfl⟩
    simp only [hget,contextFrom,textOf,htext,hn]
    rfl
  have hmore : (citations.map contextFrom).mapM (fun c => extractAmounts py c.snippet) =
      Except.ok (citations.map fun c => amountsOf py (textOf "snippet" c).toList) := by
    rw [mapM_eq_ok]
    refine List.forall₂_map_left_iff.mpr (List.forall₂_map_right_iff.mpr ?_)
    exact List.forall₂_same.mpr fun c _ => extractAmounts_eq_ok.mpr ⟨fun _ => ⟨_,rfl⟩,rfl⟩
  simp only [retrieveNode,hanswer,bind_eq_ok]
  refine ⟨_,.str answer,rfl,raw,hraw,citations,hciting,_,hcontexts,amountsOf py answer.toList,?_,_,
    hmore,rfl⟩
  rw [orElse_str]
  exact hamounts

end Responses

section Proposals
variable {F : Type} [LinearOrder F]

/-- The actions that a run proposes on a response: `assess` builds one for a breach, `clarify` one for
a breach that the human confirms. -/
inductive Proposes (py : Runtime F) (threshold : F) (resp : Json) (s : AgentState F) :
    ProposedAction → Prop
  | assess {t u : AgentState F} {p : ProposedAction} (ht : retrieveNode py resp s = .ok t)
      (hu : assessNode py threshold t = .ok u) (hp : u.proposedAction = some p) :
      Proposes py threshold resp s p
  | clarify {t u v : AgentState F} {decision : Payload} {p : ProposedAction}
      (ht : retrieveNode py resp s = .ok t) (hu : assessNode py threshold t = .ok u)
      (hroute : breachBranch u = .clarify) (hbreach : truthy decision.breach = true)
      (hv : clarifyAnswer decision u = .ok v) (hp : v.proposedAction = some p) :
      Proposes py threshold resp s p

/-- An amount at or above the threshold stands in the snippet. -/
def HoldsBreach (py : Runtime F) (threshold : F) (citation : Json) : Prop :=
  ∃ amt ∈ amountsOf py (textOf "snippet" citation).toList, threshold ≤ amt

/-- The tool accepts the proposal, and what it cites are markers of citations: of those whose snippet
holds a breach, if there is one. -/
structure Admissible (py : Runtime F) (threshold : F) (run : String) (citations : List Json)
    (p : ProposedAction) : Prop where
  validated : SarInputValidator.validate (p.toolArgs run) = .ok ()
  cited : ∀ n ∈ p.args.citations, ∃ c ∈ citations, c.get? "marker" = some n ∧
    ((∃ c ∈ citations, HoldsBreach py threshold c) → HoldsBreach py threshold c)

variable {py : Runtime F} {threshold : F} {resp : Json} {citations : List Json} {s t u : AgentState F}

theorem attributedMarkers_legible (h : Legible resp citations) :
    attributedMarkers py threshold citations = [] := by
  refine List.filter_eq_nil_iff.mpr fun n hn => ?_
  obtain ⟨c,hc,rfl⟩ := List.mem_map.mp hn
  obtain ⟨d,hd,hc⟩ := List.mem_flatMap.mp hc
  obtain ⟨-,-,rfl⟩ := List.mem_map.mp hc
  simp [markerOf_unmarked (h.unmarked d hd)]

theorem exists_assessNode (h : Legible resp citations) (ht : retrieveNode py resp s = .ok t) :
    ∃ u, assessNode py threshold t = .ok u := by
  obtain ⟨cs,hcs,hcontexts,hanswer,-,-⟩ := retrieveNode_spec ht
  obtain rfl : citations = cs := Except.ok.inj ((citationsOf_legible h).symm.trans hcs)
  have hper : t.contexts.mapM (fun c => do
      return (← extractAmounts py c.snippet).map fun amt => (c.n,amt)) =
      Except.ok (citations.map fun c =>
        (amountsOf py (textOf "snippet" c).toList).map fun amt => (markerOf c,amt)) := by
    rw [mapM_eq_ok]
    refine List.forall₂_map_right_iff.mpr (hcontexts.flip.imp fun c x hx => ?_)
    rw [hx.extractAmounts,hx.markerOf]
    rfl
  have hambiguous : ∃ b, isAmbiguous (t.amounts.max?.any fun a => threshold ≤ a) t = .ok b := by
    unfold isAmbiguous
    split_ifs
    · exact ⟨_,mentionsMoney_eq hcontexts hanswer⟩
    · exact ⟨_,rfl⟩
  obtain ⟨ambiguous,hambiguous⟩ := hambiguous
  have hmarkers : breachingMarkers (t.amounts.max?.any fun a => threshold ≤ a) [] t = .ok [] := by
    rw [breachingMarkers,markers_eq hcontexts,citedMarkers_legible h]
    split_ifs <;> rfl
  simp only [assessNode,bind_eq_ok]
  refine ⟨_,_,hper,ambiguous,hambiguous,[],?_,[],hmarkers,rfl⟩
  rw [attributedMarkers_eq,attributedMarkers_legible h]
  rfl

theorem exists_decision (h : Legible resp citations) (py : Runtime F) (threshold : F)
    (s : AgentState F) : ∃ d, decision py threshold resp s = .ok d := by
  obtain ⟨t,ht⟩ := exists_retrieveNode h py s
  obtain ⟨u,hu⟩ : ∃ u, assessNode py threshold t = .ok u := exists_assessNode h ht
  refine ⟨⟨u.breach,breachBranch u,u.proposedAction⟩,?_⟩
  simp only [decision,ht,bind_eq_ok]
  exact ⟨t,rfl,u,hu,rfl⟩

/-- On citations without the member `n` every proposal cites nothing. -/
theorem citations_of_proposes (h : Legible resp citations) {p : ProposedAction}
    (hp : Proposes py threshold resp s p) : p.args.citations = [] := by
  have hcited : ∀ {t}, retrieveNode py resp s = .ok t →
      List.Forall₂ ContextOf citations t.contexts ∧ t.answer = some (textOf "answer" resp) := by
    intro t ht
    obtain ⟨cs,hcs,hcontexts,hanswer,-,-⟩ := retrieveNode_spec ht
    obtain rfl : citations = cs := Except.ok.inj ((citationsOf_legible h).symm.trans hcs)
    exact ⟨hcontexts,hanswer⟩
  cases hp with
  | @assess t u _ ht hu hp =>
    obtain ⟨hcontexts,hanswer⟩ := hcited ht
    obtain ⟨-,-,hnone,hsome⟩ := assessNode_spec hcontexts hanswer hu
    cases hb : u.breach with
    | false => rw [hnone hb] at hp; cases hp
    | true =>
      obtain ⟨amount,markers,-,hmarkers,hproposed⟩ := hsome hb
      rw [proposedMarkers,attributedMarkers_legible h,citedMarkers_legible h] at hmarkers
      obtain rfl : [] = markers := Except.ok.inj hmarkers
      obtain rfl := Option.some.inj (hproposed.symm.trans hp)
      rfl
  | @clarify t u v decision _ ht hu _ hbreach hv hp =>
    obtain ⟨hcontexts,-⟩ := hcited ht
    obtain ⟨_,_,_,_,_,rfl,-⟩ := assessNode_ok hu
    simp only [clarifyAnswer,hbreach,if_true,bind_eq_ok,pure,Except.pure,Except.ok.injEq,
      markers_eq hcontexts,citedMarkers_legible h] at hv
    obtain ⟨markers,hmarkers,rfl⟩ := hv
    obtain rfl : [] = markers := Except.ok.inj hmarkers
    obtain rfl := Option.some.inj hp
    rfl

/-- A proposal that cites nothing is refused. -/
theorem not_admissible_of_uncited {run : String} {p : ProposedAction} (h : p.args.citations = []) :
    ¬ Admissible py threshold run citations p := by
  rintro ⟨hvalid,-⟩
  obtain ⟨x,hx⟩ := holds_of_validate hvalid
  have hnone : some (boundCitations p.args.citations) = some (x.citations.map some) := hx.citations
  rw [h,Option.some.injEq] at hnone
  exact x.cited (List.map_eq_nil_iff.mp hnone.symm)

/-- There is a proposal exactly where an amount reaches the threshold, or where no amount can be read
although there is a `$`. -/
theorem exists_proposes_iff (h : Legible resp citations) :
    (∃ p, Proposes py threshold resp s p) ↔
      breaches threshold (evidence py (textOf "answer" resp) citations) = true ∨
        evidence py (textOf "answer" resp) citations = [] ∧
          showsMoney (textOf "answer" resp) citations = true := by
  have hread : ∀ {t u}, retrieveNode py resp s = .ok t → assessNode py threshold t = .ok u →
      u.breach = breaches threshold (evidence py (textOf "answer" resp) citations) ∧
      u.ambiguous = (!u.breach && (evidence py (textOf "answer" resp) citations).isEmpty &&
        showsMoney (textOf "answer" resp) citations) ∧
      (u.breach = false → u.proposedAction = none) ∧
      (u.breach = true → ∃ p, u.proposedAction = some p) ∧ markers u.contexts = [] := by
    intro t u ht hu
    obtain ⟨cs,hcs,hcontexts,hanswer,hamounts,-⟩ := retrieveNode_spec ht
    obtain rfl : citations = cs := Except.ok.inj ((citationsOf_legible h).symm.trans hcs)
    obtain ⟨hbreach,hambiguous,hnone,hsome⟩ := assessNode_spec hcontexts hanswer hu
    rw [hamounts] at hbreach hambiguous
    refine ⟨hbreach,hambiguous,hnone,fun hb => ?_,?_⟩
    · obtain ⟨_,_,-,-,hp⟩ := hsome hb
      exact ⟨_,hp⟩
    · obtain ⟨_,_,_,_,_,rfl,-⟩ := assessNode_ok hu
      exact (markers_eq hcontexts).trans (citedMarkers_legible h)
  constructor
  · rintro ⟨p,hp⟩
    cases hp with
    | @assess t u _ ht hu hp =>
      obtain ⟨hbreach,-,hnone,-⟩ := hread ht hu
      cases hb : u.breach with
      | false => rw [hnone hb] at hp; cases hp
      | true => exact Or.inl (hbreach.symm.trans hb)
    | @clarify t u v decision _ ht hu hroute =>
      obtain ⟨-,hambiguous,-⟩ := hread ht hu
      unfold breachBranch at hroute
      split_ifs at hroute with _ ha
      rw [ha] at hambiguous
      obtain ⟨hempty,hmoney⟩ := (Bool.and_eq_true _ _).mp hambiguous.symm
      exact Or.inr ⟨List.isEmpty_iff.mp ((Bool.and_eq_true _ _).mp hempty).2,hmoney⟩
  · intro hfound
    obtain ⟨t,ht⟩ := exists_retrieveNode h py s
    obtain ⟨u,hu⟩ : ∃ u, assessNode py threshold t = .ok u := exists_assessNode h ht
    obtain ⟨hbreach,hambiguous,-,hsome,hmarkers⟩ := hread ht hu
    obtain hb | ⟨hempty,hmoney⟩ := hfound
    · obtain ⟨p,hp⟩ := hsome (hbreach.trans hb)
      exact ⟨p,.assess ht hu hp⟩
    · have hb : u.breach = false := by
        rw [hbreach,hempty]
        rfl
      have hroute : breachBranch u = .clarify := by
        simp [breachBranch,hambiguous,hb,hempty,hmoney]
      have hanswer : ∃ v, clarifyAnswer ⟨.null,.null,.bool true⟩ u = .ok v ∧
          v.proposedAction = some (proposal u CLARIFIED []) := by
        simp only [clarifyAnswer,truthy,if_true,hmarkers]
        exact ⟨_,rfl,rfl⟩
      obtain ⟨v,hv,hp⟩ := hanswer
      exact ⟨_,.clarify ht hu hroute rfl hv hp⟩

end Proposals

/-! ### Responses of the rag-engine -/

section Relayed
variable {J : Jackson} {safety : SafetyProperties} {m : Meta} {r : QueryResponse}

/-- The citations of a relayed response. -/
def relayedCitations (J : Jackson) (safety : SafetyProperties) (r : QueryResponse) : List Json :=
  r.citations.map fun c => (cleanseMember J safety "snippet" c.toJson []).1

theorem nonNull?_eq_none {name : String} {j : Json} (h : j.get? name = none) :
    nonNull? name j = none := by
  rw [nonNull?,h]
  rfl

theorem get?_citations_toJson :
    r.toJson.get? "citations" = some (.arr (r.citations.map Citation.toJson)) := by
  cases ha : r.answer <;> simp [QueryResponse.toJson,member,Json.get?,ha,List.lookup]

theorem get?_answer_toJson : r.toJson.get? "answer" = r.answer.map Json.str := by
  cases ha : r.answer with
  | some answer => simp [QueryResponse.toJson,member,Json.get?,ha,List.lookup]
  | none =>
    cases hc : r.contexts <;> cases hu : r.usage <;>
      simp [QueryResponse.toJson,member,Json.get?,ha,hc,hu,List.lookup]

/-- The snippet of a citation goes out cleansed. -/
theorem get?_snippet_cleansed (c : Citation ℚ) :
    (cleanseMember J safety "snippet" c.toJson []).1.get? "snippet" =
      some (.str (cleansed safety (String.ofList (Java.Text.ofUnits c.snippet)))) := by
  have hsnippet : nonNull? "snippet" c.toJson =
      some (.str (String.ofList (Java.Text.ofUnits c.snippet))) := by
    simp [nonNull?,Citation.toJson,Json.get?,List.lookup]
  rw [cleanseMember_fst,hsnippet]
  dsimp only
  rw [Json.get?_put_of_some (Option.filter_eq_some_iff.mp hsnippet).1,J.asText_str]

/-- A citation goes out without a member `n`, and with its marker. -/
theorem unmarked_cleansed (c : Citation ℚ) :
    Unmarked (cleanseMember J safety "snippet" c.toJson []).1 := by
  refine ⟨Json.isObj_of_get? (get?_snippet_cleansed c),?_,_,get?_snippet_cleansed c⟩
  rw [get?_cleanseMember_of_ne (by decide)]
  simp [Citation.toJson,Json.get?,List.lookup]

/-- The answer goes out cleansed, if there is one. -/
theorem get?_answer_relayed : (relayed J safety m r).get? "answer" =
    r.answer.map fun answer => .str (cleansed safety answer) := by
  rw [relayed,get?_withSections (by decide),applyEgressSafety,get?_cleanseSnippets_of_ne (by decide),
    cleanseMember_fst]
  cases ha : r.answer with
  | none =>
    have hget : r.toJson.get? "answer" = none := by rw [get?_answer_toJson,ha]; rfl
    rw [nonNull?_eq_none hget]
    exact hget
  | some answer =>
    have hget : r.toJson.get? "answer" = some (.str answer) := by rw [get?_answer_toJson,ha]; rfl
    have hnonNull : nonNull? "answer" r.toJson = some (.str answer) := by
      simp [nonNull?,hget]
    rw [hnonNull]
    dsimp only
    rw [Json.get?_put_of_some hget,J.asText_str]
    rfl

theorem legible_relayed : Legible (relayed J safety m r) (relayedCitations J safety r) := by
  have hcitations : (relayed J safety m r).get? "citations" =
      some (.arr (relayedCitations J safety r)) := by
    have hbody : (cleanseMember J safety "answer" r.toJson []).1.get? "citations" =
        some (.arr (r.citations.map Citation.toJson)) := by
      rw [get?_cleanseMember_of_ne (by decide),get?_citations_toJson]
    rw [relayed,get?_withSections (by decide),applyEgressSafety]
    unfold cleanseSnippets
    simp only [hbody]
    rw [Json.get?_put_of_some hbody,cleanseCitations_fst,List.map_map]
    rfl
  refine ⟨Json.isObj_of_get? hcitations,?_,hcitations,?_⟩
  · rw [get?_answer_relayed]
    cases r.answer with
    | none => exact Or.inl rfl
    | some answer => exact Or.inr ⟨_,rfl⟩
  · intro c hc
    obtain ⟨d,-,rfl⟩ := List.mem_map.mp hc
    exact unmarked_cleansed d

end Relayed

/-- What an accepted request starts with, past the planner. -/
def RunRequest.planned {F : Type} (request : RunRequest) (run bearer : String) (caller : Json) :
    AgentState F :=
  plannerNode (initialState run request.query request.account request.period bearer caller)

/-- Every action proposed on a response of the rag-engine is admissible exactly when there is none: no
amount of the relayed texts reaches the threshold, and one can be read or there is no `$`. -/
theorem proposals_admissible_iff {F : Type} [LinearOrder F] (py : Runtime F) (threshold : F)
    (J : Jackson) (safety : SafetyProperties) (m : Meta) (r : QueryResponse) (request : RunRequest)
    (run bearer : String) (caller : Json) :
    (∀ p, Proposes py threshold (relayed J safety m r) (request.planned run bearer caller) p →
      Admissible py threshold run (relayedCitations J safety r) p) ↔
    breaches threshold (evidence py (textOf "answer" (relayed J safety m r))
      (relayedCitations J safety r)) = false ∧
    (evidence py (textOf "answer" (relayed J safety m r)) (relayedCitations J safety r) = [] →
      showsMoney (textOf "answer" (relayed J safety m r)) (relayedCitations J safety r) = false) := by
  have hread : Legible (relayed J safety m r) (relayedCitations J safety r) := legible_relayed
  have hnone : (∀ p, Proposes py threshold (relayed J safety m r) (request.planned run bearer caller) p →
      Admissible py threshold run (relayedCitations J safety r) p) ↔
      ¬ ∃ p, Proposes py threshold (relayed J safety m r) (request.planned run bearer caller) p := by
    constructor
    · rintro hall ⟨p,hp⟩
      exact not_admissible_of_uncited (citations_of_proposes hread hp) (hall p hp)
    · exact fun hnone p hp => absurd ⟨p,hp⟩ hnone
  rw [hnone,exists_proposes_iff hread,not_or,Bool.not_eq_true,not_and,Bool.not_eq_true]

/-- A response that cites a source with a breach. -/
def breachResponse : QueryResponse :=
  ⟨some "The transfer has to be reported [1].",[⟨1,⟨1⟩,⟨2⟩,some "l2-nw",some "Northwind ledger",none,
    "compliance",1,Java.Text.units "wire transfer of $12,500.00"⟩],⟨1,1,1,1,"compliance"⟩,none,none⟩

def northwindRequest : RunRequest :=
  ⟨"aml?","Northwind","2026-Q2",by decide,by decide,by decide⟩

def missSections : Meta := ⟨"tier1-small",some "qwen2.5:3b-instruct",false,false,0,[],0,0,0,0⟩

/-- The tool refuses what the agent proposes on it. -/
theorem proposal_refused : ¬ ∀ {F : Type} [LinearOrder F] (py : Runtime F) (threshold : F) (J : Jackson)
    (safety : SafetyProperties) (m : Meta) (r : QueryResponse) (request : RunRequest)
    (run bearer : String) (caller : Json), r.citations ≠ [] → ∀ p,
      Proposes py threshold (relayed J safety m r) (request.planned run bearer caller) p →
        Admissible py threshold run (relayedCitations J safety r) p := by
  intro hall
  have hread : Legible (relayed (GatewayQueryController.jacksonOf "" .null) ⟨true,true,[]⟩ missSections
      breachResponse) (relayedCitations (GatewayQueryController.jacksonOf "" .null) ⟨true,true,[]⟩
        breachResponse) := legible_relayed
  obtain ⟨p,hp⟩ : ∃ p, Proposes exactRuntime 10000 (relayed (GatewayQueryController.jacksonOf "" .null)
      ⟨true,true,[]⟩ missSections breachResponse)
      (northwindRequest.planned "run_1" priyaBearer (.str "priya")) p :=
    (exists_proposes_iff hread).mpr (Or.inl (by decide +kernel))
  exact not_admissible_of_uncited (citations_of_proposes hread hp)
    (hall _ _ _ _ _ _ _ _ _ _ (by decide) p hp)

end AtlasCompliance.Agents
