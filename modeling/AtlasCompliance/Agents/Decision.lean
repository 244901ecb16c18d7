import AtlasCompliance.Agents.Approval

/-! The breach decision as a function of texts: which amounts and which `$` of the answer and the
citations it depends on, and how far the model-written answer can steer it. -/
namespace AtlasCompliance.Agents
open Python

/-- A traversal that returns has returned on each element. -/
theorem mapM_eq_ok {ε α β : Type} {f : α → Except ε β} {xs : List α} {ys : List β} :
    xs.mapM f = .ok ys ↔ List.Forall₂ (fun x y => f x = .ok y) xs ys := by
  induction xs generalizing ys with
  | nil => cases ys <;> simp [pure,Except.pure]
  | cons x xs ih =>
    cases ys with
    | nil => simp [bind_eq_ok,pure,Except.pure]
    | cons y ys => simp [bind_eq_ok,pure,Except.pure,ih]

section Decision
variable {F : Type}

/-- The text of a member that is a string, else nothing. -/
def textOf (name : String) (value : Json) : String :=
  ((Python.get value name .null).toOption.bind asString).getD ""

theorem textOf_of_get {name : String} {value raw fallback : Json}
    (hempty : (asString fallback).getD "" = "") (h : Python.get value name fallback = .ok raw) :
    textOf name value = (asString raw).getD "" := by
  cases value with
  | obj members =>
    simp only [Python.get,Except.ok.injEq] at h
    simp only [textOf,Python.get,Except.toOption,Option.bind_some]
    cases hm : members.lookup name with
    | some v => rw [← h,hm]; rfl
    | none =>
      rw [hm,Option.getD_none] at h
      rw [← h,hempty]
      rfl
  | null | bool | num | str | arr => cases h

/-- `value or ""` is the text of the value when only texts count as true. -/
theorem orElse_text {v : Json} (h : truthy v = true → ∃ s, v = .str s) :
    orElse v (.str "") = .str ((asString v).getD "") := by
  unfold orElse
  split_ifs with ht
  · obtain ⟨s,rfl⟩ := h ht
    rfl
  · cases v with
    | str s =>
      obtain rfl : s = "" := by simpa [truthy] using ht
      rfl
    | null | bool | num | arr | obj => rfl

/-- The amounts of the answer and then of the snippets. -/
def evidence (py : Runtime F) (answer : String) (citations : List Json) : List F :=
  amountsOf py answer.toList ++ citations.flatMap fun c => amountsOf py (textOf "snippet" c).toList

/-- A `$` in the answer or in a snippet. -/
def showsMoney (answer : String) (citations : List Json) : Bool :=
  answer.toList.contains '$' || citations.any fun c => (textOf "snippet" c).toList.contains '$'

/-- Only texts have amounts; what counts as false has none. -/
theorem extractAmounts_eq_ok {py : Runtime F} {v : Json} {amounts : List F} :
    extractAmounts py v = .ok amounts ↔
      (truthy v = true → ∃ s, v = .str s) ∧ amounts = amountsOf py ((asString v).getD "").toList := by
  unfold extractAmounts
  split_ifs with ht
  · cases v with
    | str s =>
      constructor
      · intro h
        cases h
        exact ⟨fun _ => ⟨s,rfl⟩,rfl⟩
      · rintro ⟨-,rfl⟩
        rfl
    | null | bool | num | arr | obj => simp [ht]
  · have hempty : (asString v).getD "" = "" := by
      cases v with
      | str s => simpa [truthy,asString] using ht
      | null | bool | num | arr | obj => rfl
    constructor
    · intro h
      cases h
      exact ⟨fun h => absurd h ht,by rw [hempty]; rfl⟩
    · rintro ⟨-,rfl⟩
      rw [hempty]
      rfl

/-- The citations `retrieve_node` goes through. -/
def citationsOf (resp : Json) : Except Error (List Json) := do
  iterate (orElse (← get resp "citations" (.arr [])) (.arr []))

/-- A context carries the marker and the snippet of its citation, and any snippet that counts as
true is a text. -/
structure ContextOf (citation : Json) (c : Context) : Prop where
  n : get citation "n" .null = .ok c.n
  snippet : get citation "snippet" .null = .ok c.snippet
  text : truthy c.snippet = true → ∃ s, c.snippet = .str s

theorem ContextOf.textOf_snippet {citation : Json} {c : Context} (h : ContextOf citation c) :
    textOf "snippet" citation = (asString c.snippet).getD "" :=
  textOf_of_get rfl h.snippet

theorem ContextOf.extractAmounts {py : Runtime F} {citation : Json} {c : Context}
    (h : ContextOf citation c) :
    Agents.extractAmounts py c.snippet = .ok (amountsOf py (textOf "snippet" citation).toList) :=
  extractAmounts_eq_ok.mpr ⟨h.text,by rw [h.textOf_snippet]⟩

/-- The contexts copied from citations, when the amounts of all their snippets can be extracted. -/
theorem contexts_spec {py : Runtime F} {citations : List Json} {contexts : List Context}
    {more : List (List F)}
    (hcontexts : List.Forall₂ (fun c x => (do
      return (⟨← Python.get c "n" .null,← Python.get c "documentId" .null,
        ← Python.get c "clearance" .null,← Python.get c "snippet" .null⟩ : Context)) = Except.ok x)
      citations contexts)
    (hmore : List.Forall₂ (fun x amounts => extractAmounts py x.snippet = .ok amounts) contexts more) :
    List.Forall₂ ContextOf citations contexts ∧
      more = citations.map fun c => amountsOf py (textOf "snippet" c).toList := by
  induction hcontexts generalizing more with
  | nil =>
    cases hmore
    exact ⟨.nil,rfl⟩
  | @cons c x cs xs hx _ ih =>
    cases hmore with
    | @cons _ amounts _ rest hamounts hrest =>
      simp only [bind_eq_ok,pure,Except.pure,Except.ok.injEq] at hx
      obtain ⟨n,hn,_,-,_,-,snippet,hsnippet,rfl⟩ := hx
      obtain ⟨htext,rfl⟩ := extractAmounts_eq_ok.mp hamounts
      obtain ⟨hcs,rfl⟩ := ih hrest
      exact ⟨.cons ⟨hn,hsnippet,htext⟩ hcs,by rw [List.map_cons,textOf_of_get rfl hsnippet]⟩

/-- What `retrieve_node` leaves for the decision. -/
theorem retrieveNode_spec {py : Runtime F} {resp : Json} {s t : AgentState F}
    (h : retrieveNode py resp s = .ok t) : ∃ citations, citationsOf resp = .ok citations ∧
      List.Forall₂ ContextOf citations t.contexts ∧ t.answer = some (textOf "answer" resp) ∧
      t.amounts = evidence py (textOf "answer" resp) citations ∧ t.input = s.input := by
  simp only [retrieveNode,bind_eq_ok,pure,Except.pure,Except.ok.injEq] at h
  obtain ⟨raw,hraw,cited,hcited,citations,hiter,contexts,hcontexts,amounts,hamounts,more,hmore,rfl⟩ := h
  have hanswer : textOf "answer" resp = (asString raw).getD "" := textOf_of_get rfl hraw
  have htext : orElse raw (.str "") = .str (textOf "answer" resp) := by
    rw [hanswer]
    refine orElse_text fun ht => ?_
    simpa [orElse,ht] using (extractAmounts_eq_ok.mp hamounts).1
  rw [mapM_eq_ok] at hcontexts hmore
  obtain ⟨hcontext,rfl⟩ := contexts_spec hcontexts hmore
  refine ⟨citations,by simp [citationsOf,bind_eq_ok,hcited,hiter],hcontext,by rw [htext]; rfl,?_,rfl⟩
  rw [htext] at hamounts
  simp [evidence,(extractAmounts_eq_ok.mp hamounts).2,asString,List.flatMap]

/-- The marker a citation has for the agent. -/
def markerOf (citation : Json) : Json := (Python.get citation "n" .null).toOption.getD .null

/-- The markers of the citations, without the missing ones. -/
def citedMarkers (citations : List Json) : List Json := (citations.map markerOf).filter (· ≠ .null)

theorem ContextOf.markerOf {citation : Json} {c : Context} (h : ContextOf citation c) :
    Agents.markerOf citation = c.n := by
  rw [Agents.markerOf,h.n]
  rfl

theorem markers_eq {citations : List Json} {contexts : List Context}
    (h : List.Forall₂ ContextOf citations contexts) : markers contexts = citedMarkers citations := by
  unfold markers citedMarkers
  congr 1
  induction h with
  | nil => rfl
  | cons hx _ ih => rw [List.map_cons,List.map_cons,ih,hx.markerOf]

theorem mem_intercalate {α : Type} {a sep : α} (hne : a ≠ sep) (xs : List (List α)) :
    a ∈ [sep].intercalate xs ↔ ∃ x ∈ xs, a ∈ x := by
  induction xs with
  | nil => simp
  | cons x xs ih =>
    cases xs with
    | nil => simp
    | cons y ys =>
      rw [List.intercalate_cons_cons]
      simp [ih,hne]

theorem snippetTexts {citations : List Json} {contexts : List Context}
    (h : List.Forall₂ ContextOf citations contexts) :
    contexts.mapM snippetText = .ok (citations.map (textOf "snippet")) := by
  rw [mapM_eq_ok]
  induction h with
  | nil => exact .nil
  | cons hx _ ih =>
    refine .cons ?_ ih
    rw [snippetText,orElse_text hx.text,hx.textOf_snippet]

/-- The `$` of the joined text stands in the answer or in a snippet. -/
theorem mentionsMoney_eq {citations : List Json} {s : AgentState F} {answer : String}
    (h : List.Forall₂ ContextOf citations s.contexts) (hanswer : s.answer = some answer) :
    mentionsMoney s = .ok (showsMoney answer citations) := by
  have hspace : " ".toList = [' '] := by decide
  simp only [mentionsMoney,snippetTexts h,hanswer]
  refine congrArg Except.ok (Bool.eq_iff_iff.mpr ?_)
  simp [showsMoney,String.toList_intercalate,hspace,mem_intercalate]

/-- The amounts of each citation, with its marker. -/
theorem perCitation_eq {py : Runtime F} {citations : List Json} {contexts : List Context}
    {perCitation : List (List (Json × F))} (h : List.Forall₂ ContextOf citations contexts)
    (hper : List.Forall₂ (fun x pairs => (do
      return (← extractAmounts py x.snippet).map fun amt => (x.n,amt)) = Except.ok pairs)
      contexts perCitation) :
    perCitation = citations.map fun c =>
      (amountsOf py (textOf "snippet" c).toList).map fun amt => (markerOf c,amt) := by
  induction h generalizing perCitation with
  | nil =>
    cases hper
    rfl
  | cons hx _ ih =>
    cases hper with
    | cons hpairs hrest =>
      rw [hx.extractAmounts] at hpairs
      cases hpairs
      rw [ih hrest,List.map_cons,hx.markerOf]

variable [LinearOrder F]

/-- The largest amount reaches the threshold. -/
def breaches (threshold : F) (amounts : List F) : Bool := amounts.max?.any fun a => threshold ≤ a

theorem breaches_iff {threshold : F} {amounts : List F} :
    breaches threshold amounts = true ↔ ∃ a ∈ amounts, threshold ≤ a := by
  unfold breaches
  cases hmax : amounts.max? with
  | none =>
    rw [List.max?_eq_none_iff.mp hmax]
    simp
  | some a =>
    obtain ⟨hmem,hle⟩ := List.max?_eq_some_iff.mp hmax
    rw [Option.any_some,decide_eq_true_iff]
    exact ⟨fun h => ⟨a,hmem,h⟩,fun ⟨b,hb,h⟩ => h.trans (hle b hb)⟩

/-- The markers of the amounts at or above the threshold that stand in a snippet. -/
def attributedMarkers (py : Runtime F) (threshold : F) (citations : List Json) : List Json :=
  citedMarkers (citations.flatMap fun c =>
    ((amountsOf py (textOf "snippet" c).toList).filter (threshold ≤ ·)).map fun _ => c)

/-- The markers a proposal cites. -/
def proposedMarkers (py : Runtime F) (threshold : F) (citations : List Json) :
    Except Error (List Json) := do
  let attributed ← sortedSet (attributedMarkers py threshold citations)
  if attributed.isEmpty then sortedSet (citedMarkers citations) else .ok attributed

theorem attributedMarkers_eq (py : Runtime F) (threshold : F) (citations : List Json) :
    (((citations.map fun c => (amountsOf py (textOf "snippet" c).toList).map fun amt =>
      (markerOf c,amt)).flatten.filter fun p => threshold ≤ p.2 && p.1 ≠ .null).map Prod.fst) =
      attributedMarkers py threshold citations := by
  induction citations with
  | nil => rfl
  | cons c cs ih =>
    have hfirst : ∀ amounts : List F, (((amounts.map fun amt => (markerOf c,amt)).filter
        fun p => threshold ≤ p.2 && p.1 ≠ .null).map Prod.fst) =
        citedMarkers ((amounts.filter (threshold ≤ ·)).map fun _ => c) := by
      intro amounts
      induction amounts with
      | nil => rfl
      | cons amt rest ih =>
        by_cases ht : threshold ≤ amt <;> by_cases hn : markerOf c = .null <;>
          simp_all [citedMarkers]
    simp only [List.map_cons,List.flatten_cons,List.filter_append,List.map_append,hfirst,ih]
    simp [attributedMarkers,citedMarkers]

/-- The breach value, the ambiguity and the proposal, from the answer and the citations. -/
theorem assessNode_spec {py : Runtime F} {threshold : F} {citations : List Json} {answer : String}
    {s u : AgentState F} (hc : List.Forall₂ ContextOf citations s.contexts)
    (hanswer : s.answer = some answer) (h : assessNode py threshold s = .ok u) :
    u.breach = breaches threshold s.amounts ∧
      u.ambiguous = (!u.breach && s.amounts.isEmpty && showsMoney answer citations) ∧
      (u.breach = false → u.proposedAction = none) ∧
      (u.breach = true → ∃ amount markers, s.amounts.max? = some amount ∧
        proposedMarkers py threshold citations = .ok markers ∧
        u.proposedAction = some (proposal s (breachText py amount threshold) markers)) := by
  simp only [assessNode,bind_eq_ok,pure,Except.pure,Except.ok.injEq] at h
  obtain ⟨perCitation,hper,ambiguous,hambiguous,attributed,hattributed,breaching,hbreaching,rfl⟩ := h
  rw [mapM_eq_ok] at hper
  rw [perCitation_eq hc hper,attributedMarkers_eq] at hattributed
  rw [breachingMarkers,markers_eq hc] at hbreaching
  refine ⟨rfl,?_,fun hb => ?_,fun hb => ?_⟩
  · rw [isAmbiguous] at hambiguous
    split_ifs at hambiguous with hif
    · rw [mentionsMoney_eq hc hanswer] at hambiguous
      cases hambiguous
      rw [hif,Bool.true_and]
    · cases hambiguous
      rw [eq_false_of_ne_true hif,Bool.false_and]
  · dsimp only at hb ⊢
    simp [hb]
  · dsimp only at hb ⊢
    rw [hb,Bool.true_and] at hbreaching
    cases ha : s.amounts.max? with
    | none => simp [ha] at hb
    | some a =>
      rw [ha] at hb
      refine ⟨a,breaching,rfl,?_,by simp [hb]⟩
      simp only [proposedMarkers,hattributed]
      exact hbreaching

/-- What the agent decides on a response: the breach value, the way out of `assess` and the proposal. -/
@[ext] structure Decision where
  breach : Bool
  route : Node
  proposedAction : Option ProposedAction
  deriving DecidableEq

/-- `retrieve` and then `assess` on a response of the Gateway. -/
def decision (py : Runtime F) (threshold : F) (resp : Json) (s : AgentState F) :
    Except Error Decision := do
  let u ← assessNode py threshold (← retrieveNode py resp s)
  return ⟨u.breach,breachBranch u,u.proposedAction⟩

/-- The way out of `assess` by the breach value and the ambiguity. -/
def routeOf (breach ambiguous : Bool) : Node :=
  if breach then .approve else if ambiguous then .clarify else .finalize

/-- The decision on a response is read off its answer and its citations. -/
theorem decision_spec {py : Runtime F} {threshold : F} {resp : Json} {s : AgentState F} {d : Decision}
    (h : decision py threshold resp s = .ok d) : ∃ citations, citationsOf resp = .ok citations ∧
      let amounts := evidence py (textOf "answer" resp) citations
      d.breach = breaches threshold amounts ∧
      d.route = routeOf d.breach (amounts.isEmpty && showsMoney (textOf "answer" resp) citations) ∧
      (d.breach = false → d.proposedAction = none) ∧
      (d.breach = true → ∃ amount markers, amounts.max? = some amount ∧
        proposedMarkers py threshold citations = .ok markers ∧ d.proposedAction =
          some (proposal s (breachText py amount threshold) markers)) := by
  simp only [decision,bind_eq_ok,pure,Except.pure,Except.ok.injEq] at h
  obtain ⟨t,ht,u,hu,rfl⟩ := h
  obtain ⟨citations,hcitations,hcontexts,hanswer,hamounts,hinput⟩ := retrieveNode_spec ht
  obtain ⟨hbreach,hambiguous,hnone,hsome⟩ := assessNode_spec hcontexts hanswer hu
  have hproposal : ∀ rationale markers, proposal t rationale markers = proposal s rationale markers := by
    intro rationale markers
    simp only [AgentState.input,RunInput.mk.injEq] at hinput
    rw [proposal,proposal,hinput.2.1,hinput.2.2.1]
  refine ⟨citations,hcitations,?_,?_,hnone,fun hb => ?_⟩
  · rw [hbreach,hamounts]
  · dsimp only
    rw [breachBranch,hambiguous,hamounts,routeOf]
    cases u.breach <;> simp
  · obtain ⟨amount,markers,hmax,hmarkers,hproposed⟩ := hsome hb
    exact ⟨amount,markers,by rw [← hamounts,hmax],hmarkers,by rw [hproposed,hproposal]⟩

end Decision

def northwindRun : AgentState ℚ :=
  initialState "run_1" "aml?" "Northwind" "2026-Q2" priyaBearer (.str "priya")

def quietDecision : Decision := ⟨false,.finalize,none⟩

end AtlasCompliance.Agents
