import AtlasCompliance.Gateway.Cleanse
import AtlasCompliance.Gateway.Serving

/-! Which texts of a response the egress filter reaches, on both ways to a response: answers and
snippets go through it, titles and contexts do not. -/
namespace AtlasCompliance.Gateway
open Java PiiRedactor Auth Handling

/-! ### The texts of a body -/

/-- A member that is a text. -/
def text? (name : String) (j : Json) : Option String :=
  match j.get? name with
  | some (.str s) => some s
  | some .null | some (.bool _) | some (.num _) | some (.arr _) | some (.obj _) | none => none

/-- The elements of a member that is a list. -/
def elements (name : String) (j : Json) : List Json :=
  match j.get? name with
  | some (.arr es) => es
  | some .null | some (.bool _) | some (.num _) | some (.str _) | some (.obj _) | none => []

/-- The texts of a response that stem from the model or the corpus. -/
def freeTexts (response : Json) : List String :=
  (text? "answer" response).toList ++
    ((elements "citations" response).flatMap fun c =>
      (text? "snippet" c).toList ++ (text? "title" c).toList) ++
    (elements "contexts" response).flatMap fun c => (text? "text" c).toList

section Filter
variable (J : Jackson)

/-- The texts of a body that the filter cleanses. -/
def cleansedTexts (body : Json) : List String :=
  (((nonNull? "answer" body)).map J.asText).toList ++
    (elements "citations" body).flatMap fun c => ((nonNull? "snippet" c).map J.asText).toList

/-- The texts of a body that the filter leaves alone. -/
def untouchedTexts (body : Json) : List String :=
  ((elements "citations" body).flatMap fun c => (text? "title" c).toList) ++
    (elements "contexts" body).flatMap fun c => (text? "text" c).toList

variable {J} {safety : SafetyProperties}

/-- The text that `cleanse` returns does not depend on what was counted before. -/
theorem cleanse_fst (text : List Char) (counts : Counts) :
    (safety.cleanse text counts).1 = (safety.cleanse text []).1 := by
  simp only [SafetyProperties.cleanse,SafetyProperties.redacted,SafetyProperties.sanitized]
  split_ifs <;> rfl

/-- What becomes of a text. -/
def cleansed (safety : SafetyProperties) (s : String) : String :=
  String.ofList (safety.cleanse s.toList []).1

theorem cleanseMember_fst (name : String) (j : Json) (counts : Counts) :
    (cleanseMember J safety name j counts).1 = match nonNull? name j with
      | none => j
      | some v => j.put name (.str (cleansed safety (J.asText v))) := by
  unfold cleanseMember
  cases nonNull? name j with
  | none => rfl
  | some v => simp only [cleansed,cleanse_fst (J.asText v).toList counts]

theorem text?_of_get? {name : String} {i j : Json} (h : i.get? name = j.get? name) :
    text? name i = text? name j := by rw [text?,text?,h]

theorem elements_of_get? {name : String} {i j : Json} (h : i.get? name = j.get? name) :
    elements name i = elements name j := by rw [elements,elements,h]

/-- A cleansed member is a text exactly when there was something. -/
theorem text?_cleanseMember (name : String) (j : Json) (counts : Counts) :
    text? name (cleanseMember J safety name j counts).1 =
      (nonNull? name j).map fun v => cleansed safety (J.asText v) := by
  rw [cleanseMember_fst]
  cases hv : nonNull? name j with
  | some v =>
    have hget : j.get? name = some v := (Option.filter_eq_some_iff.mp hv).1
    simp only [Option.map_some,text?,Json.get?_put_of_some hget]
  | none =>
    simp only [Option.map_none]
    unfold text?
    cases hget : j.get? name with
    | none => rfl
    | some v =>
      have hnull : v = .null := by
        by_contra hne
        have hsome : nonNull? name j = some v := Option.filter_eq_some_iff.mpr ⟨hget,by simpa using hne⟩
        cases hv.symm.trans hsome
      rw [hnull]

theorem get?_cleanseMember_of_ne {name other : String} (hne : other ≠ name) (j : Json)
    (counts : Counts) : (cleanseMember J safety name j counts).1.get? other = j.get? other := by
  rw [cleanseMember_fst]
  cases nonNull? name j with
  | none => rfl
  | some v => exact Json.get?_put_of_ne hne _ _

theorem cleanseCitations_fst (citations : List Json) (counts : Counts) :
    (cleanseCitations J safety citations counts).1 =
      citations.map fun c => (cleanseMember J safety "snippet" c []).1 := by
  induction citations generalizing counts with
  | nil => rfl
  | cons c rest ih =>
    have hsame : (cleanseMember J safety "snippet" c counts).1 =
        (cleanseMember J safety "snippet" c []).1 := by
      rw [cleanseMember_fst,cleanseMember_fst]
    simp only [cleanseCitations,ih,hsame,List.map_cons]

theorem elements_cleanseSnippets (j : Json) (counts : Counts) :
    elements "citations" (cleanseSnippets J safety j counts).1 =
      (elements "citations" j).map fun c => (cleanseMember J safety "snippet" c []).1 := by
  unfold cleanseSnippets elements
  cases hget : j.get? "citations" with
  | none => simp [hget]
  | some v =>
    cases v with
    | arr citations =>
      simp only [Json.get?_put_of_some hget]
      exact cleanseCitations_fst citations counts
    | null | bool | num | str | obj => simp [hget]

theorem get?_cleanseSnippets_of_ne {other : String} (hne : other ≠ "citations") (j : Json)
    (counts : Counts) : (cleanseSnippets J safety j counts).1.get? other = j.get? other := by
  unfold cleanseSnippets
  split
  · exact Json.get?_put_of_ne hne _ _
  all_goals rfl

/-- The sections leave the other members alone. -/
theorem get?_withSections {name : String} (hname : name ∉ ["routing","cache","redaction","cost"])
    (j : Json) (m : Meta) : (withSections j m).get? name = j.get? name := by
  simp only [List.mem_cons,List.not_mem_nil,or_false,not_or] at hname
  obtain ⟨hrouting,hcache,hredaction,hcost⟩ := hname
  rw [withSections,Json.get?_put_of_ne hcost,Json.get?_put_of_ne hredaction,
    Json.get?_put_of_ne hcache,Json.get?_put_of_ne hrouting]

theorem get?_applyEgressSafety {name : String} (hanswer : name ≠ "answer")
    (hcitations : name ≠ "citations") (body : Json) :
    (applyEgressSafety J safety body).1.get? name = body.get? name := by
  rw [applyEgressSafety,get?_cleanseSnippets_of_ne hcitations,get?_cleanseMember_of_ne hanswer]

/-- The texts of a response: answer and snippets cleansed, titles and contexts as they came. -/
theorem freeTexts_withSections (body : Json) (m : Meta) :
    freeTexts (withSections (applyEgressSafety J safety body).1 m) =
      ((nonNull? "answer" body).map fun v => cleansed safety (J.asText v)).toList ++
        ((elements "citations" body).flatMap fun c =>
          ((nonNull? "snippet" c).map fun v => cleansed safety (J.asText v)).toList ++
            (text? "title" c).toList) ++
        (elements "contexts" body).flatMap fun c => (text? "text" c).toList := by
  have hanswer : text? "answer" (withSections (applyEgressSafety J safety body).1 m) =
      (nonNull? "answer" body).map fun v => cleansed safety (J.asText v) := by
    rw [text?_of_get? (get?_withSections (by decide) _ m),applyEgressSafety,
      text?_of_get? (get?_cleanseSnippets_of_ne (by decide) _ _),text?_cleanseMember]
  have hcitations : elements "citations" (withSections (applyEgressSafety J safety body).1 m) =
      (elements "citations" body).map fun c => (cleanseMember J safety "snippet" c []).1 := by
    rw [elements_of_get? (get?_withSections (by decide) _ m),applyEgressSafety,
      elements_cleanseSnippets,elements_of_get? (get?_cleanseMember_of_ne (by decide) _ _)]
  have hcontexts : elements "contexts" (withSections (applyEgressSafety J safety body).1 m) =
      elements "contexts" body := by
    rw [elements_of_get? (get?_withSections (by decide) _ m),
      elements_of_get? (get?_applyEgressSafety (by decide) (by decide) body)]
  have htexts : ∀ c, (text? "snippet" (cleanseMember J safety "snippet" c []).1).toList ++
      (text? "title" (cleanseMember J safety "snippet" c []).1).toList =
        ((nonNull? "snippet" c).map fun v => cleansed safety (J.asText v)).toList ++
          (text? "title" c).toList := by
    intro c
    rw [text?_cleanseMember,text?_of_get? (get?_cleanseMember_of_ne (by decide) _ _)]
  rw [freeTexts,hanswer,hcitations,hcontexts,List.flatMap_map]
  simp only [htexts]

/-- The bodies whose texts come out free of structured patterns: what is left alone is free of them,
and in what is cleansed the sanitizer joins no new one. -/
structure Redactable (J : Jackson) (safety : SafetyProperties) (body : Json) : Prop where
  untouched : ∀ x ∈ untouchedTexts body, PiiFree x.toList
  cleansed : safety.sanitizeEnabled = true →
    ∀ x ∈ cleansedTexts J body, ¬ Rejoined (redact safety.nameDenylist x.toList).text

theorem freeTexts_piiFree_iff (hpii : safety.piiEnabled = true) (body : Json) (m : Meta) :
    (∀ x ∈ freeTexts (withSections (applyEgressSafety J safety body).1 m), PiiFree x.toList) ↔
      Redactable J safety body := by
  have hcleansed : ∀ x : String, PiiFree (cleansed safety x).toList ↔ (safety.sanitizeEnabled = true →
      ¬ Rejoined (redact safety.nameDenylist x.toList).text) := by
    intro x
    rw [cleansed,String.toList_ofList,piiFree_cleanse_iff hpii]
  have hsplit : (∀ x ∈ freeTexts (withSections (applyEgressSafety J safety body).1 m),
      PiiFree x.toList) ↔ (∀ x ∈ cleansedTexts J body, PiiFree (cleansed safety x).toList) ∧
        ∀ x ∈ untouchedTexts body, PiiFree x.toList := by
    rw [freeTexts_withSections,cleansedTexts,untouchedTexts]
    have hmember : ∀ o : Option Json, (∀ x ∈ (o.map fun v => cleansed safety (J.asText v)).toList,
        PiiFree x.toList) ↔ ∀ x ∈ (o.map J.asText).toList, PiiFree (cleansed safety x).toList := by
      intro o
      cases o <;> simp
    simp only [List.forall_mem_append,List.forall_mem_flatMap,hmember,forall_and]
    tauto
  rw [hsplit]
  constructor
  · rintro ⟨hfree,huntouched⟩
    exact ⟨huntouched,fun hsanitize x hx => (hcleansed x).mp (hfree x hx) hsanitize⟩
  · rintro ⟨huntouched,hjoined⟩
    exact ⟨fun x hx => (hcleansed x).mpr fun hsanitize => hjoined hsanitize x hx,huntouched⟩

end Filter

namespace GatewayQueryController
variable {G : GatewayQueryController} {o : Outside} {http : HttpRequest} {s t : Server}

/-- The JSON library reads back what it has written of an answer. -/
def ReadsBack (G : GatewayQueryController) : Prop := ∀ asked body, G.ragAnswer asked = some body →
  G.jackson.readTree (G.jackson.toString body) = some body

/-- Every response is the cleansed body of some answer of the rag-engine, with the sections set. -/
theorem response_of_answer (hread : G.ReadsBack) (hs : Transition.Reachable G.step start s)
    {response : Json} (h : exec (G.query o http) s = (.ok (some response),t)) :
    ∃ asked body m, (asked,body) ∈ t.answers ∧ G.ragAnswer asked = some body ∧
      response = withSections (applyEgressSafety G.jackson G.safety body).1 m := by
  obtain ⟨caller,request,-,-,hresponds⟩ := query_ok h
  generalize hr : some response = r at hresponds
  cases hresponds with
  | @hit hit body hits answers entry read =>
    obtain ⟨c,hc,-,-,hanswer,-,-⟩ := entry
    obtain ⟨stored,hmem,hstored,htext,-⟩ := backed_reachable hs c hc
    rw [← hanswer,htext,hread _ stored hstored] at read
    obtain rfl := Option.some.inj read
    refine ⟨c.value.asked,stored,_,?_,hstored,Option.some.inj hr⟩
    rw [answers]
    exact hmem
  | miss hits answers =>
    obtain ⟨body,hbody,hresponse⟩ := Option.map_eq_some_iff.mp hr.symm
    refine ⟨G.asks http caller request,body,_,?_,hbody,hresponse.symm⟩
    rw [answers,hbody]
    exact List.mem_append_right _ (by simp)

/-- With redaction on, a response of any run, from the cache or not, has no structured pattern in a text
of the model or the corpus exactly when the body behind it is one whose texts come out free. -/
theorem egress_piiFree_iff (hpii : G.safety.piiEnabled = true) (hread : G.ReadsBack)
    (hs : Transition.Reachable G.step start s) {response : Json}
    (h : exec (G.query o http) s = (.ok (some response),t)) :
    ∃ asked body m, (asked,body) ∈ t.answers ∧ G.ragAnswer asked = some body ∧
      response = withSections (applyEgressSafety G.jackson G.safety body).1 m ∧
      ((∀ x ∈ freeTexts response, PiiFree x.toList) ↔ Redactable G.jackson G.safety body) := by
  obtain ⟨asked,body,m,hmem,hbody,rfl⟩ := response_of_answer hread hs h
  exact ⟨asked,body,m,hmem,hbody,rfl,freeTexts_piiFree_iff hpii body m⟩

/-- No call fails, and all happens at once. -/
def calm : Outside := ⟨fun _ => none,fun _ => 0,0,0,0,0⟩

/-- An answer with the text of its context. -/
def contextBody : Json := .obj [("answer",.str "ok"),
  ("contexts",.arr [.obj [("text",.str "123-45-6789")]])]

def contextRequest : GatewayQueryRequest := ⟨"?",none,some true⟩

theorem readsBack_contextBody : (gatewayOf false "" contextBody).ReadsBack := by
  intro asked body hbody
  obtain rfl : contextBody = body := Option.some.inj hbody
  exact (if_pos rfl : (if "" = "" then some contextBody else none) = some contextBody)

set_option maxRecDepth 20000 in
theorem exists_context_answered : ∃ response t, exec ((gatewayOf false "" contextBody).query calm
    (httpOf contextRequest none)) start = (.ok (some response),t) := by
  have hsome : ((exec ((gatewayOf false "" contextBody).query calm
      (httpOf contextRequest none)) start).1.toOption.bind id).isSome = true := by decide +kernel
  generalize exec ((gatewayOf false "" contextBody).query calm (httpOf contextRequest none)) start =
    out at hsome
  obtain ⟨_ | _ | response,t⟩ := out
  · cases hsome
  · cases hsome
  · exact ⟨response,t,rfl⟩

theorem egress_piiFree_iff_context : (gatewayOf false "" contextBody).safety.piiEnabled = true ∧
    (gatewayOf false "" contextBody).ReadsBack ∧ ∃ response t asked body m,
      exec ((gatewayOf false "" contextBody).query calm (httpOf contextRequest none)) start =
        (.ok (some response),t) ∧ (asked,body) ∈ t.answers ∧
      (gatewayOf false "" contextBody).ragAnswer asked = some body ∧
      response = withSections (applyEgressSafety (gatewayOf false "" contextBody).jackson
        (gatewayOf false "" contextBody).safety body).1 m ∧
      ((∀ x ∈ freeTexts response, PiiFree x.toList) ↔ Redactable
        (gatewayOf false "" contextBody).jackson (gatewayOf false "" contextBody).safety body) := by
  obtain ⟨response,t,h⟩ := exists_context_answered
  obtain ⟨asked,body,m,hrest⟩ :=
    egress_piiFree_iff rfl readsBack_contextBody (Transition.Reachable.refl start) h
  exact ⟨rfl,readsBack_contextBody,response,t,asked,body,m,h,hrest⟩

/-- The social security number in a context goes out as it came. -/
theorem context_leaks : ¬ ∀ (G : GatewayQueryController) (o : Outside) (http : HttpRequest)
    (s t : Server) (response : Json), G.safety.piiEnabled = true →
      Transition.Reachable G.step start s → exec (G.query o http) s = (.ok (some response),t) →
        ∀ x ∈ freeTexts response, PiiFree x.toList := by
  intro hfree
  obtain ⟨response,t,h⟩ := exists_context_answered
  have hall := hfree _ _ _ _ _ _ rfl (Transition.Reachable.refl start) h
  obtain ⟨asked,body,m,-,hbody,rfl⟩ :=
    response_of_answer readsBack_contextBody (Transition.Reachable.refl start) h
  obtain rfl : contextBody = body := Option.some.inj hbody
  have huntouched := ((freeTexts_piiFree_iff rfl contextBody m).mp hall).untouched "123-45-6789"
    (by decide +kernel)
  have hnone := huntouched SSN_TIN (by simp) [] "123-45-6789".toList rfl
  revert hnone
  decide +kernel

end GatewayQueryController

end AtlasCompliance.Gateway
