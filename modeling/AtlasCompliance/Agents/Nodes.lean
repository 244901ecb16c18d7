import AtlasCompliance.Agents.State
import AtlasCompliance.Lib.History
import AtlasCompliance.McpTools.AuditAppend

/-! The working nodes of the agent's graph: planning, retrieval, the breach decision, and the
governed tool call with its bounded retries. -/
namespace AtlasCompliance.Agents
open Python McpTools

def PLAN : List String := ["retrieve","assess","conditional-sar"]

/-- The governed tool. -/
def OPEN_DRAFT_SAR : String := "open_draft_sar"

/-- What `httpx` raises; a `ConnectError` means that no connection was made. -/
inductive HttpError
  | connectError (message : String)
  | other (message : String)
  deriving DecidableEq, Repr

def HttpError.asCallError : HttpError → CallError
  | .connectError message => .connectError message
  | .other message => .http message

section Nodes
variable {F : Type}

def plannerNode (s : AgentState F) : AgentState F :=
  { s with plan := PLAN, trace := s.trace ++ [.planner PLAN], stepCount := s.stepCount + 1 }

/-- `retrieve_node`, given the Gateway's answer. -/
def retrieveNode (py : Runtime F) (resp : Json) (s : AgentState F) : Except Error (AgentState F) := do
  let answer := orElse (← get resp "answer" (.str "")) (.str "")
  let citations := orElse (← get resp "citations" (.arr [])) (.arr [])
  let contexts ← (← iterate citations).mapM fun c => do
    return (⟨← get c "n" .null,← get c "documentId" .null,← get c "clearance" .null,
      ← get c "snippet" .null⟩ : Context)
  let amounts ← extractAmounts py answer
  let more ← contexts.mapM fun c => extractAmounts py c.snippet
  return { s with
    answer := asString answer
    contexts := contexts
    amounts := amounts ++ more.flatten
    trace := s.trace ++ [.retrieve contexts.length]
    stepCount := s.stepCount + 1 }

theorem retrieveNode_ok {py : Runtime F} {resp : Json} {s t : AgentState F}
    (h : retrieveNode py resp s = .ok t) : ∃ answer contexts amounts, t = { s with
      answer := answer
      contexts := contexts
      amounts := amounts
      trace := s.trace ++ [.retrieve contexts.length]
      stepCount := s.stepCount + 1 } := by
  simp only [retrieveNode,bind_eq_ok,pure,Except.pure,Except.ok.injEq] at h
  obtain ⟨_,-,_,-,_,-,contexts,-,_,-,_,-,rfl⟩ := h
  exact ⟨_,contexts,_,rfl⟩

variable [LinearOrder F]

/-- `c.get("snippet") or ""` as an argument of `str.join`. -/
def snippetText (c : Context) : Except Error String :=
  match orElse c.snippet (.str "") with
  | .str s => .ok s
  | .null | .bool _ | .num _ | .arr _ | .obj _ => .error .typeError

/-- A `$` in the answer or a snippet. -/
def mentionsMoney (s : AgentState F) : Except Error Bool := do
  let snippets ← s.contexts.mapM snippetText
  return ((s.answer.getD "") ++ " ".intercalate snippets).toList.contains '$'

/-- The markers of contexts, without the missing ones. -/
def markers (contexts : List Context) : List Json := (contexts.map Context.n).filter (· ≠ .null)

/-- `f"${breach_amount:,.2f} exceeds the ${threshold:,.2f} reporting threshold"`. -/
def breachText (py : Runtime F) (amount threshold : F) : String :=
  "$" ++ py.commaDotTwo amount ++ " exceeds the $" ++ py.commaDotTwo threshold ++
    " reporting threshold"

/-- The dry-run preview of the governed write. -/
def proposal (s : AgentState F) (rationale : String) (citations : List Json) : ProposedAction :=
  ⟨OPEN_DRAFT_SAR,⟨s.account,s.period,rationale,citations⟩⟩

/-- A money context without an amount that can be read. -/
def isAmbiguous (breach : Bool) (s : AgentState F) : Except Error Bool :=
  if !breach && s.amounts.isEmpty then mentionsMoney s else .ok false

/-- The markers to cite: of all contexts where no breaching amount belongs to one. -/
def breachingMarkers (breach : Bool) (attributed : List Json) (s : AgentState F) :
    Except Error (List Json) :=
  if breach && attributed.isEmpty then sortedSet (markers s.contexts) else .ok attributed

/-- `assess_node`. -/
def assessNode (py : Runtime F) (threshold : F) (s : AgentState F) :
    Except Error (AgentState F) := do
  let perCitation ← s.contexts.mapM fun c => do
    return (← extractAmounts py c.snippet).map fun amt => (c.n,amt)
  let breachAmount := s.amounts.max?
  let breach := breachAmount.any fun a => threshold ≤ a
  let ambiguous ← isAmbiguous breach s
  let attributed ← sortedSet ((perCitation.flatten.filter fun p =>
    threshold ≤ p.2 && p.1 ≠ .null).map Prod.fst)
  let breaching ← breachingMarkers breach attributed s
  let detail := if breach then breachAmount.map fun a => breachText py a threshold else none
  return { s with
    breach := breach
    breachAmount := breachAmount
    breachDetail := detail
    ambiguous := ambiguous
    proposedAction := detail.map fun d => proposal s d breaching
    trace := s.trace ++ [.assess breach ambiguous]
    stepCount := s.stepCount + 1 }

/-- What the decision says: an ambiguous finding is no breach, and there is a proposal of the governed
tool exactly when there is a breach. -/
theorem assessNode_ok {py : Runtime F} {threshold : F} {s t : AgentState F}
    (h : assessNode py threshold s = .ok t) : ∃ breach amount detail ambiguous proposed, t = { s with
      breach := breach
      breachAmount := amount
      breachDetail := detail
      ambiguous := ambiguous
      proposedAction := proposed
      trace := s.trace ++ [.assess breach ambiguous]
      stepCount := s.stepCount + 1 } ∧ (ambiguous = true → breach = false) ∧
      (breach = false → proposed = none) ∧
      (breach = true → ∃ rationale citations, proposed = some (proposal s rationale citations)) := by
  simp only [assessNode,bind_eq_ok,pure,Except.pure,Except.ok.injEq] at h
  obtain ⟨_,-,ambiguous,hambiguous,_,-,breaching,-,rfl⟩ := h
  refine ⟨_,_,_,_,_,rfl,?_,?_,?_⟩
  · intro ha
    cases hb : s.amounts.max?.any fun a => decide (threshold ≤ a) with
    | false => rfl
    | true => simp [isAmbiguous,hb,ha] at hambiguous
  · intro hb
    simp [hb]
  · intro hb
    cases ha : s.amounts.max? with
    | none => simp [ha] at hb
    | some a => exact ⟨breachText py a threshold,breaching,by simp_all⟩

end Nodes

/-- The row the tool server inserts for a request: its reference, time and caller. -/
structure ServerDraft where
  draftRef : String
  createdAt : Java.Instant
  caller : String
  clearance : String
  argsDigest : String
  deriving DecidableEq, Repr

/-- What one attempt of `act_sar` meets: the answers to the token request, to `initialize` (its
session id) and to `tools/call` (the decoded message), and the draft the server made of it. A
refused connection means that the server saw nothing. -/
structure Attempt where
  token : Except HttpError String
  session : Except HttpError (Option String)
  call : Except HttpError Json
  draft : Option ServerDraft
  refused : ∀ message, call = .error (.connectError message) → draft = none

namespace McpClient

/-- `_first_text` over the content items. -/
def firstTextOf : List Json → Except Error Json
  | [] => .ok .null
  | item::items => do
    if (← get item "type" .null) = .str "text" then get item "text" .null else firstTextOf items

/-- `_first_text`. -/
def firstText (result : Json) : Except Error Json := do
  firstTextOf (← iterate (orElse (← get result "content" (.arr [])) (.arr [])))

/-- `_initialize`: the session id. -/
def openSession (a : Attempt) : Except CallError String :=
  match a.session with
  | .error e => .error e.asCallError
  | .ok sessionId =>
    if sessionId.getD "" = "" then
      .error (.mcp (.str "MCP server did not issue a session id on initialize"))
    else .ok (sessionId.getD "")

/-- The decoded message of `_rpc`: its result, or what it reports. -/
def rpcResult : Json → Except CallError Json
  | .obj message => match message.lookup "error" with
    | some e => .error (.mcp e)
    | none => .ok ((message.lookup "result").getD (.obj []))
  | .arr elems => .error (.python (if .str "error" ∈ elems then .typeError else .attributeError))
  | .str s => .error (.python (if "error".toList <:+: s.toList then .typeError else .attributeError))
  | .null | .bool _ | .num _ => .error (.python .typeError)

/-- `_rpc`. -/
def rpc (a : Attempt) : Except CallError Json :=
  match a.call with
  | .error e => .error e.asCallError
  | .ok message => rpcResult message

/-- `json.loads(text) if text else {}`. -/
def decodeText {F : Type} (py : Runtime F) (text : Json) : Except CallError Json :=
  if truthy text then
    match text with
    | .str s => (py.loads s).mapError .python
    | .null | .bool _ | .num _ | .arr _ | .obj _ => .error (.python .typeError)
  else .ok (.obj [])

/-- The error raised for a tool result that says it is one. -/
def toolError (result : Json) : Except CallError Json := do
  let text ← (firstText result).mapError .python
  .error (.mcp (orElse text (.str "open_draft_sar returned an error")))

/-- The structured content, or else the decoded text. -/
def structuredOutput {F : Type} (py : Runtime F) (result : Json) : Except CallError Json := do
  let structured ← (get result "structuredContent" .null).mapError .python
  if truthy structured then .ok structured
  else (firstText result).mapError .python >>= decodeText py

/-- The structured output of a tool result. -/
def output {F : Type} (py : Runtime F) (result : Json) : Except CallError Json := do
  let isError ← (get result "isError" .null).mapError .python
  if truthy isError then toolError result else structuredOutput py result

/-- `McpClient.open_draft_sar`. -/
def openDraftSar {F : Type} (py : Runtime F) (a : Attempt) : Except CallError Json := do
  let _ ← openSession a
  output py (← rpc a)

end McpClient

/-- The request reached `tools/call`. -/
def Attempt.sent (a : Attempt) : Bool := (McpClient.openSession a).isOk

/-- Citations as the tool server binds them. -/
def boundCitations (citations : List Json) : List (Option ℤ) :=
  citations.map fun c => (asNumber c).bind fun q => if q.den = 1 then some q.num else none

/-- The row the tool server inserts for the arguments it was sent. -/
def Attempt.row (a : Attempt) (runId : String) (args : SarArgs) : Option SarDraft :=
  (if a.sent then a.draft else none).bind fun d =>
    SarDraftService.row ⟨some args.account,some args.period,some args.rationale,
      some (boundCitations args.citations),some runId,d.caller,d.clearance,d.argsDigest⟩
      d.draftRef d.createdAt

/-- What a node does outside the graph. -/
inductive Effect
  | query (query : String) (topK : ℕ) (bearer : String)
  | mint (user : Json) (token : Option String)
  | openDraftSar (bearer : String) (runId : String) (args : SarArgs) (draft : Option SarDraft)
  deriving DecidableEq

/-- The row it put into the tool server's table. -/
def Effect.draft : Effect → Option SarDraft
  | .openDraftSar _ _ _ draft => draft
  | .query _ _ _ | .mint _ _ => none

@[simp] theorem Effect.draft_mint (user : Json) (token : Option String) :
    (Effect.mint user token).draft = none := rfl

@[simp] theorem Effect.draft_openDraftSar (bearer runId : String) (args : SarArgs)
    (draft : Option SarDraft) : (Effect.openDraftSar bearer runId args draft).draft = draft := rfl

theorem Attempt.row_runId {a : Attempt} {runId : String} {args : SarArgs} {d : SarDraft}
    (h : a.row runId args = some d) : d.runId = runId := by
  simp only [row,SarDraftService.row,Option.bind_eq_bind,Option.bind_eq_some_iff,Option.pure_def,
    Option.some.injEq] at h
  obtain ⟨_,-,_,rfl,_,rfl,_,rfl,_,rfl,rfl⟩ := h
  rfl

section Act
variable {F : Type}

/-- A computation whose parts do not report a refused connection does not report one. -/
theorem bind_ne_connectError {α β : Type} {x : Except CallError α} {f : α → Except CallError β}
    {message : String} (hx : x ≠ .error (.connectError message))
    (hf : ∀ a, f a ≠ .error (.connectError message)) : (x >>= f) ≠ .error (.connectError message) := by
  cases x with
  | error e => exact fun h => hx (congrArg _ (Except.error.inj h))
  | ok a => exact hf a

theorem mapError_ne_connectError {α : Type} (x : Except Error α) (message : String) :
    x.mapError CallError.python ≠ .error (.connectError message) := by
  cases x <;> simp [Except.mapError]

theorem decodeText_ne_connectError (py : Runtime F) (text : Json) (message : String) :
    McpClient.decodeText py text ≠ .error (.connectError message) := by
  unfold McpClient.decodeText
  split
  · cases text with
    | str s => exact mapError_ne_connectError _ _
    | null | bool _ | num _ | arr _ | obj _ => simp
  · simp

/-- Decoding what came back never reports a refused connection. -/
theorem output_ne_connectError (py : Runtime F) (result : Json) (message : String) :
    McpClient.output py result ≠ .error (.connectError message) := by
  refine bind_ne_connectError (mapError_ne_connectError _ _) fun isError => ?_
  split
  · exact bind_ne_connectError (mapError_ne_connectError _ _) fun text => by simp
  · refine bind_ne_connectError (mapError_ne_connectError _ _) fun structured => ?_
    split
    · simp
    · exact bind_ne_connectError (mapError_ne_connectError _ _) fun text =>
        decodeText_ne_connectError py text message

theorem rpcResult_ne_connectError (m : Json) (message : String) :
    McpClient.rpcResult m ≠ .error (.connectError message) := by
  cases m with
  | obj members => simp only [McpClient.rpcResult]; split <;> simp
  | null | bool _ | num _ | str _ | arr _ => simp [McpClient.rpcResult]

/-- A refused connection left no draft. -/
theorem row_of_connectError {py : Runtime F} {a : Attempt} {message : String}
    (h : McpClient.openDraftSar py a = .error (.connectError message)) (runId : String)
    (args : SarArgs) : a.row runId args = none := by
  cases hs : McpClient.openSession a with
  | error e => simp [Attempt.row,Attempt.sent,hs,Except.isOk,Except.toBool]
  | ok sessionId =>
    cases hc : a.call with
    | error e =>
      cases e with
      | connectError m => simp [Attempt.row,a.refused m hc]
      | other m =>
        simp [McpClient.openDraftSar,McpClient.rpc,hs,hc,bind,Except.bind,HttpError.asCallError] at h
    | ok m =>
      refine absurd h ?_
      simp only [McpClient.openDraftSar,McpClient.rpc,hs,hc]
      exact bind_ne_connectError (by simp) fun _ =>
        bind_ne_connectError (rpcResult_ne_connectError m message) fun result =>
          output_ne_connectError py result message

def actFailed (s : AgentState F) (error : CallError) : AgentState F :=
  { s with
    status := some .FAILED
    result := some (.error error)
    trace := s.trace ++ [.actSar none] ++ [.actSar (some error)]
    stepCount := s.stepCount + 1 }

def actCompleted (s : AgentState F) (draftRef status auditRef : Json) : AgentState F :=
  { s with
    status := some .COMPLETED
    result := some (.action OPEN_DRAFT_SAR draftRef status auditRef)
    trace := s.trace ++ [.actSar none]
    stepCount := s.stepCount + 1 }

@[simp] theorem actFailed_input (s : AgentState F) (error : CallError) :
    (actFailed s error).input = s.input := rfl

/-- The state `act_sar_node` returns for the tool's output. -/
def actOutput (s : AgentState F) (result : Json) : Except Error (AgentState F) := do
  return actCompleted s (← get result "draftRef" .null) (← get result "status" (.str "DRAFT"))
    (← get result "auditRef" .null)

/-- The retry loop of `act_sar_node`: attempt `i`, with `n` attempts left. Only a `ConnectError` is
tried again. -/
def actLoop (py : Runtime F) (outside : ℕ → Attempt) (s : AgentState F) (args : SarArgs) :
    ℕ → ℕ → Option CallError → AgentState F × List Effect
  | 0,_,lastError =>
    (actFailed s (lastError.getD (.unspecified "tool call failed after retries")),[])
  | n+1,i,_ =>
    match (outside i).token with
    | .error (.connectError message) =>
      let (r,effects) := actLoop py outside s args n (i+1) (some (.connectError message))
      (r,.mint s.caller none::effects)
    | .error (.other message) => (actFailed s (.http message),[.mint s.caller none])
    | .ok token =>
      let called := [.mint s.caller (some token),
        .openDraftSar token s.runId args ((outside i).row s.runId args)]
      match McpClient.openDraftSar py (outside i) with
      | .error (.connectError message) =>
        let (r,effects) := actLoop py outside s args n (i+1) (some (.connectError message))
        (r,called ++ effects)
      | .error e => (actFailed s e,called)
      | .ok result => match actOutput s result with
        | .ok r => (r,called)
        | .error e => (actFailed s (.python e),called)

/-- What the retry loop returns and does: the run's input stays, a call of the tool uses a token
minted for the caller just before and the arguments it was given, and at most one draft is made. -/
structure ActSpec (s : AgentState F) (args : SarArgs) (out : AgentState F × List Effect) : Prop where
  input : out.1.input = s.input
  calls : History.Follows (fun pre e => ∀ bearer runId args' draft,
    e = .openDraftSar bearer runId args' draft →
      .mint s.caller (some bearer) ∈ pre ∧ runId = s.runId ∧ args' = args) out.2
  queries : ∀ q k b, .query q k b ∉ out.2
  drafts : (out.2.filterMap Effect.draft).length ≤ 1
  draftRun : ∀ d ∈ out.2.filterMap Effect.draft, d.runId = s.runId

/-- `act_sar_node`. -/
def actSarNode (py : Runtime F) (retries : ℤ) (outside : ℕ → Attempt) (s : AgentState F) :
    Except Error (AgentState F × List Effect) :=
  match s.proposedAction with
  | none => .error .typeError
  | some proposed => .ok (actLoop py outside s proposed.args (max 1 (retries + 1)).toNat 0 none)

namespace ActSpec
variable {s r t : AgentState F} {args : SarArgs} {effects first : List Effect}

/-- No attempt is left. -/
theorem nil (ht : t.input = s.input) : ActSpec s args (t,[]) where
  input := ht
  calls := History.follows_nil
  queries := by simp
  drafts := by simp
  draftRun := by simp

/-- The token was refused. -/
theorem minted (ht : t.input = s.input) : ActSpec s args (t,[.mint s.caller none]) where
  input := ht
  calls := History.follows_nil.concat (by simp)
  queries := by simp
  drafts := by simp [List.filterMap_cons]
  draftRun := by simp [List.filterMap_cons]

/-- The tool was called with a token just minted. -/
theorem called (ht : t.input = s.input) (a : Attempt) (token : String) : ActSpec s args
    (t,[.mint s.caller (some token),.openDraftSar token s.runId args (a.row s.runId args)]) where
  input := ht
  calls := by
    refine (History.follows_nil.concat ?_).concat ?_
    · simp
    · intro bearer runId args' draft he
      cases he
      exact ⟨List.mem_cons_self,rfl,rfl⟩
  queries := by simp
  drafts := by
    cases h : a.row s.runId args <;> simp [List.filterMap_cons]
  draftRun := by
    intro d hd
    cases h : a.row s.runId args with
    | none => simp [List.filterMap_cons,h] at hd
    | some d' =>
      obtain rfl : d' = d := by simpa [List.filterMap_cons,h,eq_comm] using hd
      exact a.row_runId h

/-- An attempt that made no draft is followed by others. -/
theorem append (h : ActSpec s args (t,first)) (hnone : first.filterMap Effect.draft = [])
    (k : ActSpec s args (r,effects)) : ActSpec s args (r,first ++ effects) where
  input := k.input
  calls := by
    refine h.calls.append fun pre e post he bearer runId args' draft hd => ?_
    obtain ⟨hm,hrest⟩ := k.calls pre e post he bearer runId args' draft hd
    exact ⟨List.mem_append_right _ hm,hrest⟩
  queries q l b hm := (List.mem_append.mp hm).elim (h.queries q l b) (k.queries q l b)
  drafts := by rw [List.filterMap_append,hnone]; exact k.drafts
  draftRun := by rw [List.filterMap_append,hnone]; exact k.draftRun

end ActSpec

theorem actOutput_input {s t : AgentState F} {result : Json} (h : actOutput s result = .ok t) :
    t.input = s.input := by
  simp only [actOutput,bind_eq_ok,pure,Except.pure,Except.ok.injEq] at h
  obtain ⟨_,-,_,-,_,-,rfl⟩ := h
  rfl

theorem actLoop_spec (py : Runtime F) (outside : ℕ → Attempt) (s : AgentState F) (args : SarArgs)
    (n i : ℕ) (lastError : Option CallError) :
    ActSpec s args (actLoop py outside s args n i lastError) := by
  induction n generalizing i lastError with
  | zero => exact .nil (actFailed_input s _)
  | succ n ih =>
    unfold actLoop
    cases (outside i).token with
    | error e =>
      cases e with
      | connectError message => exact (ActSpec.minted (rfl : s.input = s.input)).append rfl (ih _ _)
      | other message => exact .minted (actFailed_input s _)
    | ok token =>
      cases hcall : McpClient.openDraftSar py (outside i) with
      | error e =>
        cases e with
        | connectError message =>
          refine (ActSpec.called (rfl : s.input = s.input) (outside i) token).append ?_ (ih _ _)
          simp [List.filterMap_cons,row_of_connectError hcall]
        | http _ | mcp _ | python _ | unspecified _ =>
          exact .called (actFailed_input s _) (outside i) token
      | ok result =>
        cases hout : actOutput s result with
        | error e =>
          simp only [hout]
          exact .called (actFailed_input s _) (outside i) token
        | ok t =>
          simp only [hout]
          exact .called (actOutput_input hout) (outside i) token

end Act
end AtlasCompliance.Agents
