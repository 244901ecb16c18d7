import AtlasCompliance.Agents.Nodes

/-! The planner-executor graph: the two gates where a run pauses, the branches after a node, and what
running one node does. -/
namespace AtlasCompliance.Agents
open Python McpTools

/-- The nodes of the graph. -/
inductive Node
  | planner
  | retrieve
  | assess
  | approve
  | clarify
  | act_sar
  | rejected
  | finalize
  deriving DecidableEq, Repr

/-- What a gate shows to the human: the argument of its `interrupt`. -/
inductive Question
  | approve (proposedAction : Option ProposedAction) (breachDetail : Option String)
      (citations : List Context)
  | clarify (citations : List Context)
  deriving DecidableEq

/-- The settings a compiled graph is built with. -/
structure Config (F : Type) where
  py : Runtime F
  threshold : F
  topK : ℕ
  toolRetries : ℤ
  maxSteps : ℤ

/-- What the services outside the graph answer while a node runs. -/
structure Outside where
  gateway : Except HttpError Json
  attempt : ℕ → Attempt

/-- How running a node ends: with a state, at its `interrupt`, or with an exception. -/
inductive NodeResult (F : Type)
  | returned (s : AgentState F)
  | interrupted (question : Question)
  | raised

/-- What a node did outside the graph, and the interrupts that were answered. -/
inductive Step
  | effect (e : Effect)
  | answered (question : Question) (payload : Payload)
  deriving DecidableEq

section Gates
variable {F : Type}

def NodeResult.ofExcept : Except Error (AgentState F) → NodeResult F
  | .ok s => .returned s
  | .error _ => .raised

/-- The question of the approval gate. -/
def approveQuestion (s : AgentState F) : Question :=
  .approve s.proposedAction s.breachDetail s.contexts

/-- `_approve_node`, with the resume value if there is one. -/
def approveNode (resume : Option Payload) (s : AgentState F) : NodeResult F × List Step :=
  match resume with
  | none => (.interrupted (approveQuestion s),[])
  | some decision => (.returned { s with
      approval := some decision
      trace := s.trace ++ [.approve (truthy decision.approved)]
      stepCount := s.stepCount + 1 },[.answered (approveQuestion s) decision])

def CLARIFIED : String := "Human-confirmed breach (amount not machine-readable in the source)"

/-- `_clarify_node` after its interrupt. -/
def clarifyAnswer (decision : Payload) (s : AgentState F) : Except Error (AgentState F) :=
  let breach := truthy decision.breach
  let trace := s.trace ++ [.clarify breach]
  if breach then do
    let citations ← sortedSet (markers s.contexts)
    return { s with
      breach := true
      breachDetail := some CLARIFIED
      proposedAction := some (proposal s CLARIFIED citations)
      trace := trace
      stepCount := s.stepCount + 1 }
  else .ok { s with breach := false, trace := trace, stepCount := s.stepCount + 1 }

/-- `_clarify_node`, with the resume value if there is one. -/
def clarifyNode (resume : Option Payload) (s : AgentState F) : NodeResult F × List Step :=
  match resume with
  | none => (.interrupted (.clarify s.contexts),[])
  | some decision =>
    (.ofExcept (clarifyAnswer decision s),[.answered (.clarify s.contexts) decision])

/-- `_rejected_node`. -/
def rejectedNode (s : AgentState F) : AgentState F :=
  let note := (s.approval.map Payload.note).getD .null
  { s with
    status := some .REJECTED
    result := if truthy note then some (.note note) else none
    trace := s.trace ++ [.rejected]
    stepCount := s.stepCount + 1 }

/-- `_finalize_node`. -/
def finalizeNode (s : AgentState F) : AgentState F :=
  { s with status := some .COMPLETED, trace := s.trace ++ [.finalize], stepCount := s.stepCount + 1 }

/-- `_breach_branch`. -/
def breachBranch (s : AgentState F) : Node :=
  if s.breach then .approve else if s.ambiguous then .clarify else .finalize

/-- `_clarify_branch`. -/
def clarifyBranch (s : AgentState F) : Node :=
  if s.proposedAction.isSome then .approve else .finalize

/-- `_approval_branch`. -/
def approvalBranch (s : AgentState F) : Node :=
  if truthy ((s.approval.map Payload.approved).getD .null) then .act_sar else .rejected

/-- The edges of the graph, read in the state a node returned. -/
def Node.successor (s : AgentState F) : Node → Option Node
  | .planner => some .retrieve
  | .retrieve => some .assess
  | .assess => some (breachBranch s)
  | .clarify => some (clarifyBranch s)
  | .approve => some (approvalBranch s)
  | .act_sar | .rejected | .finalize => none

end Gates

/-- Run a node. Only the gates read the resume value. -/
def Node.exec {F : Type} [LinearOrder F] (cfg : Config F) (outside : Outside)
    (resume : Option Payload) (s : AgentState F) : Node → NodeResult F × List Step
  | .planner => (.returned (plannerNode s),[])
  | .retrieve => (match outside.gateway with
    | .error _ => .raised
    | .ok resp => .ofExcept (retrieveNode cfg.py resp s),
    [.effect (.query s.query cfg.topK s.bearer)])
  | .assess => (.ofExcept (assessNode cfg.py cfg.threshold s),[])
  | .approve => approveNode resume s
  | .clarify => clarifyNode resume s
  | .act_sar => match actSarNode cfg.py cfg.toolRetries outside.attempt s with
    | .error _ => (.raised,[])
    | .ok (t,effects) => (.returned t,effects.map .effect)
  | .rejected => (.returned (rejectedNode s),[])
  | .finalize => (.returned (finalizeNode s),[])

/-- An upper bound on the nodes that a run still visits. -/
def Node.height : Node → ℕ
  | .planner => 6
  | .retrieve => 5
  | .assess => 4
  | .clarify => 3
  | .approve => 2
  | .act_sar | .rejected | .finalize => 1

/-- The trace of a run in which a breach was found: in the answer and citations, or by a human who
was asked because no amount could be read. -/
def foundTrace (citations : ℕ) : (clarified : Bool) → List TraceEntry
  | false => [.planner PLAN,.retrieve citations,.assess true false]
  | true => [.planner PLAN,.retrieve citations,.assess false true,.clarify true]

/-- What a state says of the way to the node that is due. -/
def AgentState.At {F : Type} (s : AgentState F) : Node → Prop
  | .planner => s.trace = []
  | .retrieve => s.trace = [.planner PLAN]
  | .assess => ∃ n, s.trace = [.planner PLAN,.retrieve n]
  | .clarify => ∃ n, s.trace = [.planner PLAN,.retrieve n,.assess false true] ∧ s.proposedAction = none
  | .approve => ∃ n clarified p, s.trace = foundTrace n clarified ∧ s.proposedAction = some p ∧
      p.tool = OPEN_DRAFT_SAR
  | .act_sar => ∃ n clarified p, s.trace = foundTrace n clarified ++ [.approve true] ∧
      s.proposedAction = some p ∧ p.tool = OPEN_DRAFT_SAR
  | .rejected | .finalize => True

/-- What running a node does outside the graph. -/
inductive Did {F : Type} (cfg : Config F) (s : AgentState F) (resume : Option Payload) :
    Node → List Step → Prop
  | nothing (n : Node) : Did cfg s resume n []
  | query : Did cfg s resume .retrieve [.effect (.query s.query cfg.topK s.bearer)]
  | approved {decision : Payload} (h : resume = some decision) :
      Did cfg s resume .approve [.answered (approveQuestion s) decision]
  | clarified {decision : Payload} (h : resume = some decision) :
      Did cfg s resume .clarify [.answered (.clarify s.contexts) decision]
  | acted {proposed : ProposedAction} {t : AgentState F} {effects : List Effect}
      (h : s.proposedAction = some proposed) (ht : ActSpec s proposed.args (t,effects)) :
      Did cfg s resume .act_sar (effects.map .effect)

section Exec
variable {F : Type} {cfg : Config F} {outside : Outside} {resume : Option Payload}
variable {s t : AgentState F} {n m : Node} {steps : List Step}

theorem ofExcept_returned {x : Except Error (AgentState F)} :
    NodeResult.ofExcept x = .returned t ↔ x = .ok t := by
  cases x <;> simp [NodeResult.ofExcept]

theorem clarifyAnswer_ok {decision : Payload} (h : clarifyAnswer decision s = .ok t) :
    (truthy decision.breach = false ∧ t = { s with
      breach := false, trace := s.trace ++ [.clarify false], stepCount := s.stepCount + 1 }) ∨
    truthy decision.breach = true ∧ ∃ citations, t = { s with
      breach := true
      breachDetail := some CLARIFIED
      proposedAction := some (proposal s CLARIFIED citations)
      trace := s.trace ++ [.clarify true]
      stepCount := s.stepCount + 1 } := by
  cases hb : truthy decision.breach with
  | false =>
    simp only [clarifyAnswer,hb,Bool.false_eq_true,if_false,Except.ok.injEq] at h
    exact Or.inl ⟨rfl,h.symm⟩
  | true =>
    simp only [clarifyAnswer,hb,if_true,bind_eq_ok,pure,Except.pure,Except.ok.injEq] at h
    obtain ⟨citations,-,rfl⟩ := h
    exact Or.inr ⟨rfl,citations,rfl⟩

/-- The graph has no way back. -/
theorem Node.height_successor (h : n.successor t = some m) : m.height < n.height := by
  cases n with
  | planner | retrieve => cases h; decide
  | assess => cases h; unfold breachBranch; split_ifs <;> decide
  | clarify => cases h; unfold clarifyBranch; split_ifs <;> decide
  | approve => cases h; unfold approvalBranch; split_ifs <;> decide
  | act_sar | rejected | finalize => cases h

variable [LinearOrder F]

theorem Node.exec_did (h : (n.exec cfg outside resume s).2 = steps) : Did cfg s resume n steps := by
  subst h
  cases n with
  | retrieve => exact .query
  | approve =>
    cases resume with
    | none => exact .nothing _
    | some decision => exact .approved rfl
  | clarify =>
    cases resume with
    | none => exact .nothing _
    | some decision => exact .clarified rfl
  | act_sar =>
    cases hp : s.proposedAction with
    | none => simpa [exec,actSarNode,hp] using Did.nothing _
    | some proposed =>
      simpa [exec,actSarNode,hp] using Did.acted hp (actLoop_spec cfg.py outside.attempt s _ _ _ _)
  | planner | assess | rejected | finalize => exact .nothing _

theorem Node.exec_input (h : n.exec cfg outside resume s = (.returned t,steps)) :
    t.input = s.input := by
  cases n with
  | planner | rejected | finalize => cases h; rfl
  | retrieve =>
    obtain ⟨h,-⟩ := Prod.mk.inj h
    cases hg : outside.gateway with
    | error e => simp [hg] at h
    | ok resp =>
      simp only [hg,ofExcept_returned] at h
      obtain ⟨_,_,_,rfl⟩ := retrieveNode_ok h
      rfl
  | assess =>
    obtain ⟨_,_,_,_,_,rfl,-⟩ := assessNode_ok (ofExcept_returned.mp (Prod.mk.inj h).1)
    rfl
  | approve =>
    cases resume with
    | none => cases h
    | some decision => cases h; rfl
  | clarify =>
    cases resume with
    | none => cases h
    | some decision =>
      rcases clarifyAnswer_ok (ofExcept_returned.mp (Prod.mk.inj h).1) with ⟨-,rfl⟩ | ⟨-,_,rfl⟩ <;> rfl
  | act_sar =>
    cases hp : s.proposedAction with
    | none => simp [exec,actSarNode,hp] at h
    | some proposed =>
      simp only [exec,actSarNode,hp,Prod.mk.injEq,NodeResult.returned.injEq] at h
      exact h.1 ▸ (actLoop_spec cfg.py outside.attempt s _ _ _ _).input

/-- A node leads to a state that says of the way to the next node what it should. -/
theorem Node.exec_at (h : n.exec cfg outside resume s = (.returned t,steps)) (hs : s.At n)
    (hm : n.successor t = some m) : t.At m := by
  cases n with
  | planner =>
    cases h
    cases hm
    simpa [AgentState.At,plannerNode] using hs
  | retrieve =>
    cases hm
    obtain ⟨h,-⟩ := Prod.mk.inj h
    cases hg : outside.gateway with
    | error e => simp [hg] at h
    | ok resp =>
      simp only [hg,ofExcept_returned] at h
      obtain ⟨_,contexts,_,rfl⟩ := retrieveNode_ok h
      exact ⟨contexts.length,by rw [hs]; rfl⟩
  | assess =>
    obtain ⟨k,hk⟩ := hs
    obtain ⟨breach,_,_,ambiguous,proposed,rfl,hamb,hnone,hsome⟩ :=
      assessNode_ok (ofExcept_returned.mp (Prod.mk.inj h).1)
    cases hm
    cases breach with
    | true =>
      obtain ⟨rationale,citations,rfl⟩ := hsome rfl
      obtain rfl : ambiguous = false := by simpa using hamb
      exact ⟨k,false,_,by simp [hk,foundTrace],rfl,rfl⟩
    | false =>
      cases ambiguous with
      | true => exact ⟨k,by simp [hk],hnone rfl⟩
      | false => trivial
  | clarify =>
    obtain ⟨k,hk,hp⟩ := hs
    cases resume with
    | none => cases h
    | some decision =>
      cases hm
      rcases clarifyAnswer_ok (ofExcept_returned.mp (Prod.mk.inj h).1) with ⟨-,rfl⟩ | ⟨-,citations,rfl⟩
      · simp [clarifyBranch,hp,AgentState.At]
      · exact ⟨k,true,_,by simp [hk,foundTrace],rfl,rfl⟩
  | approve =>
    obtain ⟨k,clarified,p,hk,hp,htool⟩ := hs
    cases resume with
    | none => cases h
    | some decision =>
      cases h
      cases hm
      cases ha : truthy decision.approved with
      | true => simpa [approvalBranch,ha] using ⟨k,clarified,p,by simp [hk],hp,htool⟩
      | false => simp [approvalBranch,ha,AgentState.At]
  | act_sar | rejected | finalize => cases hm

/-- The write is due only after the approval gate was answered with an approval. -/
theorem Node.exec_act_sar (h : n.exec cfg outside resume s = (.returned t,steps))
    (hm : n.successor t = some .act_sar) : n = .approve ∧ ∃ decision, resume = some decision ∧
      truthy decision.approved = true ∧ t.proposedAction = s.proposedAction ∧
      steps = [.answered (approveQuestion s) decision] := by
  cases n with
  | planner | retrieve | act_sar | rejected | finalize => simp [successor] at hm
  | assess => simp only [successor,breachBranch,Option.some.injEq] at hm; split_ifs at hm
  | clarify => simp only [successor,clarifyBranch,Option.some.injEq] at hm; split_ifs at hm
  | approve =>
    cases resume with
    | none => cases h
    | some decision =>
      cases h
      refine ⟨rfl,decision,rfl,?_,rfl,rfl⟩
      by_contra ha
      simp [successor,approvalBranch,ha] at hm

end Exec
end AtlasCompliance.Agents
