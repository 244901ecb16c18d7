import AtlasCompliance.Lib.Regex
import AtlasCompliance.Python.Value

/-! The agent's state, the decisions a human can send, and the amounts found in a text. -/
namespace AtlasCompliance.Agents
open Python

/-- `_CURRENCY`: `\$\s?(\d{1,3}(?:,\d{3})+(?:\.\d+)?|\d+(?:\.\d+)?)`. -/
def CURRENCY (d : Digits) : Regex.Pattern Char :=
  let digit := Regex.Pattern.sat d.isDigit
  let lit := fun c => Regex.Pattern.sat (· == c)
  let fraction := Regex.Pattern.opt (.seq (lit '.') digit.plus)
  .seq (lit '$') (.seq (.opt (.sat isSpace)) (.group 1 (.alt
    (.seq (digit.between 1 2) (.seq (Regex.Pattern.plus (.seq (lit ',') (digit.times 3))) fraction))
    (.seq digit.plus fraction))))

section Amounts
variable {F : Type}

/-- `extract_amounts` on a text. -/
def amountsOf (py : Runtime F) (text : List Char) : List F :=
  (Regex.findall (CURRENCY py.digits) 1 text).map fun m => py.float (m.filter (· != ','))

/-- `extract_amounts`; searching anything but a string raises. -/
def extractAmounts (py : Runtime F) (text : Json) : Except Error (List F) :=
  if truthy text then
    match text with
    | .str s => .ok (amountsOf py s.toList)
    | .null | .bool _ | .num _ | .arr _ | .obj _ => .error .typeError
  else .ok []

end Amounts

/-- A cited context, with the members of the citation it was copied from. -/
structure Context where
  n : Json
  documentId : Json
  clearance : Json
  snippet : Json
  deriving DecidableEq

/-- The arguments of `open_draft_sar` in a proposed action. -/
structure SarArgs where
  account : String
  period : String
  rationale : String
  citations : List Json
  deriving DecidableEq

structure ProposedAction where
  tool : String
  args : SarArgs
  deriving DecidableEq

/-- The resume payload: the three answers a human can give, each any value. -/
structure Payload where
  approved : Json
  note : Json
  breach : Json
  deriving DecidableEq

inductive Status
  | AWAITING_APPROVAL
  | AWAITING_CLARIFICATION
  | RUNNING
  | COMPLETED
  | REJECTED
  | FAILED
  deriving DecidableEq, Repr

/-- Why the tool call failed: the text of a refused connection (`connect error: …`) or of another
HTTP failure, what the server reported, or an exception of the language. -/
inductive CallError
  | connectError (message : String)
  | http (message : String)
  | mcp (report : Json)
  | python (e : Error)
  | unspecified (message : String)
  deriving DecidableEq

/-- The `result` of a run. -/
inductive RunResult
  | note (note : Json)
  | error (error : CallError)
  | action (tool : String) (draftRef status auditRef : Json)
  deriving DecidableEq

inductive TraceEntry
  | planner (plan : List String)
  | retrieve (citations : ℕ)
  | assess (breach ambiguous : Bool)
  | approve (approved : Bool)
  | clarify (breach : Bool)
  | actSar (error : Option CallError)
  | rejected
  | finalize
  deriving DecidableEq

/-- `AgentState`, with `None` and a missing key read alike. -/
structure AgentState (F : Type) where
  query : String
  account : String
  period : String
  bearer : String
  runId : String
  caller : Json
  plan : List String
  answer : Option String
  contexts : List Context
  amounts : List F
  breach : Bool
  breachAmount : Option F
  breachDetail : Option String
  ambiguous : Bool
  proposedAction : Option ProposedAction
  approval : Option Payload
  status : Option Status
  result : Option RunResult
  trace : List TraceEntry
  stepCount : ℕ

/-- What a run was started with. -/
structure RunInput where
  query : String
  account : String
  period : String
  bearer : String
  runId : String
  caller : Json

def AgentState.input {F : Type} (s : AgentState F) : RunInput :=
  ⟨s.query,s.account,s.period,s.bearer,s.runId,s.caller⟩

end AtlasCompliance.Agents
