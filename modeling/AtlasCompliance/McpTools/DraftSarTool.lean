import AtlasCompliance.Clearance
import AtlasCompliance.McpTools.DraftRefs

/-! `DraftSarTool.openDraftSar`: validation, the clearance re-check, and the three transactions of
a call with every point at which the database or the process can fail. -/
namespace AtlasCompliance.McpTools
open Java

/-- Arguments of the tool as they arrive; each may be null. -/
structure ToolArgs where
  account : Option String
  period : Option String
  rationale : Option String
  citations : Option (List (Option ℤ))
  runId : Option String
  deriving DecidableEq, Repr

structure CallerIdentity where
  caller : String
  clearance : String
  deriving DecidableEq, Repr

namespace SarInputValidator

def MAX_RATIONALE_LEN : ℕ := 2000

/-- `PERIOD_PATTERN.matcher(period).matches()` for `^[0-9]{4}-Q[1-4]$`. -/
def periodMatches (period : String) : Bool :=
  match period.toList with
  | [a,b,c,d,'-','Q',q] => [a,b,c,d].all (fun x => '0' ≤ x && x ≤ '9') && ('1' ≤ q && q ≤ '4')
  | _ => false

def requireText (field : String) (value : Option String) : Except String Unit :=
  match value with
  | none => .error (field ++ " must not be blank")
  | some v => if Text.isBlank v then .error (field ++ " must not be blank") else .ok ()

def check (ok : Bool) (message : String) : Except String Unit :=
  if ok then .ok () else .error message

def requireCitations : Option (List (Option ℤ)) → Except String Unit
  | none => .error "citations must be a non-empty array of integers"
  | some [] => .error "citations must be a non-empty array of integers"
  | some cs => check (cs.all Option.isSome) "citations must not contain null entries"

/-- `SarInputValidator.validate`; the error is the exception's message. -/
def validate (a : ToolArgs) : Except String Unit := do
  requireText "account" a.account
  requireText "period" a.period
  check (periodMatches (a.period.getD "")) "period must match ^[0-9]\x7b4\x7d-Q[1-4]$ (e.g. 2026-Q2)"
  requireText "rationale" a.rationale
  check (Text.length (a.rationale.getD "") ≤ MAX_RATIONALE_LEN)
    ("rationale exceeds " ++ MAX_RATIONALE_LEN.repr ++ " characters")
  requireCitations a.citations

end SarInputValidator

/-- `ClearanceRecheck.require`; the error is the exception's message. -/
def ClearanceRecheck.require (required : Clearance) (clearanceLabel : String) : Except String Unit :=
  match Clearance.fromLabel clearanceLabel with
  | none => .error ("unknown clearance: " ++ clearanceLabel)
  | some actual =>
    if actual.atLeast required then .ok ()
    else .error ("caller clearance '" ++ actual.label ++ "' is below required '" ++
      required.label ++ "'")

theorem ClearanceRecheck.require_eq_ok {required : Clearance} {clearanceLabel : String} :
    require required clearanceLabel = .ok () ↔
      ∃ c, Clearance.fromLabel clearanceLabel = some c ∧ required.rank ≤ c.rank := by
  unfold require
  cases h : Clearance.fromLabel clearanceLabel with
  | none => simp
  | some c =>
    by_cases hr : required.rank ≤ c.rank <;> simp [Clearance.atLeast,hr]

namespace DraftSarTool

def TOOL : String := "open_draft_sar"

/-- `String.valueOf` of a list of boxed integers. -/
def citationsText : Option (List (Option ℤ)) → String
  | none => "null"
  | some cs => "[" ++ ", ".intercalate (cs.map fun c => (c.map Int.repr).getD "null") ++ "]"

/-- `String.join` writes a null element as `null`. -/
def argsCanonical (a : ToolArgs) : String :=
  (String.singleton AuditHasher.US).intercalate
    [a.account.getD "null",a.period.getD "null",a.rationale.getD "null",citationsText a.citations]

end DraftSarTool

/-- A call of the tool: its arguments and the identity read from its token. -/
structure Request where
  args : ToolArgs
  id : CallerIdentity
  deriving DecidableEq, Repr

namespace Request

def argsDigest (sha : Sha256) (q : Request) : String :=
  Digests.sha256Hex sha (DraftSarTool.argsCanonical q.args)

/-- The call's own appends: `ATTEMPT`, `DENIED` and `ERROR`. -/
def appendArgs (sha : Sha256) (q : Request) (phase : AuditPhase) : AppendArgs :=
  ⟨q.args.runId,DraftSarTool.TOOL,phase,q.id.caller,q.id.clearance,q.argsDigest sha,none⟩

def draftArgs (sha : Sha256) (q : Request) : DraftArgs :=
  ⟨q.args.account,q.args.period,q.args.rationale,q.args.citations,q.args.runId,q.id.caller,
    q.id.clearance,q.argsDigest sha⟩

/-- The caller's clearance suffices and the arguments are accepted. -/
def Authorised (required : Clearance) (q : Request) : Prop :=
  ClearanceRecheck.require required q.id.clearance = .ok () ∧
    SarInputValidator.validate q.args = .ok ()

end Request

/-- Which of its transactions a call is in. -/
inductive TxKind
  | attempt
  | denied
  | draft
  | error
  deriving DecidableEq, Repr

/-- `OpenDraftSarResult`. -/
structure OpenDraftSarResult where
  draftRef : String
  status : String
  createdAt : String
  auditId : String
  deriving DecidableEq, Repr

/-- Why a call throws: a refused clearance, invalid arguments, or the database. -/
inductive Failure
  | insufficientClearance (message : String)
  | illegalArgument (message : String)
  | database
  deriving DecidableEq, Repr

inductive Outcome
  | returned (result : OpenDraftSarResult)
  | threw (why : Failure)
  | stopped
  deriving DecidableEq, Repr

/-- The transaction a call is at, with the exception a `catch` block will throw again. -/
inductive Stage
  | attempt
  | denied (why : Failure)
  | draft
  | error (why : Failure)
  deriving DecidableEq, Repr

def Stage.kind : Stage → TxKind
  | .attempt => .attempt
  | .denied _ => .denied
  | .draft => .draft
  | .error _ => .error

inductive CallPc
  | opening (s : Stage)
  | inside (s : Stage)
  | ended (o : Outcome)
  deriving DecidableEq, Repr

namespace DraftSarTool

/-- The transaction of a stage. -/
def job (sha : Sha256) (q : Request) : TxKind → Job
  | .attempt => .append (q.appendArgs sha .attempt)
  | .denied => .append (q.appendArgs sha .denied)
  | .draft => .createDraft (q.draftArgs sha)
  | .error => .append (q.appendArgs sha .error)

/-- The result built from the rows that `createDraft` inserted. -/
def result (t : Tx) (appended : AuditRecord) : Outcome :=
  match t.draftRows with
  | draft::_ => .returned ⟨draft.draftRef,"DRAFT",draft.createdAt.toString,"audit_" ++ appended.seq.repr⟩
  | [] => .threw .database

/-- Control flow after a stage's transaction has committed. -/
def afterCommit (required : Clearance) (q : Request) (t : Tx) (appended : AuditRecord) : Stage → CallPc
  | .attempt =>
    match ClearanceRecheck.require required q.id.clearance with
    | .error message => .opening (.denied (.insufficientClearance message))
    | .ok _ =>
      match SarInputValidator.validate q.args with
      | .error message => .opening (.error (.illegalArgument message))
      | .ok _ => .opening .draft
  | .denied why => .ended (.threw why)
  | .draft => .ended (result t appended)
  | .error why => .ended (.threw why)

/-- Control flow after a stage's transaction could not be opened or was rolled back. -/
def afterFailure : Stage → CallPc
  | .attempt => .ended (.threw .database)
  | .denied _ => .ended (.threw .database)
  | .draft => .opening (.error .database)
  | .error _ => .ended (.threw .database)

end DraftSarTool

structure Call where
  request : Request
  pc : CallPc

/-- The tool server: the schema, its transactions named by call and stage, and the calls. -/
structure Server (κ : Type) where
  db : Db (κ × TxKind)
  calls : κ → Option Call

namespace Server
variable {κ : Type} [DecidableEq κ]

def init : Server κ := ⟨Db.init,fun _ => none⟩

def setCall (s : Server κ) (cid : κ) (q : Request) (pc : CallPc) : Server κ :=
  { s with calls := Function.update s.calls cid (some ⟨q,pc⟩) }

inductive Event (κ : Type)
  | invoke (cid : κ) (q : Request)
  | open_ (cid : κ)
  | exec (cid : κ) (clock : Clock)
  | fail (cid : κ) (drawn : Bool)
  | stop (cid : κ) (drawn : Bool)

/-- One event: a new call, the next statement of a call, its failure, or the process stopping in the
middle of the call. -/
def step (required : Clearance) (sha : Sha256) (s : Server κ) : Event κ → Option (Server κ)
  | .invoke cid q => if s.calls cid = none then some (s.setCall cid q (.opening .attempt)) else none
  | .open_ cid => do
    let c ← s.calls cid
    match c.pc with
    | .opening st =>
      let db ← s.db.step sha (.begin_ (cid,st.kind) (DraftSarTool.job sha c.request st.kind))
      return { s with db := db }.setCall cid c.request (.inside st)
    | _ => none
  | .exec cid clock => do
    let c ← s.calls cid
    match c.pc with
    | .inside st =>
      let t ← s.db.open_ (cid,st.kind)
      let db ← s.db.exec sha (cid,st.kind) clock
      match t.next with
      | .commit r =>
        return { s with db := db }.setCall cid c.request
          (DraftSarTool.afterCommit required c.request t r st)
      | _ => return { s with db := db }
    | _ => none
  | .fail cid drawn => do
    let c ← s.calls cid
    match c.pc with
    | .opening st => return s.setCall cid c.request (DraftSarTool.afterFailure st)
    | .inside st =>
      let db ← s.db.rollback (cid,st.kind) drawn
      return { s with db := db }.setCall cid c.request (DraftSarTool.afterFailure st)
    | .ended _ => none
  | .stop cid drawn => do
    let c ← s.calls cid
    match c.pc with
    | .opening _ => return s.setCall cid c.request (.ended .stopped)
    | .inside st =>
      let db ← s.db.rollback (cid,st.kind) drawn
      return { s with db := db }.setCall cid c.request (.ended .stopped)
    | .ended _ => none

end Server
end AtlasCompliance.McpTools
