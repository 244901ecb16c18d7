import AtlasCompliance.Agents.Graph
import AtlasCompliance.Lib.Transition

/-! `GraphRunner` over the durable checkpointer: every call in flight, step by step, with the
checkpoints it has not saved yet, so that calls of one run can interleave and be killed anywhere. -/
namespace AtlasCompliance.Agents
open Python McpTools

/-- A snapshot of a run: its state and the node that is due, if any. -/
structure Checkpoint (F : Type) where
  values : AgentState F
  next : Option Node

/-- `_RESUMABLE & set(snapshot.next)`. -/
def Checkpoint.resumable {F : Type} (cp : Checkpoint F) : Bool :=
  cp.next = some .approve || cp.next = some .clarify

/-- The status that `_render` reports. -/
def Checkpoint.status {F : Type} (cp : Checkpoint F) : Status :=
  match cp.next with
  | some .clarify => .AWAITING_CLARIFICATION
  | some .approve => .AWAITING_APPROVAL
  | some _ => .RUNNING
  | none => cp.values.status.getD .COMPLETED

/-- `jwt_sub`: the subject in the token's payload. -/
def jwtSub {F : Type} (py : Runtime F) (token : String) : Except Error Json :=
  let payload : Except Error Json :=
    match (token.toList.splitOn '.')[1]? with
    | none => .error .indexError
    | some payloadB64 => do
      let padding := List.replicate ((4 - payloadB64.length % 4) % 4) '='
      let bytes ← py.urlsafeB64decode (String.ofList (payloadB64 ++ padding))
      get (← py.loads (← py.decode bytes)) "sub" .null
  match payload with
  | .error .attributeError => .error .attributeError
  | .error .keyError => .error .keyError
  | .error .indexError | .error .valueError | .error .typeError => .error .valueError
  | .ok sub => if truthy sub then .ok sub else .error .valueError

/-- The input state of `start`. -/
def initialState {F : Type} (run query account period bearer : String) (caller : Json) :
    AgentState F :=
  ⟨query,account,period,bearer,run,caller,[],none,[],[],false,none,none,false,none,none,none,none,[],0⟩

/-- Where a call is: before `get_state`, before `invoke` has read the checkpoint, in the graph's
loop (the resume value serves its first node only), or past it. Checkpoints that are not saved yet
are written in order. -/
inductive Pc (F : Type)
  | check (payload : Payload)
  | load (payload : Payload)
  | loop (cp : Checkpoint F) (resume : Option Payload) (unsaved : List (Checkpoint F)) (fuel : ℕ)
  | ending (unsaved : List (Checkpoint F)) (raised : Bool)

/-- A call of `start` or `resume` that has not returned. -/
structure Call (F : Type) where
  run : String
  pc : Pc F

/-- What is recorded of a call: its arrival, the snapshot it checked, what its nodes did, and the
status of its response (none for an unknown run). -/
inductive Event (F : Type)
  | arrived (payload : Payload)
  | checked (snapshot : Checkpoint F)
  | did (step : Step)
  | responded (status : Option Status)

structure Entry (κ F : Type) where
  call : κ
  run : String
  event : Event F

/-- The saved checkpoints, the calls in flight, the bearer each run so far was started with, the
calls so far, the record of what happened, and the tool server's table of drafts. -/
structure Agent (κ F : Type) where
  store : String → Option (Checkpoint F)
  calls : κ → Option (Call F)
  bearers : String → Option String
  begun : List κ
  log : List (Entry κ F)
  sarDraft : List SarDraft

inductive Action (κ : Type)
  | start (call : κ) (run query account period bearer : String)
  | resume (call : κ) (run : String) (payload : Payload)
  | get (run : String)
  | advance (call : κ) (outside : Outside)
  | save (call : κ)
  | kill (call : κ)

/-- `recursion_limit`. -/
def recursionLimit {F : Type} (cfg : Config F) : ℕ := (max cfg.maxSteps 8).toNat

/-- The row a step put into the tool server's table. -/
def Step.draft : Step → Option SarDraft
  | .effect (.openDraftSar _ _ _ draft) => draft
  | .effect (.query _ _ _) | .effect (.mint _ _) | .answered _ _ => none

namespace Agent
variable {κ F : Type} [DecidableEq κ]

def init : Agent κ F := ⟨fun _ => none,fun _ => none,fun _ => none,[],[],[]⟩

def setCall (a : Agent κ F) (c : κ) (call : Option (Call F)) : Agent κ F :=
  { a with calls := Function.update a.calls c call }

def record (a : Agent κ F) (c : κ) (run : String) (events : List (Event F)) : Agent κ F :=
  { a with log := a.log ++ events.map fun e => ⟨c,run,e⟩ }

/-- The call moves on to `pc`. -/
def goto (a : Agent κ F) (c : κ) (run : String) (pc : Pc F) : Agent κ F :=
  a.setCall c (some ⟨run,pc⟩)

/-- The call returns what `_render` makes of the saved checkpoint. -/
def respond (a : Agent κ F) (c : κ) (run : String) : Agent κ F :=
  (a.record c run [.responded ((a.store run).map Checkpoint.status)]).setCall c none

/-- The steps of a node are recorded, and the rows they made are in the table. -/
def perform (a : Agent κ F) (c : κ) (run : String) (steps : List Step) : Agent κ F :=
  { a.record c run (steps.map .did) with sarDraft := a.sarDraft ++ steps.filterMap Step.draft }

/-- A new run: the graph is invoked with the input state. -/
def launch (cfg : Config F) (a : Agent κ F) (c : κ) (bearer : String) (input : AgentState F) :
    Agent κ F :=
  { a with
    bearers := Function.update a.bearers input.runId (some bearer)
    begun := c::a.begun }.goto c input.runId
      (.loop ⟨input,some .planner⟩ none [⟨input,some .planner⟩] (recursionLimit cfg))

variable [LinearOrder F]

/-- One node of the graph's loop. -/
def superstep (cfg : Config F) (a : Agent κ F) (c : κ) (run : String) (outside : Outside)
    (cp : Checkpoint F) (resume : Option Payload) (unsaved : List (Checkpoint F)) :
    ℕ → Agent κ F
  | 0 => a.goto c run (.ending unsaved cp.next.isSome)
  | fuel+1 => match cp.next with
    | none => a.goto c run (.ending unsaved false)
    | some n => match n.exec cfg outside resume cp.values with
      | (.returned t,steps) => (a.perform c run steps).goto c run
          (.loop ⟨t,n.successor t⟩ none (unsaved ++ [⟨t,n.successor t⟩]) fuel)
      | (.interrupted _,steps) => (a.perform c run steps).goto c run (.ending unsaved false)
      | (.raised,steps) => (a.perform c run steps).goto c run (.ending unsaved true)

/-- A call goes on from where it is. -/
def advance (cfg : Config F) (a : Agent κ F) (c : κ) (outside : Outside) : Option (Agent κ F) := do
  let call ← a.calls c
  match call.pc with
  | .check payload => match a.store call.run with
    | none => return a.respond c call.run
    | some cp =>
      let a := a.record c call.run [.checked cp]
      if cp.resumable then return a.goto c call.run (.load payload)
      return a.respond c call.run
  | .load payload =>
    let cp ← a.store call.run
    return a.goto c call.run (.loop cp (some payload) [] (recursionLimit cfg))
  | .loop cp resume unsaved fuel =>
    return a.superstep cfg c call.run outside cp resume unsaved fuel
  | .ending [] false => return a.respond c call.run
  | .ending [] true => return a.setCall c none
  | .ending (_::_) _ => none

/-- The oldest checkpoint that a call has not saved is written. -/
def save (a : Agent κ F) (c : κ) : Option (Agent κ F) := do
  let call ← a.calls c
  match call.pc with
  | .loop cp resume (first::rest) fuel =>
    return { a with store := Function.update a.store call.run (some first) }.goto c call.run
      (.loop cp resume rest fuel)
  | .ending (first::rest) raised =>
    return { a with store := Function.update a.store call.run (some first) }.goto c call.run
      (.ending rest raised)
  | _ => none

/-- One action. A `start` draws a run id that no run has, and fails before there is a run if the
bearer has no subject; a killed call loses the checkpoints it has not saved. -/
def step (cfg : Config F) (a : Agent κ F) : Action κ → Option (Agent κ F)
  | .start c run query account period bearer =>
    if c ∈ a.begun ∨ (a.bearers run).isSome then none
    else match jwtSub cfg.py bearer with
      | .error _ => none
      | .ok caller =>
        some (a.launch cfg c bearer (initialState run query account period bearer caller))
  | .resume c run payload =>
    if c ∈ a.begun then none
    else some (({ a with begun := c::a.begun }.record c run [.arrived payload]).goto c run
      (.check payload))
  | .get _ => some a
  | .advance c outside => a.advance cfg c outside
  | .save c => a.save c
  | .kill c => (a.calls c).map fun _ => a.setCall c none

end Agent

/-- The checkpoints a call has not saved. -/
def Pc.unsaved {F : Type} : Pc F → List (Checkpoint F)
  | .check _ | .load _ => []
  | .loop _ _ unsaved _ => unsaved
  | .ending unsaved _ => unsaved

/-- The same place with the checkpoints `rest` left to save. -/
def Pc.wrote {F : Type} (rest : List (Checkpoint F)) : Pc F → Pc F
  | .check payload => .check payload
  | .load payload => .load payload
  | .loop cp resume _ fuel => .loop cp resume rest fuel
  | .ending _ raised => .ending rest raised

namespace Agent
variable {κ F : Type}

@[simp] theorem record_nil (a : Agent κ F) (c : κ) (run : String) : a.record c run [] = a := by
  simp [record]

@[simp] theorem perform_nil (a : Agent κ F) (c : κ) (run : String) : a.perform c run [] = a := by
  simp [perform]

theorem record_record (a : Agent κ F) (c : κ) (run : String) (es es' : List (Event F)) :
    (a.record c run es).record c run es' = a.record c run (es ++ es') := by
  simp [record]

variable [DecidableEq κ] [LinearOrder F]

/-- Everything an action can do, one constructor for each kind of step. -/
inductive Moves (cfg : Config F) (a : Agent κ F) : Action κ → Agent κ F → Prop
  | start {c : κ} {run query account period bearer : String} {caller : Json} (hc : c ∉ a.begun)
      (hrun : a.bearers run = none) (hsub : jwtSub cfg.py bearer = .ok caller) :
      Moves cfg a (.start c run query account period bearer)
        (a.launch cfg c bearer (initialState run query account period bearer caller))
  | arrive {c : κ} {run : String} {payload : Payload} (hc : c ∉ a.begun) :
      Moves cfg a (.resume c run payload)
        (({ a with begun := c::a.begun }.record c run [.arrived payload]).goto c run (.check payload))
  | get {run : String} : Moves cfg a (.get run) a
  | leave {c : κ} {outside : Outside} {call : Call F} {events : List (Event F)}
      (hcall : a.calls c = some call)
      (hpc : (∃ payload, call.pc = .check payload) ∨ ∃ raised, call.pc = .ending [] raised)
      (hevents : ∀ e ∈ events, (∃ st, e = .responded st) ∨ ∃ cp payload, e = .checked cp ∧
        call.pc = .check payload ∧ a.store call.run = some cp) :
      Moves cfg a (.advance c outside) ((a.record c call.run events).setCall c none)
  | kill {c : κ} {call : Call F} (hcall : a.calls c = some call) :
      Moves cfg a (.kill c) (a.setCall c none)
  | check {c : κ} {outside : Outside} {run : String} {payload : Payload} {cp : Checkpoint F}
      (hcall : a.calls c = some ⟨run,.check payload⟩) (hs : a.store run = some cp)
      (hr : cp.resumable = true) :
      Moves cfg a (.advance c outside) ((a.record c run [.checked cp]).goto c run (.load payload))
  | load {c : κ} {outside : Outside} {run : String} {payload : Payload} {cp : Checkpoint F}
      (hcall : a.calls c = some ⟨run,.load payload⟩) (hs : a.store run = some cp) :
      Moves cfg a (.advance c outside)
        (a.goto c run (.loop cp (some payload) [] (recursionLimit cfg)))
  | node {c : κ} {outside : Outside} {run : String} {cp : Checkpoint F} {resume : Option Payload}
      {unsaved : List (Checkpoint F)} {fuel : ℕ} {n : Node} {t : AgentState F} {steps : List Step}
      (hcall : a.calls c = some ⟨run,.loop cp resume unsaved (fuel+1)⟩) (hn : cp.next = some n)
      (hexec : n.exec cfg outside resume cp.values = (.returned t,steps)) :
      Moves cfg a (.advance c outside) ((a.perform c run steps).goto c run
        (.loop ⟨t,n.successor t⟩ none (unsaved ++ [⟨t,n.successor t⟩]) fuel))
  | stop {c : κ} {outside : Outside} {run : String} {cp : Checkpoint F} {resume : Option Payload}
      {unsaved : List (Checkpoint F)} {fuel : ℕ} {steps : List Step} {raised : Bool}
      (hcall : a.calls c = some ⟨run,.loop cp resume unsaved fuel⟩)
      (hstop : (cp.next = none ∨ fuel = 0) ∧ steps = [] ∨ ∃ n, cp.next = some n ∧
        (n.exec cfg outside resume cp.values).2 = steps ∧
        ∀ t, (n.exec cfg outside resume cp.values).1 ≠ .returned t) :
      Moves cfg a (.advance c outside) ((a.perform c run steps).goto c run (.ending unsaved raised))
  | save {c : κ} {run : String} {pc : Pc F} {first : Checkpoint F} {rest : List (Checkpoint F)}
      (hcall : a.calls c = some ⟨run,pc⟩) (hu : pc.unsaved = first::rest) :
      Moves cfg a (.save c)
        ({ a with store := Function.update a.store run (some first) }.goto c run (pc.wrote rest))

theorem superstep_moves {cfg : Config F} {a : Agent κ F} {c : κ} {run : String} {outside : Outside}
    {cp : Checkpoint F} {resume : Option Payload} {unsaved : List (Checkpoint F)} {fuel : ℕ}
    (hcall : a.calls c = some ⟨run,.loop cp resume unsaved fuel⟩) :
    Moves cfg a (.advance c outside) (a.superstep cfg c run outside cp resume unsaved fuel) := by
  cases fuel with
  | zero => simpa [superstep] using Moves.stop hcall (Or.inl ⟨Or.inr rfl,rfl⟩)
  | succ fuel =>
    cases hn : cp.next with
    | none => simpa [superstep,hn] using Moves.stop hcall (Or.inl ⟨Or.inl hn,rfl⟩)
    | some n =>
      cases hexec : n.exec cfg outside resume cp.values with
      | mk result steps =>
        simp only [superstep,hn,hexec]
        cases result with
        | returned t => exact .node hcall hn hexec
        | interrupted q => exact .stop hcall (Or.inr ⟨n,hn,by rw [hexec],by simp [hexec]⟩)
        | raised => exact .stop hcall (Or.inr ⟨n,hn,by rw [hexec],by simp [hexec]⟩)

theorem advance_moves {cfg : Config F} {a b : Agent κ F} {c : κ} {outside : Outside}
    (h : a.advance cfg c outside = some b) : Moves cfg a (.advance c outside) b := by
  obtain ⟨call,hcall,h⟩ := Option.bind_eq_some_iff.mp h
  obtain ⟨run,pc⟩ := call
  cases pc with
  | check payload =>
    cases hs : a.store run with
    | none =>
      simp only [hs,Option.pure_def,Option.some.injEq] at h
      exact h ▸ .leave hcall (Or.inl ⟨payload,rfl⟩) (by simp)
    | some cp =>
      cases hr : cp.resumable with
      | true =>
        simp only [hs,hr,if_true,Option.pure_def,Option.some.injEq] at h
        exact h ▸ .check hcall hs hr
      | false =>
        simp only [hs,hr,Bool.false_eq_true,if_false,Option.pure_def,Option.some.injEq] at h
        obtain rfl := h
        simp only [respond,record_record]
        exact .leave hcall (Or.inl ⟨payload,rfl⟩) (by simp [hs])
  | load payload =>
    obtain ⟨cp,hs,h⟩ := Option.bind_eq_some_iff.mp h
    exact Option.some.inj h ▸ .load hcall hs
  | loop cp resume unsaved fuel =>
    exact Option.some.inj h ▸ superstep_moves hcall
  | ending unsaved raised =>
    cases unsaved with
    | nil =>
      cases raised with
      | false => exact Option.some.inj h ▸ .leave hcall (Or.inr ⟨false,rfl⟩) (by simp)
      | true =>
        obtain rfl := Option.some.inj h
        simpa using Moves.leave hcall (Or.inr ⟨true,rfl⟩) (List.forall_mem_nil _)
    | cons first rest => cases h

theorem save_moves {cfg : Config F} {a b : Agent κ F} {c : κ} (h : a.save c = some b) :
    Moves cfg a (.save c) b := by
  obtain ⟨⟨run,pc⟩,hcall,h⟩ := Option.bind_eq_some_iff.mp h
  cases pc with
  | check payload | load payload => cases h
  | loop cp resume unsaved fuel =>
    cases unsaved with
    | nil => cases h
    | cons first rest => exact Option.some.inj h ▸ .save hcall rfl
  | ending unsaved raised =>
    cases unsaved with
    | nil => cases h
    | cons first rest => exact Option.some.inj h ▸ .save hcall rfl

theorem step_moves {cfg : Config F} {a b : Agent κ F} {act : Action κ}
    (h : a.step cfg act = some b) : Moves cfg a act b := by
  cases act with
  | start c run query account period bearer =>
    simp only [step] at h
    split_ifs at h with hfresh
    cases hsub : jwtSub cfg.py bearer with
    | error e => simp [hsub] at h
    | ok caller =>
      simp only [hsub,Option.some.injEq] at h
      rw [not_or] at hfresh
      exact h ▸ .start hfresh.1 (by simpa using hfresh.2) hsub
  | resume c run payload =>
    simp only [step] at h
    split_ifs at h with hfresh
    exact Option.some.inj h ▸ .arrive hfresh
  | get run => exact Option.some.inj h ▸ .get
  | advance c outside => exact advance_moves h
  | save c => exact save_moves h
  | kill c =>
    obtain ⟨call,hcall,rfl⟩ := Option.map_eq_some_iff.mp h
    exact .kill hcall

end Agent
end AtlasCompliance.Agents
