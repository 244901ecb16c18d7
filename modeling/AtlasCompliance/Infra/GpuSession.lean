import AtlasCompliance.Lib.Handling

/-! The GPU session as a context manager over the provider: what it has paused after each use, for
every sequence of uses of one session object and every failure on the way. -/
namespace AtlasCompliance.Infra
open Handling

/-- What is raised: `GpuProviderError`, another `Exception`, or an exception that is none. -/
inductive Exc
  | jlError (message : String)
  | exception (name : String)
  | base (name : String)
  deriving DecidableEq

def Exc.isException : Exc → Bool
  | .jlError _ | .exception _ => true
  | .base _ => false

/-- The step that raises. -/
inductive Origin
  | resume
  | endpoint
  | poll
  | body
  | pause
  deriving DecidableEq

structure Raised where
  origin : Origin
  exc : Exc
  deriving DecidableEq

structure InstanceInfo where
  machineId : String
  status : String
  endpoints : List String
  deriving DecidableEq

def InstanceInfo.isRunning (info : InstanceInfo) : Bool :=
  info.status.toList.map Char.toLower == ['r','u','n','n','i','n','g']

inductive Role
  | ollama
  | vllm
  deriving DecidableEq

/-- `classify_endpoints`: the first endpoint that answers in each role. -/
def classifyEndpoints (probe : String → Option Role) :
    List (Role × String) → List String → List (Role × String)
  | roles,[] => roles
  | roles,url::urls => match probe url with
    | none => classifyEndpoints probe roles urls
    | some role =>
      if (roles.lookup role).isSome then classifyEndpoints probe roles urls
      else classifyEndpoints probe (roles ++ [(role,url)]) urls

/-- Ollama preferred, else vLLM; an empty address counts as none. -/
def primary (roles : List (Role × String)) : Option String :=
  ((roles.lookup .ollama).filter (· ≠ "")).or ((roles.lookup .vllm).filter (· ≠ ""))

/-- A call that the session makes of the provider. -/
inductive Call
  | resume
  | pause (target : String)
  deriving DecidableEq

/-- The session, its provider, the id under which the cloud knows the instance now, and the calls of
the provider, the oldest first. -/
structure World where
  instanceId : String
  roles : List (Role × String)
  skipHealth : Bool
  baseUrl : Option String
  paused : Bool
  current : String
  calls : List Call

/-- What one use of the session meets: the answers of the cloud, the end of the health poll, and the
end of the body. A resume that raises may have changed the id. -/
structure Use where
  found : Except Exc InstanceInfo
  resumed : Except (Exc × String) String
  discovered : Except Exc InstanceInfo
  probe : String → Option Role
  polled : Option Exc
  body : Option Exc
  paused : Option Exc

abbrev Act : Type → Type := Handler World Raised

namespace JarvisLabsProvider
variable (u : Use)

/-- `resume_instance`, and the id that the provider keeps of it. -/
def resumeInstance : Act PUnit :=
  match u.resumed with
  | .ok machineId => modify fun w =>
    {w with current := machineId, instanceId := machineId, roles := []}
  | .error (e,current) => do
    modify fun w => {w with current := current}
    throw ⟨.resume,e⟩

def resumeFound (info : InstanceInfo) : Act PUnit :=
  if info.isRunning then modify fun w => {w with roles := []} else resumeInstance u

def resumeKnown (instanceId : String) : Act PUnit :=
  if instanceId = "" then
    throw ⟨.resume,.jlError "resume requires GPU_INSTANCE_ID (or create one first)"⟩
  else match u.found with
    | .error e => throw ⟨.resume,e⟩
    | .ok info => resumeFound u info

def resume : Act PUnit := do
  modify fun w => {w with calls := w.calls ++ [.resume]}
  let w ← get
  resumeKnown u w.instanceId

def discoverEndpoints : Act (List (Role × String)) := do
  let w ← get
  if w.roles.isEmpty then
    match u.discovered with
    | .error e => throw ⟨.endpoint,e⟩
    | .ok info => do
      modify fun w => {w with roles := classifyEndpoints u.probe [] info.endpoints}
      pure (classifyEndpoints u.probe [] info.endpoints)
  else pure w.roles

def endpoint : Act String := do
  let roles ← discoverEndpoints u
  match primary roles with
  | some url => pure url
  | none => do
    let w ← get
    throw ⟨.endpoint,.jlError s!"instance {w.instanceId} exposes no ready endpoint"⟩

def pauseKnown (instanceId : String) : Act PUnit :=
  if instanceId = "" then throw ⟨.pause,.jlError "pause requires an instance id"⟩
  else match u.paused with
    | none => pure ⟨⟩
    | some e => throw ⟨.pause,e⟩

def pause : Act PUnit := do
  let w ← get
  modify fun w => {w with calls := w.calls ++ [.pause w.instanceId]}
  pauseKnown u w.instanceId

end JarvisLabsProvider

namespace GpuSession
variable (u : Use)

/-- The health poll, unless it is skipped. -/
def pollUntilReady : Act PUnit := do
  let w ← get
  if w.skipHealth then pure ⟨⟩
  else match u.polled with
    | none => pure ⟨⟩
    | some e => throw ⟨.poll,e⟩

/-- The guarded part of `__enter__`. -/
def start : Act String := do
  JarvisLabsProvider.resume u
  let endpoint ← JarvisLabsProvider.endpoint u
  pollUntilReady u
  pure endpoint

/-- The provider is paused and the flag set. -/
def pauseOnce : Act PUnit := do
  JarvisLabsProvider.pause u
  modify fun w => {w with paused := true}

def pause : Act PUnit := do
  let w ← get
  if w.paused then pure ⟨⟩ else pauseOnce u

/-- The pause after a failed enter: an `Exception` of it is logged only. -/
def pauseQuietly : Act PUnit :=
  tryCatch (pause u) fun f => if f.exc.isException then pure ⟨⟩ else throw f

def enter : Act String := do
  let endpoint ← tryCatch (start u) fun f => do
    pauseQuietly u
    throw f
  modify fun w => {w with baseUrl := some endpoint}
  pure endpoint

def exit : Act PUnit := pause u

/-- The body and the exit that follows it; what the exit raises replaces what the body raised. -/
def bodyAndExit : Act PUnit :=
  match u.body with
  | none => exit u
  | some e => do
    exit u
    throw ⟨.body,e⟩

/-- `with session as base_url: body`. -/
def use : Act PUnit := do
  let _ ← enter u
  bodyAndExit u

end GpuSession

/-! ### What the inputs of a use amount to -/

namespace Use
variable (u : Use) (w : World)

/-- The answer to `resume_instance`, if the provider gets that far. -/
def reached : Option (Except (Exc × String) String) :=
  if w.instanceId = "" then none
  else match u.found with
    | .error _ => none
    | .ok info => if info.isRunning then none else some u.resumed

/-- The id that the provider goes on with. -/
def idAfter : String :=
  match u.reached w with
  | some (.ok machineId) => machineId
  | some (.error _) | none => w.instanceId

/-- The id of the instance after the resume. -/
def currentAfter : String :=
  match u.reached w with
  | some (.ok machineId) => machineId
  | some (.error (_,current)) => current
  | none => w.current

def resumeError : Option Exc :=
  if w.instanceId = "" then some (.jlError "resume requires GPU_INSTANCE_ID (or create one first)")
  else match u.found with
    | .error e => some e
    | .ok info =>
      if info.isRunning then none
      else match u.resumed with
        | .ok _ => none
        | .error (e,_) => some e

def endpointError : Option Exc :=
  match u.discovered with
  | .error e => some e
  | .ok info => match primary (classifyEndpoints u.probe [] info.endpoints) with
    | some _ => none
    | none => some (.jlError s!"instance {u.idAfter w} exposes no ready endpoint")

def pollError : Option Exc := if w.skipHealth then none else u.polled

/-- The first of resume, endpoint discovery and health poll to raise. -/
def enterError : Option Raised :=
  (((u.resumeError w).map (Raised.mk .resume)).or ((u.endpointError w).map (Raised.mk .endpoint))).or
    ((u.pollError w).map (Raised.mk .poll))

/-- What the pause of the provider raises. -/
def pauseError : Option Exc :=
  if u.idAfter w = "" then some (.jlError "pause requires an instance id") else u.paused

end Use

section Specs
variable (u : Use) (w : World) {v : World}

/-- `some f` is raised, and with `none` the value is returned. -/
def outcome {α : Type} (f : Option Raised) (a : α) : Except Raised α :=
  match f with
  | none => .ok a
  | some f => .error f

theorem exec_resume : exec (JarvisLabsProvider.resume u) w =
    (outcome ((u.resumeError w).map (Raised.mk .resume)) ⟨⟩,
      {w with
        calls := w.calls ++ [.resume]
        instanceId := u.idAfter w
        current := u.currentAfter w
        roles := if u.resumeError w = none then [] else w.roles}) := by
  unfold JarvisLabsProvider.resume
  rw [exec_bind_ok (exec_modify _ w),exec_bind_ok (exec_get _)]
  unfold JarvisLabsProvider.resumeKnown
  by_cases hid : w.instanceId = ""
  · simp [hid,Use.resumeError,Use.idAfter,Use.currentAfter,Use.reached,outcome]
  · cases hfound : u.found with
    | error e =>
      simp [hid,hfound,Use.resumeError,Use.idAfter,Use.currentAfter,Use.reached,outcome]
    | ok info =>
      simp only [hid,if_false]
      unfold JarvisLabsProvider.resumeFound
      by_cases hrunning : info.isRunning = true
      · simp [hid,hfound,hrunning,Use.resumeError,Use.idAfter,Use.currentAfter,Use.reached,outcome]
      · unfold JarvisLabsProvider.resumeInstance
        cases hresumed : u.resumed with
        | ok machineId =>
          simp [hid,hfound,hrunning,hresumed,Use.resumeError,Use.idAfter,Use.currentAfter,
            Use.reached,outcome]
        | error failed =>
          simp [hid,hfound,hrunning,hresumed,Use.resumeError,Use.idAfter,Use.currentAfter,
            Use.reached,outcome,exec_bind]

theorem exec_endpoint (hroles : w.roles = []) (hid : w.instanceId = u.idAfter v) :
    ∃ url roles, exec (JarvisLabsProvider.endpoint u) w =
      (outcome ((u.endpointError v).map (Raised.mk .endpoint)) url,{w with roles := roles}) := by
  unfold JarvisLabsProvider.endpoint JarvisLabsProvider.discoverEndpoints Use.endpointError
  rw [exec_bind,exec_bind_ok (exec_get w),hroles,List.isEmpty_nil,if_pos rfl]
  cases hdiscovered : u.discovered with
  | error e => exact ⟨"",[],by simp [outcome,← hroles]⟩
  | ok info =>
    rw [exec_bind_ok (exec_modify _ w),exec_pure]
    cases hurl : primary (classifyEndpoints u.probe [] info.endpoints) with
    | some url => exact ⟨url,_,by simp [outcome,hurl]; rfl⟩
    | none =>
      refine ⟨"",classifyEndpoints u.probe [] info.endpoints,?_⟩
      simp only [hurl,Option.map_some,outcome,← hid]
      rfl

/-- Enter up to the pause that follows a failure. -/
theorem exec_start : ∃ url v, exec (GpuSession.start u) w = (outcome (u.enterError w) url,v) ∧
    v.paused = w.paused ∧ v.calls = w.calls ++ [.resume] ∧ v.instanceId = u.idAfter w ∧
      v.current = u.currentAfter w := by
  unfold GpuSession.start Use.enterError
  rw [exec_bind,exec_resume]
  cases hresume : u.resumeError w with
  | some e => exact ⟨"",_,rfl,rfl,rfl,rfl,rfl⟩
  | none =>
    simp only [Option.map_none,outcome,if_true]
    obtain ⟨url,roles,hendpoint⟩ := exec_endpoint (v := w) u
      {w with
        calls := w.calls ++ [.resume], instanceId := u.idAfter w
        current := u.currentAfter w, roles := []} rfl rfl
    rw [exec_bind,hendpoint]
    cases hfails : u.endpointError w with
    | some e => exact ⟨"",_,rfl,rfl,rfl,rfl,rfl⟩
    | none =>
      refine ⟨url,{w with
        calls := w.calls ++ [.resume], instanceId := u.idAfter w
        current := u.currentAfter w, roles := roles},?_,rfl,rfl,rfl,rfl⟩
      simp only [Option.map_none,outcome,Option.none_or,GpuSession.pollUntilReady,Use.pollError]
      rw [exec_bind,exec_bind_ok (exec_get _)]
      by_cases hskip : w.skipHealth = true
      · simp only [hskip,if_true]
        rfl
      · cases hpolled : u.polled <;> (simp only [hskip]; rfl)

/-- The pause of a session that has not paused before. -/
theorem exec_pause (hfresh : w.paused = false) (hid : w.instanceId = u.idAfter v) :
    exec (GpuSession.pause u) w = (outcome ((u.pauseError v).map (Raised.mk .pause)) ⟨⟩,
      {w with
        calls := w.calls ++ [.pause w.instanceId]
        paused := (u.pauseError v).isNone}) := by
  unfold GpuSession.pause
  rw [exec_bind_ok (exec_get w),hfresh,if_neg (by simp)]
  unfold GpuSession.pauseOnce JarvisLabsProvider.pause JarvisLabsProvider.pauseKnown Use.pauseError
  rw [exec_bind,exec_bind_ok (exec_get w),exec_bind_ok (exec_modify _ w),hid]
  by_cases hempty : u.idAfter v = ""
  · simp [hempty,outcome,hfresh]
  · cases hpaused : u.paused with
    | none => simp [hempty,outcome]
    | some e => simp [hempty,outcome,hfresh]

theorem exec_pause_again (hpaused : w.paused = true) :
    exec (GpuSession.pause u) w = (.ok ⟨⟩,w) := by
  unfold GpuSession.pause
  rw [exec_bind_ok (exec_get w),hpaused,if_pos rfl]
  rfl

/-- What the pause of the session raises. -/
def Use.exitError : Option Raised :=
  if w.paused then none else (u.pauseError w).map (Raised.mk .pause)

/-- The calls of the provider in one use, after the resume. -/
def Use.made : List Call := if w.paused then [] else [.pause (u.idAfter w)]

/-- What one use raises in the end. -/
def Use.raised : Option Raised :=
  match u.enterError w with
  | some f => ((u.exitError w).filter fun g => !g.exc.isException).or (some f)
  | none => (u.exitError w).or (u.body.map (Raised.mk .body))

/-- What a pause of the session leaves, whether it reaches the provider or not. -/
structure Left (t : World) : Prop where
  calls : t.calls = w.calls ++ .resume::u.made w
  current : t.current = u.currentAfter w
  paused : t.paused = (w.paused || (u.pauseError w).isNone)

theorem exec_exit (hpaused : v.paused = w.paused) (hcalls : v.calls = w.calls ++ [.resume])
    (hid : v.instanceId = u.idAfter w) (hcurrent : v.current = u.currentAfter w) :
    ∃ t, exec (GpuSession.pause u) v = (outcome (u.exitError w) ⟨⟩,t) ∧ Left u w t := by
  cases hfresh : w.paused with
  | true =>
    refine ⟨v,?_,by simp [hcalls,Use.made,hfresh],hcurrent,by rw [hpaused,hfresh]; rfl⟩
    rw [exec_pause_again u v (hpaused.trans hfresh),Use.exitError,hfresh]
    rfl
  | false =>
    refine ⟨{v with
        calls := v.calls ++ [.pause v.instanceId]
        paused := (u.pauseError w).isNone},?_,?_,?_,?_⟩
    · rw [exec_pause u v (hpaused.trans hfresh) hid,Use.exitError,hfresh]
      rfl
    · simp [hcalls,hid,Use.made,hfresh]
    · exact hcurrent
    · rw [hfresh]
      rfl

/-- One use: what it raises and what it leaves. -/
theorem exec_use : ∃ t, exec (GpuSession.use u) w = (outcome (u.raised w) ⟨⟩,t) ∧ Left u w t := by
  obtain ⟨url,v,hstart,hpaused,hcalls,hid,hcurrent⟩ := exec_start u w
  unfold GpuSession.use GpuSession.enter Use.raised
  rw [exec_bind,exec_bind]
  cases henter : u.enterError w with
  | some f =>
    rw [henter] at hstart
    obtain ⟨t,hexit,hleft⟩ := exec_exit u w hpaused hcalls hid hcurrent
    refine ⟨t,?_,hleft⟩
    rw [exec_tryCatch_error hstart,exec_bind]
    unfold GpuSession.pauseQuietly
    rw [exec_tryCatch,hexit]
    cases hquiet : u.exitError w with
    | none => rfl
    | some g =>
      by_cases hg : g.exc.isException = true <;> simp [outcome,hg,Option.filter]
  | none =>
    rw [henter] at hstart
    obtain ⟨t,hexit,hleft⟩ :=
      @exec_exit u w {v with baseUrl := some url} hpaused hcalls hid hcurrent
    refine ⟨t,?_,hleft⟩
    rw [exec_tryCatch_ok hstart]
    simp only [outcome,exec_bind,exec_modify,exec_pure]
    unfold GpuSession.bodyAndExit GpuSession.exit
    cases hbody : u.body with
    | none =>
      rw [hexit]
      cases u.exitError w <;> rfl
    | some e =>
      rw [exec_bind,hexit]
      cases u.exitError w <;> rfl

end Specs

/-! ### The promise of the session -/

/-- The instance that the use left running is paused under its id since the resume, and what the
enter or the body raised is raised, unless the exit fails. -/
structure Kept (u : Use) (w : World) : Prop where
  attempted : ∃ made, (exec (GpuSession.use u) w).2.calls = w.calls ++ .resume::made ∧
    .pause (exec (GpuSession.use u) w).2.current ∈ made
  entered : ∀ f, u.enterError w = some f → (exec (GpuSession.use u) w).1 = .error f
  left : u.enterError w = none → ∀ e, u.body = some e →
    (exec (GpuSession.use u) w).1 = .error ⟨.body,e⟩ ∨
      ∃ e', u.pauseError w = some e' ∧ (exec (GpuSession.use u) w).1 = .error ⟨.pause,e'⟩

/-- The session has not paused yet, the provider knows the id of the instance after the resume, and
no pause after a failed enter is interrupted. -/
structure Sound (u : Use) (w : World) : Prop where
  fresh : w.paused = false
  follows : u.idAfter w = u.currentAfter w
  uninterrupted : u.enterError w ≠ none → ∀ e, u.pauseError w = some e → e.isException = true

theorem enterError_origin {u : Use} {w : World} {f : Raised} (h : u.enterError w = some f) :
    f.origin ≠ .pause := by
  unfold Use.enterError at h
  cases hresume : u.resumeError w with
  | some e =>
    rw [hresume] at h
    obtain rfl := Option.some.inj h
    exact Origin.noConfusion
  | none =>
    cases hendpoint : u.endpointError w with
    | some e =>
      rw [hresume,hendpoint] at h
      obtain rfl := Option.some.inj h
      exact Origin.noConfusion
    | none =>
      rw [hresume,hendpoint] at h
      obtain ⟨e,-,rfl⟩ := Option.map_eq_some_iff.mp h
      exact Origin.noConfusion

theorem kept_iff (u : Use) (w : World) : Kept u w ↔ Sound u w := by
  obtain ⟨t,huse,hleft⟩ := exec_use u w
  constructor
  · rintro ⟨⟨made,hcalls,hmem⟩,hentered,-⟩
    rw [huse] at hcalls hmem
    obtain rfl : made = u.made w := by
      have h := hleft.calls.symm.trans hcalls
      simpa using h.symm
    rw [hleft.current] at hmem
    have hfresh : w.paused = false := by
      by_contra hpaused
      rw [Bool.not_eq_false] at hpaused
      simp [Use.made,hpaused] at hmem
    refine ⟨hfresh,?_,?_⟩
    · simp only [Use.made,hfresh,Bool.false_eq_true,if_false,List.mem_singleton,Call.pause.injEq]
        at hmem
      exact hmem.symm
    · intro hne e he
      obtain ⟨f,hf⟩ := Option.ne_none_iff_exists'.mp hne
      by_contra hbase
      rw [Bool.not_eq_true] at hbase
      have hraised := hentered f hf
      rw [huse] at hraised
      simp only [Use.raised,hf,Use.exitError,hfresh,he,Bool.false_eq_true,if_false,Option.map_some]
        at hraised
      simp only [outcome,Option.filter,hbase,Bool.not_false,if_true,Option.some_or,
        Except.error.injEq] at hraised
      exact enterError_origin hf (hraised ▸ rfl)
  · rintro ⟨hfresh,hfollows,huninterrupted⟩
    refine ⟨⟨u.made w,?_,?_⟩,?_,?_⟩
    · rw [huse]
      exact hleft.calls
    · rw [huse,hleft.current]
      simp [Use.made,hfresh,hfollows]
    · intro f hf
      rw [huse]
      simp only [Use.raised,hf,Use.exitError,hfresh,Bool.false_eq_true,if_false]
      cases hpause : u.pauseError w with
      | none => rfl
      | some e =>
        simp [outcome,Option.filter,huninterrupted (by simp [hf]) e hpause]
    · intro hf e he
      rw [huse]
      simp only [Use.raised,hf,Use.exitError,hfresh,Bool.false_eq_true,if_false,he]
      cases hpause : u.pauseError w with
      | none => exact Or.inl rfl
      | some e' => exact Or.inr ⟨e',rfl,rfl⟩

/-- A new session over a provider with that instance id. -/
def World.new (instanceId current : String) (skipHealth : Bool) : World :=
  ⟨instanceId,[],skipHealth,none,false,current,[]⟩

/-- The session after a sequence of uses. -/
def useAll (w : World) (uses : List Use) : World :=
  uses.foldl (fun w u => (exec (GpuSession.use u) w).2) w

/-- The flag is up as soon as one pause of the provider has returned. -/
theorem useAll_paused (w : World) (uses : List Use) : (useAll w uses).paused = true ↔
    w.paused = true ∨ ∃ before u after, uses = before ++ u::after ∧
      u.pauseError (useAll w before) = none := by
  induction uses generalizing w with
  | nil => simp [useAll]
  | cons u uses ih =>
    obtain ⟨t,huse,hleft⟩ := exec_use u w
    have hstep : (exec (GpuSession.use u) w).2 = t := by rw [huse]
    change (useAll (exec (GpuSession.use u) w).2 uses).paused = true ↔ _
    rw [ih,hstep,hleft.paused,Bool.or_eq_true,Option.isNone_iff_eq_none,or_assoc]
    refine or_congr_right ?_
    constructor
    · rintro (hpause | ⟨before,u',after,rfl,hpause⟩)
      · exact ⟨[],u,uses,rfl,hpause⟩
      · refine ⟨u::before,u',after,rfl,?_⟩
        change u'.pauseError (useAll (exec (GpuSession.use u) w).2 before) = none
        rw [hstep]
        exact hpause
    · rintro ⟨before,u',after,heq,hpause⟩
      cases before with
      | nil =>
        obtain ⟨rfl,rfl⟩ := List.cons.inj heq
        exact Or.inl hpause
      | cons b before =>
        obtain ⟨rfl,rfl⟩ := List.cons.inj heq
        change u'.pauseError (useAll (exec (GpuSession.use u) w).2 before) = none at hpause
        rw [hstep] at hpause
        exact Or.inr ⟨before,u',after,rfl,hpause⟩

/-- In every sequence of uses of one session, a use keeps the promise exactly when no earlier pause
has returned, the provider knows the id after the resume, and no pause after a failed enter is
interrupted. -/
theorem use_kept_iff (instanceId current : String) (skipHealth : Bool) (before : List Use)
    (u : Use) : Kept u (useAll (.new instanceId current skipHealth) before) ↔
      Sound u (useAll (.new instanceId current skipHealth) before) :=
  kept_iff u _

/-- A use in which nothing fails. -/
def smooth : Use where
  found := .ok ⟨"4711","Paused",[]⟩
  resumed := .ok "4712"
  discovered := .ok ⟨"4712","Running",["https://gpu:11434"]⟩
  probe _ := some .ollama
  polled := none
  body := none
  paused := none

/-- The second use of a session leaves the instance running. -/
theorem second_use_leaks : ¬ ∀ instanceId current skipHealth before u,
    Kept u (useAll (.new instanceId current skipHealth) before) := by
  intro h
  obtain ⟨made,hcalls,hmem⟩ := (h "4711" "4711" false [smooth] smooth).attempted
  have hmade : (exec (GpuSession.use smooth) (useAll (.new "4711" "4711" false) [smooth])).2.calls =
      (useAll (.new "4711" "4711" false) [smooth]).calls ++ [.resume] := by decide +kernel
  rw [hmade] at hcalls
  obtain rfl : made = [] := by simpa using hcalls.symm
  cases hmem

end AtlasCompliance.Infra
