import AtlasCompliance.Agents.Runner

/-! Human-in-the-loop safety: in every run whose calls do not overlap, with calls killed anywhere,
the governed tool is called only by a resume that approved what its run proposed. -/
namespace AtlasCompliance.Agents
open Python McpTools History

variable {κ F : Type} {cfg : Config F}

/-- Calls of one run are serialised: one begins only when no other one is in flight. -/
def Serialised (a : Agent κ F) : Action κ → Prop
  | .start _ run _ _ _ _ | .resume _ run _ => ∀ c, ∀ call ∈ a.calls c, call.run ≠ run
  | .get _ | .advance _ _ | .save _ | .kill _ => True

instance [Fintype κ] (a : Agent κ F) : (act : Action κ) → Decidable (Serialised a act)
  | .start _ run _ _ _ _ | .resume _ run _ =>
    inferInstanceAs (Decidable (∀ c, ∀ call ∈ a.calls c, call.run ≠ run))
  | .get _ | .advance _ _ | .save _ | .kill _ => isTrue trivial

/-- The run queried the Gateway with this bearer. -/
def Queried (log : List (Entry κ F)) (run bearer : String) : Prop :=
  ∃ c q k, ⟨c,run,.did (.effect (.query q k bearer))⟩ ∈ log

/-- A checkpoint of a run: its state belongs to the run and its place in the graph. -/
structure Sound (cfg : Config F) (a : Agent κ F) (run : String) (cp : Checkpoint F) : Prop where
  runId : cp.values.runId = run
  caller : jwtSub cfg.py cp.values.bearer = .ok cp.values.caller
  bearer : a.bearers run = some cp.values.bearer
  place : ∀ n, cp.next = some n → cp.values.At n
  queried : ∀ n, cp.next = some n → n.height ≤ 4 → Queried a.log run cp.values.bearer

/-- The call is a resume that found the run paused at the approval gate and answered the gate's
question with an approval. -/
structure Approved (log : List (Entry κ F)) (c : κ) (run : String) (snapshot : Checkpoint F)
    (decision : Payload) : Prop where
  arrived : ⟨c,run,.arrived decision⟩ ∈ log
  checked : ⟨c,run,.checked snapshot⟩ ∈ log
  paused : snapshot.next = some .approve
  answered : ⟨c,run,.did (.answered (approveQuestion snapshot.values) decision)⟩ ∈ log
  approved : truthy decision.approved = true

/-- What holds of a call where it is. -/
def CallOk (cfg : Config F) (a : Agent κ F) (c : κ) (call : Call F) : Prop :=
  match call.pc with
  | .check payload => ⟨c,call.run,.arrived payload⟩ ∈ a.log
  | .load payload => ⟨c,call.run,.arrived payload⟩ ∈ a.log ∧ ∃ cp, a.store call.run = some cp ∧
      cp.resumable = true ∧ ⟨c,call.run,.checked cp⟩ ∈ a.log
  | .loop cp resume unsaved _ => Sound cfg a call.run cp ∧
      (∀ u ∈ unsaved, Sound cfg a call.run u) ∧
      (∀ payload, resume = some payload → ⟨c,call.run,.arrived payload⟩ ∈ a.log ∧
        ⟨c,call.run,.checked cp⟩ ∈ a.log ∧ cp.resumable = true) ∧
      (resume = none → cp.next = some .act_sar → ∃ snapshot decision,
        Approved a.log c call.run snapshot decision ∧
        cp.values.proposedAction = snapshot.values.proposedAction)
  | .ending unsaved _ => ∀ u ∈ unsaved, Sound cfg a call.run u

/-- A call of the tool goes back to an approval by the same resume, and passes on what the run
proposed there, with a token just minted for the run's caller. -/
def WriteOk (pre : List (Entry κ F)) (e : Entry κ F) : Prop :=
  ∀ bearer runId args draft, e.event = .did (.effect (.openDraftSar bearer runId args draft)) →
    ∃ snapshot decision proposed, Approved pre e.call e.run snapshot decision ∧
      snapshot.values.proposedAction = some proposed ∧ args = proposed.args ∧ runId = e.run ∧
      ⟨e.call,e.run,.did (.effect (.mint snapshot.values.caller (some bearer)))⟩ ∈ pre ∧
      Queried pre e.run snapshot.values.bearer

/-- The invariant of serialised runs. -/
structure Inv (cfg : Config F) (a : Agent κ F) : Prop where
  store : ∀ run cp, a.store run = some cp → Sound cfg a run cp
  calls : ∀ c call, a.calls c = some call → CallOk cfg a c call
  single : ∀ c d call other, a.calls c = some call → a.calls d = some other →
    call.run = other.run → c = d
  checked : ∀ c run cp, ⟨c,run,.checked cp⟩ ∈ a.log → Sound cfg a run cp
  queries : ∀ c run q k bearer, ⟨c,run,.did (.effect (.query q k bearer))⟩ ∈ a.log →
    a.bearers run = some bearer
  writes : Follows WriteOk a.log

/-- What a run's bearers and record only gain. -/
structure Extends (a b : Agent κ F) : Prop where
  bearers : ∀ run bearer, a.bearers run = some bearer → b.bearers run = some bearer
  log : a.log ⊆ b.log

section Mono
variable {a b : Agent κ F} {c : κ} {run bearer : String} {cp snapshot : Checkpoint F}
variable {log log' : List (Entry κ F)} {decision : Payload} {call : Call F}

theorem Queried.mono (h : Queried log run bearer) (hsub : log ⊆ log') : Queried log' run bearer := by
  obtain ⟨c,q,k,hm⟩ := h
  exact ⟨c,q,k,hsub hm⟩

theorem Sound.mono (h : Sound cfg a run cp) (hext : Extends a b) : Sound cfg b run cp :=
  ⟨h.runId,h.caller,hext.bearers _ _ h.bearer,h.place,
    fun n hn hk => (h.queried n hn hk).mono hext.log⟩

theorem Approved.mono (h : Approved log c run snapshot decision) (hsub : log ⊆ log') :
    Approved log' c run snapshot decision :=
  ⟨hsub h.arrived,hsub h.checked,h.paused,hsub h.answered,h.approved⟩

theorem CallOk.mono (h : CallOk cfg a c call) (hext : Extends a b)
    (hstore : b.store call.run = a.store call.run) : CallOk cfg b c call := by
  obtain ⟨run,pc⟩ := call
  cases pc with
  | check payload => exact hext.log h
  | load payload =>
    obtain ⟨harr,cp,hs,hr,hc⟩ := h
    exact ⟨hext.log harr,cp,hstore.trans hs,hr,hext.log hc⟩
  | loop cp resume unsaved fuel =>
    obtain ⟨hcp,hu,hres,hact⟩ := h
    refine ⟨hcp.mono hext,fun u hm => (hu u hm).mono hext,fun p hp => ?_,fun hn ha => ?_⟩
    · obtain ⟨harr,hc,hr⟩ := hres p hp
      exact ⟨hext.log harr,hext.log hc,hr⟩
    · obtain ⟨snapshot,decision,happ,hprop⟩ := hact hn ha
      exact ⟨snapshot,decision,happ.mono hext.log,hprop⟩
  | ending unsaved raised => exact fun u hm => (h u hm).mono hext

theorem CallOk.unsaved (h : CallOk cfg a c call) : ∀ u ∈ call.pc.unsaved, Sound cfg a call.run u := by
  obtain ⟨run,pc⟩ := call
  cases pc with
  | check payload | load payload => simp [Pc.unsaved]
  | loop cp resume unsaved fuel => exact h.2.1
  | ending unsaved raised => exact h

/-- A call goes on after saving a checkpoint. -/
theorem CallOk.wrote {pc : Pc F} {first : Checkpoint F} {rest : List (Checkpoint F)}
    (h : CallOk cfg a c ⟨run,pc⟩) (hext : Extends a b) (hu : pc.unsaved = first::rest) :
    CallOk cfg b c ⟨run,pc.wrote rest⟩ := by
  have hrest : ∀ u ∈ rest, Sound cfg b run u :=
    fun u hm => (h.unsaved u (hu ▸ List.mem_cons_of_mem first hm)).mono hext
  cases pc with
  | check payload | load payload => cases hu
  | loop cp resume unsaved fuel =>
    obtain ⟨hcp,-,hres,hact⟩ := h.mono (b := { b with store := a.store }) ⟨hext.bearers,hext.log⟩ rfl
    exact ⟨hcp.mono ⟨fun _ _ hb => hb,fun _ hm => hm⟩,hrest,hres,hact⟩
  | ending unsaved raised => exact hrest

/-- Two checkpoints of one run agree on its bearer and its caller. -/
theorem Sound.agree (h : Sound cfg a run cp) (h' : Sound cfg a run snapshot) :
    cp.values.bearer = snapshot.values.bearer ∧ cp.values.caller = snapshot.values.caller := by
  have hb : cp.values.bearer = snapshot.values.bearer :=
    Option.some.inj (h.bearer.symm.trans h'.bearer)
  have hc := h.caller
  rw [hb,h'.caller] at hc
  exact ⟨hb,(Except.ok.inj hc).symm⟩

end Mono

/-- An entry that is no call of the tool is fine after any record. -/
theorem WriteOk.of_ne {pre : List (Entry κ F)} {e : Entry κ F}
    (h : ∀ bearer runId args draft, e.event ≠ .did (.effect (.openDraftSar bearer runId args draft))) :
    WriteOk pre e :=
  fun bearer runId args draft he => absurd he (h bearer runId args draft)

namespace Inv
variable {a b : Agent κ F} {c : κ} {run : String} {o : Option (Call F)} {l : List (Event F)}

theorem init : Inv cfg (Agent.init : Agent κ F) where
  store := by simp [Agent.init]
  calls := by simp [Agent.init]
  single := by simp [Agent.init]
  checked := by simp [Agent.init]
  queries := by simp [Agent.init]
  writes := follows_nil

/-- The other calls are of other runs. -/
theorem alone (h : Inv cfg a) {call : Call F} (hcall : a.calls c = some call) (d : κ) (other : Call F)
    (hdc : d ≠ c) (hd : a.calls d = some other) : other.run ≠ call.run :=
  fun hr => hdc (h.single d c other call hd hcall hr)

/-- The checkpoint after a node. -/
theorem sound_node [LinearOrder F] {outside : Outside} {resume : Option Payload} {cp : Checkpoint F} {n : Node}
    {t : AgentState F} {steps : List Step} (hcp : Sound cfg a run cp) (hn : cp.next = some n)
    (hexec : n.exec cfg outside resume cp.values = (.returned t,steps)) (hext : Extends a b)
    (hlog : b.log = a.log ++ (steps.map Event.did).map fun e => ⟨c,run,e⟩) :
    Sound cfg b run ⟨t,n.successor t⟩ := by
  have hinput := Node.exec_input hexec
  simp only [AgentState.input,RunInput.mk.injEq] at hinput
  obtain ⟨-,-,-,hbearer,hrunId,hcaller⟩ := hinput
  refine ⟨hrunId.trans hcp.runId,by simpa [hbearer,hcaller] using hcp.caller,
    hext.bearers _ _ (by simpa [hbearer] using hcp.bearer),
    fun m hm => Node.exec_at hexec (hcp.place n hn) hm,fun m hm hk => ?_⟩
  have hlt := Node.height_successor hm
  by_cases hk' : n.height ≤ 4
  · simpa [hbearer] using (hcp.queried n hn hk').mono hext.log
  · cases n with
    | planner => cases hm; simp [Node.height] at hk
    | retrieve =>
      obtain rfl := (Prod.mk.inj hexec).2
      refine ⟨c,cp.values.query,cfg.topK,?_⟩
      rw [hlog,hbearer]
      simp
    | assess | clarify | approve | act_sar | rejected | finalize => simp [Node.height] at hk'

/-- What a node did goes back to the call's approval. -/
theorem writes_node {resume : Option Payload} {cp : Checkpoint F} {n : Node}
    {unsaved : List (Checkpoint F)} {fuel : ℕ} {steps : List Step} (h : Inv cfg a)
    (hok : CallOk cfg a c ⟨run,.loop cp resume unsaved fuel⟩) (hn : cp.next = some n)
    (hdid : Did cfg cp.values resume n steps) :
    Follows (fun pre e => WriteOk (a.log ++ pre) e)
      ((steps.map Event.did).map fun e => (⟨c,run,e⟩ : Entry κ F)) := by
  obtain ⟨hcp,-,hres,hact⟩ := hok
  cases hdid with
  | nothing => exact follows_nil
  | query | approved | clarified => exact .of_forall (by simp [WriteOk])
  | @acted proposed t effects hp hspec =>
    have hresume : resume = none := by
      cases resume with
      | none => rfl
      | some payload => simpa [Checkpoint.resumable,hn] using (hres payload rfl).2.2
    obtain ⟨snapshot,decision,happ,hprop⟩ := hact hresume hn
    obtain ⟨hbearer,hcaller⟩ := hcp.agree (h.checked _ _ _ happ.checked)
    rw [List.map_map,List.map_map]
    refine hspec.calls.map fun pre e he bearer runId args draft hw => ?_
    obtain ⟨hmint,hrunId,hargs⟩ := he bearer runId args draft (by simpa using hw)
    refine ⟨snapshot,decision,proposed,happ.mono (List.subset_append_left _ _),hprop ▸ hp,hargs,
      hrunId.trans hcp.runId,?_,?_⟩
    · refine List.mem_append_right _ (List.mem_map.mpr ⟨_,hmint,?_⟩)
      simp [hcaller]
    · exact hbearer ▸ (hcp.queried _ hn (by decide)).mono (List.subset_append_left _ _)

variable [DecidableEq κ]

/-- A step of the only call of a run, in what it changes. -/
theorem move (h : Inv cfg a) (hext : Extends a b) (hcalls : b.calls = Function.update a.calls c o)
    (hlog : b.log = a.log ++ l.map fun e => ⟨c,run,e⟩)
    (hstore : ∀ r, r ≠ run → b.store r = a.store r)
    (halone : ∀ d other, d ≠ c → a.calls d = some other → other.run ≠ run)
    (hsaved : ∀ cp, b.store run = some cp → Sound cfg b run cp)
    (hnew : ∀ call, o = some call → call.run = run ∧ CallOk cfg b c call)
    (hchecked : ∀ cp, .checked cp ∈ l → Sound cfg b run cp)
    (hqueries : ∀ q k bearer, .did (.effect (.query q k bearer)) ∈ l →
      b.bearers run = some bearer)
    (hwrites : Follows (fun pre e => WriteOk (a.log ++ pre) e)
      (l.map fun e => (⟨c,run,e⟩ : Entry κ F))) : Inv cfg b where
  store r cp hs := by
    by_cases hr : r = run
    · exact hr ▸ hsaved cp (hr ▸ hs)
    · exact (h.store r cp (hstore r hr ▸ hs)).mono hext
  calls d call hd := by
    rw [hcalls] at hd
    by_cases hdc : d = c
    · subst hdc
      rw [Function.update_self] at hd
      exact (hnew call hd).2
    · rw [Function.update_of_ne hdc] at hd
      exact (h.calls d call hd).mono hext (hstore _ (halone d call hdc hd))
  single d d' call other hd hd' hrun := by
    rw [hcalls] at hd hd'
    by_cases hdc : d = c <;> by_cases hdc' : d' = c
    · exact hdc.trans hdc'.symm
    · subst hdc
      rw [Function.update_self] at hd
      rw [Function.update_of_ne hdc'] at hd'
      exact absurd (hrun.symm.trans (hnew call hd).1) (halone d' other hdc' hd')
    · subst hdc'
      rw [Function.update_self] at hd'
      rw [Function.update_of_ne hdc] at hd
      exact absurd (hrun.trans (hnew other hd').1) (halone d call hdc hd)
    · rw [Function.update_of_ne hdc] at hd
      rw [Function.update_of_ne hdc'] at hd'
      exact h.single d d' call other hd hd' hrun
  checked d r cp hm := by
    rw [hlog] at hm
    rcases List.mem_append.mp hm with hm | hm
    · exact (h.checked d r cp hm).mono hext
    · obtain ⟨e,he,heq⟩ := List.mem_map.mp hm
      cases heq
      exact hchecked cp he
  queries d r q k bearer hm := by
    rw [hlog] at hm
    rcases List.mem_append.mp hm with hm | hm
    · exact hext.bearers _ _ (h.queries d r q k bearer hm)
    · obtain ⟨e,he,heq⟩ := List.mem_map.mp hm
      cases heq
      exact hqueries q k bearer he
  writes := hlog ▸ h.writes.append hwrites

/-- A step that changes neither the store nor the runs' bearers, and calls no service. -/
theorem quiet (h : Inv cfg a) (hcalls : b.calls = Function.update a.calls c o)
    (hlog : b.log = a.log ++ l.map fun e => ⟨c,run,e⟩) (hstore : b.store = a.store)
    (hbearers : b.bearers = a.bearers)
    (halone : ∀ d other, d ≠ c → a.calls d = some other → other.run ≠ run)
    (hnew : Extends a b → ∀ call, o = some call → call.run = run ∧ CallOk cfg b c call)
    (hes : ∀ e ∈ l, (∀ cp, e = .checked cp → a.store run = some cp) ∧
      ∀ effect, e ≠ .did (.effect effect)) : Inv cfg b := by
  have hext : Extends a b := ⟨fun _ _ hb => hbearers ▸ hb,hlog ▸ List.subset_append_left _ _⟩
  refine h.move hext hcalls hlog (fun r _ => by rw [hstore]) halone
    (fun cp hs => (h.store run cp (hstore ▸ hs)).mono hext) (hnew hext) ?_ ?_ ?_
  · exact fun cp hm => (h.store run cp ((hes _ hm).1 cp rfl)).mono hext
  · exact fun q k bearer hm => absurd rfl ((hes _ hm).2 _)
  · refine .of_forall fun e he pre => ?_
    obtain ⟨ev,hev,rfl⟩ := List.mem_map.mp he
    exact .of_ne fun bearer runId args draft => (hes ev hev).2 _

/-- A run begins. -/
theorem launch (h : Inv cfg a) {input : AgentState F} {bearer : String}
    (hrun : a.bearers input.runId = none) (hsub : jwtSub cfg.py input.bearer = .ok input.caller)
    (hbearer : input.bearer = bearer) (htrace : input.trace = [])
    (halone : ∀ d other, a.calls d = some other → other.run ≠ input.runId) :
    Inv cfg (a.launch cfg c bearer input) := by
  have hself : (a.launch cfg c bearer input).bearers input.runId = some bearer :=
    Function.update_self _ _ _
  have hcp : Sound cfg (a.launch cfg c bearer input) input.runId ⟨input,some .planner⟩ := by
    refine ⟨rfl,hsub,by rw [hself,hbearer],fun n hn => ?_,fun n hn hk => ?_⟩
    · cases hn
      exact htrace
    · cases hn
      simp [Node.height] at hk
  refine h.move (l := []) ⟨fun r br hr => ?_,fun _ hm => hm⟩ rfl (List.append_nil _).symm
    (fun _ _ => rfl) (fun d other _ hd => halone d other hd) (fun cp hs => ?_) ?_ (by simp) (by simp)
    follows_nil
  · rw [← hr]
    refine Function.update_of_ne (fun he => ?_) _ _
    rw [he,hrun] at hr
    cases hr
  · have hb := (h.store _ cp hs).bearer
    rw [hrun] at hb
    cases hb
  · intro call hcall
    cases hcall
    exact ⟨rfl,hcp,by simpa using hcp,by simp,by simp⟩

/-- A node that returns, stops at its interrupt or raises. -/
theorem node {resume : Option Payload} {cp : Checkpoint F} {n : Node}
    {unsaved : List (Checkpoint F)} {fuel : ℕ} {steps : List Step} {pc : Pc F} (h : Inv cfg a)
    (hcall : a.calls c = some ⟨run,.loop cp resume unsaved fuel⟩) (hn : cp.next = some n)
    (hdid : Did cfg cp.values resume n steps)
    (hnew : Extends a ((a.perform c run steps).goto c run pc) →
      CallOk cfg ((a.perform c run steps).goto c run pc) c ⟨run,pc⟩) :
    Inv cfg ((a.perform c run steps).goto c run pc) := by
  have hok := h.calls c _ hcall
  have hext : Extends a ((a.perform c run steps).goto c run pc) :=
    ⟨fun _ _ hb => hb,List.subset_append_left _ _⟩
  refine h.move (l := steps.map .did) hext rfl rfl (fun _ _ => rfl) (h.alone hcall)
    (fun cp hs => (h.store run cp hs).mono hext) ?_ (by simp) ?_ (h.writes_node hok hn hdid)
  · intro call hcall'
    cases hcall'
    exact ⟨rfl,hnew hext⟩
  · intro q k bearer hm
    obtain ⟨st,hst,he⟩ := List.mem_map.mp hm
    cases he
    cases hdid with
    | query =>
      cases List.mem_singleton.mp hst
      exact hok.1.bearer
    | nothing => simp at hst
    | approved | clarified => simp at hst
    | acted hp hspec =>
      obtain ⟨e,he,heq⟩ := List.mem_map.mp hst
      cases heq
      exact absurd he (hspec.queries _ _ _)

/-- The invariant is kept by every step of a serialised run. -/
theorem step [LinearOrder F] {act : Action κ} (h : Inv cfg a) (hg : Serialised a act)
    (hstep : a.step cfg act = some b) : Inv cfg b := by
  cases Agent.step_moves hstep with
  | start hc hrun hsub => exact h.launch hrun hsub rfl rfl hg
  | arrive hc =>
    refine h.quiet (o := some _) (l := [_]) rfl rfl rfl rfl (fun d other _ hd => hg d other hd)
      ?_ (by simp)
    intro _ call hcall
    cases hcall
    exact ⟨rfl,List.mem_append_right _ (List.mem_singleton_self _)⟩
  | get => exact h
  | @leave c _ call events hcall hpc hevents =>
    refine h.quiet (o := none) rfl rfl rfl rfl (h.alone hcall) (fun _ => by simp) fun e he => ?_
    rcases hevents e he with ⟨st,rfl⟩ | ⟨cp,_,rfl,-,hs⟩
    · simp
    · exact ⟨fun cp' he' => by cases he'; exact hs,by simp⟩
  | @kill c call hcall =>
    exact h.quiet (o := none) (l := []) rfl (List.append_nil _).symm rfl rfl
      (h.alone hcall) (fun _ => by simp) (by simp)
  | @check c _ run payload cp hcall hs hr =>
    have hok := h.calls c _ hcall
    refine h.quiet (o := some _) (l := [_]) rfl rfl rfl rfl (h.alone hcall) ?_ (by simpa using hs)
    intro _ call hcall'
    cases hcall'
    exact ⟨rfl,List.mem_append_left _ hok,cp,hs,hr,List.mem_append_right _ (by simp)⟩
  | @load c _ run payload cp hcall hs =>
    obtain ⟨harr,cp',hs',hr,hchecked⟩ := h.calls c _ hcall
    cases hs.symm.trans hs'
    refine h.quiet (o := some _) (l := []) rfl (List.append_nil _).symm rfl rfl (h.alone hcall)
      ?_ (by simp)
    intro hext call hcall'
    cases hcall'
    refine ⟨rfl,(h.store run cp hs).mono hext,by simp,?_,by simp⟩
    intro p hp
    cases hp
    exact ⟨harr,hchecked,hr⟩
  | @node c outside run cp resume unsaved fuel n t steps hcall hn hexec =>
    obtain ⟨hcp,hu,hres,-⟩ := h.calls c _ hcall
    refine h.node hcall hn (Node.exec_did (congrArg Prod.snd hexec)) fun hext => ?_
    have hcp' := sound_node (b := (a.perform c run steps).goto c run _) hcp hn hexec hext rfl
    refine ⟨hcp',?_,by simp,fun _ hact => ?_⟩
    · intro u hm
      rcases List.mem_append.mp hm with hm | hm
      · exact (hu u hm).mono hext
      · exact List.mem_singleton.mp hm ▸ hcp'
    · obtain ⟨rfl,decision,hdec,happ,hprop,rfl⟩ := Node.exec_act_sar hexec hact
      obtain ⟨harr,hchecked,-⟩ := hres decision hdec
      exact ⟨cp,decision,⟨hext.log harr,hext.log hchecked,hn,
        List.mem_append_right _ (by simp),happ⟩,hprop⟩
  | @stop c outside run cp resume unsaved fuel steps raised hcall hstop =>
    obtain ⟨hcp,hu,-,-⟩ := h.calls c _ hcall
    rcases hstop with ⟨-,rfl⟩ | ⟨n,hn,hexec,-⟩
    · rw [Agent.perform_nil]
      refine h.quiet (o := some _) (l := []) rfl (List.append_nil _).symm rfl rfl (h.alone hcall)
        ?_ (by simp)
      intro hext call hcall'
      cases hcall'
      exact ⟨rfl,fun u hm => (hu u hm).mono hext⟩
    · exact h.node hcall hn (Node.exec_did hexec) fun hext u hm => (hu u hm).mono hext
  | @save c run pc first rest hcall hu =>
    have hok := h.calls c _ hcall
    have hext : Extends a ({ a with store := Function.update a.store run (some first) }.goto c run
      (pc.wrote rest)) := ⟨fun _ _ hb => hb,fun _ hm => hm⟩
    have hsaved := hok.unsaved first (hu ▸ List.mem_cons_self)
    refine h.move (o := some _) (l := []) hext rfl (List.append_nil _).symm
      (fun r hr => Function.update_of_ne hr _ _) (h.alone hcall) ?_ ?_ (by simp) (by simp) follows_nil
    · intro cp hs
      obtain rfl : first = cp := by simpa [Agent.goto,Agent.setCall] using hs
      exact hsaved.mono hext
    · intro call hcall'
      cases hcall'
      exact ⟨rfl,hok.wrote hext hu⟩

end Inv

/-- A call is about one run, arrives once and checks one snapshot. -/
structure Once (a : Agent κ F) : Prop where
  begun : ∀ c call, a.calls c = some call → c ∈ a.begun
  known : ∀ e ∈ a.log, e.call ∈ a.begun
  current : ∀ e ∈ a.log, ∀ call, a.calls e.call = some call → e.run = call.run
  oneRun : ∀ e ∈ a.log, ∀ e' ∈ a.log, e.call = e'.call → e.run = e'.run
  unchecked : ∀ c run payload, a.calls c = some ⟨run,.check payload⟩ →
    ∀ r cp, ⟨c,r,.checked cp⟩ ∉ a.log
  checked : ∀ c r r' cp cp', ⟨c,r,.checked cp⟩ ∈ a.log → ⟨c,r',.checked cp'⟩ ∈ a.log →
    r = r' ∧ cp = cp'
  arrived : ∀ c r r' p p', ⟨c,r,.arrived p⟩ ∈ a.log → ⟨c,r',.arrived p'⟩ ∈ a.log →
    r = r' ∧ p = p'

namespace Once
variable {a b : Agent κ F} {c : κ} {run : String} {o : Option (Call F)} {l : List (Event F)}

theorem init : Once (Agent.init : Agent κ F) where
  begun := by simp [Agent.init]
  known := by simp [Agent.init]
  current := by simp [Agent.init]
  oneRun := by simp [Agent.init]
  unchecked := by simp [Agent.init]
  checked := by simp [Agent.init]
  arrived := by simp [Agent.init]

/-- Two entries of a kind that the step's call recorded at most once, and only in this step. -/
theorem unique {α : Type} {f : α → Event F}
    (hold : ∀ c r r' x y, ⟨c,r,f x⟩ ∈ a.log → ⟨c,r',f y⟩ ∈ a.log → r = r' ∧ x = y)
    (hnone : ∀ x, f x ∈ l → ∀ r y, (⟨c,r,f y⟩ : Entry κ F) ∉ a.log)
    (hone : ∀ x y, f x ∈ l → f y ∈ l → x = y) {d : κ} {r r' : String} {x y : α}
    (hx : ⟨d,r,f x⟩ ∈ a.log ++ l.map fun e => ⟨c,run,e⟩)
    (hy : ⟨d,r',f y⟩ ∈ a.log ++ l.map fun e => ⟨c,run,e⟩) : r = r' ∧ x = y := by
  have hnew : ∀ {d : κ} {r : String} {x : α},
      ⟨d,r,f x⟩ ∈ l.map (fun e => (⟨c,run,e⟩ : Entry κ F)) → d = c ∧ r = run ∧ f x ∈ l := by
    intro d r x hm
    obtain ⟨e,he,heq⟩ := List.mem_map.mp hm
    cases heq
    exact ⟨rfl,rfl,he⟩
  rcases List.mem_append.mp hx with hxa | hxe <;> rcases List.mem_append.mp hy with hya | hye
  · exact hold _ _ _ _ _ hxa hya
  · obtain ⟨rfl,-,he⟩ := hnew hye
    exact absurd hxa (hnone y he _ _)
  · obtain ⟨rfl,-,he⟩ := hnew hxe
    exact absurd hya (hnone x he _ _)
  · obtain ⟨-,rfl,he⟩ := hnew hxe
    obtain ⟨-,rfl,he'⟩ := hnew hye
    exact ⟨rfl,hone _ _ he he'⟩

/-- The entries of the other calls are old ones. -/
theorem mem_of_ne (hlog : b.log = a.log ++ l.map fun e => ⟨c,run,e⟩) {e : Entry κ F}
    (he : e ∈ b.log) (hec : e.call ≠ c) : e ∈ a.log := by
  rw [hlog] at he
  rcases List.mem_append.mp he with he | he
  · exact he
  · obtain ⟨x,-,rfl⟩ := List.mem_map.mp he
    exact absurd rfl hec

/-- All entries of the step's call are about its run. -/
theorem ownRun (h : Once a) (hlog : b.log = a.log ++ l.map fun e => ⟨c,run,e⟩)
    (hrun : c ∈ a.begun → ∃ call, a.calls c = some call ∧ call.run = run) (e : Entry κ F)
    (he : e ∈ b.log) (hec : e.call = c) : e.run = run := by
  rw [hlog] at he
  rcases List.mem_append.mp he with hold | hnew
  · obtain ⟨call,hcall,hcr⟩ := hrun (hec ▸ h.known e hold)
    exact (h.current e hold call (hec ▸ hcall)).trans hcr
  · obtain ⟨x,-,rfl⟩ := List.mem_map.mp hnew
    rfl

variable [DecidableEq κ]

theorem move (h : Once a) (hcalls : b.calls = Function.update a.calls c o)
    (hlog : b.log = a.log ++ l.map fun e => ⟨c,run,e⟩) (hbegun : a.begun ⊆ b.begun)
    (hc : c ∈ b.begun)
    (hrun : c ∈ a.begun → ∃ call, a.calls c = some call ∧ call.run = run)
    (hcall : ∀ call, o = some call → call.run = run)
    (harrived : ∀ p, .arrived p ∈ l → c ∉ a.begun ∧ ∀ q, .arrived q ∈ l → p = q)
    (hchecked : ∀ cp, .checked cp ∈ l → (∃ payload, a.calls c = some ⟨run,.check payload⟩) ∧
      ∀ cp', .checked cp' ∈ l → cp = cp')
    (hnew : ∀ r payload, o = some ⟨r,.check payload⟩ → c ∉ a.begun ∧ ∀ cp, .checked cp ∉ l) :
    Once b where
  begun d call hd := by
    rw [hcalls] at hd
    by_cases hdc : d = c
    · exact hdc ▸ hc
    · rw [Function.update_of_ne hdc] at hd
      exact hbegun (h.begun d call hd)
  known e he := by
    rw [hlog] at he
    rcases List.mem_append.mp he with he | he
    · exact hbegun (h.known e he)
    · obtain ⟨x,-,rfl⟩ := List.mem_map.mp he
      exact hc
  current e he call hd := by
    rw [hcalls] at hd
    by_cases hec : e.call = c
    · rw [hec,Function.update_self] at hd
      exact (h.ownRun hlog hrun e he hec).trans (hcall call hd).symm
    · rw [Function.update_of_ne hec] at hd
      exact h.current e (mem_of_ne hlog he hec) call hd
  oneRun e he e' he' heq := by
    by_cases hec : e.call = c
    · rw [h.ownRun hlog hrun e he hec,h.ownRun hlog hrun e' he' (heq.symm.trans hec)]
    · exact h.oneRun e (mem_of_ne hlog he hec) e' (mem_of_ne hlog he' fun h' => hec (heq.trans h')) heq
  unchecked d r payload hd r' cp hm := by
    rw [hcalls] at hd
    rw [hlog] at hm
    by_cases hdc : d = c
    · subst hdc
      rw [Function.update_self] at hd
      obtain ⟨hfresh,hno⟩ := hnew r payload hd
      rcases List.mem_append.mp hm with hm | hm
      · exact hfresh (h.known _ hm)
      · obtain ⟨x,hx,heq⟩ := List.mem_map.mp hm
        cases heq
        exact hno cp hx
    · rw [Function.update_of_ne hdc] at hd
      rcases List.mem_append.mp hm with hm | hm
      · exact h.unchecked d r payload hd r' cp hm
      · obtain ⟨x,-,heq⟩ := List.mem_map.mp hm
        exact hdc (congrArg Entry.call heq).symm
  checked d r r' cp cp' hx hy := by
    rw [hlog] at hx hy
    refine unique (f := .checked) h.checked ?_ ?_ hx hy
    · intro x hm r y hy
      obtain ⟨payload,hcall⟩ := (hchecked x hm).1
      exact h.unchecked c run payload hcall r y hy
    · exact fun x y hx hy => (hchecked x hx).2 y hy
  arrived d r r' p q hx hy := by
    rw [hlog] at hx hy
    refine unique (f := .arrived) h.arrived ?_ ?_ hx hy
    · exact fun x hm r y hy => (harrived x hm).1 (h.known _ hy)
    · exact fun x y hx hy => (harrived x hx).2 y hy

/-- Every step keeps it, whether or not calls overlap. -/
theorem step [LinearOrder F] {cfg : Config F} {act : Action κ} (h : Once a)
    (hstep : a.step cfg act = some b) : Once b := by
  have hself : ∀ {c : κ} {call : Call F}, a.calls c = some call →
      c ∈ a.begun → ∃ call', a.calls c = some call' ∧ call'.run = call.run :=
    fun hcall _ => ⟨_,hcall,rfl⟩
  have hrun : ∀ {run : String} {pc : Pc F} (call : Call F), some ⟨run,pc⟩ = some call →
      call.run = run := fun call hc => by cases hc; rfl
  cases Agent.step_moves hstep with
  | start hc hbearer hsub =>
    exact h.move (o := some _) (l := []) rfl (List.append_nil _).symm
      (List.subset_cons_self _ _) List.mem_cons_self (fun hm => absurd hm hc) hrun (by simp) (by simp)
      (by simp)
  | arrive hc =>
    exact h.move (o := some _) (l := [_]) rfl rfl (List.subset_cons_self _ _)
      List.mem_cons_self (fun hm => absurd hm hc) hrun (by simpa using hc) (by simp) (by simpa using hc)
  | get => exact h
  | @leave c _ call events hcall hpc hevents =>
    refine h.move (o := none) rfl rfl (List.Subset.refl _) (h.begun c call hcall) (hself hcall)
      (by simp) ?_ ?_ (by simp)
    · intro p hp
      rcases hevents _ hp with ⟨_,he⟩ | ⟨_,_,he,-⟩ <;> cases he
    · intro cp hcp
      rcases hevents _ hcp with ⟨_,he⟩ | ⟨_,payload,he,hpay,hs⟩
      · cases he
      · cases he
        refine ⟨⟨payload,?_⟩,fun cp' hcp' => ?_⟩
        · rw [hcall,← hpay]
        · rcases hevents _ hcp' with ⟨_,he⟩ | ⟨_,_,he,-,hs'⟩
          · cases he
          · cases he
            exact Option.some.inj (hs.symm.trans hs')
  | @kill c call hcall =>
    exact h.move (o := none) (l := []) rfl (List.append_nil _).symm
      (List.Subset.refl _) (h.begun c call hcall) (hself hcall) (by simp) (by simp) (by simp) (by simp)
  | @check c _ run payload cp hcall hs hr =>
    exact h.move (o := some _) (l := [_]) rfl rfl (List.Subset.refl _) (h.begun c _ hcall)
      (hself hcall) hrun (by simp) (by simpa using ⟨payload,hcall⟩) (by simp)
  | @load c _ run payload cp hcall hs =>
    exact h.move (o := some _) (l := []) rfl (List.append_nil _).symm
      (List.Subset.refl _) (h.begun c _ hcall) (hself hcall) hrun (by simp) (by simp) (by simp)
  | @node c outside run cp resume unsaved fuel n t steps hcall hn hexec =>
    exact h.move (o := some _) (l := steps.map .did) rfl rfl (List.Subset.refl _)
      (h.begun c _ hcall) (hself hcall) hrun (by simp) (by simp) (by simp)
  | @stop c outside run cp resume unsaved fuel steps raised hcall hstop =>
    exact h.move (o := some _) (l := steps.map .did) rfl rfl (List.Subset.refl _)
      (h.begun c _ hcall) (hself hcall) hrun (by simp) (by simp) (by simp)
  | @save c run pc first rest hcall hu =>
    refine h.move (o := some _) (l := []) rfl (List.append_nil _).symm
      (List.Subset.refl _) (h.begun c _ hcall) (hself hcall) hrun (by simp) (by simp) ?_
    intro r payload he
    cases pc <;> simp [Pc.wrote,Pc.unsaved] at he hu

end Once

section Runs
variable [DecidableEq κ] [LinearOrder F]

/-- The governed tool is called only by a resume that found its run paused at the approval gate and
approved what the gate proposed there: with exactly that proposal, with a token just minted for the
subject of the bearer of all of the run's Gateway queries, and in a run whose way to the gate was a
breach found in the retrieved context or confirmed when the human was asked. -/
theorem approval_governs {acts : List (Action κ)} {s : Agent κ F}
    (hg : Transition.Guarded (Agent.step cfg) Serialised Agent.init acts)
    (h : Transition.run (Agent.step cfg) Agent.init acts = some s) {pre post : List (Entry κ F)}
    {c : κ} {run bearer runId : String} {args : SarArgs} {draft : Option SarDraft}
    (hw : s.log = pre ++ ⟨c,run,.did (.effect (.openDraftSar bearer runId args draft))⟩::post) :
    ∃ snapshot decision proposed citations clarified, Approved pre c run snapshot decision ∧
      (∀ r cp, ⟨c,r,.checked cp⟩ ∈ s.log → r = run ∧ cp = snapshot) ∧
      (∀ r p, ⟨c,r,.arrived p⟩ ∈ s.log → r = run ∧ p = decision) ∧
      snapshot.values.proposedAction = some proposed ∧ proposed.tool = OPEN_DRAFT_SAR ∧
      args = proposed.args ∧ runId = run ∧
      ⟨c,run,.did (.effect (.mint snapshot.values.caller (some bearer)))⟩ ∈ pre ∧
      jwtSub cfg.py snapshot.values.bearer = .ok snapshot.values.caller ∧
      Queried pre run snapshot.values.bearer ∧
      (∀ d q k b, ⟨d,run,.did (.effect (.query q k b))⟩ ∈ s.log → b = snapshot.values.bearer) ∧
      snapshot.values.trace = foundTrace citations clarified := by
  have hinv : Inv cfg s := Transition.run_guarded_invariant (I := Inv cfg)
    (fun a act b ha hg hstep => ha.step hg hstep) .init hg h
  have honce : Once s := Transition.Reachable.invariant (I := Once)
    (fun a act b ha hstep => ha.step hstep) .init ⟨acts,h⟩
  obtain ⟨snapshot,decision,proposed,happ,hprop,hargs,hrun,hmint,hquery⟩ :=
    hinv.writes pre _ post hw bearer runId args draft rfl
  have hin : pre ⊆ s.log := hw ▸ List.subset_append_left _ _
  have hsound : Sound cfg s run snapshot := hinv.checked c run snapshot (hin happ.checked)
  obtain ⟨citations,clarified,p,htrace,hp,htool⟩ := hsound.place .approve happ.paused
  obtain rfl := Option.some.inj (hp.symm.trans hprop)
  refine ⟨snapshot,decision,p,citations,clarified,happ,?_,?_,hp,htool,hargs,hrun,hmint,
    hsound.caller,hquery,?_,htrace⟩
  · exact fun r cp hm => honce.checked c r run cp snapshot hm (hin happ.checked)
  · exact fun r q hm => honce.arrived c r run q decision hm (hin happ.arrived)
  · exact fun d q k b hm =>
      Option.some.inj ((hinv.queries d run q k b hm).symm.trans hsound.bearer)

end Runs

/-- The payload part of priya's token as text and as bytes. -/
def priyaPayload : String := "\x7b\"sub\": \"priya\"\x7d"

def priyaBytes : List UInt8 :=
  [123,34,115,117,98,34,58,32,34,112,114,105,121,97,34,125]

/-- Exact numbers, and decoders that know priya's token. -/
def exactRuntime : Runtime ℚ where
  digits := asciiDigits
  float := decimal asciiDigits
  commaDotTwo := twoDecimals
  urlsafeB64decode s :=
    if s = "eyJzdWIiOiAicHJpeWEifQ==" then .ok priyaBytes else .error .valueError
  decode bytes := if bytes = priyaBytes then .ok priyaPayload else .error .valueError
  loads s := if s = priyaPayload then .ok (.obj [("sub",.str "priya")]) else .error .valueError

def exactConfig : Config ℚ := ⟨exactRuntime,10000,6,2,12⟩

def priyaBearer : String := "hdr.eyJzdWIiOiAicHJpeWEifQ.sig"

/-- A Gateway response with one citation. -/
def gatewayAnswer (answer snippet : String) : Json :=
  .obj [("answer",.str answer),("citations",.arr [.obj [("n",.num 1),("documentId",.str "l2-nw"),
    ("clearance",.str "compliance"),("snippet",.str snippet)]])]

/-- A tool call that creates a draft. -/
def draftedAttempt (draftRef : String) : Attempt where
  token := .ok "aud-tok-for-priya"
  session := .ok (some "session-1")
  call := .ok (.obj [("result",.obj [("structuredContent",
    .obj [("draftRef",.str draftRef),("status",.str "DRAFT")])])])
  draft := some ⟨draftRef,.ofEpochSecond 1782036000,"priya","compliance",""⟩
  refused := by simp

/-- The services in a run whose answer has no readable amount. -/
def ambiguousOutside : Outside :=
  ⟨.ok (gatewayAnswer "an exception was flagged; amount $ (pending)" "amount $ -"),
    fun _ => draftedAttempt "SAR-2026-000001"⟩

/-- Advance a call several times. -/
def advances {κ : Type} (c : κ) (outside : Outside) (n : ℕ) : List (Action κ) :=
  List.replicate n (.advance c outside)

/-- The calls of the sample runs: the start and two resumes. -/
def startCall : Fin 3 := 0

def firstResume : Fin 3 := 1

def secondResume : Fin 3 := 2

/-- A run that asks for clarification, is told that there was a breach, and is approved. -/
def clarifiedSchedule : List (Action (Fin 3)) :=
  [.start startCall "run_1" "aml?" "Northwind" "2026-Q2" priyaBearer] ++
  advances startCall ambiguousOutside 4 ++ List.replicate 4 (.save startCall) ++
  advances startCall ambiguousOutside 1 ++
  [.resume firstResume "run_1" ⟨.null,.null,.bool true⟩] ++ advances firstResume ambiguousOutside 4 ++
  [.save firstResume] ++ advances firstResume ambiguousOutside 1 ++
  [.resume secondResume "run_1" ⟨.bool true,.null,.null⟩] ++
  advances secondResume ambiguousOutside 5 ++
  List.replicate 2 (.save secondResume) ++ advances secondResume ambiguousOutside 1

/-- A human's answer to the clarification question. -/
def Event.isClarification {F : Type} : Event F → Bool
  | .did (.answered (.clarify _) _) => true
  | _ => false

/-- A call of the governed tool. -/
def Event.isWrite {F : Type} : Event F → Bool
  | .did (.effect (.openDraftSar _ _ _ _)) => true
  | _ => false

theorem Event.isWrite_iff {F : Type} {e : Event F} (h : e.isWrite = true) :
    ∃ bearer runId args draft, e = .did (.effect (.openDraftSar bearer runId args draft)) := by
  unfold isWrite at h
  split at h
  · exact ⟨_,_,_,_,rfl⟩
  · cases h

theorem clarifiedSchedule_guarded :
    Transition.Guarded (Agent.step exactConfig) Serialised Agent.init clarifiedSchedule := by
  decide +kernel

theorem clarifiedSchedule_log : ∃ s pre w post,
    Transition.run (Agent.step exactConfig) Agent.init clarifiedSchedule = some s ∧
    s.log = pre ++ w::post ∧ w.event.isWrite = true ∧
    ∃ e ∈ pre, e.run = w.run ∧ e.event.isClarification = true := by
  have hrun : (Transition.run (Agent.step exactConfig) Agent.init clarifiedSchedule).map
      (fun s => s.log.map fun e => (e.run,e.event.isClarification,e.event.isWrite)) =
      some ((List.replicate 4 ("run_1",false,false) ++ [("run_1",true,false)] ++
        List.replicate 5 ("run_1",false,false)) ++ [("run_1",false,true),("run_1",false,false)]) := by
    decide +kernel
  obtain ⟨s,hs,hlog⟩ := Option.map_eq_some_iff.mp hrun
  obtain ⟨pre,rest,hl,hpre,hrest⟩ := List.map_eq_append_iff.mp hlog
  obtain ⟨w,post,rfl,hw,-⟩ := List.map_eq_cons_iff.mp hrest
  have hclar : ("run_1",true,false) ∈ pre.map fun e => (e.run,e.event.isClarification,e.event.isWrite) := by
    rw [hpre]
    decide
  obtain ⟨e,he,hee⟩ := List.mem_map.mp hclar
  simp only [Prod.mk.injEq] at hw hee
  exact ⟨s,pre,w,post,hs,hl,hw.2.2,e,he,hee.1.trans hw.1.symm,hee.2.1⟩

/-- A path through the clarification gate does reach the write. -/
theorem clarified_run_writes : ∃ (acts : List (Action (Fin 3))) (s : Agent (Fin 3) ℚ),
    Transition.Guarded (Agent.step exactConfig) Serialised Agent.init acts ∧
    Transition.run (Agent.step exactConfig) Agent.init acts = some s ∧
    ∃ pre w post, s.log = pre ++ w::post ∧ w.event.isWrite = true ∧
      ∃ e ∈ pre, e.run = w.run ∧ e.event.isClarification = true := by
  obtain ⟨s,pre,w,post,hs,hrest⟩ := clarifiedSchedule_log
  exact ⟨clarifiedSchedule,s,clarifiedSchedule_guarded,hs,pre,w,post,hrest⟩

theorem approval_governs_clarifiedSchedule : ∃ (s : Agent (Fin 3) ℚ) (pre : List (Entry (Fin 3) ℚ))
    (w : Entry (Fin 3) ℚ) (snapshot : Checkpoint ℚ) (decision : Payload) (proposed : ProposedAction),
    Transition.run (Agent.step exactConfig) Agent.init clarifiedSchedule = some s ∧
    w ∈ s.log ∧ w.event.isWrite = true ∧ Approved pre w.call w.run snapshot decision ∧
    snapshot.values.proposedAction = some proposed ∧ proposed.tool = OPEN_DRAFT_SAR := by
  obtain ⟨s,pre,⟨c,run,event⟩,post,hs,hlog,hw,-⟩ := clarifiedSchedule_log
  obtain ⟨bearer,runId,args,draft,rfl⟩ := Event.isWrite_iff hw
  obtain ⟨snapshot,decision,proposed,_,_,happ,-,-,hprop,htool,-⟩ :=
    approval_governs clarifiedSchedule_guarded hs hlog
  exact ⟨s,pre,_,snapshot,decision,proposed,hs,by simp [hlog],hw,happ,hprop,htool⟩

end AtlasCompliance.Agents
