import AtlasCompliance.Agents.Approval

/-! The two gates and the one resume payload that answers both: which of its fields a gate reads, and
what a run's way through the gates says of the answers it was given. -/
namespace AtlasCompliance.Agents
open Python McpTools

variable {κ F : Type} {cfg : Config F}

/-- A field of the resume request that is neither absent nor null. -/
def given : Json → Bool
  | .bool _ => true
  | .null | .num _ | .str _ | .arr _ | .obj _ => false

theorem eq_bool_of_given {v : Json} (h : given v = true) : v = .bool (truthy v) := by
  cases v with
  | bool b => rfl
  | null | num _ | str _ | arr _ | obj _ => cases h

/-- The payload has the field that the node asks for. -/
def Node.Carries (payload : Payload) : Node → Prop
  | .approve => given payload.approved = true
  | .clarify => given payload.breach = true
  | .planner | .retrieve | .assess | .act_sar | .rejected | .finalize => True

instance (payload : Payload) : (n : Node) → Decidable (n.Carries payload)
  | .approve => inferInstanceAs (Decidable (given payload.approved = true))
  | .clarify => inferInstanceAs (Decidable (given payload.breach = true))
  | .planner | .retrieve | .assess | .act_sar | .rejected | .finalize => isTrue trivial

/-- The same of the question that the node showed. -/
def Question.Carries (payload : Payload) : Question → Prop
  | .approve _ _ _ => given payload.approved = true
  | .clarify _ => given payload.breach = true

/-- A resume value that the node due is about to read has that node's field. -/
def Pc.Carries : Pc F → Prop
  | .loop cp (some payload) _ _ => ∀ n ∈ cp.next, n.Carries payload
  | .loop _ none _ _ | .check _ | .load _ | .ending _ _ => True

instance : (pc : Pc F) → Decidable pc.Carries
  | .loop cp (some payload) _ _ => inferInstanceAs (Decidable (∀ n ∈ cp.next, n.Carries payload))
  | .loop _ none _ _ | .check _ | .load _ | .ending _ _ => isTrue trivial

/-- No gate goes on with a payload that lacks its field. -/
def Answering (a : Agent κ F) : Action κ → Prop
  | .advance c _ => ∀ call ∈ a.calls c, call.pc.Carries
  | .start _ _ _ _ _ _ | .resume _ _ _ | .get _ | .save _ | .kill _ => True

instance (a : Agent κ F) : (act : Action κ) → Decidable (Answering a act)
  | .advance c _ => inferInstanceAs (Decidable (∀ call ∈ a.calls c, call.pc.Carries))
  | .start _ _ _ _ _ _ | .resume _ _ _ | .get _ | .save _ | .kill _ => isTrue trivial

/-- Some resume of the run told the approval gate explicitly whether it approves. -/
def ToldApproval (log : List (Entry κ F)) (run : String) (approved : Bool) : Prop :=
  ∃ c proposed detail citations payload,
    ⟨c,run,.did (.answered (.approve proposed detail citations) payload)⟩ ∈ log ∧
      payload.approved = .bool approved

/-- Some resume of the run told the clarification gate explicitly whether there was a breach. -/
def ToldBreach (log : List (Entry κ F)) (run : String) (breach : Bool) : Prop :=
  ∃ c citations payload, ⟨c,run,.did (.answered (.clarify citations) payload)⟩ ∈ log ∧
    payload.breach = .bool breach

/-- What a run's trace records of a gate was told to that gate. -/
def Told (log : List (Entry κ F)) (run : String) : TraceEntry → Prop
  | .approve approved => ToldApproval log run approved
  | .clarify breach => ToldBreach log run breach
  | .planner _ | .retrieve _ | .assess _ _ | .actSar _ | .rejected | .finalize => True

/-- What a state says of the gates on the way to the node that is due, or to the end. -/
def AgentState.Passed (s : AgentState F) : Option Node → Prop
  | some .planner | some .retrieve | some .assess => s.status = none
  | some .clarify => s.status = none ∧ s.proposedAction = none
  | some .approve => s.status = none ∧ s.breach = true
  | some .act_sar => s.status = none ∧ s.breach = true ∧ .approve true ∈ s.trace
  | some .rejected => s.status = none ∧ s.breach = true ∧ .approve false ∈ s.trace
  | some .finalize => s.status = none ∧ s.breach = false ∧
      (s.ambiguous = true → .clarify false ∈ s.trace)
  | none =>
    (s.status = some .REJECTED ∧ s.breach = true ∧ .approve false ∈ s.trace) ∨
    (s.status = some .COMPLETED ∧ s.breach = false ∧ (s.ambiguous = true → .clarify false ∈ s.trace)) ∨
    ((s.status = some .COMPLETED ∨ s.status = some .FAILED) ∧ s.breach = true ∧ .approve true ∈ s.trace)

theorem AgentState.Passed.status {s : AgentState F} {n : Node} (h : s.Passed (some n)) :
    s.status = none := by
  cases n with
  | planner | retrieve | assess => exact h
  | clarify | approve | act_sar | rejected | finalize => exact h.1

/-! ### What a node adds -/

/-- How the governed call ends: with a terminal status, the finding as it was, and nothing said of a
gate. -/
structure Acted (s t : AgentState F) : Prop where
  status : t.status = some .COMPLETED ∨ t.status = some .FAILED
  breach : t.breach = s.breach
  trace : ∃ tail, t.trace = s.trace ++ tail ∧ ∀ e ∈ tail, ∃ error, e = .actSar error

theorem acted_failed (s : AgentState F) (error : CallError) : Acted s (actFailed s error) where
  status := Or.inr rfl
  breach := rfl
  trace := ⟨[.actSar none,.actSar (some error)],by simp [actFailed],by simp⟩

theorem acted_output {s t : AgentState F} {result : Json} (h : actOutput s result = .ok t) :
    Acted s t := by
  simp only [actOutput,bind_eq_ok,pure,Except.pure,Except.ok.injEq] at h
  obtain ⟨_,-,_,-,_,-,rfl⟩ := h
  exact ⟨Or.inl rfl,rfl,[.actSar none],rfl,by simp⟩

theorem acted_actLoop (py : Runtime F) (outside : ℕ → Attempt) (s : AgentState F) (args : SarArgs)
    (n i : ℕ) (lastError : Option CallError) :
    Acted s (actLoop py outside s args n i lastError).1 := by
  induction n generalizing i lastError with
  | zero => exact acted_failed s _
  | succ n ih =>
    unfold actLoop
    cases (outside i).token with
    | error e =>
      cases e with
      | connectError message => exact ih _ _
      | other message => exact acted_failed s _
    | ok token =>
      cases McpClient.openDraftSar py (outside i) with
      | error e =>
        cases e with
        | connectError message => exact ih _ _
        | http _ | mcp _ | python _ | unspecified _ => exact acted_failed s _
      | ok result =>
        cases hout : actOutput s result with
        | error e =>
          simp only [hout]
          exact acted_failed s _
        | ok t =>
          simp only [hout]
          exact acted_output hout

section Exec
variable [LinearOrder F] {outside : Outside} {resume : Option Payload} {s t : AgentState F}
variable {n : Node} {steps : List Step}

theorem acted_exec (h : Node.exec cfg outside resume s .act_sar = (.returned t,steps)) :
    Acted s t := by
  cases hp : s.proposedAction with
  | none => simp [Node.exec,actSarNode,hp] at h
  | some proposed =>
    simp only [Node.exec,actSarNode,hp,Prod.mk.injEq,NodeResult.returned.injEq] at h
    exact h.1 ▸ acted_actLoop cfg.py outside.attempt s _ _ _ _

/-- The nodes keep to what their states say of the gates. -/
theorem Node.exec_passed (h : n.exec cfg outside resume s = (.returned t,steps))
    (hs : s.Passed (some n)) : t.Passed (n.successor t) := by
  cases n with
  | planner =>
    cases h
    exact hs
  | retrieve =>
    obtain ⟨h,-⟩ := Prod.mk.inj h
    cases hg : outside.gateway with
    | error e => simp [hg] at h
    | ok resp =>
      simp only [hg,ofExcept_returned] at h
      obtain ⟨_,_,_,rfl⟩ := retrieveNode_ok h
      exact hs
  | assess =>
    obtain ⟨breach,_,_,ambiguous,proposed,rfl,-,hnone,-⟩ :=
      assessNode_ok (ofExcept_returned.mp (Prod.mk.inj h).1)
    cases breach with
    | true => exact ⟨hs,rfl⟩
    | false =>
      cases ambiguous with
      | true => exact ⟨hs,hnone rfl⟩
      | false => exact ⟨hs,rfl,by simp⟩
  | clarify =>
    cases resume with
    | none => cases h
    | some decision =>
      obtain ⟨-,rfl⟩ | ⟨-,citations,rfl⟩ := clarifyAnswer_ok (ofExcept_returned.mp (Prod.mk.inj h).1)
      · simp [successor,clarifyBranch,hs.2,AgentState.Passed,hs.1]
      · exact ⟨hs.1,rfl⟩
  | approve =>
    cases resume with
    | none => cases h
    | some decision =>
      cases h
      cases ha : truthy decision.approved with
      | true => simp [successor,approvalBranch,ha,AgentState.Passed,hs.1,hs.2]
      | false => simp [successor,approvalBranch,ha,AgentState.Passed,hs.1,hs.2]
  | act_sar =>
    have hacted := acted_exec h
    obtain ⟨tail,htrace,-⟩ := hacted.trace
    refine Or.inr (Or.inr ⟨hacted.status,hacted.breach.trans hs.2.1,?_⟩)
    rw [htrace]
    exact List.mem_append_left tail hs.2.2
  | rejected =>
    cases h
    exact Or.inl ⟨rfl,hs.2.1,List.mem_append_left _ hs.2.2⟩
  | finalize =>
    cases h
    exact Or.inr (Or.inl ⟨rfl,hs.2.1,fun ha => List.mem_append_left _ (hs.2.2 ha)⟩)

/-- What a node adds to the trace of a gate was told to that gate, if the payload had its field. -/
theorem Node.exec_told {log : List (Entry κ F)} {c : κ} {run : String}
    (h : n.exec cfg outside resume s = (.returned t,steps)) (hs : ∀ e ∈ s.trace, Told log run e)
    (hsteps : ∀ x ∈ steps, ⟨c,run,.did x⟩ ∈ log)
    (hcarries : ∀ payload, resume = some payload → n.Carries payload) :
    ∀ e ∈ t.trace, Told log run e := by
  have hmore : ∀ {tail : List TraceEntry}, t.trace = s.trace ++ tail →
      (∀ e ∈ tail, Told log run e) → ∀ e ∈ t.trace, Told log run e := by
    intro tail htrace htail e he
    rw [htrace] at he
    exact (List.mem_append.mp he).elim (hs e) (htail e)
  cases n with
  | planner | rejected | finalize =>
    cases h
    exact hmore rfl (by simp [Told])
  | retrieve =>
    obtain ⟨h,-⟩ := Prod.mk.inj h
    cases hg : outside.gateway with
    | error e => simp [hg] at h
    | ok resp =>
      simp only [hg,ofExcept_returned] at h
      obtain ⟨_,_,_,rfl⟩ := retrieveNode_ok h
      exact hmore rfl (by simp [Told])
  | assess =>
    obtain ⟨_,_,_,_,_,rfl,-⟩ := assessNode_ok (ofExcept_returned.mp (Prod.mk.inj h).1)
    exact hmore rfl (by simp [Told])
  | clarify =>
    cases resume with
    | none => cases h
    | some decision =>
      have hgiven : decision.breach = .bool (truthy decision.breach) :=
        eq_bool_of_given (hcarries decision rfl)
      obtain ⟨hanswer,hdid⟩ := Prod.mk.inj h
      have htold : ToldBreach log run (truthy decision.breach) :=
        ⟨c,_,decision,hsteps _ (hdid ▸ List.mem_cons_self),hgiven⟩
      obtain ⟨hb,rfl⟩ | ⟨hb,_,rfl⟩ := clarifyAnswer_ok (ofExcept_returned.mp hanswer)
      · exact hmore rfl (by simpa [Told,hb] using htold)
      · exact hmore rfl (by simpa [Told,hb] using htold)
  | approve =>
    cases resume with
    | none => cases h
    | some decision =>
      have hgiven : decision.approved = .bool (truthy decision.approved) :=
        eq_bool_of_given (hcarries decision rfl)
      cases h
      refine hmore rfl ?_
      simp only [List.mem_singleton,forall_eq]
      exact ⟨c,_,_,_,decision,hsteps _ List.mem_cons_self,hgiven⟩
  | act_sar =>
    obtain ⟨tail,htrace,htail⟩ := (acted_exec h).trace
    refine hmore htrace fun e he => ?_
    obtain ⟨error,rfl⟩ := htail e he
    trivial

/-- Every question that a node had answered was answered by its own field. -/
theorem Node.exec_carries (h : (n.exec cfg outside resume s).2 = steps)
    (hcarries : ∀ payload, resume = some payload → n.Carries payload) {q : Question}
    {payload : Payload} (hq : .answered q payload ∈ steps) : q.Carries payload := by
  cases Node.exec_did h with
  | nothing => cases hq
  | query => simp at hq
  | approved hr =>
    obtain ⟨rfl,rfl⟩ : q = _ ∧ payload = _ := by simpa using hq
    exact hcarries _ hr
  | clarified hr =>
    obtain ⟨rfl,rfl⟩ : q = _ ∧ payload = _ := by simpa using hq
    exact hcarries _ hr
  | acted => simp at hq

/-- Without its field a payload does not leave a gate waiting: the run goes to its end. -/
theorem Node.exec_unanswered {payload : Payload} (hs : s.Passed (some n))
    (hgate : n = .approve ∧ payload.approved = .null ∨ n = .clarify ∧ payload.breach = .null) :
    ∃ t steps, n.exec cfg outside (some payload) s = (.returned t,steps) ∧
      (n.successor t = some .rejected ∨ n.successor t = some .finalize) := by
  obtain ⟨rfl,hnull⟩ | ⟨rfl,hnull⟩ := hgate
  · exact ⟨_,_,rfl,Or.inl (by simp [successor,approvalBranch,hnull,truthy])⟩
  · refine ⟨{ s with breach := false, trace := s.trace ++ [.clarify false], stepCount := s.stepCount + 1 },
      [.answered (.clarify s.contexts) payload],?_,Or.inr ?_⟩
    · simp [exec,clarifyNode,clarifyAnswer,hnull,truthy,NodeResult.ofExcept]
    · simp [successor,clarifyBranch,hs.2]

end Exec

/-! ### Whole runs -/

/-- A checkpoint whose gates were all told what its trace says of them. -/
structure Resolved (log : List (Entry κ F)) (run : String) (cp : Checkpoint F) : Prop where
  told : ∀ e ∈ cp.values.trace, Told log run e
  passed : cp.values.Passed cp.next

/-- The checkpoints a call works with. -/
def Pc.held : Pc F → List (Checkpoint F)
  | .check _ | .load _ => []
  | .loop cp _ unsaved _ => cp::unsaved
  | .ending unsaved _ => unsaved

theorem Pc.unsaved_subset_held (pc : Pc F) : pc.unsaved ⊆ pc.held := by
  cases pc with
  | check | load | ending => exact List.Subset.refl _
  | loop cp resume unsaved fuel => exact List.subset_cons_self _ _

theorem Pc.held_wrote {pc : Pc F} {first : Checkpoint F} {rest : List (Checkpoint F)}
    (h : pc.unsaved = first::rest) : (pc.wrote rest).held ⊆ pc.held := by
  cases pc with
  | check | load => cases h
  | loop cp resume unsaved fuel =>
    obtain rfl : unsaved = first::rest := h
    exact List.cons_subset_cons _ (List.subset_cons_self _ _)
  | ending unsaved raised =>
    obtain rfl : unsaved = first::rest := h
    exact List.subset_cons_self _ _

theorem Told.mono {log log' : List (Entry κ F)} {run : String} {e : TraceEntry}
    (h : Told log run e) (hsub : log ⊆ log') : Told log' run e := by
  cases e with
  | approve approved =>
    obtain ⟨c,x,d,cs,p,hm,hp⟩ := h
    exact ⟨c,x,d,cs,p,hsub hm,hp⟩
  | clarify breach =>
    obtain ⟨c,cs,p,hm,hp⟩ := h
    exact ⟨c,cs,p,hsub hm,hp⟩
  | planner | retrieve | assess | actSar | rejected | finalize => trivial

theorem Resolved.mono {log log' : List (Entry κ F)} {run : String} {cp : Checkpoint F}
    (h : Resolved log run cp) (hsub : log ⊆ log') : Resolved log' run cp :=
  ⟨fun e he => (h.told e he).mono hsub,h.passed⟩

/-- The invariant: answered questions had their answers, and so had the gates behind every checkpoint
that is saved or about to be. -/
structure Asked (a : Agent κ F) : Prop where
  answers : ∀ c run q p, ⟨c,run,.did (.answered q p)⟩ ∈ a.log → q.Carries p
  store : ∀ run cp, a.store run = some cp → Resolved a.log run cp
  calls : ∀ c call, a.calls c = some call → ∀ cp ∈ call.pc.held, Resolved a.log call.run cp

namespace Asked
variable {a b : Agent κ F} {c : κ} {run : String} {o : Option (Call F)} {l : List (Event F)}

theorem init : Asked (Agent.init : Agent κ F) where
  answers := by simp [Agent.init]
  store := by simp [Agent.init]
  calls := by simp [Agent.init]

theorem silent (a : Agent κ F) (c : κ) (run : String) :
    a.log = a.log ++ ([] : List (Event F)).map fun e => ⟨c,run,e⟩ := (List.append_nil _).symm

variable [DecidableEq κ]

/-- One call moves, with what it records. -/
theorem move (h : Asked a) (hcalls : b.calls = Function.update a.calls c o)
    (hlog : b.log = a.log ++ l.map fun e => ⟨c,run,e⟩)
    (hstore : ∀ r cp, b.store r = some cp → a.store r = some cp ∨ Resolved b.log r cp)
    (hanswers : ∀ q p, .did (.answered q p) ∈ l → q.Carries p)
    (hheld : ∀ call, o = some call → ∀ cp ∈ call.pc.held, Resolved b.log call.run cp) : Asked b := by
  have hsub : a.log ⊆ b.log := hlog ▸ List.subset_append_left _ _
  refine ⟨fun d r q p hm => ?_,fun r cp hr => ?_,fun d call hd cp hcp => ?_⟩
  · rw [hlog] at hm
    obtain hm | hm := List.mem_append.mp hm
    · exact h.answers d r q p hm
    · obtain ⟨e,he,heq⟩ := List.mem_map.mp hm
      cases heq
      exact hanswers q p he
  · exact (hstore r cp hr).elim (fun hold => (h.store r cp hold).mono hsub) id
  · rw [hcalls] at hd
    by_cases hdc : d = c
    · rw [hdc,Function.update_self] at hd
      exact hheld call hd cp hcp
    · rw [Function.update_of_ne hdc] at hd
      exact (h.calls d call hd cp hcp).mono hsub

variable [LinearOrder F]

/-- A node that its own field answers leaves a checkpoint behind which every gate was told. -/
theorem node {outside : Outside} {cp : Checkpoint F} {resume : Option Payload}
    {unsaved : List (Checkpoint F)} {fuel fuel' : ℕ} {n : Node} {t : AgentState F} {steps : List Step}
    (h : Asked a) (hcall : a.calls c = some ⟨run,.loop cp resume unsaved fuel⟩)
    (hcarries : ∀ payload, resume = some payload → n.Carries payload) (hn : cp.next = some n)
    (hexec : n.exec cfg outside resume cp.values = (.returned t,steps)) :
    Asked ((a.perform c run steps).goto c run
      (.loop ⟨t,n.successor t⟩ none (unsaved ++ [⟨t,n.successor t⟩]) fuel')) := by
  have hsub : a.log ⊆ (a.perform c run steps).log := List.subset_append_left _ _
  have hcp := h.calls c _ hcall cp List.mem_cons_self
  have hnew : Resolved (a.perform c run steps).log run ⟨t,n.successor t⟩ :=
    ⟨Node.exec_told (c := c) hexec (hcp.mono hsub).told
      (fun x hx => List.mem_append_right _ (by simpa using hx)) hcarries,
      Node.exec_passed hexec (hn ▸ hcp.passed)⟩
  refine h.move (o := some _) (l := steps.map .did) rfl rfl (fun r cp' hr => Or.inl hr) ?_ ?_
  · intro q p hm
    obtain ⟨x,hx,heq⟩ := List.mem_map.mp hm
    cases heq
    exact Node.exec_carries (congrArg Prod.snd hexec) hcarries hx
  · intro call hcall' u hu
    cases hcall'
    obtain rfl | hu := List.mem_cons.mp hu
    · exact hnew
    · obtain hu | hu := List.mem_append.mp hu
      · exact (h.calls c _ hcall u (List.mem_cons_of_mem _ hu)).mono hsub
      · obtain rfl := List.mem_singleton.mp hu
        exact hnew

/-- A call that gets no further: what its last node did is recorded. -/
theorem stop {outside : Outside} {cp : Checkpoint F} {resume : Option Payload}
    {unsaved : List (Checkpoint F)} {fuel : ℕ} {steps : List Step} {raised : Bool} (h : Asked a)
    (hcall : a.calls c = some ⟨run,.loop cp resume unsaved fuel⟩)
    (hcarries : ∀ n payload, cp.next = some n → resume = some payload → n.Carries payload)
    (hstop : (cp.next = none ∨ fuel = 0) ∧ steps = [] ∨ ∃ n, cp.next = some n ∧
      (n.exec cfg outside resume cp.values).2 = steps ∧
      ∀ t, (n.exec cfg outside resume cp.values).1 ≠ .returned t) :
    Asked ((a.perform c run steps).goto c run (.ending unsaved raised)) := by
  refine h.move (o := some _) (l := steps.map .did) rfl rfl (fun r cp' hr => Or.inl hr) ?_ ?_
  · intro q p hm
    obtain ⟨x,hx,heq⟩ := List.mem_map.mp hm
    cases heq
    obtain ⟨-,rfl⟩ | ⟨n,hn,hsteps,-⟩ := hstop
    · cases hx
    · exact Node.exec_carries hsteps (fun payload hr => hcarries n payload hn hr) hx
  · intro call hcall' u hu
    cases hcall'
    exact (h.calls c _ hcall u (List.mem_cons_of_mem _ hu)).mono (List.subset_append_left _ _)

theorem step {act : Action κ} (h : Asked a) (hg : Answering a act)
    (hstep : a.step cfg act = some b) : Asked b := by
  cases Agent.step_moves hstep with
  | @start c run query account period bearer caller hc hrun hsub =>
    have hfirst : Resolved a.log run
        ⟨initialState run query account period bearer caller,some .planner⟩ :=
      ⟨by simp [initialState],rfl⟩
    refine h.move (o := some _) rfl (silent a c run) (fun r cp hr => Or.inl hr) (by simp)
      fun call hcall cp hcp => ?_
    cases hcall
    obtain rfl | hcp := List.mem_cons.mp hcp
    · exact hfirst
    · obtain rfl := List.mem_singleton.mp hcp
      exact hfirst
  | arrive hc =>
    refine h.move (o := some _) (l := [_]) rfl rfl (fun r cp hr => Or.inl hr) (by simp) ?_
    intro call hcall
    cases hcall
    simp [Pc.held]
  | get => exact h
  | @leave c _ call events hcall hpc hevents =>
    refine h.move (o := none) rfl rfl (fun r cp hr => Or.inl hr) ?_ (by simp)
    intro q p hm
    obtain ⟨_,he⟩ | ⟨_,_,he,-⟩ := hevents _ hm <;> cases he
  | @kill c call hcall =>
    exact h.move (o := none) rfl (silent a c call.run) (fun r cp hr => Or.inl hr) (by simp) (by simp)
  | @check c _ run payload cp hcall hs hr =>
    refine h.move (o := some _) (l := [_]) rfl rfl (fun r cp hr => Or.inl hr) (by simp) ?_
    intro call hcall'
    cases hcall'
    simp [Pc.held]
  | @load c _ run payload cp hcall hs =>
    refine h.move (o := some _) rfl (silent a c run) (fun r cp hr => Or.inl hr) (by simp) ?_
    intro call hcall' u hu
    cases hcall'
    obtain rfl := List.mem_singleton.mp hu
    exact h.store run _ hs
  | @node c outside run cp resume unsaved fuel n t steps hcall hn hexec =>
    refine h.node hcall (fun payload hr => ?_) hn hexec
    subst hr
    exact hg _ hcall n hn
  | @stop c outside run cp resume unsaved fuel steps raised hcall hstop =>
    refine h.stop hcall (fun n payload hn hr => ?_) hstop
    subst hr
    exact hg _ hcall n hn
  | @save c run pc first rest hcall hu =>
    have hheld : ∀ u ∈ pc.held, Resolved a.log run u := h.calls c _ hcall
    refine h.move (o := some _) rfl (silent a c run) (fun r cp hr => ?_) (by simp) ?_
    · by_cases hrun : r = run
      · subst hrun
        obtain rfl : first = cp := by simpa [Agent.goto,Agent.setCall] using hr
        exact Or.inr (hheld _ (pc.unsaved_subset_held (hu ▸ List.mem_cons_self)))
      · exact Or.inl (by simpa [Agent.goto,Agent.setCall,Function.update_of_ne hrun] using hr)
    · intro call hcall' u hm
      cases hcall'
      exact hheld u (Pc.held_wrote hu hm)

end Asked

theorem status_ended {values : AgentState F} {status : Status} (h : values.status = some status) :
    (⟨values,none⟩ : Checkpoint F).status = status := by
  change values.status.getD .COMPLETED = status
  rw [h]
  rfl

section Runs
variable [DecidableEq κ] [LinearOrder F]

/-- In every run in which no gate goes on with a payload that lacks its field: a gate was answered by
its own field only, a paused run has no final status, what a trace says of a gate was told to it,
a run is rejected only after an explicit refusal, and an ambiguous one is completed as no breach only
after an explicit denial. -/
theorem own_question {acts : List (Action κ)} {s : Agent κ F}
    (hg : Transition.Guarded (Agent.step cfg) Answering Agent.init acts)
    (h : Transition.run (Agent.step cfg) Agent.init acts = some s) :
    (∀ c run q payload, ⟨c,run,.did (.answered q payload)⟩ ∈ s.log → q.Carries payload) ∧
    ∀ run cp, s.store run = some cp →
      (cp.resumable = true → cp.values.status = none) ∧
      (∀ e ∈ cp.values.trace, Told s.log run e) ∧
      (cp.status = .REJECTED → ToldApproval s.log run false) ∧
      (cp.status = .COMPLETED → cp.values.ambiguous = true → cp.values.breach = false →
        ToldBreach s.log run false) := by
  have hasked : Asked s := Transition.run_guarded_invariant (I := Asked)
    (fun a act b ha hact hstep => ha.step hact hstep) .init hg h
  refine ⟨hasked.answers,fun run cp hcp => ?_⟩
  obtain ⟨htold,hpassed⟩ := hasked.store run cp hcp
  obtain ⟨values,next⟩ := cp
  cases next with
  | some n =>
    refine ⟨fun _ => hpassed.status,htold,fun hr => ?_,fun hc => ?_⟩
    · cases n <;> cases hr
    · cases n <;> cases hc
  | none =>
    refine ⟨fun hr => by simp [Checkpoint.resumable] at hr,htold,fun hr => ?_,fun hc ha hb => ?_⟩
    · obtain ⟨-,-,hmem⟩ | ⟨hs,-⟩ | ⟨hs | hs,-⟩ := hpassed
      · exact htold _ hmem
      · cases (status_ended hs).symm.trans hr
      · cases (status_ended hs).symm.trans hr
      · cases (status_ended hs).symm.trans hr
    · obtain ⟨-,hbreach,-⟩ | ⟨-,-,hmem⟩ | ⟨-,hbreach,-⟩ := hpassed
      · exact absurd (hb.symm.trans hbreach) (by simp)
      · exact htold _ (hmem ha)
      · exact absurd (hb.symm.trans hbreach) (by simp)

end Runs

/-- A resume of a run that waits for clarification. -/
def resumedSchedule (payload : Payload) : List (Action (Fin 3)) :=
  [.start startCall "run_1" "aml?" "Northwind" "2026-Q2" priyaBearer] ++
  advances startCall ambiguousOutside 4 ++ List.replicate 4 (.save startCall) ++
  advances startCall ambiguousOutside 1 ++
  [.resume firstResume "run_1" payload] ++ advances firstResume ambiguousOutside 5 ++
  List.replicate 2 (.save firstResume) ++ advances firstResume ambiguousOutside 1

/-- What a human told a clarification gate. -/
def Event.clarified {F : Type} : Event F → Option Json
  | .did (.answered (.clarify _) payload) => some payload.breach
  | _ => none

/-- The run of a schedule, as the status of the only run, its finding and what its gate was told. -/
def outcome (s : Agent (Fin 3) ℚ) : Option (Status × Bool × Bool) × List Json :=
  ((s.store "run_1").map fun cp => (cp.status,cp.values.ambiguous,cp.values.breach),
    s.log.filterMap fun e => e.event.clarified)

theorem told_mem_outcome {s : Agent (Fin 3) ℚ} {run : String} {breach : Bool}
    (h : ToldBreach s.log run breach) : .bool breach ∈ (outcome s).2 := by
  obtain ⟨c,citations,payload,hmem,hbreach⟩ := h
  exact List.mem_filterMap.mpr ⟨_,hmem,congrArg some hbreach⟩

/-- A denial at the clarification gate completes the run. -/
theorem own_question_denied : ∃ s : Agent (Fin 3) ℚ,
    Transition.run (Agent.step exactConfig) Agent.init (resumedSchedule ⟨.null,.null,.bool false⟩) =
      some s ∧ ToldBreach s.log "run_1" false := by
  have hrun : (Transition.run (Agent.step exactConfig) Agent.init
      (resumedSchedule ⟨.null,.null,.bool false⟩)).map outcome =
      some (some (.COMPLETED,true,false),[.bool false]) := by decide +kernel
  obtain ⟨s,hs,hout⟩ := Option.map_eq_some_iff.mp hrun
  obtain ⟨hstore,-⟩ := Prod.mk.inj hout
  obtain ⟨cp,hcp,heq⟩ := Option.map_eq_some_iff.mp hstore
  simp only [Prod.mk.injEq] at heq
  exact ⟨s,hs,((own_question (by decide +kernel) hs).2 "run_1" cp hcp).2.2.2 heq.1 heq.2.1 heq.2.2⟩

/-- An approval sent to the clarification gate completes the ambiguous run as no breach. -/
theorem approval_closes_clarification : ¬ ∀ (acts : List (Action (Fin 3))) (s : Agent (Fin 3) ℚ),
    Transition.run (Agent.step exactConfig) Agent.init acts = some s →
    ∀ run cp, s.store run = some cp → cp.status = .COMPLETED → cp.values.ambiguous = true →
      cp.values.breach = false → ToldBreach s.log run false := by
  intro hclaim
  have hrun : (Transition.run (Agent.step exactConfig) Agent.init
      (resumedSchedule ⟨.bool true,.null,.null⟩)).map outcome =
      some (some (.COMPLETED,true,false),[.null]) := by decide +kernel
  obtain ⟨s,hs,hout⟩ := Option.map_eq_some_iff.mp hrun
  obtain ⟨hstore,-⟩ := Prod.mk.inj hout
  obtain ⟨cp,hcp,heq⟩ := Option.map_eq_some_iff.mp hstore
  simp only [Prod.mk.injEq] at heq
  have hmem := told_mem_outcome (hclaim _ s hs "run_1" cp hcp heq.1 heq.2.1 heq.2.2)
  rw [hout] at hmem
  simp at hmem

end AtlasCompliance.Agents
