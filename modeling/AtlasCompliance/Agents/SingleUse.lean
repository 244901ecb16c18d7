import AtlasCompliance.Agents.Approval

/-! Single-use approval: as long as no two calls of a run are inside the graph at once, an approval
makes at most one draft, and a resume that comes after it writes nothing. Nothing in the runner keeps
two resumes from being inside the graph at once. -/
namespace AtlasCompliance.Agents
open Python McpTools History

variable {κ F : Type} {cfg : Config F}

/-- The call is inside `invoke`: at a node, or with checkpoints that are not saved yet. -/
def Pc.invoking : Pc F → Prop
  | .check _ | .load _ => False
  | .loop _ _ _ _ => True
  | .ending unsaved _ => unsaved ≠ []

instance : (pc : Pc F) → Decidable pc.invoking
  | .check _ | .load _ => isFalse not_false
  | .loop _ _ _ _ => isTrue trivial
  | .ending [] _ => isFalse (not_not.mpr rfl)
  | .ending (_::_) _ => isTrue (List.cons_ne_nil _ _)

/-- The call is about to read the checkpoint in `invoke`. -/
def Pc.loading : Pc F → Prop
  | .load _ => True
  | .check _ | .loop _ _ _ _ | .ending _ _ => False

instance : (pc : Pc F) → Decidable pc.loading
  | .load _ => isTrue trivial
  | .check _ | .loop _ _ _ _ | .ending _ _ => isFalse not_false

def Agent.Invoking (a : Agent κ F) (c : κ) (run : String) : Prop :=
  ∃ pc, a.calls c = some ⟨run,pc⟩ ∧ pc.invoking

/-- No call is killed, and a resume reads the checkpoint in `invoke` only when no other call of its
run is inside the graph. -/
def Exclusive (a : Agent κ F) : Action κ → Prop
  | .advance c _ => ∀ call ∈ a.calls c, call.pc.loading →
      ∀ d, ∀ other ∈ a.calls d, other.run = call.run → ¬ other.pc.invoking
  | .kill _ => False
  | .start _ _ _ _ _ _ | .resume _ _ _ | .get _ | .save _ => True

instance [Fintype κ] (a : Agent κ F) : (act : Action κ) → Decidable (Exclusive a act)
  | .advance c _ => inferInstanceAs (Decidable (∀ call ∈ a.calls c, call.pc.loading →
      ∀ d, ∀ other ∈ a.calls d, other.run = call.run → ¬ other.pc.invoking))
  | .kill _ => isFalse not_false
  | .start _ _ _ _ _ _ | .resume _ _ _ | .get _ | .save _ => isTrue trivial

/-- The drafts of a run in the tool server's table. -/
def Agent.draftsOf (a : Agent κ F) (run : String) : List SarDraft :=
  a.sarDraft.filter fun d => d.runId = run

/-- An answer to the approval gate. -/
def Event.isDecision : Event F → Bool
  | .did (.answered (.approve _ _ _) _) => true
  | _ => false

/-- The approval gate of the run was answered. -/
def Consumed (log : List (Entry κ F)) (run : String) : Prop :=
  ∃ e ∈ log, e.run = run ∧ e.event.isDecision = true

/-- The call did not arrive after the approval gate of its run was answered. -/
def NotLate (log : List (Entry κ F)) (c : κ) (run : String) : Prop :=
  ∀ pre p post, log = pre ++ ⟨c,run,.arrived p⟩::post → ¬ Consumed pre run

/-- No node that runs on unconditionally is due. -/
def Checkpoint.Settled (cp : Checkpoint F) : Prop := ∀ n, cp.next = some n → 2 ≤ n.height

/-- The newest checkpoint of a run: there is no draft while a node is due, and up to the approval
gate its question is open. -/
structure Newest (a : Agent κ F) (run : String) (cp : Checkpoint F) : Prop where
  runId : cp.values.runId = run
  place : ∀ n, cp.next = some n → cp.values.At n
  drafts : ∀ n, cp.next = some n → a.draftsOf run = []
  pending : ∀ n, cp.next = some n → 2 ≤ n.height → ¬ Consumed a.log run

/-- What holds of a call where it is. -/
def CallOne (a : Agent κ F) (c : κ) (call : Call F) : Prop :=
  match call.pc with
  | .check _ | .load _ => True
  | .loop cp _ unsaved fuel => Newest a call.run cp ∧
      (unsaved.getLast? = some cp ∨ unsaved = [] ∧ a.store call.run = some cp) ∧
      (∀ n, cp.next = some n → n.height ≤ fuel) ∧
      (cp.next ≠ none → NotLate a.log c call.run)
  | .ending unsaved _ => ∀ cp, unsaved.getLast? = some cp → Newest a call.run cp ∧ cp.Settled

/-- The invariant of runs whose calls are in the graph one at a time. -/
structure Single (a : Agent κ F) : Prop where
  atMost : ∀ run, (a.draftsOf run).length ≤ 1
  unborn : ∀ run, a.bearers run = none → a.store run = none ∧ a.draftsOf run = [] ∧
    ¬ Consumed a.log run ∧ ∀ c, ¬ a.Invoking c run
  calls : ∀ c call, a.calls c = some call → CallOne a c call
  exclusive : ∀ c d run, a.Invoking c run → a.Invoking d run → c = d
  rest : ∀ run cp, a.store run = some cp → (∀ c, ¬ a.Invoking c run) →
    Newest a run cp ∧ cp.Settled
  writes : Follows (fun pre w => w.event.isWrite = true → NotLate pre w.call w.run) a.log

section Mono
variable {a b : Agent κ F} {c : κ} {run : String} {cp : Checkpoint F} {es : List (Event F)}
variable {log : List (Entry κ F)}

/-- The newest checkpoint stays so while the drafts and the answers of its run do. -/
theorem Newest.mono (h : Newest a run cp) (hd : b.draftsOf run = a.draftsOf run)
    (hc : Consumed b.log run → Consumed a.log run) : Newest b run cp :=
  ⟨h.runId,h.place,fun n hn => hd.trans (h.drafts n hn),
    fun n hn hk hcons => h.pending n hn hk (hc hcons)⟩

theorem Consumed.mono {log' : List (Entry κ F)} (h : Consumed log run) (hsub : log ⊆ log') :
    Consumed log' run := by
  obtain ⟨e,he,hrest⟩ := h
  exact ⟨e,hsub he,hrest⟩

/-- Answers in a record extended by entries of one call. -/
theorem consumed_append {r : String} (h : Consumed (log ++ es.map fun e => (⟨c,run,e⟩ : Entry κ F)) r) :
    Consumed log r ∨ r = run ∧ ∃ e ∈ es, e.isDecision = true := by
  obtain ⟨e,he,hr,hd⟩ := h
  rcases List.mem_append.mp he with he | he
  · exact Or.inl ⟨e,he,hr,hd⟩
  · obtain ⟨x,hx,rfl⟩ := List.mem_map.mp he
    exact Or.inr ⟨hr.symm,x,hx,hd⟩

/-- A call stays in time while the record grows by entries that are not its arrival. -/
theorem NotLate.append {r : String} {d : κ} {es : List (Entry κ F)} (h : NotLate log d r)
    (hes : ∀ p, ⟨d,r,.arrived p⟩ ∉ es) : NotLate (log ++ es) d r := by
  intro pre p post he
  rcases List.append_eq_append_iff.mp he with ⟨mid,rfl,hm⟩ | ⟨mid,hl,hm⟩
  · exact absurd (hm ▸ List.mem_append_right mid List.mem_cons_self) (hes p)
  · cases mid with
    | nil =>
      rw [List.nil_append] at hm
      exact absurd (hm ▸ List.mem_cons_self) (hes p)
    | cons x mid =>
      obtain ⟨rfl,-⟩ := List.cons.inj hm
      exact h pre p mid hl

/-- While the gate's question is open every call is in time. -/
theorem NotLate.of_pending (h : ¬ Consumed log run) : NotLate log c run := by
  rintro pre p post rfl hc
  exact h (hc.mono (List.subset_append_left _ _))

theorem CallOne.of_not_invoking {call : Call F} (h : ¬ call.pc.invoking) : CallOne a c call := by
  obtain ⟨run,pc⟩ := call
  cases pc with
  | check payload | load payload => trivial
  | loop cp resume unsaved fuel => exact absurd trivial h
  | ending unsaved raised =>
    obtain rfl : unsaved = [] := not_not.mp h
    exact fun cp hcp => by simp at hcp

theorem CallOne.mono {call : Call F} (h : CallOne a c call)
    (hstore : b.store call.run = a.store call.run) (hd : b.draftsOf call.run = a.draftsOf call.run)
    (hc : Consumed b.log call.run → Consumed a.log call.run)
    (hlate : NotLate a.log c call.run → NotLate b.log c call.run) : CallOne b c call := by
  obtain ⟨run,pc⟩ := call
  cases pc with
  | check payload | load payload => trivial
  | loop cp resume unsaved fuel =>
    obtain ⟨hcp,hlast,hfuel,hnl⟩ := h
    refine ⟨hcp.mono hd hc,?_,hfuel,fun hn => hlate (hnl hn)⟩
    rcases hlast with hlast | ⟨hu,hs⟩
    · exact Or.inl hlast
    · exact Or.inr ⟨hu,hstore.trans hs⟩
  | ending unsaved raised =>
    intro cp hcp
    obtain ⟨hnew,hset⟩ := h cp hcp
    exact ⟨hnew.mono hd hc,hset⟩

end Mono

/-- The drafts a node made: at most one, of its own run, and only by the write. -/
theorem Did.drafts {s : AgentState F} {resume : Option Payload} {n : Node} {steps : List Step}
    (h : Did cfg s resume n steps) : (steps.filterMap Step.draft).length ≤ 1 ∧
      (∀ d ∈ steps.filterMap Step.draft, d.runId = s.runId) ∧
      (n ≠ .act_sar → steps.filterMap Step.draft = []) := by
  cases h with
  | nothing | query | approved | clarified => simp [List.filterMap_cons,Step.draft]
  | acted hp hspec =>
    have hcomp : (Step.draft ∘ Step.effect) = Effect.draft := by
      funext e
      cases e <;> rfl
    rw [List.filterMap_map,hcomp]
    exact ⟨hspec.drafts,hspec.draftRun,fun hn => absurd rfl hn⟩

/-- Only the approval gate is answered as such. -/
theorem Did.decision {s : AgentState F} {resume : Option Payload} {n : Node} {steps : List Step}
    (h : Did cfg s resume n steps) {st : Step} (hst : st ∈ steps)
    (hd : (Event.did st : Event F).isDecision = true) : n = .approve := by
  cases h with
  | nothing => simp at hst
  | query | clarified =>
    obtain rfl := List.mem_singleton.mp hst
    cases hd
  | approved => rfl
  | acted hp hspec =>
    obtain ⟨e,-,rfl⟩ := List.mem_map.mp hst
    cases hd

theorem Node.height_le_recursionLimit (n : Node) (cfg : Config F) :
    n.height ≤ recursionLimit cfg := by
  have h : 8 ≤ recursionLimit cfg := by
    unfold recursionLimit
    omega
  cases n <;> simp only [height] <;> omega

/-- Where the loop stops short of a state, nothing was decided or written, and the node can still be
run. -/
theorem Node.exec_stopped [LinearOrder F] {outside : Outside} {resume : Option Payload}
    {s : AgentState F} {n : Node} (hs : s.At n)
    (h : ∀ t, (n.exec cfg outside resume s).1 ≠ .returned t) : 2 ≤ n.height ∧
      ∀ st ∈ (n.exec cfg outside resume s).2, (Event.did st : Event F).isDecision = false ∧
        (Event.did st : Event F).isWrite = false ∧ st.draft = none := by
  cases n with
  | planner | rejected | finalize => exact absurd rfl (h _)
  | retrieve =>
    refine ⟨by decide,fun st hst => ?_⟩
    obtain rfl := List.mem_singleton.mp hst
    exact ⟨rfl,rfl,rfl⟩
  | assess => exact ⟨by decide,fun st hst => absurd hst List.not_mem_nil⟩
  | approve =>
    cases resume with
    | none => exact ⟨by decide,fun st hst => absurd hst List.not_mem_nil⟩
    | some decision => exact absurd rfl (h _)
  | clarify =>
    refine ⟨by decide,fun st hst => ?_⟩
    cases resume with
    | none => exact absurd hst List.not_mem_nil
    | some decision =>
      obtain rfl := List.mem_singleton.mp hst
      exact ⟨rfl,rfl,rfl⟩
  | act_sar =>
    obtain ⟨_,_,p,-,hp,-⟩ := hs
    simp [exec,actSarNode,hp] at h

namespace Single
variable {a b : Agent κ F} {c : κ} {run : String} {o : Option (Call F)} {l : List (Event F)}

theorem init : Single (Agent.init : Agent κ F) where
  atMost := by simp [Agent.init,Agent.draftsOf]
  unborn := by simp [Agent.init,Agent.draftsOf,Agent.Invoking,Consumed]
  calls := by simp [Agent.init]
  exclusive := by simp [Agent.init,Agent.Invoking]
  rest := by simp [Agent.init]
  writes := follows_nil

/-- Where a call of the run is inside the graph, the run has begun and no other call is. -/
theorem inside_of_call (h : Single a) {pc : Pc F} (hcall : a.calls c = some ⟨run,pc⟩)
    (hi : pc.invoking) : a.bearers run ≠ none ∧ (∀ call, a.calls c = some call → call.run = run) ∧
      ∀ d, d ≠ c → ¬ a.Invoking d run := by
  refine ⟨fun hr => (h.unborn run hr).2.2.2 c ⟨pc,hcall,hi⟩,fun call hc => ?_,
    fun d hd hdi => hd (h.exclusive d c run hdi ⟨pc,hcall,hi⟩)⟩
  rw [hcall] at hc
  cases hc
  rfl

variable [DecidableEq κ]

/-- Which calls are inside the graph after a step of one call. -/
theorem invoking_iff (hcalls : b.calls = Function.update a.calls c o) {d : κ} (hd : d ≠ c)
    (r : String) : b.Invoking d r ↔ a.Invoking d r := by
  simp [Agent.Invoking,hcalls,Function.update_of_ne hd]

theorem invoking_self (hcalls : b.calls = Function.update a.calls c o) {r : String}
    (h : b.Invoking c r) : ∃ pc, o = some ⟨r,pc⟩ ∧ pc.invoking := by
  simpa [Agent.Invoking,hcalls] using h

/-- A step of one call, in what it changes of its run. -/
theorem move (h : Single a) (hcalls : b.calls = Function.update a.calls c o)
    (hlog : b.log = a.log ++ l.map fun e => ⟨c,run,e⟩)
    (hstore : ∀ r, r ≠ run → b.store r = a.store r)
    (hbearers : ∀ r, b.bearers r = none → a.bearers r = none)
    (hdrafts : ∀ r, r ≠ run → b.draftsOf r = a.draftsOf r)
    (hold : ∀ call, a.calls c = some call → call.run = run)
    (hnew : ∀ call, o = some call → call.run = run ∧ CallOne b c call)
    (hone : (b.draftsOf run).length ≤ 1)
    (hborn : b.bearers run = none → b.store run = none ∧ b.draftsOf run = [] ∧
      ¬ Consumed b.log run ∧ ¬ b.Invoking c run)
    (hsame : ∀ d, d ≠ c → a.Invoking d run → b.store run = a.store run ∧
      b.draftsOf run = a.draftsOf run ∧ (Consumed b.log run → Consumed a.log run))
    (hexclusive : b.Invoking c run → ∀ d, d ≠ c → ¬ a.Invoking d run)
    (hrest : (∀ d, ¬ b.Invoking d run) → ∀ cp, b.store run = some cp →
      Newest b run cp ∧ cp.Settled)
    (hwrites : Follows (fun pre w => w.event.isWrite = true → NotLate (a.log ++ pre) w.call w.run)
      (l.map fun e => (⟨c,run,e⟩ : Entry κ F))) : Single b := by
  have hconsumed : ∀ r, r ≠ run → Consumed b.log r → Consumed a.log r := by
    intro r hr hc
    rcases consumed_append (hlog ▸ hc) with hc | ⟨hr',-⟩
    · exact hc
    · exact absurd hr' hr
  have hselfRun : ∀ r, b.Invoking c r → r = run := by
    intro r hi
    obtain ⟨pc,hpc,-⟩ := invoking_self hcalls hi
    exact (hnew _ hpc).1
  refine ⟨fun r => ?_,fun r hr => ?_,fun d call hd => ?_,fun d d' r hd hd' => ?_,
    fun r cp hs hno => ?_,hlog ▸ h.writes.append hwrites⟩
  · by_cases hr : r = run
    · exact hr ▸ hone
    · exact hdrafts r hr ▸ h.atMost r
  · obtain ⟨hs,hd,hc,hi⟩ := h.unborn r (hbearers r hr)
    by_cases he : r = run
    · subst he
      obtain ⟨hs',hd',hc',hi'⟩ := hborn hr
      refine ⟨hs',hd',hc',fun d hinv => ?_⟩
      by_cases hdc : d = c
      · exact hi' (hdc ▸ hinv)
      · exact hi d ((invoking_iff hcalls hdc r).mp hinv)
    · refine ⟨(hstore r he).trans hs,(hdrafts r he).trans hd,fun hcons => hc (hconsumed r he hcons),
        fun d hinv => ?_⟩
      by_cases hdc : d = c
      · subst hdc
        exact he (hselfRun r hinv)
      · exact hi d ((invoking_iff hcalls hdc r).mp hinv)
  · rw [hcalls] at hd
    by_cases hdc : d = c
    · subst hdc
      rw [Function.update_self] at hd
      exact (hnew call hd).2
    · rw [Function.update_of_ne hdc] at hd
      have hcall := h.calls d call hd
      have hlate : NotLate a.log d call.run → NotLate b.log d call.run := by
        intro hnl
        rw [hlog]
        refine hnl.append fun p hp => ?_
        obtain ⟨e,-,heq⟩ := List.mem_map.mp hp
        exact hdc (congrArg Entry.call heq).symm
      by_cases hr : call.run = run
      · by_cases hi : call.pc.invoking
        · obtain ⟨hs,hdr,hc⟩ := hsame d hdc ⟨call.pc,by rw [hd,← hr],hi⟩
          exact hcall.mono (hr ▸ hs) (hr ▸ hdr) (hr ▸ hc) hlate
        · exact .of_not_invoking hi
      · exact hcall.mono (hstore _ hr) (hdrafts _ hr) (hconsumed _ hr) hlate
  · by_cases hdc : d = c <;> by_cases hdc' : d' = c
    · exact hdc.trans hdc'.symm
    · subst hdc
      obtain rfl := hselfRun r hd
      exact absurd ((invoking_iff hcalls hdc' r).mp hd') (hexclusive hd d' hdc')
    · subst hdc'
      obtain rfl := hselfRun r hd'
      exact absurd ((invoking_iff hcalls hdc r).mp hd) (hexclusive hd' d hdc)
    · exact h.exclusive d d' r ((invoking_iff hcalls hdc r).mp hd) ((invoking_iff hcalls hdc' r).mp hd')
  · by_cases hr : r = run
    · subst hr
      exact hrest hno cp hs
    · have hno' : ∀ d, ¬ a.Invoking d r := by
        intro d hinv
        by_cases hdc : d = c
        · subst hdc
          obtain ⟨pc,hpc,-⟩ := hinv
          exact hr (hold _ hpc)
        · exact hno d ((invoking_iff hcalls hdc r).mpr hinv)
      obtain ⟨hnewest,hset⟩ := h.rest r cp (hstore r hr ▸ hs) hno'
      exact ⟨hnewest.mono (hdrafts r hr) (hconsumed r hr),hset⟩

/-- A step of a call that is not inside the graph, before or after. -/
theorem quiet (h : Single a) (hcalls : b.calls = Function.update a.calls c o)
    (hlog : b.log = a.log ++ l.map fun e => ⟨c,run,e⟩) (hstore : b.store = a.store)
    (hbearers : b.bearers = a.bearers) (hdrafts : b.sarDraft = a.sarDraft)
    (hold : ∀ call, a.calls c = some call → call.run = run ∧ ¬ call.pc.invoking)
    (hnew : ∀ call, o = some call → call.run = run ∧ ¬ call.pc.invoking)
    (hes : ∀ e ∈ l, e.isDecision = false ∧ e.isWrite = false) : Single b := by
  have hd : ∀ r, b.draftsOf r = a.draftsOf r := fun r => by rw [Agent.draftsOf,hdrafts]; rfl
  have hc : Consumed b.log run → Consumed a.log run := by
    intro hc
    rcases consumed_append (hlog ▸ hc) with hc | ⟨-,e,he,hdec⟩
    · exact hc
    · exact absurd ((hes e he).1.symm.trans hdec) (by decide)
  have hnot : ∀ r, ¬ b.Invoking c r := by
    intro r hi
    obtain ⟨pc,hpc,hinv⟩ := invoking_self hcalls hi
    exact (hnew _ hpc).2 hinv
  refine h.move hcalls hlog (fun r _ => by rw [hstore]) (fun r hr => hbearers ▸ hr) (fun r _ => hd r)
    (fun call hcall => (hold call hcall).1)
    (fun call hcall => ⟨(hnew call hcall).1,.of_not_invoking (hnew call hcall).2⟩)
    (hd run ▸ h.atMost run) ?_ (fun d _ _ => ⟨by rw [hstore],hd run,hc⟩)
    (fun hi => absurd hi (hnot run)) ?_ ?_
  · intro hr
    obtain ⟨hs,hdr,hcons,-⟩ := h.unborn run (hbearers ▸ hr)
    exact ⟨by rw [hstore,hs],(hd run).trans hdr,fun hx => hcons (hc hx),hnot run⟩
  · intro hno cp hs
    have hno' : ∀ d, ¬ a.Invoking d run := by
      intro d hi
      by_cases hdc : d = c
      · subst hdc
        obtain ⟨pc,hpc,hinv⟩ := hi
        exact (hold _ hpc).2 hinv
      · exact hno d ((invoking_iff hcalls hdc run).mpr hi)
    obtain ⟨hnewest,hset⟩ := h.rest run cp (hstore ▸ hs) hno'
    exact ⟨hnewest.mono (hd run) hc,hset⟩
  · refine .of_forall fun e he pre hw => ?_
    obtain ⟨x,hx,rfl⟩ := List.mem_map.mp he
    exact absurd ((hes x hx).2.symm.trans hw) (by decide)

/-- A step of the one call of its run that is inside the graph, before or after. -/
theorem inside (h : Single a) (run : String) (hcalls : b.calls = Function.update a.calls c o)
    (hlog : b.log = a.log ++ l.map fun e => ⟨c,run,e⟩)
    (hstore : ∀ r, r ≠ run → b.store r = a.store r)
    (hbearers : ∀ r, b.bearers r = none → a.bearers r = none) (hrun : b.bearers run ≠ none)
    (hdrafts : ∀ r, r ≠ run → b.draftsOf r = a.draftsOf r)
    (hold : ∀ call, a.calls c = some call → call.run = run)
    (halone : ∀ d, d ≠ c → ¬ a.Invoking d run)
    (hnew : ∀ call, o = some call → call.run = run ∧ CallOne b c call)
    (hone : (b.draftsOf run).length ≤ 1)
    (hrest : ¬ b.Invoking c run → ∀ cp, b.store run = some cp → Newest b run cp ∧ cp.Settled)
    (hwrites : Follows (fun pre w => w.event.isWrite = true → NotLate (a.log ++ pre) w.call w.run)
      (l.map fun e => (⟨c,run,e⟩ : Entry κ F))) : Single b :=
  h.move hcalls hlog hstore hbearers hdrafts hold hnew hone (fun hr => absurd hr hrun)
    (fun d hd hi => absurd hi (halone d hd)) (fun _ => halone) (fun hno => hrest (hno c)) hwrites

theorem launch (h : Single a) (honce : Once a) {input : AgentState F} {bearer : String}
    (hc : c ∉ a.begun) (hrun : a.bearers input.runId = none) (htrace : input.trace = []) :
    Single (a.launch cfg c bearer input) := by
  obtain ⟨hs,hd,hcons,hno⟩ := h.unborn _ hrun
  have hcp : Newest (a.launch cfg c bearer input) input.runId ⟨input,some .planner⟩ :=
    ⟨rfl,fun n hn => by cases hn; exact htrace,fun _ _ => hd,fun _ _ _ => hcons⟩
  refine h.inside input.runId (o := some _) (l := []) rfl (List.append_nil _).symm
    (fun _ _ => rfl) (fun r hr => ?_) ?_ (fun _ _ => rfl)
    (fun call hcall => absurd (honce.begun c call hcall) hc) (fun d _ => hno d) ?_
    (hd ▸ by simp) ?_ follows_nil
  · by_contra hne
    change Function.update a.bearers input.runId (some bearer) r = none at hr
    by_cases he : r = input.runId
    · simp [he] at hr
    · rw [Function.update_of_ne he] at hr
      exact hne hr
  · change Function.update a.bearers input.runId (some bearer) input.runId ≠ none
    simp
  · intro call hcall
    cases hcall
    refine ⟨rfl,hcp,Or.inl rfl,?_,fun _ => .of_pending hcons⟩
    intro n hn
    cases hn
    exact Node.height_le_recursionLimit _ cfg
  · exact fun hni => absurd ⟨_,Function.update_self _ _ _,trivial⟩ hni

/-- A resume reads the newest checkpoint. -/
theorem load (h : Single a) {payload : Payload} {cp : Checkpoint F}
    (hcall : a.calls c = some ⟨run,.load payload⟩) (hs : a.store run = some cp)
    (hno : ∀ d, ¬ a.Invoking d run) :
    Single (a.goto c run (.loop cp (some payload) [] (recursionLimit cfg))) := by
  obtain ⟨hnewest,hset⟩ := h.rest run cp hs hno
  refine h.inside run (o := some _) (l := []) rfl (List.append_nil _).symm
    (fun _ _ => rfl) (fun _ hr => hr) (fun hr => ?_) (fun _ _ => rfl) (fun call hc => ?_)
    (fun d _ => hno d) ?_ (h.atMost run) ?_ follows_nil
  · cases hs.symm.trans (h.unborn run hr).1
  · rw [hcall] at hc
    cases hc
    rfl
  · intro call hc
    cases hc
    refine ⟨rfl,⟨hnewest.runId,hnewest.place,hnewest.drafts,hnewest.pending⟩,Or.inr ⟨rfl,hs⟩,
      fun n _ => n.height_le_recursionLimit cfg,fun hn => ?_⟩
    obtain ⟨n,hn⟩ := Option.ne_none_iff_exists'.mp hn
    exact .of_pending (hnewest.pending n hn (hset n hn))
  · exact fun hni => absurd ⟨_,Function.update_self _ _ _,trivial⟩ hni

/-- The drafts of the runs after a node. -/
theorem draftsOf_perform (a : Agent κ F) (c : κ) (run r : String) (steps : List Step) (pc : Pc F) :
    ((a.perform c run steps).goto c run pc).draftsOf r =
      a.draftsOf r ++ (steps.filterMap Step.draft).filter fun d => d.runId = r :=
  List.filter_append _ _

variable [LinearOrder F]

/-- A node returned a state. -/
theorem node (h : Single a) {outside : Outside} {cp : Checkpoint F} {resume : Option Payload}
    {unsaved : List (Checkpoint F)} {fuel : ℕ} {n : Node} {t : AgentState F} {steps : List Step}
    (hcall : a.calls c = some ⟨run,.loop cp resume unsaved (fuel+1)⟩) (hn : cp.next = some n)
    (hexec : n.exec cfg outside resume cp.values = (.returned t,steps)) :
    Single ((a.perform c run steps).goto c run
      (.loop ⟨t,n.successor t⟩ none (unsaved ++ [⟨t,n.successor t⟩]) fuel)) := by
  obtain ⟨hrun,hold,halone⟩ := h.inside_of_call hcall trivial
  obtain ⟨hcp,-,hfuel,hlate⟩ := h.calls c _ hcall
  have hlate : NotLate a.log c run := hlate (by simp [hn])
  have hdid : Did cfg cp.values resume n steps := Node.exec_did (congrArg Prod.snd hexec)
  obtain ⟨hlen,hrows,hnone⟩ := hdid.drafts
  rw [hcp.runId] at hrows
  have hinput := Node.exec_input hexec
  simp only [AgentState.input,RunInput.mk.injEq] at hinput
  have hcp' : Newest ((a.perform c run steps).goto c run
      (.loop ⟨t,n.successor t⟩ none (unsaved ++ [⟨t,n.successor t⟩]) fuel)) run
      ⟨t,n.successor t⟩ := by
    refine ⟨hinput.2.2.2.2.1.trans hcp.runId,
      fun m hm => Node.exec_at hexec (hcp.place n hn) hm,fun m hm => ?_,fun m hm hk hcons => ?_⟩
    · have hne : n ≠ .act_sar := by
        rintro rfl
        cases hm
      rw [draftsOf_perform,hnone hne,hcp.drafts n hn]
      rfl
    · have hlt := Node.height_successor hm
      rcases consumed_append hcons with hcons | ⟨-,e,he,hdec⟩
      · exact hcp.pending n hn (by omega) hcons
      · obtain ⟨st,hst,rfl⟩ := List.mem_map.mp he
        obtain rfl := hdid.decision hst hdec
        change m.height < 2 at hlt
        omega
  refine h.inside run (o := some _) (l := steps.map .did) rfl rfl (fun _ _ => rfl) (fun _ hr => hr)
    hrun (fun r hr => ?_) hold halone ?_ ?_ ?_ ?_
  · rw [draftsOf_perform,List.filter_eq_nil_iff.mpr,List.append_nil]
    intro d hd
    simpa [hrows d hd] using Ne.symm hr
  · intro call hc
    cases hc
    refine ⟨rfl,hcp',Or.inl (by simp),fun m hm => ?_,fun _ => hlate.append (by simp)⟩
    have hlt := Node.height_successor hm
    have hle := hfuel n hn
    omega
  · rw [draftsOf_perform,hcp.drafts n hn,List.nil_append]
    exact (List.length_filter_le _ _).trans hlen
  · exact fun hni => absurd ⟨_,Function.update_self _ _ _,trivial⟩ hni
  · intro pre e post he hw
    obtain ⟨x,-,rfl⟩ := List.mem_map.mp (he ▸ List.mem_append_right pre List.mem_cons_self)
    refine hlate.append fun p hp => ?_
    have hmem : (⟨c,run,.arrived p⟩ : Entry κ F) ∈
        (steps.map Event.did).map fun e => (⟨c,run,e⟩ : Entry κ F) := by
      rw [he]
      exact List.mem_append_left _ hp
    simp at hmem

/-- The loop stopped: what is saved or still to be saved ends at the newest checkpoint. -/
theorem stop (h : Single a) {outside : Outside} {cp : Checkpoint F} {resume : Option Payload}
    {unsaved : List (Checkpoint F)} {fuel : ℕ} {steps : List Step} {raised : Bool}
    (hcall : a.calls c = some ⟨run,.loop cp resume unsaved fuel⟩)
    (hstop : (cp.next = none ∨ fuel = 0) ∧ steps = [] ∨ ∃ n, cp.next = some n ∧
      (n.exec cfg outside resume cp.values).2 = steps ∧
      ∀ t, (n.exec cfg outside resume cp.values).1 ≠ .returned t) :
    Single ((a.perform c run steps).goto c run (.ending unsaved raised)) := by
  obtain ⟨hrun,hold,halone⟩ := h.inside_of_call hcall trivial
  obtain ⟨hcp,hlast,hfuel,-⟩ := h.calls c _ hcall
  have hquiet : cp.Settled ∧ ∀ st ∈ steps, (Event.did st : Event F).isDecision = false ∧
      (Event.did st : Event F).isWrite = false ∧ st.draft = none := by
    rcases hstop with ⟨hstop,rfl⟩ | ⟨n,hn,rfl,hnr⟩
    · refine ⟨fun n hn => ?_,by simp⟩
      rcases hstop with hnone | rfl
      · cases hnone.symm.trans hn
      · have hle := hfuel n hn
        cases n <;> simp [Node.height] at hle
    · obtain ⟨hk,hst⟩ := Node.exec_stopped (hcp.place n hn) hnr
      refine ⟨fun m hm => ?_,hst⟩
      cases hn.symm.trans hm
      exact hk
  obtain ⟨hset,hsteps⟩ := hquiet
  have hrows : steps.filterMap Step.draft = [] :=
    List.filterMap_eq_nil_iff.mpr fun st hst => (hsteps st hst).2.2
  have hd : ∀ r, ((a.perform c run steps).goto c run (.ending unsaved raised)).draftsOf r =
      a.draftsOf r := by
    intro r
    rw [draftsOf_perform,hrows]
    exact List.append_nil _
  have hcp' : Newest ((a.perform c run steps).goto c run (.ending unsaved raised)) run cp := by
    refine hcp.mono (hd run) fun hcons => ?_
    rcases consumed_append hcons with hcons | ⟨-,e,he,hdec⟩
    · exact hcons
    · obtain ⟨st,hst,rfl⟩ := List.mem_map.mp he
      exact absurd ((hsteps st hst).1.symm.trans hdec) (by decide)
  refine h.inside run (o := some _) (l := steps.map .did) rfl rfl (fun _ _ => rfl) (fun _ hr => hr)
    hrun (fun r _ => hd r) hold halone ?_ (hd run ▸ h.atMost run) ?_ ?_
  · intro call hc
    cases hc
    refine ⟨rfl,fun cp' hcp'' => ?_⟩
    rcases hlast with hlast | ⟨rfl,-⟩
    · cases hlast.symm.trans hcp''
      exact ⟨hcp',hset⟩
    · simp at hcp''
  · intro hni cp' hs
    rcases hlast with hlast | ⟨-,hs'⟩
    · refine absurd ⟨_,Function.update_self _ _ _,fun hu => ?_⟩ hni
      simp [hu] at hlast
    · cases hs.symm.trans hs'
      exact ⟨hcp',hset⟩
  · refine .of_forall fun e he pre hw => ?_
    obtain ⟨x,hx,rfl⟩ := List.mem_map.mp he
    obtain ⟨st,hst,rfl⟩ := List.mem_map.mp hx
    exact absurd ((hsteps st hst).2.1.symm.trans hw) (by decide)

omit [LinearOrder F] in
/-- The last checkpoint to be written is the newest one. -/
theorem save (h : Single a) {pc : Pc F} {first : Checkpoint F} {rest : List (Checkpoint F)}
    (hcall : a.calls c = some ⟨run,pc⟩) (hu : pc.unsaved = first::rest) :
    Single ({ a with store := Function.update a.store run (some first) }.goto c run
      (pc.wrote rest)) := by
  have hi : pc.invoking := by
    cases pc with
    | check payload | load payload => cases hu
    | loop cp resume unsaved fuel => trivial
    | ending unsaved raised => exact fun hnil => by simp [Pc.unsaved,hnil] at hu
  obtain ⟨hrun,hold,halone⟩ := h.inside_of_call hcall hi
  have hok := h.calls c _ hcall
  have hself : Function.update a.store run (some first) run = some first :=
    Function.update_self _ _ _
  have hmono : ∀ cp, Newest a run cp → Newest ({ a with
      store := Function.update a.store run (some first) }.goto c run (pc.wrote rest)) run cp :=
    fun cp hcp => ⟨hcp.runId,hcp.place,hcp.drafts,hcp.pending⟩
  refine h.inside run (o := some _) (l := []) rfl (List.append_nil _).symm
    (fun r hr => Function.update_of_ne hr _ _) (fun _ hr => hr) hrun (fun _ _ => rfl) hold halone
    ?_ (h.atMost run) ?_ follows_nil
  · intro call hc
    cases hc
    refine ⟨rfl,?_⟩
    cases pc with
    | check payload | load payload => cases hu
    | loop cp resume unsaved fuel =>
      obtain rfl : unsaved = first::rest := hu
      obtain ⟨hcp,hlast,hfuel,hlate⟩ := hok
      refine ⟨hmono cp hcp,?_,hfuel,hlate⟩
      rcases hlast with hlast | ⟨hnil,-⟩
      · cases rest with
        | nil => exact Or.inr ⟨rfl,hself.trans (by simpa using hlast)⟩
        | cons second rest => exact Or.inl (by simpa using hlast)
      · cases hnil
    | ending unsaved raised =>
      obtain rfl : unsaved = first::rest := hu
      intro cp hcp
      have hlast : (first::rest).getLast? = some cp := by
        cases rest with
        | nil => simp at hcp
        | cons second rest => simpa using hcp
      obtain ⟨hnewest,hset⟩ := hok cp hlast
      exact ⟨hmono cp hnewest,hset⟩
  · intro hni cp hs
    cases pc with
    | check payload | load payload => cases hu
    | loop cp resume unsaved fuel => exact absurd ⟨_,Function.update_self _ _ _,trivial⟩ hni
    | ending unsaved raised =>
      obtain rfl : unsaved = first::rest := hu
      cases rest with
      | nil =>
        obtain rfl : first = cp := Option.some.inj (hself.symm.trans hs)
        obtain ⟨hnewest,hset⟩ := hok first rfl
        exact ⟨hmono first hnewest,hset⟩
      | cons second rest =>
        exact absurd ⟨_,Function.update_self _ _ _,List.cons_ne_nil _ _⟩ hni

/-- The invariant is kept while calls are inside the graph one at a time. -/
theorem step {act : Action κ} (h : Single a) (honce : Once a) (hg : Exclusive a act)
    (hstep : a.step cfg act = some b) : Single b := by
  cases Agent.step_moves hstep with
  | start hc hrun hsub => exact h.launch honce hc hrun rfl
  | arrive hc =>
    refine h.quiet (o := some _) (l := [_]) rfl rfl rfl rfl rfl
      (fun call hcall => absurd (honce.begun _ call hcall) hc) ?_ (by simp [Event.isDecision,Event.isWrite])
    intro call hcall
    cases hcall
    exact ⟨rfl,not_false⟩
  | get => exact h
  | @leave c _ call events hcall hpc hevents =>
    refine h.quiet (o := none) rfl rfl rfl rfl rfl (fun call' hcall' => ?_) (by simp) fun e he => ?_
    · rw [hcall] at hcall'
      cases hcall'
      refine ⟨rfl,?_⟩
      rcases hpc with ⟨_,hpc⟩ | ⟨_,hpc⟩ <;> simp [hpc,Pc.invoking]
    · rcases hevents e he with ⟨_,rfl⟩ | ⟨_,_,rfl,-⟩ <;> exact ⟨rfl,rfl⟩
  | kill => exact absurd hg not_false
  | @check c _ run payload cp hcall hs hr =>
    refine h.quiet (o := some _) (l := [_]) rfl rfl rfl rfl rfl (fun call' hcall' => ?_) ?_
      (by simp [Event.isDecision,Event.isWrite])
    · rw [hcall] at hcall'
      cases hcall'
      exact ⟨rfl,not_false⟩
    · intro call' hcall'
      cases hcall'
      exact ⟨rfl,not_false⟩
  | @load c _ run payload cp hcall hs =>
    refine h.load hcall hs fun d => ?_
    rintro ⟨pc,hd,hi⟩
    exact hg _ hcall trivial d _ hd rfl hi
  | node hcall hn hexec => exact h.node hcall hn hexec
  | stop hcall hstop => exact h.stop hcall hstop
  | save hcall hu => exact h.save hcall hu

end Single

/-- In every run in which calls are inside the graph one at a time, a run's approval makes at most
one draft, and a resume that arrived after the approval gate was answered never calls the tool. -/
theorem single_use [DecidableEq κ] [LinearOrder F] {acts : List (Action κ)} {s : Agent κ F}
    (hg : Transition.Guarded (Agent.step cfg) Exclusive Agent.init acts)
    (h : Transition.run (Agent.step cfg) Agent.init acts = some s) :
    (∀ run, (s.draftsOf run).length ≤ 1) ∧
    ∀ pre c run payload mid w post, s.log = pre ++ ⟨c,run,.arrived payload⟩::mid ++ w::post →
      Consumed pre run → w.call = c → w.event.isWrite = false := by
  have hinv : Single s ∧ Once s := Transition.run_guarded_invariant (I := fun a => Single a ∧ Once a)
    (fun a act b ha hg hstep => ⟨ha.1.step ha.2 hg hstep,ha.2.step hstep⟩) ⟨.init,.init⟩ hg h
  refine ⟨hinv.1.atMost,?_⟩
  rintro pre c run payload mid w post hlog hcons rfl
  by_contra hw
  have harrived : ⟨w.call,run,.arrived payload⟩ ∈ s.log := by simp [hlog]
  obtain rfl : w.run = run := hinv.2.oneRun w (by simp [hlog]) _ harrived rfl
  exact hinv.1.writes _ w post hlog (by simpa using hw) pre payload mid rfl hcons

/-- The services in a run with a breach; a write makes a draft with this reference. -/
def breachOutside (draftRef : String) : Outside :=
  ⟨.ok (gatewayAnswer "1 open AML exception for Northwind; amount $12,500.00" "$12,500.00"),
    fun _ => draftedAttempt draftRef⟩

/-- A run that stops at the approval gate. -/
def pausedSchedule : List (Action (Fin 3)) :=
  [.start startCall "run_1" "aml?" "Northwind" "2026-Q2" priyaBearer] ++
  advances startCall (breachOutside "") 4 ++ List.replicate 4 (.save startCall) ++
  advances startCall (breachOutside "") 1

/-- An approval: the snapshot, the checkpoint, both nodes, and the end of the loop. -/
def approvedBy (c : Fin 3) (draftRef : String) : List (Action (Fin 3)) :=
  [.resume c "run_1" ⟨.bool true,.null,.null⟩] ++ advances c (breachOutside draftRef) 5 ++
  List.replicate 2 (.save c) ++ advances c (breachOutside draftRef) 1

/-- Two approvals, one after the other. -/
def replayedSchedule : List (Action (Fin 3)) :=
  pausedSchedule ++ approvedBy firstResume "SAR-2026-000001" ++
  [.resume secondResume "run_1" ⟨.bool true,.null,.null⟩] ++
  advances secondResume (breachOutside "SAR-2026-000002") 1

/-- Two approvals that both read the checkpoint of the pause. -/
def overlappingSchedule : List (Action (Fin 3)) :=
  pausedSchedule ++
  [.resume firstResume "run_1" ⟨.bool true,.null,.null⟩,
    .resume secondResume "run_1" ⟨.bool true,.null,.null⟩] ++
  advances firstResume (breachOutside "SAR-2026-000001") 2 ++
  advances secondResume (breachOutside "SAR-2026-000002") 2 ++
  advances firstResume (breachOutside "SAR-2026-000001") 3 ++
  advances secondResume (breachOutside "SAR-2026-000002") 3

/-- Overlapping resumes make two drafts of one run. -/
theorem overlapping_resumes_draft_twice : ∃ (acts : List (Action (Fin 3))) (s : Agent (Fin 3) ℚ),
    Transition.run (Agent.step exactConfig) Agent.init acts = some s ∧
    (∀ act ∈ acts, ∀ c, act ≠ .kill c) ∧
    (s.draftsOf "run_1").map SarDraft.draftRef = ["SAR-2026-000001","SAR-2026-000002"] := by
  have hrun : (Transition.run (Agent.step exactConfig) Agent.init overlappingSchedule).map
      (fun s => (s.draftsOf "run_1").map SarDraft.draftRef) =
      some ["SAR-2026-000001","SAR-2026-000002"] := by decide +kernel
  obtain ⟨s,hs,hdrafts⟩ := Option.map_eq_some_iff.mp hrun
  refine ⟨overlappingSchedule,s,hs,?_,hdrafts⟩
  simp [overlappingSchedule,pausedSchedule,advances]

theorem single_use_replayedSchedule : ∃ s : Agent (Fin 3) ℚ,
    Transition.run (Agent.step exactConfig) Agent.init replayedSchedule = some s ∧
    (s.draftsOf "run_1").map SarDraft.draftRef = ["SAR-2026-000001"] ∧
    ∀ run, (s.draftsOf run).length ≤ 1 := by
  have hrun : (Transition.run (Agent.step exactConfig) Agent.init replayedSchedule).map
      (fun s => (s.draftsOf "run_1").map SarDraft.draftRef) = some ["SAR-2026-000001"] := by
    decide +kernel
  obtain ⟨s,hs,hdrafts⟩ := Option.map_eq_some_iff.mp hrun
  have hg : Transition.Guarded (Agent.step exactConfig) Exclusive Agent.init replayedSchedule := by
    decide +kernel
  exact ⟨s,hs,hdrafts,(single_use hg hs).1⟩

end AtlasCompliance.Agents
