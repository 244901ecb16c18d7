import AtlasCompliance.Agents.Decision

/-! The retries of the governed write: which attempts one execution of `act_sar` makes, which of them can
have reached the tool server, and how the last one decides the status. -/
namespace AtlasCompliance.Agents
open Python McpTools

section Attempts
variable {F : Type}

/-- The `try` block of one attempt. -/
def tried (py : Runtime F) (s : AgentState F) (a : Attempt) : Except CallError (AgentState F) :=
  match a.token with
  | .error e => .error e.asCallError
  | .ok _ => match McpClient.openDraftSar py a with
    | .error e => .error e
    | .ok result => (actOutput s result).mapError .python

/-- The connection was refused, by the Gateway or by the tool server. -/
def refusedConnection (py : Runtime F) (s : AgentState F) (a : Attempt) : Bool :=
  match tried py s a with
  | .error (.connectError _) => true
  | .error (.http _) | .error (.mcp _) | .error (.python _) | .error (.unspecified _) | .ok _ => false

/-- The request for `tools/call` may have reached the server: there was a token and a session, and the
connection was not refused. -/
def Attempt.mayHaveReached (a : Attempt) : Bool :=
  a.token.isOk && a.sent && match a.call with
    | .error (.connectError _) => false
    | .error (.other _) | .ok _ => true

/-- What an attempt does outside the graph. -/
def Attempt.does (s : AgentState F) (args : SarArgs) (a : Attempt) : List Effect :=
  match a.token with
  | .error _ => [.mint s.caller none]
  | .ok token => [.mint s.caller (some token),
      .openDraftSar token s.runId args (a.row s.runId args)]

/-- A refused connection reached nothing: of the steps of an attempt only the three requests can be
refused, and the third one is the call of the tool. -/
theorem mayHaveReached_of_refused {py : Runtime F} {s : AgentState F} {a : Attempt}
    (h : refusedConnection py s a = true) : a.mayHaveReached = false := by
  unfold refusedConnection tried at h
  cases htoken : a.token with
  | error e => simp [Attempt.mayHaveReached,htoken,Except.isOk,Except.toBool]
  | ok token =>
    rw [htoken] at h
    cases hsession : McpClient.openSession a with
    | error e => simp [Attempt.mayHaveReached,Attempt.sent,hsession,Except.isOk,Except.toBool]
    | ok session =>
      cases hcall : a.call with
      | error e =>
        cases e with
        | connectError m => simp [Attempt.mayHaveReached,hcall]
        | other m =>
          simp [McpClient.openDraftSar,McpClient.rpc,hsession,hcall,bind,Except.bind,
            HttpError.asCallError] at h
      | ok message =>
        exfalso
        have hopen : ∀ m, McpClient.openDraftSar py a ≠ .error (.connectError m) := by
          intro m
          simp only [McpClient.openDraftSar,McpClient.rpc,hsession,hcall]
          exact bind_ne_connectError (by simp) fun _ =>
            bind_ne_connectError (rpcResult_ne_connectError message m) fun result =>
              output_ne_connectError py result m
        cases hout : McpClient.openDraftSar py a with
        | error e =>
          cases e with
          | connectError m => exact hopen m hout
          | http _ | mcp _ | python _ | unspecified _ => simp [hout] at h
        | ok result =>
          cases hresult : actOutput s result with
          | error e => simp [hout,hresult,Except.mapError] at h
          | ok t => simp [hout,hresult,Except.mapError] at h

/-- The attempts of one execution: all but the last found the connection refused, and the last one
decides the state that is returned. -/
structure Attempts (py : Runtime F) (outside : ℕ → Attempt) (s : AgentState F) (args : SarArgs)
    (i n : ℕ) (out : AgentState F × List Effect) (k : ℕ) : Prop where
  pos : 0 < k
  bounded : k ≤ n
  effects : out.2 = (List.range k).flatMap fun j => (outside (i+j)).does s args
  refused : ∀ j, j + 1 < k → refusedConnection py s (outside (i+j)) = true
  completed : ∀ t, tried py s (outside (i+(k-1))) = .ok t → out.1 = t
  failed : ∀ e, tried py s (outside (i+(k-1))) = .error e → ∃ e', out.1 = actFailed s e'

/-- A single attempt that is not tried again. -/
theorem Attempts.last {py : Runtime F} {outside : ℕ → Attempt} {s r : AgentState F} {args : SarArgs}
    {i n : ℕ} (hok : ∀ t, tried py s (outside i) = .ok t → r = t)
    (herror : ∀ e, tried py s (outside i) = .error e → ∃ e', r = actFailed s e') :
    Attempts py outside s args i (n+1) (r,(outside i).does s args) 1 where
  pos := Nat.one_pos
  bounded := Nat.le_add_left 1 n
  effects := by simp
  refused j hj := absurd hj (by omega)
  completed := hok
  failed := herror

/-- A refused attempt before the others. -/
theorem Attempts.cons {py : Runtime F} {outside : ℕ → Attempt} {s : AgentState F} {args : SarArgs}
    {i n k : ℕ} {out : AgentState F × List Effect}
    (hrefused : refusedConnection py s (outside i) = true)
    (h : Attempts py outside s args (i+1) n out k) :
    Attempts py outside s args i (n+1) (out.1,(outside i).does s args ++ out.2) (k+1) where
  pos := Nat.succ_pos k
  bounded := Nat.succ_le_succ h.bounded
  effects := by
    rw [h.effects,List.range_succ_eq_map,List.flatMap_cons,List.flatMap_map]
    simp only [Nat.add_zero,Nat.succ_eq_add_one,Nat.add_assoc,Nat.add_comm 1]
  refused j hj := by
    cases j with
    | zero => exact hrefused
    | succ j =>
      have hlater := h.refused j (by omega)
      rwa [show i + (j + 1) = i + 1 + j by omega]
  completed := by
    have hpos := h.pos
    rw [show i + (k + 1 - 1) = i + 1 + (k - 1) by omega]
    exact h.completed
  failed := by
    have hpos := h.pos
    rw [show i + (k + 1 - 1) = i + 1 + (k - 1) by omega]
    exact h.failed

theorem actLoop_of_refused {py : Runtime F} {outside : ℕ → Attempt} {s : AgentState F}
    {args : SarArgs} {n i : ℕ} {lastError : Option CallError}
    (h : refusedConnection py s (outside i) = true) :
    ∃ e, actLoop py outside s args (n+1) i lastError =
      ((actLoop py outside s args n (i+1) (some e)).1,
        (outside i).does s args ++ (actLoop py outside s args n (i+1) (some e)).2) := by
  unfold refusedConnection tried at h
  rw [actLoop,Attempt.does]
  cases htoken : (outside i).token with
  | error e =>
    cases e with
    | connectError m => exact ⟨_,rfl⟩
    | other m => simp [htoken,HttpError.asCallError] at h
  | ok token =>
    rw [htoken] at h
    cases hcall : McpClient.openDraftSar py (outside i) with
    | error e =>
      cases e with
      | connectError m => exact ⟨_,rfl⟩
      | http _ | mcp _ | python _ | unspecified _ => simp [hcall] at h
    | ok result =>
      cases hout : actOutput s result with
      | error e => simp [hcall,hout,Except.mapError] at h
      | ok t => simp [hcall,hout,Except.mapError] at h

theorem actLoop_of_not_refused {py : Runtime F} {outside : ℕ → Attempt} {s : AgentState F}
    {args : SarArgs} {n i : ℕ} {lastError : Option CallError}
    (h : refusedConnection py s (outside i) = false) :
    ∃ r, actLoop py outside s args (n+1) i lastError = (r,(outside i).does s args) ∧
      (∀ t, tried py s (outside i) = .ok t → r = t) ∧
      ∀ e, tried py s (outside i) = .error e → ∃ e', r = actFailed s e' := by
  unfold refusedConnection tried at h
  rw [actLoop,Attempt.does]
  unfold tried
  cases htoken : (outside i).token with
  | error e =>
    cases e with
    | connectError m => simp [htoken,HttpError.asCallError] at h
    | other m => exact ⟨_,rfl,by simp,fun _ _ => ⟨_,rfl⟩⟩
  | ok token =>
    rw [htoken] at h
    cases hcall : McpClient.openDraftSar py (outside i) with
    | error e =>
      cases e with
      | connectError m => simp [hcall] at h
      | http _ | mcp _ | python _ | unspecified _ => exact ⟨_,rfl,by simp,fun _ _ => ⟨_,rfl⟩⟩
    | ok result =>
      cases hout : actOutput s result with
      | error e =>
        refine ⟨actFailed s (.python e),?_,?_,fun _ _ => ⟨_,rfl⟩⟩
        · simp only [hout]
        · simp [hout,Except.mapError]
      | ok t =>
        refine ⟨t,?_,?_,?_⟩
        · simp only [hout]
        · simp [hout,Except.mapError]
        · simp [hout,Except.mapError]

/-- The loop makes the attempts in order and stops with the first that is not refused. -/
theorem actLoop_attempts (py : Runtime F) (outside : ℕ → Attempt) (s : AgentState F) (args : SarArgs)
    (n i : ℕ) (lastError : Option CallError) :
    ∃ k, Attempts py outside s args i (n+1) (actLoop py outside s args (n+1) i lastError) k := by
  induction n generalizing i lastError with
  | zero =>
    cases h : refusedConnection py s (outside i) with
    | true =>
      obtain ⟨e,hloop⟩ := @actLoop_of_refused F py outside s args 0 i lastError h
      rw [hloop]
      refine ⟨1,?_⟩
      have hlast := @Attempts.last F py outside s (actFailed s e) args i 0 (fun t ht => ?_)
        (fun _ _ => ⟨e,rfl⟩)
      · simpa [actLoop] using hlast
      · unfold refusedConnection at h
        rw [ht] at h
        cases h
    | false =>
      obtain ⟨r,hloop,hok,herror⟩ := @actLoop_of_not_refused F py outside s args 0 i lastError h
      rw [hloop]
      exact ⟨1,.last hok herror⟩
  | succ n ih =>
    cases h : refusedConnection py s (outside i) with
    | true =>
      obtain ⟨e,hloop⟩ := @actLoop_of_refused F py outside s args (n+1) i lastError h
      obtain ⟨k,hk⟩ := ih (i+1) (some e)
      rw [hloop]
      exact ⟨k+1,hk.cons h⟩
    | false =>
      obtain ⟨r,hloop,hok,herror⟩ := @actLoop_of_not_refused F py outside s args (n+1) i lastError h
      rw [hloop]
      exact ⟨1,.last hok herror⟩

/-- A state that an attempt returns is completed. -/
theorem status_of_tried {py : Runtime F} {s t : AgentState F} {a : Attempt}
    (h : tried py s a = .ok t) : t.status = some .COMPLETED := by
  unfold tried at h
  cases htoken : a.token with
  | error e => simp [htoken] at h
  | ok token =>
    rw [htoken] at h
    cases hcall : McpClient.openDraftSar py a with
    | error e => simp [hcall] at h
    | ok result =>
      cases hout : actOutput s result with
      | error e => simp [hcall,hout,Except.mapError] at h
      | ok r =>
        obtain rfl : r = t := by simpa [hcall,hout,Except.mapError] using h
        simp only [actOutput,bind_eq_ok,pure,Except.pure,Except.ok.injEq] at hout
        obtain ⟨_,-,_,-,_,-,rfl⟩ := hout
        rfl

/-- One execution of `act_sar`, whatever its attempts meet: it makes at least one and at most
`max(1, retries + 1)` of them, only the last can have reached the tool's server, and the status is
COMPLETED exactly when the last one returned, and FAILED otherwise. -/
theorem bounded_retry (py : Runtime F) (retries : ℤ) (outside : ℕ → Attempt) {s : AgentState F}
    {proposed : ProposedAction} (hproposed : s.proposedAction = some proposed) :
    ∃ r effects k, actSarNode py retries outside s = .ok (r,effects) ∧
      effects = (List.range k).flatMap (fun j => (outside j).does s proposed.args) ∧
      1 ≤ k ∧ (k : ℤ) ≤ max 1 (retries + 1) ∧
      ((List.range k).filter fun j => (outside j).mayHaveReached).length ≤ 1 ∧
      (∀ j < k, (outside j).mayHaveReached = true → j + 1 = k) ∧
      (r.status = some .COMPLETED ↔ ∃ t, tried py s (outside (k-1)) = .ok t) ∧
      (r.status = some .FAILED ↔ ∃ e, tried py s (outside (k-1)) = .error e) := by
  obtain ⟨n,hn⟩ : ∃ n, (max 1 (retries + 1)).toNat = n + 1 :=
    Nat.exists_eq_add_one.mpr (by omega)
  obtain ⟨k,hk⟩ := actLoop_attempts py outside s proposed.args n 0 none
  have hnode : actSarNode py retries outside s =
      .ok (actLoop py outside s proposed.args (n+1) 0 none) := by
    rw [actSarNode,hproposed,hn]
  generalize actLoop py outside s proposed.args (n+1) 0 none = out at hk hnode
  obtain ⟨r,effects⟩ := out
  have hpos := hk.pos
  have hbounded := hk.bounded
  have hcompleted := hk.completed
  have hfailed := hk.failed
  simp only [Nat.zero_add] at hcompleted hfailed
  have hbefore : ∀ j < k, (outside j).mayHaveReached = true → j + 1 = k := by
    intro j hj hreached
    by_contra hne
    have hrefused := hk.refused j (by omega)
    rw [Nat.zero_add] at hrefused
    rw [mayHaveReached_of_refused hrefused] at hreached
    cases hreached
  refine ⟨r,effects,k,hnode,by simpa using hk.effects,hpos,by omega,?_,hbefore,?_,?_⟩
  · obtain ⟨m,rfl⟩ := Nat.exists_eq_add_one.mpr hpos
    have hnone : (List.range m).filter (fun j => (outside j).mayHaveReached) = [] := by
      refine List.filter_eq_nil_iff.mpr fun j hj hreached => ?_
      have hlt := List.mem_range.mp hj
      have hlast := hbefore j (by omega) hreached
      omega
    rw [List.range_succ,List.filter_append,hnone,List.nil_append]
    exact List.length_filter_le _ _
  · cases htried : tried py s (outside (k-1)) with
    | ok t =>
      obtain rfl := hcompleted t htried
      simp [status_of_tried htried]
    | error e =>
      obtain ⟨e',rfl⟩ := hfailed e htried
      simp [actFailed]
  · cases htried : tried py s (outside (k-1)) with
    | ok t =>
      obtain rfl := hcompleted t htried
      simp [status_of_tried htried]
    | error e =>
      obtain ⟨e',rfl⟩ := hfailed e htried
      simp [actFailed]

end Attempts

/-- The tool server refuses the connection after it gave a session. -/
def refusedAttempt : Attempt := {draftedAttempt "" with
  call := .error (.connectError "connection refused")
  draft := none
  refused := by simp}

/-- A run with an approved proposal. -/
def approvedRun : AgentState ℚ := {northwindRun with
  proposedAction := some ⟨OPEN_DRAFT_SAR,
    ⟨"Northwind","2026-Q2","Detected amount exceeds the reporting threshold.",[.num 1]⟩⟩}

theorem bounded_retry_refused : ∃ proposed, approvedRun.proposedAction = some proposed ∧
    ∃ r effects k, actSarNode exactRuntime 2
        (fun i => if i = 0 then refusedAttempt else draftedAttempt "SAR-2026-000001") approvedRun =
          .ok (r,effects) ∧ k ≤ 3 ∧ (r.status = some .COMPLETED ↔ ∃ t, tried exactRuntime approvedRun
            (if k - 1 = 0 then refusedAttempt else draftedAttempt "SAR-2026-000001") = .ok t) := by
  obtain ⟨r,effects,k,hnode,-,-,hk,-,-,hstatus,-⟩ := bounded_retry exactRuntime 2
    (fun i => if i = 0 then refusedAttempt else draftedAttempt "SAR-2026-000001")
    (rfl : approvedRun.proposedAction = some _)
  exact ⟨_,rfl,r,effects,k,hnode,by omega,hstatus⟩

end AtlasCompliance.Agents
