import AtlasCompliance.McpTools.DraftSarTool

/-! The governed write under every interleaving of calls and every failure point: what the two
tables say about each other and about the calls that wrote them. -/
namespace AtlasCompliance.McpTools
open Java AuditHasher AuditChainVerifier

def TxKind.phase : TxKind → AuditPhase
  | .attempt => .attempt
  | .denied => .denied
  | .draft => .success
  | .error => .error

/-- What the audit row of one transaction of a call says. -/
structure Request.RowOf (sha : Sha256) (q : Request) (k : TxKind) (r : AuditRecord) : Prop where
  runId : q.args.runId = some r.runId
  tool : r.tool = DraftSarTool.TOOL
  phase : r.phase = k.phase
  caller : r.caller = q.id.caller
  clearance : r.clearance = q.id.clearance
  argsDigest : r.argsDigest = q.argsDigest sha
  resultRef : k ≠ .draft → r.resultRef = none

/-- The draft row holds the arguments of the call. -/
def Request.DraftOf (sha : Sha256) (q : Request) (d : SarDraft) : Prop :=
  SarDraftService.row (q.draftArgs sha) d.draftRef d.createdAt = some d

/-- A transaction ready to commit writes one audit row of its call, and a draft row exactly when it
is the draft transaction. -/
theorem Tx.rowOf {sha : Sha256} {t : Tx} {q : Request} {k : TxKind} {a : AppendArgs}
    {r : AuditRecord} (hjob : t.job = DraftSarTool.job sha q k) (ha : t.Appends a) (hm : a.Matches r) :
    q.RowOf sha k r ∧ (k ≠ .draft → t.draftRows = []) ∧
      (k = .draft → ∃ d, t.draftRows = [d] ∧ q.DraftOf sha d ∧ r.resultRef = some d.draftRef) := by
  have happend : ∀ phase, t.job = .append (q.appendArgs sha phase) → phase = k.phase → k ≠ .draft →
      q.RowOf sha k r ∧ (k ≠ .draft → t.draftRows = []) ∧
      (k = .draft → ∃ d, t.draftRows = [d] ∧ q.DraftOf sha d ∧ r.resultRef = some d.draftRef) := by
    intro phase hj hp hk
    simp only [Tx.Appends,hj] at ha
    obtain ⟨rfl,hd⟩ := ha
    exact ⟨⟨hm.runId,hm.tool.symm,hm.phase.symm.trans hp,hm.caller.symm,hm.clearance.symm,
      hm.argsDigest.symm,fun _ => hm.resultRef.symm⟩,fun _ => hd,fun he => absurd he hk⟩
  cases k with
  | attempt => exact happend .attempt hjob rfl (by decide)
  | denied => exact happend .denied hjob rfl (by decide)
  | error => exact happend .error hjob rfl (by decide)
  | draft =>
    simp only [Tx.Appends,hjob,DraftSarTool.job] at ha
    obtain ⟨d,hd,hrow,rfl⟩ := ha
    exact ⟨⟨hm.runId,hm.tool.symm,hm.phase.symm,hm.caller.symm,hm.clearance.symm,
      hm.argsDigest.symm,fun he => absurd rfl he⟩,fun he => absurd rfl he,
      fun _ => ⟨d,hd,hrow,hm.resultRef.symm⟩⟩

namespace Db
variable {τ : Type} [DecidableEq τ]

/-- A statement either publishes the pending rows or changes nothing that is committed. -/
theorem Executed.tables {sha : Sha256} {db db' : Db τ} {id : τ} {t : Tx}
    (h : Executed sha db id t db') : db'.begun = db.begun ∧
    ((∃ r, t.next = .commit r ∧ db'.audit = db.audit ++ t.auditRows.map (id,·) ∧
        db'.drafts = db.drafts ++ t.draftRows.map (id,·) ∧ db'.committed = db.committed ++ [id] ∧
        db'.open_ = Function.update db.open_ id none) ∨
      ((∀ r, t.next ≠ .commit r) ∧ db'.audit = db.audit ∧ db'.drafts = db.drafts ∧
        db'.committed = db.committed ∧
        ∃ t', db'.open_ = Function.update db.open_ id (some t') ∧ t'.job = t.job)) := by
  cases h with
  | commit hn => exact ⟨rfl,Or.inl ⟨_,hn,rfl,rfl,rfl,rfl⟩⟩
  | nextval year hn => exact ⟨rfl,Or.inr ⟨by simp [hn],rfl,rfl,rfl,_,rfl,rfl⟩⟩
  | insertDraft hn hrow => exact ⟨rfl,Or.inr ⟨by simp [hn],rfl,rfl,rfl,_,rfl,rfl⟩⟩
  | advisoryLock hn hfree => exact ⟨rfl,Or.inr ⟨by simp [hn],rfl,rfl,rfl,_,rfl,rfl⟩⟩
  | selectHead hn => exact ⟨rfl,Or.inr ⟨by simp [hn],rfl,rfl,rfl,_,rfl,rfl⟩⟩
  | insertAudit hn => exact ⟨rfl,Or.inr ⟨by simp [hn],rfl,rfl,rfl,_,rfl,rfl⟩⟩

theorem rollback_tables {db db' : Db τ} {id : τ} {drawn : Bool}
    (h : db.rollback id drawn = some db') : db'.begun = db.begun ∧ db'.audit = db.audit ∧
      db'.drafts = db.drafts ∧ db'.committed = db.committed ∧
      db'.open_ = Function.update db.open_ id none := by
  unfold rollback at h
  obtain ⟨t,ht,h⟩ := Option.bind_eq_some_iff.mp h
  obtain rfl := Option.some.inj h
  cases drawn <;> cases t.next <;> exact ⟨rfl,rfl,rfl,rfl,rfl⟩

end Db

/-- What the committed tables say about the calls, given the requests of the calls. -/
structure Tables {κ : Type} (required : Clearance) (sha : Sha256) (db : Db (κ × TxKind))
    (request : κ → Option Request) : Prop where
  row : ∀ e ∈ db.audit, ∃ q, request e.1.1 = some q ∧ q.RowOf sha e.1.2 e.2
  draft : ∀ e ∈ db.drafts, e.1.2 = .draft ∧ (∃ q, request e.1.1 = some q ∧
    q.Authorised required ∧ q.DraftOf sha e.2) ∧
    ∃ r, (e.1,r) ∈ db.audit ∧ r.resultRef = some e.2.draftRef
  success : ∀ e ∈ db.audit, e.1.2 = .draft →
    ∃ d, (e.1,d) ∈ db.drafts ∧ e.2.resultRef = some d.draftRef
  after : ∀ pre e post, db.audit = pre ++ e::post → e.1.2 ≠ .attempt →
    (e.1.1,.attempt) ∈ pre.map Prod.fst
  exclusive : ∀ cid k k', (cid,k) ∈ db.committed → (cid,k') ∈ db.committed →
    k ≠ .attempt → k' ≠ .attempt → k = k'

namespace Tables
variable {κ : Type} {required : Clearance} {sha : Sha256} {db db' : Db (κ × TxKind)}
variable {request request' : κ → Option Request}

/-- The tables are about what is committed and about calls that stay. -/
theorem mono (h : Tables required sha db request) (haudit : db'.audit = db.audit)
    (hdrafts : db'.drafts = db.drafts) (hcommitted : db'.committed = db.committed)
    (hreq : ∀ cid q, request cid = some q → request' cid = some q) :
    Tables required sha db' request' where
  row e he := by
    obtain ⟨q,hq,hr⟩ := h.row e (haudit ▸ he)
    exact ⟨q,hreq _ _ hq,hr⟩
  draft e he := by
    obtain ⟨hk,⟨q,hq,ha,hd⟩,r,hr,href⟩ := h.draft e (hdrafts ▸ he)
    exact ⟨hk,⟨q,hreq _ _ hq,ha,hd⟩,r,haudit ▸ hr,href⟩
  success e he hk := by
    obtain ⟨d,hd,href⟩ := h.success e (haudit ▸ he) hk
    exact ⟨d,hdrafts ▸ hd,href⟩
  after pre e post he := h.after pre e post (haudit ▸ he)
  exclusive cid k k' hk hk' := h.exclusive cid k k' (hcommitted ▸ hk) (hcommitted ▸ hk')

/-- Committing the pending rows of one stage, which is the call's first terminal one or its attempt. -/
theorem commit (h : Tables required sha db request) (howners : db.audit.map Prod.fst = db.committed)
    {cid : κ} {k : TxKind} {q : Request} {r : AuditRecord} {ds : List SarDraft}
    (hq : request cid = some q) (hrow : q.RowOf sha k r) (hnone : k ≠ .draft → ds = [])
    (hsome : k = .draft → q.Authorised required ∧
      ∃ d, ds = [d] ∧ q.DraftOf sha d ∧ r.resultRef = some d.draftRef)
    (hattempt : k ≠ .attempt → (cid,.attempt) ∈ db.committed)
    (hfirst : k ≠ .attempt → ∀ k', k' ≠ .attempt → (cid,k') ∉ db.committed)
    (haudit : db'.audit = db.audit ++ [((cid,k),r)])
    (hdrafts : db'.drafts = db.drafts ++ ds.map ((cid,k),·))
    (hcommitted : db'.committed = db.committed ++ [(cid,k)]) : Tables required sha db' request where
  row e he := by
    rw [haudit] at he
    rcases List.mem_append.mp he with he | he
    · exact h.row e he
    · rw [List.mem_singleton.mp he]
      exact ⟨q,hq,hrow⟩
  draft e he := by
    rw [hdrafts] at he
    rw [haudit]
    rcases List.mem_append.mp he with he | he
    · obtain ⟨hk,hauth,x,hx,href⟩ := h.draft e he
      exact ⟨hk,hauth,x,List.mem_append_left _ hx,href⟩
    · by_cases hk : k = .draft
      · obtain ⟨hauth,d,rfl,hd,href⟩ := hsome hk
        obtain rfl : e = ((cid,k),d) := by simpa using he
        exact ⟨hk,⟨q,hq,hauth,hd⟩,r,List.mem_append_right _ (List.mem_singleton.mpr rfl),href⟩
      · simp [hnone hk] at he
  success e he hk := by
    rw [haudit] at he
    rw [hdrafts]
    rcases List.mem_append.mp he with he | he
    · obtain ⟨d,hd,href⟩ := h.success e he hk
      exact ⟨d,List.mem_append_left _ hd,href⟩
    · obtain rfl := List.mem_singleton.mp he
      obtain ⟨-,d,rfl,-,href⟩ := hsome hk
      exact ⟨d,List.mem_append_right _ (by simp),href⟩
  after pre e post he hk := by
    rw [haudit] at he
    rcases post.eq_nil_or_concat with rfl | ⟨post,last,rfl⟩
    · obtain ⟨rfl,hlast⟩ := List.append_inj' he rfl
      obtain rfl := List.singleton_inj.mp hlast
      exact howners ▸ hattempt hk
    · rw [List.concat_eq_append,← List.cons_append,← List.append_assoc] at he
      exact h.after pre e post (List.append_inj' he rfl).1 hk
  exclusive x k₁ k₂ h₁ h₂ ha hb := by
    rw [hcommitted,List.mem_append] at h₁ h₂
    cases h₁ with
    | inl old₁ => cases h₂ with
      | inl old₂ => exact h.exclusive x k₁ k₂ old₁ old₂ ha hb
      | inr new₂ =>
        obtain ⟨rfl,rfl⟩ : x = cid ∧ k₂ = k := by simpa using new₂
        exact absurd old₁ (hfirst hb k₁ ha)
    | inr new₁ => cases h₂ with
      | inl old₂ =>
        obtain ⟨rfl,rfl⟩ : x = cid ∧ k₁ = k := by simpa using new₁
        exact absurd old₂ (hfirst ha k₂ hb)
      | inr new₂ =>
        obtain ⟨-,rfl⟩ : x = cid ∧ k₁ = k := by simpa using new₁
        obtain ⟨-,rfl⟩ : x = cid ∧ k₂ = k₁ := by simpa using new₂
        rfl

end Tables

namespace Server
variable {κ : Type} {required : Clearance} {sha : Sha256}

def request (s : Server κ) (cid : κ) : Option Request := (s.calls cid).map Call.request

/-- A call that has not ended wrote no terminal row, and passed what its stage comes after. -/
structure StageOk (required : Clearance) (db : Db (κ × TxKind)) (cid : κ) (q : Request)
    (st : Stage) : Prop where
  first : ∀ k, k ≠ .attempt → (cid,k) ∉ db.committed
  attempted : st.kind ≠ .attempt → (cid,.attempt) ∈ db.committed
  authorised : st = .draft → q.Authorised required

def PcOk (required : Clearance) (db : Db (κ × TxKind)) (cid : κ) (q : Request) : CallPc → Prop
  | .opening st => StageOk required db cid q st
  | .inside st => StageOk required db cid q st
  | .ended _ => True

theorem request_of_calls {s : Server κ} {cid : κ} {c : Call} (hc : s.calls cid = some c) :
    ∀ q, s.request cid = some q → q = c.request := by
  intro q hq
  simpa [request,hc,eq_comm] using hq

/-- After a failure the call may go on to its `ERROR` append: nothing terminal was committed. -/
theorem StageOk.afterFailure {db : Db (κ × TxKind)} {cid : κ} {q : Request} {st : Stage}
    (h : StageOk required db cid q st) : PcOk required db cid q (DraftSarTool.afterFailure st) := by
  cases st with
  | draft => exact ⟨h.first,fun _ => h.attempted (by decide),fun he => absurd he (by simp)⟩
  | attempt => exact trivial
  | denied why => exact trivial
  | error why => exact trivial

/-- After the `ATTEMPT` row the call goes to the stage its own checks choose. -/
theorem pcOk_afterCommit {db : Db (κ × TxKind)} {cid : κ} {q : Request} {st : Stage} {t : Tx}
    {r : AuditRecord} (hfirst : st.kind = .attempt → ∀ k, k ≠ .attempt → (cid,k) ∉ db.committed)
    (hself : (cid,st.kind) ∈ db.committed) :
    PcOk required db cid q (DraftSarTool.afterCommit required q t r st) := by
  cases st with
  | denied why => exact trivial
  | draft =>
    simp only [DraftSarTool.afterCommit]
    exact trivial
  | error why => exact trivial
  | attempt =>
    simp only [DraftSarTool.afterCommit]
    split
    · exact ⟨hfirst rfl,fun _ => hself,fun he => absurd he (by simp)⟩
    · rename_i hrequire
      split
      · exact ⟨hfirst rfl,fun _ => hself,fun he => absurd he (by simp)⟩
      · rename_i hvalidate
        exact ⟨hfirst rfl,fun _ => hself,fun _ => ⟨hrequire,hvalidate⟩⟩

variable [DecidableEq κ]

/-- The invariant of the tool server; the schema's own invariants come with `simulated`. -/
structure Inv (required : Clearance) (sha : Sha256) (s : Server κ) : Prop where
  simulated : Transition.Reachable (Db.step sha) Db.init s.db
  begun : ∀ id ∈ s.db.begun, s.calls id.1 ≠ none
  inside : ∀ id t, s.db.open_ id = some t → ∃ q st, s.calls id.1 = some ⟨q,.inside st⟩ ∧
    st.kind = id.2 ∧ t.job = DraftSarTool.job sha q id.2
  pc : ∀ cid c, s.calls cid = some c → PcOk required s.db cid c.request c.pc
  tables : Tables required sha s.db s.request

theorem inv_init : (init : Server κ).Inv required sha where
  simulated := Transition.Reachable.refl _
  begun id h := by simp [init,Db.init] at h
  inside id t h := by simp [init,Db.init] at h
  pc cid c h := by simp [init] at h
  tables := by
    constructor <;> simp [init,Db.init]

/-- One call moves to `pc` while the schema moves to `db'`; the other calls are not affected. -/
theorem Inv.advance {s : Server κ} (h : s.Inv required sha) {cid : κ} {q : Request} {pc : CallPc}
    {db' : Db (κ × TxKind)} (hq : ∀ q', s.request cid = some q' → q' = q)
    (hsim : Transition.Reachable (Db.step sha) s.db db')
    (hbegun : ∀ id ∈ db'.begun, id ∈ s.db.begun ∨ id.1 = cid)
    (hcommitted : ∀ id, id ∈ db'.committed → id ∈ s.db.committed ∨ id.1 = cid)
    (hkept : ∀ id ∈ s.db.committed, id ∈ db'.committed)
    (hopen : ∀ id t, db'.open_ id = some t → (id.1 = cid ∧ ∃ st, pc = .inside st ∧ st.kind = id.2 ∧
      t.job = DraftSarTool.job sha q id.2) ∨ (id.1 ≠ cid ∧ s.db.open_ id = some t))
    (hpc : PcOk required db' cid q pc)
    (htables : Tables required sha db' (Function.update s.request cid (some q))) :
    ({ s with db := db' }.setCall cid q pc).Inv required sha := by
  have hreq : ({ s with db := db' }.setCall cid q pc).request =
      Function.update s.request cid (some q) := by
    funext x
    by_cases hx : x = cid <;> simp [request,setCall,hx]
  refine ⟨h.simulated.trans hsim,fun id hid => ?_,fun id t ht => ?_,fun x c hx => ?_,hreq ▸ htables⟩
  · by_cases hx : id.1 = cid
    · simp [setCall,hx]
    · simpa [setCall,hx] using h.begun id ((hbegun id hid).resolve_right hx)
  · rcases hopen id t ht with ⟨hx,st,rfl,hk,hj⟩ | ⟨hx,hold⟩
    · exact ⟨q,st,by simp [setCall,hx],hk,hj⟩
    · obtain ⟨q',st,hc,hk,hj⟩ := h.inside id t hold
      exact ⟨q',st,by simpa [setCall,hx] using hc,hk,hj⟩
  · by_cases hxc : x = cid
    · subst hxc
      obtain rfl : c = ⟨q,pc⟩ := by simpa [setCall,eq_comm] using hx
      exact hpc
    · have hold := h.pc x c (by simpa [setCall,hxc] using hx)
      have hstage : ∀ st, StageOk required s.db x c.request st →
          StageOk required db' x c.request st := fun st hs =>
        ⟨fun k hk hm => hs.first k hk ((hcommitted _ hm).resolve_right hxc),
          fun hk => hkept _ (hs.attempted hk),hs.authorised⟩
      cases hp : c.pc with
      | opening st => rw [hp] at hold; exact hstage st hold
      | inside st => rw [hp] at hold; exact hstage st hold
      | ended o => exact trivial

/-- The same, when nothing is committed on the way. -/
theorem Inv.keep {s : Server κ} (h : s.Inv required sha) {cid : κ} {q : Request} {pc : CallPc}
    (db' : Db (κ × TxKind)) (hq : ∀ q', s.request cid = some q' → q' = q)
    (hsim : Transition.Reachable (Db.step sha) s.db db')
    (hbegun : ∀ id ∈ db'.begun, id ∈ s.db.begun ∨ id.1 = cid) (haudit : db'.audit = s.db.audit)
    (hdrafts : db'.drafts = s.db.drafts) (hcommitted : db'.committed = s.db.committed)
    (hopen : ∀ id t, db'.open_ id = some t → (id.1 = cid ∧ ∃ st, pc = .inside st ∧ st.kind = id.2 ∧
      t.job = DraftSarTool.job sha q id.2) ∨ (id.1 ≠ cid ∧ s.db.open_ id = some t))
    (hpc : PcOk required s.db cid q pc) : ({ s with db := db' }.setCall cid q pc).Inv required sha := by
  refine h.advance hq hsim hbegun (fun id hid => Or.inl (hcommitted ▸ hid))
    (fun id hid => hcommitted.symm ▸ hid) hopen ?_ ?_
  · cases pc with
    | opening st => exact ⟨hcommitted ▸ hpc.first,hcommitted ▸ hpc.attempted,hpc.authorised⟩
    | inside st => exact ⟨hcommitted ▸ hpc.first,hcommitted ▸ hpc.attempted,hpc.authorised⟩
    | ended o => exact trivial
  · refine h.tables.mono haudit hdrafts hcommitted fun x q' hx => ?_
    by_cases hxc : x = cid
    · subst hxc
      simp [hq q' hx]
    · simpa [hxc] using hx

/-- Only the transaction of the call's own stage can be open for it. -/
theorem Inv.open_of_ne {s : Server κ} (h : s.Inv required sha) {cid : κ} {q : Request} {st : Stage}
    (hc : s.calls cid = some ⟨q,.inside st⟩) {id : κ × TxKind} {t : Tx}
    (ht : s.db.open_ id = some t) (hne : id ≠ (cid,st.kind)) : id.1 ≠ cid := by
  intro hid
  obtain ⟨q',st',hc',hk,-⟩ := h.inside id t ht
  rw [hid,hc] at hc'
  obtain ⟨-,rfl⟩ : q = q' ∧ st = st' := by simpa using hc'
  exact hne (Prod.ext hid hk.symm)

/-- No transaction is open for a call outside its stages. -/
theorem Inv.open_of_not_inside {s : Server κ} (h : s.Inv required sha) {cid : κ}
    (hc : ∀ q st, s.calls cid ≠ some ⟨q,.inside st⟩) {id : κ × TxKind} {t : Tx}
    (ht : s.db.open_ id = some t) : id.1 ≠ cid := by
  intro hid
  obtain ⟨q,st,hc',-⟩ := h.inside id t ht
  exact hc q st (hid ▸ hc')

/-- A rollback leaves the call outside its stages. -/
theorem Inv.rolledBack {s : Server κ} (h : s.Inv required sha) {cid : κ} {q : Request} {st : Stage}
    {pc : CallPc} {drawn : Bool} {db' : Db (κ × TxKind)} (hc : s.calls cid = some ⟨q,.inside st⟩)
    (hr : s.db.rollback (cid,st.kind) drawn = some db') (hpc : PcOk required s.db cid q pc) :
    ({ s with db := db' }.setCall cid q pc).Inv required sha := by
  obtain ⟨hbegun,haudit,hdrafts,hcommitted,hopen⟩ := Db.rollback_tables hr
  refine h.keep _ (request_of_calls hc)
    (Transition.Reachable.single (a := .rollback (cid,st.kind) drawn) hr)
    (fun id hid => Or.inl (hbegun ▸ hid)) haudit hdrafts hcommitted (fun id t ht => ?_) hpc
  rw [hopen] at ht
  by_cases hid : id = (cid,st.kind)
  · simp [hid] at ht
  · have hold : s.db.open_ id = some t := by simpa [hid] using ht
    exact Or.inr ⟨h.open_of_ne hc hold hid,hold⟩

/-- The commit of a stage. -/
theorem Inv.committedStage {s : Server κ} (h : s.Inv required sha) {cid : κ} {q : Request} {st : Stage}
    {t : Tx} {r : AuditRecord} {clock : Clock} {db' : Db (κ × TxKind)}
    (hc : s.calls cid = some ⟨q,.inside st⟩) (ht : s.db.open_ (cid,st.kind) = some t)
    (hn : t.next = .commit r) (he : s.db.exec sha (cid,st.kind) clock = some db') :
    ({ s with db := db' }.setCall cid q (DraftSarTool.afterCommit required q t r st)).Inv
      required sha := by
  have hdb := Db.inv_reachable h.simulated
  have hok := hdb.tx _ t ht
  simp only [Db.TxOk,hn] at hok
  obtain ⟨a,ha,hm,hrows,-,-⟩ := hok
  obtain ⟨t',ht',hexec⟩ := Db.exec_cases he
  obtain rfl : t = t' := Option.some.inj (ht.symm.trans ht')
  obtain ⟨hbegun,⟨_,-,haudit,hdrafts,hcommitted,hopen⟩ | ⟨hnot,-⟩⟩ := hexec.tables
  case inr => exact absurd hn (hnot r)
  rw [hrows] at haudit
  obtain ⟨q',st',hc',hk,hjob⟩ := h.inside _ t ht
  obtain ⟨rfl,rfl⟩ : q = q' ∧ st = st' := by simpa [hc] using hc'
  obtain ⟨hrow,hnone,hsome⟩ := Tx.rowOf hjob ha hm
  have hstage : StageOk required s.db cid q st := h.pc cid _ hc
  have hfirst : st.kind ≠ .attempt → ∀ k, k ≠ .attempt → (cid,k) ∉ s.db.committed :=
    fun _ => hstage.first
  refine h.advance (request_of_calls hc) (Transition.Reachable.single (a := .exec (cid,st.kind) clock) he)
    (fun id hid => Or.inl (hbegun ▸ hid)) (fun id hid => ?_)
    (fun id hid => hcommitted ▸ List.mem_append_left _ hid) (fun id u hu => ?_) ?_ ?_
  · rcases List.mem_append.mp (hcommitted ▸ hid) with hid | hid
    · exact Or.inl hid
    · exact Or.inr (by rw [List.mem_singleton.mp hid])
  · rw [hopen] at hu
    by_cases hid : id = (cid,st.kind)
    · simp [hid] at hu
    · have hold : s.db.open_ id = some u := by simpa [hid] using hu
      exact Or.inr ⟨h.open_of_ne hc hold hid,hold⟩
  · refine pcOk_afterCommit (fun hkind k hk hmem => ?_) (by simp [hcommitted])
    rcases List.mem_append.mp (hcommitted ▸ hmem) with hmem | hmem
    · exact hstage.first k hk hmem
    · obtain rfl : k = st.kind := by simpa using hmem
      exact hk hkind
  · have hreq : s.request cid = some q := by simp [request,hc]
    rw [show Function.update s.request cid (some q) = s.request by
      rw [← hreq,Function.update_eq_self]]
    refine h.tables.commit hdb.owners hreq hrow hnone (fun hdraft => ⟨?_,hsome hdraft⟩)
      hstage.attempted hfirst (by simpa using haudit) hdrafts hcommitted
    exact hstage.authorised (by cases st <;> simp_all [Stage.kind])

/-- A statement inside a stage, other than its commit. -/
theorem Inv.statement {s : Server κ} (h : s.Inv required sha) {cid : κ} {q : Request} {st : Stage}
    {t : Tx} {clock : Clock} {db' : Db (κ × TxKind)} (hc : s.calls cid = some ⟨q,.inside st⟩)
    (ht : s.db.open_ (cid,st.kind) = some t) (hn : ∀ r, t.next ≠ .commit r)
    (he : s.db.exec sha (cid,st.kind) clock = some db') : ({ s with db := db' }).Inv required sha := by
  obtain ⟨t₁,ht₁,hexec⟩ := Db.exec_cases he
  obtain rfl : t = t₁ := Option.some.inj (ht.symm.trans ht₁)
  obtain ⟨hbegun,⟨r,hr,-⟩ | ⟨-,haudit,hdrafts,hcommitted,t',hopen,hjob⟩⟩ := hexec.tables
  case inl => exact absurd hr (hn r)
  obtain ⟨q₁,st₁,hc₁,-,hjob₁⟩ := h.inside _ t ht
  obtain ⟨rfl,rfl⟩ : q = q₁ ∧ st = st₁ := by simpa [hc] using hc₁
  have hsame : ({ s with db := db' }).setCall cid q (.inside st) = { s with db := db' } := by
    rw [setCall,← hc,Function.update_eq_self]
  rw [← hsame]
  refine h.keep _ (request_of_calls hc) (Transition.Reachable.single (a := .exec (cid,st.kind) clock) he)
    (fun id hid => Or.inl (hbegun ▸ hid)) haudit hdrafts hcommitted (fun id u hu => ?_) (h.pc cid _ hc)
  rw [hopen] at hu
  by_cases hid : id = (cid,st.kind)
  · subst hid
    obtain rfl : t' = u := by simpa using hu
    exact Or.inl ⟨rfl,st,rfl,rfl,hjob.trans hjob₁⟩
  · have hold : s.db.open_ id = some u := by simpa [hid] using hu
    exact Or.inr ⟨h.open_of_ne hc hold hid,hold⟩

/-- A call moves on without having opened the transaction of its stage. -/
theorem Inv.leave {s : Server κ} (h : s.Inv required sha) {cid : κ} {q : Request} {st : Stage}
    {pc : CallPc} (hc : s.calls cid = some ⟨q,.opening st⟩) (hpc : PcOk required s.db cid q pc) :
    (s.setCall cid q pc).Inv required sha :=
  h.keep s.db (request_of_calls hc) (Transition.Reachable.refl _) (fun _ hid => Or.inl hid)
    rfl rfl rfl (fun _ _ ht => Or.inr ⟨h.open_of_not_inside (by simp [hc]) ht,ht⟩) hpc

/-- One event of the tool server keeps the invariant. -/
theorem Inv.step {s s' : Server κ} {ev : Event κ} (h : s.Inv required sha)
    (hs : s.step required sha ev = some s') : s'.Inv required sha := by
  cases ev with
  | invoke cid q =>
    simp only [Server.step] at hs
    split at hs
    · rename_i hnew
      obtain rfl := Option.some.inj hs
      refine h.keep s.db (fun q' hq' => by simp [request,hnew] at hq')
        (Transition.Reachable.refl _) (fun id hid => Or.inl hid) rfl rfl rfl (fun id t ht => ?_)
        ⟨fun k hk hm => ?_,fun hk => absurd rfl hk,fun he => absurd he (by simp)⟩
      · exact Or.inr ⟨h.open_of_not_inside (by simp [hnew]) ht,ht⟩
      · exact h.begun _ ((Db.inv_reachable h.simulated).begun _ hm) hnew
    · exact absurd hs (by simp)
  | open_ cid =>
    obtain ⟨⟨q,pc⟩,hc,hs⟩ := Option.bind_eq_some_iff.mp hs
    cases pc with
    | opening st =>
      obtain ⟨db',hdb,hs⟩ := Option.bind_eq_some_iff.mp hs
      obtain rfl := Option.some.inj hs
      have hstep := hdb
      simp only [Db.step] at hdb
      split at hdb
      · exact absurd hdb (by simp)
      · obtain rfl := Option.some.inj hdb
        refine h.keep _ (request_of_calls hc) (Transition.Reachable.single hstep) (fun id hid => ?_)
          rfl rfl rfl (fun id t ht => ?_) (h.pc cid _ hc)
        · rcases List.mem_cons.mp hid with rfl | hid
          · exact Or.inr rfl
          · exact Or.inl hid
        · by_cases hid : id = (cid,st.kind)
          · subst hid
            obtain rfl : (⟨_,[],[],_⟩ : Tx) = t := by simpa [Db.setOpen] using ht
            exact Or.inl ⟨rfl,st,rfl,rfl,rfl⟩
          · have hold : s.db.open_ id = some t := by simpa [Db.setOpen,hid] using ht
            exact Or.inr ⟨h.open_of_not_inside (by simp [hc]) hold,hold⟩
    | inside st => exact absurd hs (by simp)
    | ended o => exact absurd hs (by simp)
  | exec cid clock =>
    obtain ⟨⟨q,pc⟩,hc,hs⟩ := Option.bind_eq_some_iff.mp hs
    cases pc with
    | inside st =>
      obtain ⟨t,ht,hs⟩ := Option.bind_eq_some_iff.mp hs
      obtain ⟨db',hdb,hs⟩ := Option.bind_eq_some_iff.mp hs
      cases hn : t.next with
      | commit r =>
        simp only [hn] at hs
        obtain rfl := Option.some.inj hs
        exact h.committedStage hc ht hn hdb
      | _ =>
        simp only [hn] at hs
        obtain rfl := Option.some.inj hs
        exact h.statement hc ht (by simp [hn]) hdb
    | opening st => exact absurd hs (by simp)
    | ended o => exact absurd hs (by simp)
  | fail cid drawn =>
    obtain ⟨⟨q,pc⟩,hc,hs⟩ := Option.bind_eq_some_iff.mp hs
    cases pc with
    | opening st =>
      obtain rfl := Option.some.inj hs
      exact h.leave hc (StageOk.afterFailure (h.pc cid _ hc))
    | inside st =>
      obtain ⟨db',hdb,hs⟩ := Option.bind_eq_some_iff.mp hs
      obtain rfl := Option.some.inj hs
      exact h.rolledBack hc hdb (StageOk.afterFailure (h.pc cid _ hc))
    | ended o => exact absurd hs (by simp)
  | stop cid drawn =>
    obtain ⟨⟨q,pc⟩,hc,hs⟩ := Option.bind_eq_some_iff.mp hs
    cases pc with
    | opening st =>
      obtain rfl := Option.some.inj hs
      exact h.leave hc trivial
    | inside st =>
      obtain ⟨db',hdb,hs⟩ := Option.bind_eq_some_iff.mp hs
      obtain rfl := Option.some.inj hs
      exact h.rolledBack hc hdb trivial
    | ended o => exact absurd hs (by simp)

theorem inv_reachable {s : Server κ}
    (h : Transition.Reachable (Server.step required sha) init s) : s.Inv required sha :=
  h.invariant (fun _ _ _ hi hs => hi.step hs) inv_init

theorem owners_nodup {s : Server κ} (h : s.Inv required sha) : (s.db.audit.map Prod.fst).Nodup := by
  have hdb := Db.inv_reachable h.simulated
  exact hdb.owners ▸ hdb.nodup

/-- One owner commits one audit row. -/
theorem row_unique {s : Server κ} (h : s.Inv required sha) {id : κ × TxKind} {r r' : AuditRecord}
    (hr : (id,r) ∈ s.db.audit) (hr' : (id,r') ∈ s.db.audit) : r = r' :=
  congrArg Prod.snd (List.inj_on_of_nodup_map (owners_nodup h) hr hr' rfl)

theorem refs_nodup {s : Server κ} (h : s.Inv required sha) :
    (s.db.sarDraft.map SarDraft.draftRef).Nodup := by
  obtain ⟨own,hown⟩ := Db.refsOwned_reachable h.simulated
  exact hown.nodup (Db.inv_reachable h.simulated).nodup

/-- Two drafts with one reference are one row of one call. -/
theorem draft_unique {s : Server κ} (h : s.Inv required sha) {d e : (κ × TxKind) × SarDraft}
    (hd : d ∈ s.db.drafts) (he : e ∈ s.db.drafts) (href : d.2.draftRef = e.2.draftRef) : d = e := by
  have hn := refs_nodup h
  rw [Db.sarDraft,List.map_map] at hn
  exact List.inj_on_of_nodup_map hn hd he href

/-- The `SUCCESS` rows are the rows of the draft transactions. -/
theorem success_iff {s : Server κ} (h : s.Inv required sha) {e : (κ × TxKind) × AuditRecord}
    (he : e ∈ s.db.audit) : e.2.phase = .success ↔ e.1.2 = .draft := by
  obtain ⟨q,-,hrow⟩ := h.tables.row e he
  rw [hrow.phase]
  cases e.1.2 <;> simp [TxKind.phase]

/-- Drafts and `SUCCESS` rows correspond through the reference. -/
theorem drafts_correspond {s : Server κ} (h : s.Inv required sha) :
    (∀ d ∈ s.db.sarDraft, ∃! r, r ∈ s.db.rows ∧ r.phase = .success ∧ r.resultRef = some d.draftRef) ∧
    ∀ r ∈ s.db.rows, r.phase = .success → ∃! d, d ∈ s.db.sarDraft ∧ r.resultRef = some d.draftRef := by
  constructor
  · intro d hd
    obtain ⟨⟨id,_⟩,he,rfl⟩ := List.mem_map.mp hd
    obtain ⟨hk,-,r,hr,href⟩ := h.tables.draft _ he
    refine ⟨r,⟨List.mem_map.mpr ⟨_,hr,rfl⟩,(success_iff h hr).mpr hk,href⟩,?_⟩
    rintro r' ⟨hr',hp,href'⟩
    obtain ⟨⟨id',_⟩,he',rfl⟩ := List.mem_map.mp hr'
    obtain ⟨d',hd',hd'ref⟩ := h.tables.success _ he' ((success_iff h he').mp hp)
    have hsame := draft_unique h hd' he (Option.some.inj (hd'ref.symm.trans href'))
    obtain ⟨rfl,-⟩ := Prod.ext_iff.mp hsame
    exact row_unique h he' hr
  · intro r hr hp
    obtain ⟨⟨id,_⟩,he,rfl⟩ := List.mem_map.mp hr
    obtain ⟨d,hd,href⟩ := h.tables.success _ he ((success_iff h he).mp hp)
    refine ⟨d,⟨List.mem_map.mpr ⟨_,hd,rfl⟩,href⟩,?_⟩
    rintro d' ⟨hd',href'⟩
    obtain ⟨e',he',rfl⟩ := List.mem_map.mp hd'
    exact congrArg Prod.snd (draft_unique h he' hd (Option.some.inj (href'.symm.trans href)))

/-- A row of a later stage comes after the `ATTEMPT` row of its call. -/
theorem attempt_before {s : Server κ} (h : s.Inv required sha)
    {pre post : List ((κ × TxKind) × AuditRecord)} {e : (κ × TxKind) × AuditRecord}
    (hsplit : s.db.audit = pre ++ e::post) (hk : e.1.2 ≠ .attempt) : ∃ a, ((e.1.1,.attempt),a) ∈ pre ∧
      a.phase = .attempt ∧ a.runId = e.2.runId ∧ a.argsDigest = e.2.argsDigest := by
  obtain ⟨⟨id,a⟩,ha,hid⟩ := List.mem_map.mp (h.tables.after pre e post hsplit hk)
  obtain rfl : id = (e.1.1,.attempt) := hid
  obtain ⟨q,hq,hrow⟩ := h.tables.row _ (hsplit ▸ List.mem_append_left _ ha)
  obtain ⟨q',hq',hrow'⟩ := h.tables.row e (hsplit ▸ by simp)
  obtain rfl : q = q' := Option.some.inj (hq.symm.trans hq')
  exact ⟨a,ha,hrow.phase,Option.some.inj (hrow.runId.symm.trans hrow'.runId),
    hrow.argsDigest.trans hrow'.argsDigest.symm⟩

/-- Every draft stems from an authorised call, whose `ATTEMPT` row precedes its `SUCCESS` row. -/
theorem draft_governed {s : Server κ} (h : s.Inv required sha) {e : (κ × TxKind) × SarDraft}
    (he : e ∈ s.db.drafts) : ∃ q, s.request e.1.1 = some q ∧
      (∃ c, Clearance.fromLabel q.id.clearance = some c ∧ required.rank ≤ c.rank) ∧
      SarInputValidator.validate q.args = .ok () ∧ q.DraftOf sha e.2 ∧
      ∃ pre a mid r post, s.db.rows = pre ++ a::(mid ++ r::post) ∧ a.phase = .attempt ∧
        r.phase = .success ∧ r.resultRef = some e.2.draftRef ∧ a.runId = r.runId ∧
        a.argsDigest = r.argsDigest ∧ r.argsDigest = q.argsDigest sha := by
  obtain ⟨hk,⟨q,hq,⟨hrequire,hvalidate⟩,hof⟩,r,hr,href⟩ := h.tables.draft e he
  refine ⟨q,hq,ClearanceRecheck.require_eq_ok.mp hrequire,hvalidate,hof,?_⟩
  obtain ⟨pre,post,hsplit⟩ := List.append_of_mem hr
  obtain ⟨a,ha,hphase,hrun,hdigest⟩ := attempt_before h hsplit (by simp [hk])
  obtain ⟨pre,mid,rfl⟩ := List.append_of_mem ha
  obtain ⟨q',hq',hrow⟩ := h.tables.row _ hr
  obtain rfl : q = q' := Option.some.inj (hq.symm.trans hq')
  exact ⟨pre.map Prod.snd,a,mid.map Prod.snd,r,post.map Prod.snd,by simp [Db.rows,hsplit],hphase,
    (success_iff h hr).mpr hk,href,hrun,hdigest,hrow.argsDigest⟩

theorem kind_of_phase {s : Server κ} (h : s.Inv required sha) {e : (κ × TxKind) × AuditRecord}
    (he : e ∈ s.db.audit) (hp : e.2.phase ≠ .attempt) : e.1.2 ≠ .attempt := by
  obtain ⟨q,-,hrow⟩ := h.tables.row e he
  exact fun hk => hp (by rw [hrow.phase,hk]; rfl)

/-- A call leaves at most one row besides its `ATTEMPT` row. -/
theorem terminal_le_one {s : Server κ} (h : s.Inv required sha) (cid : κ) :
    s.db.audit.countP (fun e => e.1.1 = cid ∧ e.2.phase ≠ .attempt) ≤ 1 := by
  have hdb := Db.inv_reachable h.simulated
  rw [List.countP_eq_length_filter]
  have hnodup := (owners_nodup h).sublist
    ((List.filter_sublist (p := fun e => decide (e.1.1 = cid ∧ e.2.phase ≠ .attempt))).map Prod.fst)
  match hf : s.db.audit.filter (fun e => decide (e.1.1 = cid ∧ e.2.phase ≠ .attempt)) with
  | [] => rw [hf]; exact Nat.zero_le _
  | [x] => rw [hf]; exact le_rfl
  | x::y::rest =>
    have hmem : ∀ e ∈ x::y::rest, e.1.1 = cid ∧ (cid,e.1.2) ∈ s.db.committed ∧ e.1.2 ≠ .attempt := by
      intro e he
      rw [← hf,List.mem_filter] at he
      obtain ⟨hcid,hp⟩ := of_decide_eq_true he.2
      exact ⟨hcid,hdb.owners ▸ List.mem_map.mpr ⟨e,he.1,Prod.ext hcid rfl⟩,kind_of_phase h he.1 hp⟩
    obtain ⟨hx,hxc,hxk⟩ := hmem x (by simp)
    obtain ⟨hy,hyc,hyk⟩ := hmem y (by simp)
    have hsame : x.1 = y.1 := Prod.ext (hx.trans hy.symm) (h.tables.exclusive cid _ _ hxc hyc hxk hyk)
    rw [hf] at hnodup
    simp [hsame] at hnodup

/-- The governed write, after any interleaving of calls and any failures. -/
theorem governedWrite {s : Server κ}
    (h : Transition.Reachable (Server.step required sha) init s) :
    ((∀ d ∈ s.db.sarDraft, ∃! r, r ∈ s.db.toolAudit ∧ r.phase = .success ∧
        r.resultRef = some d.draftRef) ∧
      ∀ r ∈ s.db.toolAudit, r.phase = .success →
        ∃! d, d ∈ s.db.sarDraft ∧ r.resultRef = some d.draftRef) ∧
    (∀ e ∈ s.db.drafts, ∃ q, s.request e.1.1 = some q ∧
      (∃ c, Clearance.fromLabel q.id.clearance = some c ∧ required.rank ≤ c.rank) ∧
      SarInputValidator.validate q.args = .ok () ∧ q.DraftOf sha e.2 ∧
      ∃ pre a mid r post, s.db.toolAudit = pre ++ a::(mid ++ r::post) ∧ a.phase = .attempt ∧
        r.phase = .success ∧ r.resultRef = some e.2.draftRef ∧ a.runId = r.runId ∧
        a.argsDigest = r.argsDigest ∧ r.argsDigest = q.argsDigest sha) ∧
    ((∀ cid, s.db.audit.countP (fun e => e.1.1 = cid ∧ e.2.phase ≠ .attempt) ≤ 1) ∧
      (∀ e ∈ s.db.audit, e.2.phase ∈ [.attempt,.denied,.success,.error]) ∧
      s.db.audit.map Prod.snd = s.db.toolAudit ∧
      ∀ pre e post, s.db.audit = pre ++ e::post → e.2.phase ≠ .attempt →
        ∃ a ∈ pre, a.1.1 = e.1.1 ∧ a.2.phase = .attempt) ∧
    (s.db.sarDraft.map SarDraft.draftRef).Nodup ∧
    (verifyChain sha s.db.toolAudit).valid = true := by
  have hi := inv_reachable h
  have hdb := Db.inv_reachable hi.simulated
  rw [Db.toolAudit_eq hdb]
  refine ⟨drafts_correspond hi,fun e he => draft_governed hi he,⟨terminal_le_one hi,?_,rfl,?_⟩,
    refs_nodup hi,(verifyChain_valid_iff sha _).mpr hdb.chain⟩
  · intro e he
    obtain ⟨q,-,hrow⟩ := hi.tables.row e he
    rw [hrow.phase]
    cases e.1.2 <;> decide
  · intro pre e post hsplit hp
    obtain ⟨a,ha,hphase,-⟩ := attempt_before hi hsplit (kind_of_phase hi (hsplit ▸ by simp) hp)
    exact ⟨_,ha,rfl,hphase⟩

/-- The real SHA-256 on the three texts that one successful call hashes. -/
def draftSha : Sha256 := Sha256.table
  [("ACC-1\u001f2026-Q2\u001fbreach\u001f[1]",
      [159,182,34,205,235,4,8,84,74,114,118,196,29,162,94,83,
      199,140,88,177,1,127,197,58,76,167,112,198,18,171,22,150]),
    ("0000000000000000000000000000000000000000000000000000000000000000\u001f2026-06-21T10:00:00Z\u001frun-" ++
      "1\u001fopen_draft_sar\u001fATTEMPT\u001fpriya\u001fcompliance\u001f9fb622cdeb0408544a7276c41da25e53c78c58b1017fc53a" ++
      "4ca770c612ab1696\u001f",
      [161,113,210,20,89,154,79,34,58,231,77,109,96,157,114,162,
      182,209,42,183,78,114,101,203,125,73,198,190,102,140,89,162]),
    ("a171d214599a4f223ae74d6d609d72a2b6d12ab74e7265cb7d49c6be668c59a2\u001f2026-06-21T10:00:00Z\u001frun-" ++
      "1\u001fopen_draft_sar\u001fSUCCESS\u001fpriya\u001fcompliance\u001f9fb622cdeb0408544a7276c41da25e53c78c58b1017fc53a" ++
      "4ca770c612ab1696\u001fSAR-2026-000001",
      [162,43,116,36,172,137,18,43,152,237,17,179,143,230,215,126,
      236,231,239,202,41,136,21,111,246,250,143,104,154,209,229,211])]

/-- One call of a compliance officer, from its first statement to its last commit. -/
def draftSchedule : List (Event ℕ) :=
  let clock : Clock := ⟨plainRow.ts,2026⟩
  [.invoke 0 ⟨⟨some "ACC-1",some "2026-Q2",some "breach",some [some 1],some "run-1"⟩,
      ⟨"priya","compliance"⟩⟩,
    .open_ 0] ++ List.replicate 4 (.exec 0 clock) ++ [.open_ 0] ++ List.replicate 6 (.exec 0 clock)

theorem governedWrite_draftSchedule : ∃ s : Server ℕ,
    Transition.run (Server.step .COMPLIANCE draftSha) init draftSchedule = some s ∧
    s.db.sarDraft.map SarDraft.draftRef = ["SAR-2026-000001"] ∧
    (∀ d ∈ s.db.sarDraft, ∃! r, r ∈ s.db.toolAudit ∧ r.phase = .success ∧
      r.resultRef = some d.draftRef) ∧ (verifyChain draftSha s.db.toolAudit).valid = true := by
  have hrun : (Transition.run (Server.step .COMPLIANCE draftSha) init draftSchedule).map
      (fun s => s.db.sarDraft.map SarDraft.draftRef) = some ["SAR-2026-000001"] := by decide +kernel
  obtain ⟨s,hs,href⟩ := Option.map_eq_some_iff.mp hrun
  obtain ⟨⟨hdrafts,-⟩,-,-,-,hvalid⟩ := governedWrite ⟨draftSchedule,hs⟩
  exact ⟨s,hs,href,hdrafts,hvalid⟩

end Server
end AtlasCompliance.McpTools
