import AtlasCompliance.Lib.Transition
import AtlasCompliance.McpTools.TamperEvidence

/-! `AuditService.append` and `SarDraftService.createDraft` as transactions of several statements
under READ COMMITTED, and the hash chain after every interleaving of them. -/
namespace AtlasCompliance.McpTools
open Java AuditHasher AuditChainVerifier

/-- Arguments of `AuditService.append`; a null run id is refused by the `NOT NULL` column. -/
structure AppendArgs where
  runId : Option String
  tool : String
  phase : AuditPhase
  caller : String
  clearance : String
  argsDigest : String
  resultRef : Option String
  deriving DecidableEq, Repr

/-- One `agent.sar_draft` row; `citations` is the value of its JSON column, `createdAt` the database's
default. -/
structure SarDraft where
  draftRef : String
  account : String
  period : String
  rationale : String
  citations : Option (List (Option ℤ))
  clearance : String
  runId : String
  status : String
  createdAt : Instant
  deriving DecidableEq, Repr

/-- Arguments of `SarDraftService.createDraft`, nullable as in the source. -/
structure DraftArgs where
  account : Option String
  period : Option String
  rationale : Option String
  citations : Option (List (Option ℤ))
  runId : Option String
  caller : String
  clearance : String
  argsDigest : String
  deriving DecidableEq, Repr

/-- The stored row carries the arguments of its append. -/
structure AppendArgs.Matches (a : AppendArgs) (r : AuditRecord) : Prop where
  runId : a.runId = some r.runId
  tool : a.tool = r.tool
  phase : a.phase = r.phase
  caller : a.caller = r.caller
  clearance : a.clearance = r.clearance
  argsDigest : a.argsDigest = r.argsDigest
  resultRef : a.resultRef = r.resultRef

namespace SarDraftService

/-- `String.format("SAR-%d-%06d", year, ref)`. -/
def draftRef (year : ℤ) (ref : ℕ) : String :=
  String.ofList ("SAR-".toList ++ (if year < 0 then ['-'] else []) ++
    Delimited.pad 1 year.natAbs ++ '-'::Delimited.pad 6 ref)

example : draftRef 2026 123 = "SAR-2026-000123" := by decide

/-- The numeral after the last hyphen is the sequence value, whatever the year. -/
theorem draftRef_inj {y z : ℤ} {m n : ℕ} (h : draftRef y m = draftRef z n) : m = n := by
  have hr := congrArg List.reverse (String.ofList_injective h)
  simp only [List.reverse_append,List.reverse_cons,List.append_assoc,List.singleton_append] at hr
  obtain ⟨hp,-⟩ := Delimited.append_cons_inj '-' (by simp [Delimited.not_mem_pad])
    (by simp [Delimited.not_mem_pad]) hr
  exact Delimited.pad_injective 6 (List.reverse_injective hp)

/-- The row of the `INSERT`, or none where a `NOT NULL` column would be null. -/
def row (d : DraftArgs) (draftRef : String) (createdAt : Instant) : Option SarDraft := do
  let account ← d.account
  let period ← d.period
  let rationale ← d.rationale
  let runId ← d.runId
  return ⟨draftRef,account,period,rationale,d.citations,d.clearance,runId,"DRAFT",createdAt⟩

theorem draftRef_of_row {d : DraftArgs} {ref : String} {createdAt : Instant} {draft : SarDraft}
    (h : row d ref createdAt = some draft) : draft.draftRef = ref ∧ draft.createdAt = createdAt := by
  simp only [row,Option.bind_eq_bind,Option.bind_eq_some_iff,Option.pure_def,Option.some.injEq] at h
  obtain ⟨_,-,_,-,_,-,_,-,rfl⟩ := h
  exact ⟨rfl,rfl⟩

/-- The joined append of the `SUCCESS` row. -/
def success (d : DraftArgs) (draftRef : String) : AppendArgs :=
  ⟨d.runId,"open_draft_sar",.success,d.caller,d.clearance,d.argsDigest,some draftRef⟩

end SarDraftService

/-- The two kinds of transaction: an append of its own, or `createDraft` with its joined append. -/
inductive Job
  | append (a : AppendArgs)
  | createDraft (d : DraftArgs)

/-- The next statement of an open transaction. -/
inductive Statement
  | nextval (d : DraftArgs)
  | insertDraft (d : DraftArgs) (draftRef : String)
  | advisoryLock (a : AppendArgs)
  | selectHead (a : AppendArgs)
  | insertAudit (a : AppendArgs) (prevHash : String)
  | commit (appended : AuditRecord)

def Job.first : Job → Statement
  | .append a => .advisoryLock a
  | .createDraft d => .nextval d

/-- An open transaction: its uncommitted rows and its next statement. -/
structure Tx where
  job : Job
  draftRows : List SarDraft
  auditRows : List AuditRecord
  next : Statement

/-- The `agent` schema: committed rows in commit order with the transaction that wrote them, the two
sequences (which do not roll back), the advisory lock and the open transactions. -/
structure Db (τ : Type) where
  audit : List (τ × AuditRecord)
  drafts : List (τ × SarDraft)
  auditSeq : ℕ
  refSeq : ℕ
  lock : Option τ
  open_ : τ → Option Tx
  begun : List τ
  committed : List τ

/-- What a statement reads from outside the database. -/
structure Clock where
  now : Instant
  year : ℤ

namespace Db
variable {τ : Type}

def init : Db τ := ⟨[],[],1,1,none,fun _ => none,[],[]⟩

/-- `agent.tool_audit` as committed. -/
def rows (db : Db τ) : List AuditRecord := db.audit.map Prod.snd

/-- `ORDER BY seq`. -/
def orderBySeq (rows : List AuditRecord) : List AuditRecord :=
  rows.mergeSort fun r s => decide (r.seq ≤ s.seq)

/-- The log as `AuditChainVerifier.verify` reads it. -/
def toolAudit (db : Db τ) : List AuditRecord := orderBySeq db.rows

variable [DecidableEq τ]

def setOpen (db : Db τ) (id : τ) (t : Option Tx) : Db τ :=
  { db with open_ := Function.update db.open_ id t }

/-- A statement of transaction `id` succeeds; `commit` publishes its rows and frees the lock. -/
def exec (sha : Sha256) (db : Db τ) (id : τ) (clock : Clock) : Option (Db τ) := do
  let t ← db.open_ id
  match t.next with
  | .nextval d =>
    let next := .insertDraft d (SarDraftService.draftRef clock.year db.refSeq)
    return { db with refSeq := db.refSeq + 1 }.setOpen id (some { t with next := next })
  | .insertDraft d draftRef =>
    let draft ← SarDraftService.row d draftRef clock.now.truncatedToMicros
    let next := .advisoryLock (SarDraftService.success d draftRef)
    return db.setOpen id (some { t with draftRows := t.draftRows ++ [draft], next := next })
  | .advisoryLock a =>
    if db.lock = none then
      return { db with lock := some id }.setOpen id (some { t with next := .selectHead a })
    else none
  | .selectHead a =>
    let prevHash := headHash (orderBySeq (db.rows ++ t.auditRows))
    return db.setOpen id (some { t with next := .insertAudit a prevHash })
  | .insertAudit a prevHash =>
    let runId ← a.runId
    let ts := clock.now.truncatedToMicros
    let unsealed : AuditRecord := ⟨db.auditSeq,ts,runId,a.tool,a.phase,a.caller,a.clearance,
      a.argsDigest,a.resultRef,prevHash,""⟩
    let r := { unsealed with rowHash := AuditHasher.rowHash sha unsealed }
    return { db with auditSeq := db.auditSeq + 1 }.setOpen id
      (some { t with auditRows := t.auditRows ++ [r], next := .commit r })
  | .commit _ =>
    return { db with
      audit := db.audit ++ t.auditRows.map (id,·)
      drafts := db.drafts ++ t.draftRows.map (id,·)
      lock := if db.lock = some id then none else db.lock
      committed := db.committed ++ [id] }.setOpen id none

/-- Rollback after a failed statement or a lost connection. A failed statement may still have drawn
from its sequence. -/
def rollback (db : Db τ) (id : τ) (drawn : Bool) : Option (Db τ) := do
  let t ← db.open_ id
  let drawnDb := match drawn, t.next with
    | true, .nextval _ => { db with refSeq := db.refSeq + 1 }
    | true, .insertAudit _ _ => { db with auditSeq := db.auditSeq + 1 }
    | _, _ => db
  return { drawnDb with lock := if db.lock = some id then none else db.lock }.setOpen id none

inductive Op (τ : Type)
  | begin_ (id : τ) (job : Job)
  | exec (id : τ) (clock : Clock)
  | rollback (id : τ) (drawn : Bool)

/-- One event of the database; `begin_` needs a transaction id that was never used. -/
def step (sha : Sha256) (db : Db τ) : Op τ → Option (Db τ)
  | .begin_ id job =>
    if id ∈ db.begun then none
    else some ({ db with begun := id::db.begun }.setOpen id (some ⟨job,[],[],job.first⟩))
  | .exec id clock => db.exec sha id clock
  | .rollback id drawn => db.rollback id drawn

/-- What a successful statement does, one case each. -/
inductive Executed (sha : Sha256) (db : Db τ) (id : τ) (t : Tx) : Db τ → Prop
  | nextval {d : DraftArgs} (year : ℤ) (h : t.next = .nextval d) :
      Executed sha db id t ({ db with refSeq := db.refSeq + 1 }.setOpen id
        (some { t with next := .insertDraft d (SarDraftService.draftRef year db.refSeq) }))
  | insertDraft {d : DraftArgs} {draftRef : String} {createdAt : Instant} {draft : SarDraft}
      (h : t.next = .insertDraft d draftRef)
      (hrow : SarDraftService.row d draftRef createdAt = some draft) :
      Executed sha db id t (db.setOpen id (some { t with
        draftRows := t.draftRows ++ [draft]
        next := .advisoryLock (SarDraftService.success d draftRef) }))
  | advisoryLock {a : AppendArgs} (h : t.next = .advisoryLock a) (hfree : db.lock = none) :
      Executed sha db id t ({ db with lock := some id }.setOpen id
        (some { t with next := .selectHead a }))
  | selectHead {a : AppendArgs} (h : t.next = .selectHead a) :
      Executed sha db id t (db.setOpen id
        (some { t with next := .insertAudit a (headHash (orderBySeq (db.rows ++ t.auditRows))) }))
  | insertAudit {a : AppendArgs} {prevHash : String} {r : AuditRecord}
      (h : t.next = .insertAudit a prevHash) (hargs : a.Matches r) (hseq : r.seq = db.auditSeq)
      (hprev : r.prevHash = prevHash) (hdigest : AuditHasher.rowHash sha r = r.rowHash) :
      Executed sha db id t ({ db with auditSeq := db.auditSeq + 1 }.setOpen id
        (some { t with auditRows := t.auditRows ++ [r], next := .commit r }))
  | commit {r : AuditRecord} (h : t.next = .commit r) :
      Executed sha db id t ({ db with
        audit := db.audit ++ t.auditRows.map (id,·)
        drafts := db.drafts ++ t.draftRows.map (id,·)
        lock := if db.lock = some id then none else db.lock
        committed := db.committed ++ [id] }.setOpen id none)

theorem exec_cases {sha : Sha256} {db db' : Db τ} {id : τ} {clock : Clock}
    (h : db.exec sha id clock = some db') :
    ∃ t, db.open_ id = some t ∧ Executed sha db id t db' := by
  unfold exec at h
  obtain ⟨t,ht,h⟩ := Option.bind_eq_some_iff.mp h
  refine ⟨t,ht,?_⟩
  cases hn : t.next with
  | nextval d =>
    simp only [hn] at h
    exact Option.some.inj h ▸ .nextval clock.year hn
  | insertDraft d draftRef =>
    simp only [hn] at h
    obtain ⟨draft,hrow,h⟩ := Option.bind_eq_some_iff.mp h
    exact Option.some.inj h ▸ .insertDraft hn hrow
  | advisoryLock a =>
    simp only [hn] at h
    split at h
    · rename_i hfree
      exact Option.some.inj h ▸ .advisoryLock hn hfree
    · exact absurd h (by simp)
  | selectHead a =>
    simp only [hn] at h
    exact Option.some.inj h ▸ .selectHead hn
  | insertAudit a prevHash =>
    simp only [hn] at h
    obtain ⟨runId,hrun,h⟩ := Option.bind_eq_some_iff.mp h
    exact Option.some.inj h ▸ .insertAudit hn ⟨hrun,rfl,rfl,rfl,rfl,rfl,rfl⟩ rfl rfl rfl
  | commit r =>
    simp only [hn] at h
    exact Option.some.inj h ▸ .commit hn

end Db

/-- The transaction is about to append with `a`, its draft row (if any) already inserted. -/
def Tx.Appends (t : Tx) (a : AppendArgs) : Prop :=
  match t.job with
  | .append b => a = b ∧ t.draftRows = []
  | .createDraft d => ∃ draft, t.draftRows = [draft] ∧
      SarDraftService.row d draft.draftRef draft.createdAt = some draft ∧
      a = SarDraftService.success d draft.draftRef

namespace Db
variable {τ : Type}

/-- `r` may be committed next: it links to the latest row and comes after every row. -/
structure Extends (sha : Sha256) (db : Db τ) (r : AuditRecord) : Prop where
  link : r.prevHash = headHash db.rows
  digest : AuditHasher.rowHash sha r = r.rowHash
  below : r.seq < db.auditSeq
  above : ∀ x ∈ db.rows, x.seq < r.seq

/-- What is true of an open transaction before each of its statements. -/
def TxOk (sha : Sha256) (db : Db τ) (id : τ) (t : Tx) : Prop :=
  match t.next with
  | .nextval d | .insertDraft d _ => t.job = .createDraft d ∧ t.draftRows = [] ∧ t.auditRows = []
  | .advisoryLock a => t.Appends a ∧ t.auditRows = []
  | .selectHead a => t.Appends a ∧ t.auditRows = [] ∧ db.lock = some id
  | .insertAudit a prevHash =>
    t.Appends a ∧ t.auditRows = [] ∧ db.lock = some id ∧ prevHash = headHash db.rows
  | .commit r => ∃ a, t.Appends a ∧ a.Matches r ∧ t.auditRows = [r] ∧ db.lock = some id ∧
      db.Extends sha r

/-- The invariant of the schema under any interleaving. -/
structure Inv (sha : Sha256) (db : Db τ) : Prop where
  chain : (links sha).Valid GENESIS db.rows
  ascending : db.rows.Pairwise fun r s => r.seq < s.seq
  below : ∀ r ∈ db.rows, r.seq < db.auditSeq
  owners : db.audit.map Prod.fst = db.committed
  nodup : db.committed.Nodup
  begun : ∀ id ∈ db.committed, id ∈ db.begun
  fresh : ∀ id t, db.open_ id = some t → id ∈ db.begun ∧ id ∉ db.committed
  tx : ∀ id t, db.open_ id = some t → db.TxOk sha id t

theorem inv_init (sha : Sha256) : (init : Db τ).Inv sha where
  chain := rfl
  ascending := List.Pairwise.nil
  below r hr := by simp [init,rows] at hr
  owners := rfl
  nodup := List.nodup_nil
  begun id h := by simp [init] at h
  fresh id t h := by simp [init] at h
  tx id t h := by simp [init] at h

/-- Rows with ascending `seq` are read back in the order they were committed. -/
theorem orderBySeq_eq {rows : List AuditRecord} (h : rows.Pairwise fun r s => r.seq < s.seq) :
    orderBySeq rows = rows := by
  apply List.mergeSort_of_pairwise
  exact h.imp fun hlt => decide_eq_true (le_of_lt hlt)

theorem toolAudit_eq {sha : Sha256} {db : Db τ} (h : db.Inv sha) : db.toolAudit = db.rows :=
  orderBySeq_eq h.ascending

/-- Only the lock holder's invariant mentions the committed rows; the others survive any change. -/
theorem TxOk.transfer {sha : Sha256} {db db' : Db τ} {id : τ} {t : Tx} (h : db.TxOk sha id t)
    (hrows : db'.rows = db.rows ∨ db.lock ≠ some id) (hseq : db.auditSeq ≤ db'.auditSeq)
    (hlock : db.lock = some id → db'.lock = some id) : db'.TxOk sha id t := by
  unfold TxOk at h ⊢
  cases hn : t.next with
  | nextval d => simpa [hn] using h
  | insertDraft d draftRef => simpa [hn] using h
  | advisoryLock a => simpa [hn] using h
  | selectHead a =>
    simp only [hn] at h ⊢
    exact ⟨h.1,h.2.1,hlock h.2.2⟩
  | insertAudit a prevHash =>
    simp only [hn] at h ⊢
    obtain ⟨ha,hr,hl,hp⟩ := h
    have hrows := hrows.resolve_right (not_not_intro hl)
    exact ⟨ha,hr,hlock hl,hrows ▸ hp⟩
  | commit r =>
    simp only [hn] at h ⊢
    obtain ⟨a,ha,hm,hr,hl,he⟩ := h
    have hrows := hrows.resolve_right (not_not_intro hl)
    exact ⟨a,ha,hm,hr,hlock hl,hrows ▸ he.link,he.digest,lt_of_lt_of_le he.below hseq,hrows ▸ he.above⟩

variable [DecidableEq τ]

/-- A step that changes one transaction and no committed row keeps the invariant. -/
theorem Inv.update {sha : Sha256} {db db' : Db τ} (h : db.Inv sha) (id : τ) (u : Option Tx)
    (hopen : db'.open_ = Function.update db.open_ id u) (haudit : db'.audit = db.audit)
    (hcommitted : db'.committed = db.committed) (hbegun : ∀ j ∈ db.begun, j ∈ db'.begun)
    (hseq : db.auditSeq ≤ db'.auditSeq) (hlock : ∀ j, j ≠ id → db.lock = some j → db'.lock = some j)
    (hid : ∀ t, u = some t → id ∈ db'.begun ∧ id ∉ db.committed ∧ db'.TxOk sha id t) :
    db'.Inv sha := by
  have hrows : db'.rows = db.rows := by rw [rows,haudit,rows]
  have hcases : ∀ j t, db'.open_ j = some t → j = id ∧ u = some t ∨ j ≠ id ∧ db.open_ j = some t := by
    intro j t ht
    rw [hopen] at ht
    by_cases hj : j = id
    · subst hj
      exact Or.inl ⟨rfl,by simpa using ht⟩
    · exact Or.inr ⟨hj,by simpa [hj] using ht⟩
  refine ⟨hrows ▸ h.chain,hrows ▸ h.ascending,fun r hr => ?_,?_,?_,?_,?_,?_⟩
  · exact lt_of_lt_of_le (h.below r (hrows ▸ hr)) hseq
  · rw [haudit,hcommitted,h.owners]
  · exact hcommitted ▸ h.nodup
  · exact fun j hj => hbegun j (h.begun j (hcommitted ▸ hj))
  · intro j t ht
    rw [hcommitted]
    rcases hcases j t ht with ⟨rfl,hu⟩ | ⟨-,hold⟩
    · exact ⟨(hid t hu).1,(hid t hu).2.1⟩
    · exact ⟨hbegun j (h.fresh j t hold).1,(h.fresh j t hold).2⟩
  · intro j t ht
    rcases hcases j t ht with ⟨rfl,hu⟩ | ⟨hj,hold⟩
    · exact (hid t hu).2.2
    · exact (h.tx j t hold).transfer (Or.inl hrows) hseq (hlock j hj)

/-- Publishing the pending row of the lock holder extends the chain. -/
theorem Inv.commit {sha : Sha256} {db : Db τ} (h : db.Inv sha) {id : τ} {t : Tx} {r : AuditRecord}
    (ht : db.open_ id = some t) (hn : t.next = .commit r) : ({ db with
      audit := db.audit ++ t.auditRows.map (id,·)
      drafts := db.drafts ++ t.draftRows.map (id,·)
      lock := if db.lock = some id then none else db.lock
      committed := db.committed ++ [id] }.setOpen id none).Inv sha := by
  have hok := h.tx id t ht
  obtain ⟨hbegun,hnew⟩ := h.fresh id t ht
  simp only [TxOk,hn] at hok
  obtain ⟨a,-,-,haudit,hlock,hext⟩ := hok
  have hopen : ∀ j u, Function.update db.open_ id none j = some u → j ≠ id ∧ db.open_ j = some u := by
    intro j u hu
    by_cases hj : j = id
    · simp [hj] at hu
    · exact ⟨hj,by simpa [hj] using hu⟩
  constructor
  case chain =>
    simp only [rows,setOpen,haudit,List.map_append,List.map_cons,List.map_nil]
    exact ((links sha).valid_concat _ _ _).mpr
      ⟨h.chain,hext.link.trans (headHash_eq sha db.rows),hext.digest⟩
  case ascending =>
    simp only [rows,setOpen,haudit,List.map_append,List.map_cons,List.map_nil]
    exact List.pairwise_append.mpr ⟨h.ascending,List.pairwise_singleton _ _,fun x hx y hy => by
      rw [List.mem_singleton.mp hy]
      exact hext.above x hx⟩
  case below =>
    intro x hx
    simp only [rows,setOpen,haudit,List.map_append,List.map_cons,List.map_nil,List.mem_append,
      List.mem_singleton] at hx
    rcases hx with hx | rfl
    · exact h.below x hx
    · exact hext.below
  case owners => simp [setOpen,haudit,h.owners]
  case nodup => exact List.nodup_append.mpr ⟨h.nodup,List.nodup_singleton _,fun j hj k hk => by
      rw [List.mem_singleton.mp hk]
      exact fun he => hnew (he ▸ hj)⟩
  case begun =>
    intro j hj
    rcases List.mem_append.mp hj with hj | hj
    · exact h.begun j hj
    · exact List.mem_singleton.mp hj ▸ hbegun
  case fresh =>
    intro j u hu
    obtain ⟨hj,hold⟩ := hopen j u hu
    refine ⟨(h.fresh j u hold).1,fun hmem => ?_⟩
    rcases List.mem_append.mp hmem with hmem | hmem
    · exact (h.fresh j u hold).2 hmem
    · exact hj (List.mem_singleton.mp hmem)
  case tx =>
    intro j u hu
    obtain ⟨hj,hold⟩ := hopen j u hu
    have hother : db.lock ≠ some j := fun hl => hj (Option.some.inj (hl.symm.trans hlock))
    exact (h.tx j u hold).transfer (Or.inr hother) le_rfl fun hl => absurd hl hother

theorem Inv.executed {sha : Sha256} {db db' : Db τ} (h : db.Inv sha) {id : τ} {t : Tx}
    (ht : db.open_ id = some t) (he : Executed sha db id t db') : db'.Inv sha := by
  obtain ⟨hbegun,hnew⟩ := h.fresh id t ht
  have hok := h.tx id t ht
  cases he with
  | @nextval d year hn =>
    refine h.update id _ rfl rfl rfl (fun _ hj => hj) le_rfl (fun _ _ hl => hl) ?_
    rintro _ ⟨⟩
    simp only [TxOk,hn] at hok
    exact ⟨hbegun,hnew,hok⟩
  | @insertDraft d draftRef createdAt draft hn hrow =>
    refine h.update id _ rfl rfl rfl (fun _ hj => hj) le_rfl (fun _ _ hl => hl) ?_
    rintro _ ⟨⟩
    simp only [TxOk,hn] at hok
    obtain ⟨hjob,hd,ha⟩ := hok
    obtain ⟨href,hcreated⟩ := SarDraftService.draftRef_of_row hrow
    refine ⟨hbegun,hnew,?_,ha⟩
    simp only [Tx.Appends,hjob,hd]
    exact ⟨draft,rfl,by rw [href,hcreated,hrow],by rw [href]⟩
  | @advisoryLock a hn hfree =>
    refine h.update id _ rfl rfl rfl (fun _ hj => hj) le_rfl (fun j _ hl => ?_) ?_
    · rw [hfree] at hl
      exact absurd hl (by simp)
    · rintro _ ⟨⟩
      simp only [TxOk,hn] at hok
      exact ⟨hbegun,hnew,hok.1,hok.2,rfl⟩
  | @selectHead a hn =>
    refine h.update id _ rfl rfl rfl (fun _ hj => hj) le_rfl (fun _ _ hl => hl) ?_
    rintro _ ⟨⟩
    simp only [TxOk,hn] at hok
    obtain ⟨ha,hr,hl⟩ := hok
    refine ⟨hbegun,hnew,ha,hr,hl,?_⟩
    -- the statement sees the committed rows only: the transaction has none of its own yet
    rw [hr,List.append_nil,orderBySeq_eq h.ascending]
    rfl
  | @insertAudit a prevHash r hn hargs hseq hprev hdigest =>
    refine h.update id _ rfl rfl rfl (fun _ hj => hj) (Nat.le_succ _) (fun _ _ hl => hl) ?_
    rintro _ ⟨⟩
    simp only [TxOk,hn] at hok
    obtain ⟨ha,hr,hl,hp⟩ := hok
    refine ⟨hbegun,hnew,a,ha,hargs,by simp [hr],hl,hprev.trans hp,hdigest,?_,fun x hx => ?_⟩
    · exact hseq ▸ Nat.lt_succ_self _
    · exact hseq ▸ h.below x hx
  | commit hn => exact h.commit ht hn

theorem Inv.rollback {sha : Sha256} {db db' : Db τ} (h : db.Inv sha) {id : τ} {drawn : Bool}
    (hr : db.rollback id drawn = some db') : db'.Inv sha := by
  unfold Db.rollback at hr
  obtain ⟨t,ht,hr⟩ := Option.bind_eq_some_iff.mp hr
  have hlock : ∀ j, j ≠ id → db.lock = some j →
      (if db.lock = some id then none else db.lock) = some j := by
    intro j hj hl
    rw [hl,if_neg fun he => hj (Option.some.inj he)]
  obtain rfl := Option.some.inj hr
  cases drawn <;> cases hn : t.next <;>
    exact h.update id none rfl rfl rfl (fun _ hj => hj) (by simp [setOpen]) hlock
      (fun _ hu => absurd hu (by simp))

/-- One event of the database keeps the invariant. -/
theorem Inv.step {sha : Sha256} {db db' : Db τ} {op : Op τ} (h : db.Inv sha)
    (hs : db.step sha op = some db') : db'.Inv sha := by
  cases op with
  | begin_ id job =>
    simp only [Db.step] at hs
    split at hs
    · exact absurd hs (by simp)
    · rename_i hfresh
      obtain rfl := Option.some.inj hs
      refine h.update id _ rfl rfl rfl (fun _ hj => List.mem_cons_of_mem _ hj) le_rfl
        (fun _ _ hl => hl) ?_
      rintro _ ⟨⟩
      refine ⟨List.mem_cons_self,fun hc => hfresh (h.begun id hc),?_⟩
      cases job <;> simp [TxOk,Job.first,Tx.Appends]
  | exec id clock =>
    obtain ⟨t,ht,he⟩ := exec_cases hs
    exact h.executed ht he
  | rollback id drawn => exact h.rollback hs

theorem inv_reachable {sha : Sha256} {db : Db τ}
    (h : Transition.Reachable (Db.step sha) init db) : db.Inv sha :=
  h.invariant (fun _ _ _ hi hs => hi.step hs) (inv_init sha)

/-- After any interleaving of standalone and joined appends, with any of them aborted anywhere, the
committed log read by `seq` verifies, does not fork, and has one row for each committed append. -/
theorem toolAudit_verifies {sha : Sha256} {db : Db τ}
    (h : Transition.Reachable (Db.step sha) init db) :
    (verifyChain sha db.toolAudit).valid = true ∧
    (∀ r rest, db.toolAudit = r::rest → r.prevHash = GENESIS) ∧
    (∀ pre r r' post, db.toolAudit = pre ++ r::r'::post → r'.prevHash = r.rowHash) ∧
    (Function.Injective sha → (∀ s, Digests.sha256Hex sha s ≠ GENESIS) →
      (db.toolAudit.map AuditRecord.prevHash).Nodup) ∧
    (∀ e ∈ db.audit, e.1 ∈ db.committed) ∧
    ∀ id ∈ db.committed, db.audit.countP (fun e => e.1 = id) = 1 := by
  have hi := inv_reachable h
  rw [toolAudit_eq hi]
  refine ⟨(verifyChain_valid_iff sha _).mpr hi.chain,?_,?_,?_,?_,?_⟩
  · intro r rest hrows
    have hc := hi.chain
    rw [hrows] at hc
    exact (((links sha).valid_cons _ _ _).mp hc).1
  · intro pre r r' post hrows
    have hc := hi.chain
    rw [hrows] at hc
    have hrest := (((links sha).valid_append _ _ _).mp hc).2
    exact (((links sha).valid_cons _ _ _).mp (((links sha).valid_cons _ _ _).mp hrest).2.2).1
  · exact fun hsha hgen => prevHash_nodup hsha hgen hi.chain
  · exact fun e he => hi.owners ▸ List.mem_map_of_mem he
  · intro id hid
    have hcount := List.count_eq_one_of_mem hi.nodup hid
    rw [← hi.owners,List.count,List.countP_map] at hcount
    exact hcount

/-- An append commits between the statements of a `createDraft` that is rolled back afterwards. -/
def appendSchedule : List (Op ℕ) :=
  let clock : Clock := ⟨plainRow.ts,2026⟩
  [.begin_ 0 (.append ⟨some "run-1","open_draft_sar",.attempt,"priya","compliance",
      plainRow.argsDigest,none⟩),
    .begin_ 1 (.createDraft ⟨some "ACC-1",some "2026-Q2",some "breach",some [some 1],some "run-0",
      "sam","compliance",plainRow.argsDigest⟩),
    .exec 1 clock,.exec 0 clock,.exec 1 clock,.exec 0 clock,.exec 0 clock,.exec 0 clock,
    .exec 1 clock,.exec 1 clock,.rollback 1 true]

theorem toolAudit_verifies_appendSchedule : ∃ db : Db ℕ,
    Transition.run (Db.step plainSha) init appendSchedule = some db ∧
    (verifyChain plainSha db.toolAudit).valid = true ∧ db.committed = [0] ∧ db.auditSeq = 3 :=
  ⟨_,rfl,(toolAudit_verifies ⟨appendSchedule,rfl⟩).1,rfl,rfl⟩

end Db
end AtlasCompliance.McpTools
