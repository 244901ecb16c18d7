import AtlasCompliance.Lib.Pages
import AtlasCompliance.McpTools.AuditAppend
import AtlasCompliance.McpTools.DraftSarTool

/-! The audit view: pages of the rows that match the filters, the newest first, over a log that may grow
between the reads. -/
namespace AtlasCompliance.McpTools
open Java Pages AuditHasher AuditChainVerifier

/-- `agent.tool_audit`: rows with their primary key, in no order. -/
structure ToolAudit where
  rows : List AuditRecord
  keyed : (rows.map AuditRecord.seq).Nodup

structure AuditRowView where
  seq : ℕ
  ts : Instant
  runId : String
  tool : String
  phase : String
  caller : String
  clearance : String
  resultRef : Option String
  deriving DecidableEq, Repr

structure AuditPageResponse where
  page : ℤ
  size : ℤ
  total : ℕ
  chainVerified : Bool
  rows : List AuditRowView
  deriving DecidableEq, Repr

namespace AuditQueryDao

/-- `MAPPER`. -/
def view (r : AuditRecord) : AuditRowView :=
  ⟨r.seq,r.ts,r.runId,r.tool,r.phase.name,r.caller,r.clearance,r.resultRef⟩

/-- `column = ?` for a value that is neither null nor blank. -/
def filter (column : AuditRecord → String) : Option String → List (AuditRecord → Bool)
  | none => []
  | some value => if Text.isBlank value then [] else [fun r => column r = value]

/-- The clauses of `appendFilters`, joined by `AND`. -/
def appendFilters (caller runId : Option String) (r : AuditRecord) : Bool :=
  (filter AuditRecord.caller caller ++ filter AuditRecord.runId runId).all fun clause => clause r

/-- `ORDER BY seq DESC`. -/
def newestFirst (rows : List AuditRecord) : List AuditRecord :=
  rows.mergeSort fun r s => decide (s.seq ≤ r.seq)

/-- The matching rows, sorted. -/
def matching (log : ToolAudit) (caller runId : Option String) : List AuditRecord :=
  newestFirst (log.rows.filter (appendFilters caller runId))

def count (log : ToolAudit) (caller runId : Option String) : ℕ :=
  (log.rows.filter (appendFilters caller runId)).length

/-- `LIMIT limit OFFSET offset`. -/
def page (log : ToolAudit) (caller runId : Option String) (limit offset : ℕ) : List AuditRowView :=
  (((matching log caller runId).drop offset).take limit).map view

end AuditQueryDao

/-- The controller with the required clearance and the digest of its verifier. -/
structure AuditController where
  required : Clearance
  sha : Sha256

namespace AuditController
open AuditQueryDao

def MAX_SIZE : ℤ := 100

def safeSize (size : ℤ) : ℤ := min (max size 1) MAX_SIZE

def safePage (page : ℤ) : ℤ := max page 0

/-- `query` for a caller with the given clearance; the error is the exception's message. -/
def query (c : AuditController) (clearance : String) (log : ToolAudit) (page size : ℤ)
    (caller runId : Option String) : Except String AuditPageResponse := do
  ClearanceRecheck.require c.required clearance
  let offset := min (safePage page*safeSize size) 2147483647
  let total := count log caller runId
  let rows := AuditQueryDao.page log caller runId (safeSize size).toNat offset.toNat
  let chainVerified := (verifyChain c.sha (Db.orderBySeq log.rows)).valid
  pure ⟨safePage page,safeSize size,total,chainVerified,rows⟩

/-- The rows of a response. -/
def rowsOf : Except String AuditPageResponse → List AuditRowView
  | .error _ => []
  | .ok response => response.rows

/-! ### The matching rows -/

theorem newestFirst_perm (rows : List AuditRecord) : (newestFirst rows).Perm rows :=
  List.mergeSort_perm _ _

theorem nodup_seq_filter {log : ToolAudit} (p : AuditRecord → Bool) :
    ((log.rows.filter p).map AuditRecord.seq).Nodup :=
  log.keyed.sublist (List.filter_sublist.map AuditRecord.seq)

/-- Rows with distinct keys come strictly down by key. -/
theorem newestFirst_pairwise {rows : List AuditRecord} (h : (rows.map AuditRecord.seq).Nodup) :
    (newestFirst rows).Pairwise fun r s => s.seq < r.seq := by
  have hsorted : (newestFirst rows).Pairwise fun r s => decide (s.seq ≤ r.seq) = true :=
    List.pairwise_mergeSort (fun a b d hab hbd => decide_eq_true
      ((of_decide_eq_true hbd).trans (of_decide_eq_true hab))) (fun a b => by
        simpa using Nat.le_total b.seq a.seq) rows
  have hdistinct : (newestFirst rows).Pairwise fun r s => r.seq ≠ s.seq :=
    List.pairwise_map.mp (((newestFirst_perm rows).map AuditRecord.seq).nodup_iff.mpr h)
  exact (hsorted.and hdistinct).imp fun h => lt_of_le_of_ne (of_decide_eq_true h.1) (Ne.symm h.2)

/-- The log has got new rows, all with larger keys. -/
def Appended (log later : ToolAudit) : Prop := ∃ new, later.rows.Perm (log.rows ++ new) ∧
  ∀ r ∈ log.rows, ∀ s ∈ new, r.seq < s.seq

/-- New rows come in front of the rows there were. -/
theorem matching_appended {log later : ToolAudit} (h : Appended log later) (caller runId : Option String) :
    ∃ new, matching later caller runId = new ++ matching log caller runId := by
  obtain ⟨new,hperm,hnewer⟩ := h
  let p := appendFilters caller runId
  have hkeyed : ((log.rows ++ new).map AuditRecord.seq).Nodup :=
    ((hperm.map AuditRecord.seq).nodup_iff).mp later.keyed
  rw [List.map_append] at hkeyed
  have hnew : ((new.filter p).map AuditRecord.seq).Nodup :=
    (List.nodup_append'.mp hkeyed).2.1.sublist (List.filter_sublist.map AuditRecord.seq)
  refine ⟨newestFirst (new.filter p),?_⟩
  refine List.Perm.eq_of_pairwise (fun r s _ _ hrs hsr => absurd hrs (lt_asymm hsr))
    (newestFirst_pairwise (nodup_seq_filter p)) ?_ ?_
  · refine List.pairwise_append.mpr ⟨newestFirst_pairwise hnew,
      newestFirst_pairwise (nodup_seq_filter p),fun s hs r hr => ?_⟩
    have hs' := (List.mem_filter.mp ((newestFirst_perm _).mem_iff.mp hs)).1
    have hr' := (List.mem_filter.mp ((newestFirst_perm _).mem_iff.mp hr)).1
    exact hnewer r hr' s hs'
  · have hfilter := hperm.filter p
    rw [List.filter_append] at hfilter
    exact (newestFirst_perm _).trans (hfilter.trans (List.perm_append_comm.trans
      ((newestFirst_perm _).symm.append (newestFirst_perm _).symm)))

theorem length_matching (log : ToolAudit) (caller runId : Option String) :
    (matching log caller runId).length = count log caller runId :=
  (newestFirst_perm _).length_eq

/-! ### What a page holds -/

theorem safeSize_pos (size : ℤ) : 1 ≤ safeSize size := le_min (le_max_right _ _) (by decide)

/-- The cut of the offset to an int drops no row of a log whose size fits an int. -/
theorem drop_offset {log : ToolAudit} (hsmall : log.rows.length < 2^31) (caller runId : Option String)
    (page size : ℤ) :
    (matching log caller runId).drop (min (safePage page*safeSize size) 2147483647).toNat =
      (matching log caller runId).drop ((safePage page).toNat*(safeSize size).toNat) := by
  have hlength : (matching log caller runId).length ≤ (2147483647 : ℤ).toNat := by
    have hle := List.length_filter_le (appendFilters caller runId) log.rows
    rw [length_matching,count]
    omega
  have hproduct : (safePage page*safeSize size).toNat = (safePage page).toNat*(safeSize size).toNat :=
    Int.toNat_mul (le_max_right _ _) (by have := safeSize_pos size; omega)
  by_cases hcut : safePage page*safeSize size ≤ 2147483647
  · rw [min_eq_left hcut,hproduct]
  · rw [min_eq_right (by omega),List.drop_eq_nil_of_le hlength,List.drop_eq_nil_of_le]
    rw [← hproduct]
    omega

/-- A response to an authorised caller. -/
theorem query_eq {c : AuditController} {clearance : String}
    (hclear : ClearanceRecheck.require c.required clearance = .ok ()) {log : ToolAudit}
    (hsmall : log.rows.length < 2^31) (page size : ℤ) (caller runId : Option String) :
    c.query clearance log page size caller runId = .ok ⟨safePage page,safeSize size,
      (matching log caller runId).length,
      (verifyChain c.sha (Db.orderBySeq log.rows)).valid,
      (Pages.page (safeSize size).toNat (safePage page).toNat (matching log caller runId)).map view⟩ := by
  rw [query,hclear,length_matching,Pages.page,← drop_offset hsmall]
  rfl

/-- The rows that the request for the page `k` returns. -/
theorem rowsOf_query {c : AuditController} {clearance : String}
    (hclear : ClearanceRecheck.require c.required clearance = .ok ()) {log : ToolAudit}
    (hsmall : log.rows.length < 2^31) (k : ℕ) (size : ℤ) (caller runId : Option String) :
    rowsOf (c.query clearance log k size caller runId) =
      (Pages.page (safeSize size).toNat k (matching log caller runId)).map view := by
  have hpage : (safePage k).toNat = k := by
    rw [safePage,max_eq_left (by omega),Int.toNat_natCast]
  rw [query_eq hclear hsmall,hpage]
  rfl

/-- Pagination is exact: a page is its stretch of the matching rows, all pages of an unchanged log give
every matching row once, and rows that are appended between the reads make the reader miss none. -/
theorem pagination_exact (c : AuditController) {clearance : String}
    (hclear : ClearanceRecheck.require c.required clearance = .ok ()) (caller runId : Option String)
    (size : ℤ) :
    (∀ log : ToolAudit, log.rows.length < 2^31 → ∀ page : ℤ, ∃ verified,
      c.query clearance log page size caller runId = .ok ⟨safePage page,safeSize size,
        (matching log caller runId).length,verified,
        (((matching log caller runId).drop ((safePage page).toNat*(safeSize size).toNat)).take
          (safeSize size).toNat).map view⟩) ∧
      (∀ log : ToolAudit, log.rows.length < 2^31 → ∀ n : ℕ,
        (matching log caller runId).length ≤ n*(safeSize size).toNat →
          (List.range n).flatMap (fun k : ℕ => rowsOf (c.query clearance log k size caller runId)) =
            (matching log caller runId).map view ∧ ((matching log caller runId).map view).Nodup) ∧
      ∀ logs : ℕ → ToolAudit, (∀ k, (logs k).rows.length < 2^31) →
        (∀ k, Appended (logs k) (logs (k+1))) → ∀ m : ℕ, ∀ r ∈ matching (logs 0) caller runId,
          (∃ k ≤ m, view r ∈ rowsOf (c.query clearance (logs k) k size caller runId)) ∨
            (safeSize size).toNat ≤ (rowsOf (c.query clearance (logs m) m size caller runId)).length ∧
              r ∈ (matching (logs m) caller runId).drop ((m+1)*(safeSize size).toNat) := by
  refine ⟨fun log hsmall page => ⟨_,query_eq hclear hsmall page size caller runId⟩,
    fun log hsmall n hn => ⟨?_,?_⟩,fun logs hsmall happend m r hr => ?_⟩
  · have hpages : (fun k : ℕ => rowsOf (c.query clearance log k size caller runId)) =
        fun k => (Pages.page (safeSize size).toNat k (matching log caller runId)).map view :=
      funext fun k => rowsOf_query hclear hsmall k size caller runId
    rw [hpages,← List.map_flatMap,flatMap_page,List.take_of_length_le hn]
  · have hkeys : ((matching log caller runId).map AuditRecord.seq).Nodup :=
      ((newestFirst_perm _).map AuditRecord.seq).nodup_iff.mpr (nodup_seq_filter _)
    have hviews : ((matching log caller runId).map view).map AuditRowView.seq =
        (matching log caller runId).map AuditRecord.seq := by rw [List.map_map]; rfl
    exact List.Nodup.of_map AuditRowView.seq (hviews ▸ hkeys)
  · obtain ⟨k,hk,hpage⟩ | hahead := @read_or_ahead _ (safeSize size).toNat
      (fun k => matching (logs k) caller runId)
      (fun k => matching_appended (happend k) caller runId) r hr m
    · refine Or.inl ⟨k,hk,?_⟩
      rw [rowsOf_query hclear (hsmall k)]
      exact List.mem_map_of_mem hpage
    · refine Or.inr ⟨?_,hahead⟩
      rw [rowsOf_query hclear (hsmall m),List.length_map]
      by_contra hshort
      rw [drop_eq_nil_of_length_lt (not_le.mp hshort)] at hahead
      cases hahead

/-- A log of two rows. -/
def twoRows : ToolAudit := ⟨[plainRow,{plainRow with seq := plainRow.seq + 1}],by decide⟩

/-- Two pages of one row read both rows, each once. -/
theorem pagination_exact_twoRows :
    (List.range 2).flatMap (fun k : ℕ => rowsOf (query ⟨.COMPLIANCE,plainSha⟩ "compliance" twoRows k 1
      none none)) = (matching twoRows none none).map view ∧
      ((matching twoRows none none).map view).Nodup :=
  (pagination_exact ⟨.COMPLIANCE,plainSha⟩ (by rfl) none none 1).2.1 twoRows (by decide) 2
    (by rw [length_matching]; decide)

end AuditController
end AtlasCompliance.McpTools
