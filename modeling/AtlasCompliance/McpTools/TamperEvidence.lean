import AtlasCompliance.McpTools.AuditChain

/-! What a stored `row_hash` pins down: exactly which rewrites of one row the verifier reports,
and the binding of a whole chain by its head hash. -/
namespace AtlasCompliance.McpTools
open Java AuditHasher AuditChainVerifier

namespace AuditRecord

/-- The text columns of the logical fields; `ts` and `phase` have texts of their own. -/
def texts (r : AuditRecord) : List String :=
  [r.runId,r.tool,r.caller,r.clearance,r.argsDigest] ++ r.resultRef.toList

/-- No text holds the separator, and an absent reference is not stored as an empty text. -/
def Plain (r : AuditRecord) : Prop :=
  (∀ s ∈ r.texts, US ∉ s.toList) ∧ r.resultRef ≠ some ""

/-- The logical texts cut at every separator they contain, an absent reference read as empty. -/
def usPieces (r : AuditRecord) : List (List Char) :=
  Delimited.pieces US ((fields r).map String.toList)

/-- Two rows with different logical fields but the same pieces. -/
def Confusable (r r' : AuditRecord) : Prop := r.logical ≠ r'.logical ∧ r.usPieces = r'.usPieces

end AuditRecord

theorem US_not_mem_ts (t : Java.Instant) : US ∉ t.toString.toList :=
  Java.Instant.not_mem_toString rfl (by decide) t

theorem US_not_mem_phase (p : AuditPhase) : US ∉ p.name.toList := by
  cases p <;> decide

theorem canonical_eq_iff (r r' : AuditRecord) :
    canonical r = canonical r' ↔ r.usPieces = r'.usPieces := by
  have hjoin : ∀ s : AuditRecord,
      (canonical s).toList = [US].intercalate ((fields s).map String.toList) := fun s => by
    simp [canonical,String.toList_intercalate]
  rw [← String.toList_inj,hjoin,hjoin]
  exact Delimited.join_eq_iff US (by simp [fields]) (by simp [fields])

/-- For equal links, the hash determines the pieces and nothing more. -/
theorem rowHash_eq_iff {sha : Sha256} (hsha : Function.Injective sha) {r r' : AuditRecord}
    (hprev : r.prevHash = r'.prevHash) :
    rowHash sha r = rowHash sha r' ↔ r.usPieces = r'.usPieces := by
  rw [rowHash,rowHash,(Digests.sha256Hex_injective hsha).eq_iff,hprev,String.append_right_inj,
    canonical_eq_iff]

namespace AuditRecord

/-- The fields of a row without separators are its pieces. -/
theorem usPieces_of_texts {r : AuditRecord} (h : ∀ s ∈ r.texts, US ∉ s.toList) :
    r.usPieces = (fields r).map String.toList := by
  simp only [texts,List.mem_append,List.mem_cons,List.not_mem_nil,or_false,
    or_imp,forall_and,forall_eq,Option.mem_toList] at h
  obtain ⟨⟨h1,h2,h3,h4,h5⟩,h6⟩ := h
  have hts := US_not_mem_ts r.ts
  have hphase := US_not_mem_phase r.phase
  have href : US ∉ (r.resultRef.getD "").toList := by
    cases hr : r.resultRef with
    | none => simp
    | some s => exact h6 s hr
  apply Delimited.pieces_eq_self
  simp [fields,hts,h1,h2,hphase,h3,h4,h5,href]

theorem fields_inj {r r' : AuditRecord} (h : fields r = fields r')
    (href : r.resultRef ≠ some "") (href' : r'.resultRef ≠ some "") : r.logical = r'.logical := by
  simp only [fields,List.cons.injEq,and_true] at h
  obtain ⟨hts,h1,h2,hphase,h3,h4,h5,h6⟩ := h
  have hr : r.resultRef = r'.resultRef := by
    cases ha : r.resultRef <;> cases hb : r'.resultRef <;> simp_all
  simp only [logical,Java.Instant.toString_injective hts,h1,h2,AuditPhase.name_injective hphase,
    h3,h4,h5,hr]

/-- Plain rows are never confused with one another. -/
theorem Plain.logical_eq {r r' : AuditRecord} (h : r.Plain) (h' : r'.Plain)
    (hp : r.usPieces = r'.usPieces) : r.logical = r'.logical := by
  rw [usPieces_of_texts h.1,usPieces_of_texts h'.1] at hp
  exact fields_inj (List.map_injective_iff.mpr (fun _ _ => String.toList_injective) hp) h.2 h'.2

end AuditRecord

/-- A change of one logical column, the stored hashes left alone. -/
inductive Edit
  | ts (v : Java.Instant)
  | runId (v : String)
  | tool (v : String)
  | phase (v : AuditPhase)
  | caller (v : String)
  | clearance (v : String)
  | argsDigest (v : String)
  | resultRef (v : Option String)

namespace Edit

def apply : Edit → AuditRecord → AuditRecord
  | ts v, r => { r with ts := v }
  | runId v, r => { r with runId := v }
  | tool v, r => { r with tool := v }
  | phase v, r => { r with phase := v }
  | caller v, r => { r with caller := v }
  | clearance v, r => { r with clearance := v }
  | argsDigest v, r => { r with argsDigest := v }
  | resultRef v, r => { r with resultRef := v }

/-- The edit turns an absent `result_ref` into an empty one or back. -/
def SwapsAbsentRef (r : AuditRecord) : Edit → Prop
  | resultRef v => v = none ∧ r.resultRef = some "" ∨ v = some "" ∧ r.resultRef = none
  | _ => False

@[simp] theorem apply_seq (e : Edit) (r : AuditRecord) : (e.apply r).seq = r.seq := by
  cases e <;> rfl
@[simp] theorem apply_prevHash (e : Edit) (r : AuditRecord) : (e.apply r).prevHash = r.prevHash := by
  cases e <;> rfl
@[simp] theorem apply_rowHash (e : Edit) (r : AuditRecord) : (e.apply r).rowHash = r.rowHash := by
  cases e <;> rfl

/-- An edit rewrites one text of the canonical form, in fixed surroundings. -/
theorem fields_apply (e : Edit) (r : AuditRecord) : ∃ xs ys f f',
    fields (e.apply r) = xs ++ f::ys ∧ fields r = xs ++ f'::ys ∧
      (f = f' → (e.apply r).logical = r.logical ∨ e.SwapsAbsentRef r) := by
  cases e with
  | ts v =>
    refine ⟨[],_,_,_,rfl,rfl,fun h => Or.inl ?_⟩
    simpa [AuditRecord.logical,apply] using Java.Instant.toString_injective h
  | runId v => exact ⟨[_],_,_,_,rfl,rfl,fun h => Or.inl (by simpa [AuditRecord.logical,apply] using h)⟩
  | tool v => exact ⟨[_,_],_,_,_,rfl,rfl,fun h => Or.inl (by simpa [AuditRecord.logical,apply] using h)⟩
  | phase v =>
    refine ⟨[_,_,_],_,_,_,rfl,rfl,fun h => Or.inl ?_⟩
    simpa [AuditRecord.logical,apply] using AuditPhase.name_injective h
  | caller v => exact ⟨[_,_,_,_],_,_,_,rfl,rfl,fun h => Or.inl (by simpa [AuditRecord.logical,apply] using h)⟩
  | clearance v => exact ⟨[_,_,_,_,_],_,_,_,rfl,rfl,fun h => Or.inl (by simpa [AuditRecord.logical,apply] using h)⟩
  | argsDigest v => exact ⟨[_,_,_,_,_,_],_,_,_,rfl,rfl,fun h => Or.inl (by simpa [AuditRecord.logical,apply] using h)⟩
  | resultRef v =>
    refine ⟨[_,_,_,_,_,_,_],_,_,_,rfl,rfl,fun h => ?_⟩
    cases hv : v <;> cases hr : r.resultRef <;> simp_all [AuditRecord.logical,apply,SwapsAbsentRef]

theorem usPieces_apply_iff (e : Edit) (r : AuditRecord) :
    (e.apply r).usPieces = r.usPieces ↔
      (e.apply r).logical = r.logical ∨ e.SwapsAbsentRef r := by
  constructor
  · intro h
    obtain ⟨xs,ys,f,f',he,hr,hf⟩ := fields_apply e r
    simp only [AuditRecord.usPieces,he,hr,List.map_append,List.map_cons] at h
    exact hf (String.toList_injective (Delimited.pieces_middle_inj US _ _ h))
  · rintro (h | h)
    · simp only [AuditRecord.logical,Prod.mk.injEq] at h
      simp only [AuditRecord.usPieces,fields,h]
    · cases e with
      | resultRef v =>
        rcases h with ⟨hv,hr⟩ | ⟨hv,hr⟩ <;> simp [AuditRecord.usPieces,fields,apply,hv,hr]
      | _ => exact absurd h id

end Edit

namespace AuditChainVerifier
variable {sha : Sha256}

/-- Rewriting one row of an accepted chain around its stored hashes is reported exactly when
the recomputed digest changes. -/
theorem verifyChain_rewrite {pre post : List AuditRecord} {r r' : AuditRecord}
    (h : (verifyChain sha (pre ++ r::post)).valid = true)
    (hprev : r'.prevHash = r.prevHash) (hhash : r'.rowHash = r.rowHash) :
    verifyChain sha (pre ++ r'::post) =
      if AuditHasher.rowHash sha r' = AuditHasher.rowHash sha r then .ok (pre ++ r'::post).length
      else .broken r'.seq digestFault := by
  obtain ⟨hpre,hrest⟩ := ((links sha).valid_append _ _ _).mp ((verifyChain_valid_iff _ _).mp h)
  obtain ⟨hlink,hdigest,hpost⟩ := ((links sha).valid_cons _ _ _).mp hrest
  have hlink : r'.prevHash = (links sha).head GENESIS pre := hprev.trans hlink
  have hdigest : AuditHasher.rowHash sha r = r'.rowHash := hdigest.trans hhash.symm
  have hpost : (links sha).check r'.rowHash post = none := hhash ▸ hpost
  rw [verifyChain,verifyFrom_eq,HashChain.check_append,show (links sha).check GENESIS pre = none from hpre,
    hdigest]
  by_cases hd : AuditHasher.rowHash sha r' = r'.rowHash
  · simp [HashChain.check,show (links sha).prev r' = (links sha).head GENESIS pre from hlink,
      show (links sha).digest r' = (links sha).hash r' from hd,
      show (links sha).check ((links sha).hash r') post = none from hpost,hd]
  · simp [HashChain.check,show (links sha).prev r' = (links sha).head GENESIS pre from hlink,
      show (links sha).digest r' ≠ (links sha).hash r' from hd,hd]

/-- Exactly which pairs of rows a `row_hash` keeps apart, and exactly which edits of one field of
an accepted chain are reported. -/
theorem rowHash_pins_fields_iff (hsha : Function.Injective sha) :
    (∀ r r' : AuditRecord, r.prevHash = r'.prevHash →
      ((AuditHasher.rowHash sha r = AuditHasher.rowHash sha r' → r.logical = r'.logical) ↔
        ¬ r.Confusable r')) ∧
    ∀ (pre post : List AuditRecord) (r : AuditRecord) (e : Edit),
      (verifyChain sha (pre ++ r::post)).valid = true → (e.apply r).logical ≠ r.logical →
        (verifyChain sha (pre ++ e.apply r::post) = .broken r.seq digestFault ↔
          ¬ e.SwapsAbsentRef r) := by
  constructor
  · intro r r' hprev
    rw [rowHash_eq_iff hsha hprev]
    exact ⟨fun h hc => hc.1 (h hc.2),fun h hp => Classical.not_not.mp fun hne => h ⟨hne,hp⟩⟩
  · intro pre post r e h hne
    have hhash : AuditHasher.rowHash sha (e.apply r) = AuditHasher.rowHash sha r ↔
        e.SwapsAbsentRef r := by
      rw [rowHash_eq_iff hsha (e.apply_prevHash r),e.usPieces_apply_iff]
      simp [hne]
    rw [verifyChain_rewrite h (e.apply_prevHash r) (e.apply_rowHash r),e.apply_seq]
    by_cases hs : e.SwapsAbsentRef r
    · rw [if_pos (hhash.mpr hs)]
      exact iff_of_false (VerificationResult.ok_ne_broken _ _ _) (not_not_intro hs)
    · rw [if_neg fun hd => hs (hhash.mp hd)]
      exact iff_of_true rfl hs

/-- An `ATTEMPT` row as the service stores it for a run id that a client chose to hold separators. -/
def separatorRow : AuditRecord :=
  ⟨1,(.ofEpochSecond 1782036000),"r\u001fopen_draft_sar\u001fATTEMPT\u001fx","open_draft_sar",.attempt,"priya",
    "compliance","9fb622cdeb0408544a7276c41da25e53c78c58b1017fc53a4ca770c612ab1696",none,
    GENESIS,"dec6060389997bac18f8871caf967847581a741f68178a688ecd12cc20a7d5ee"⟩

/-- Its rewrite to another run and another caller, with the same stored hashes. -/
def shiftedRow : AuditRecord :=
  { separatorRow with runId := "r", caller := "x\u001fopen_draft_sar\u001fATTEMPT\u001fpriya" }

/-- The real SHA-256 on the text both rows hash. -/
def separatorSha : Sha256 := Sha256.table
  [("0000000000000000000000000000000000000000000000000000000000000000\u001f2026-06-21T10:00:00Z\u001fr\u001fopen_draft_s" ++
    "ar\u001fATTEMPT\u001fx\u001fopen_draft_sar\u001fATTEMPT\u001fpriya\u001fcompliance\u001f9fb622cdeb0408544a7276c41da25e53c78c58b1017fc53a4ca770c612ab1696\u001f",
    [222,198,6,3,137,153,123,172,24,248,135,28,175,150,120,71,
      88,26,116,31,104,23,138,104,142,205,18,204,32,167,213,238])]

theorem separatorSha_rowHash {r : AuditRecord}
    (h : r.prevHash ++ String.singleton US ++ canonical r =
      separatorRow.prevHash ++ String.singleton US ++ canonical separatorRow) :
    AuditHasher.rowHash separatorSha r = separatorRow.rowHash := by
  rw [AuditHasher.rowHash,h,Digests.sha256Hex,separatorSha,Sha256.table_toUTF8]
  decide +kernel

theorem separatorSha_injective : Function.Injective separatorSha :=
  Sha256.table_injective (by decide) (by decide)

theorem separatorRow_ne_shiftedRow : separatorRow.logical ≠ shiftedRow.logical := fun h =>
  absurd (congrArg (fun l => l.2.1) h) (by decide)

/-- One stored row, and two rewrites of it that the verifier accepts: one shifts the separators,
the other stores an empty reference for an absent one. -/
theorem rowHash_confuses_fields :
    Function.Injective separatorSha ∧ (∀ s, Digests.sha256Hex separatorSha s ≠ GENESIS) ∧
    separatorRow.prevHash = shiftedRow.prevHash ∧
    AuditHasher.rowHash separatorSha separatorRow = AuditHasher.rowHash separatorSha shiftedRow ∧
    separatorRow.logical ≠ shiftedRow.logical ∧
    (verifyChain separatorSha [separatorRow]).valid = true ∧
    (verifyChain separatorSha [shiftedRow]).valid = true ∧
    ((Edit.resultRef (some "")).apply separatorRow).logical ≠ separatorRow.logical ∧
    (verifyChain separatorSha [(Edit.resultRef (some "")).apply separatorRow]).valid = true := by
  have hrow := separatorSha_rowHash (r := separatorRow) rfl
  have hshift := separatorSha_rowHash (r := shiftedRow) (by decide +kernel)
  have hempty := separatorSha_rowHash (r := (Edit.resultRef (some "")).apply separatorRow) rfl
  have hvalid : ∀ r : AuditRecord, r.prevHash = GENESIS → r.rowHash = separatorRow.rowHash →
      AuditHasher.rowHash separatorSha r = separatorRow.rowHash →
      (verifyChain separatorSha [r]).valid = true := by
    intro r hp hs hd
    rw [verifyChain_valid_iff,HashChain.valid_cons]
    exact ⟨hp,hd.trans hs.symm,rfl⟩
  exact ⟨separatorSha_injective,table_ne_GENESIS (by decide),rfl,hrow.trans hshift.symm,
    separatorRow_ne_shiftedRow,hvalid _ rfl rfl hrow,hvalid _ rfl rfl hshift,
    fun h => absurd (congrArg (fun l => l.2.2.2.2.2.2.2) h) (by decide),hvalid _ rfl rfl hempty⟩

/-- Separators in the client's run id make the row confusable; a changed caller is reported. -/
theorem rowHash_pins_fields_separatorRow :
    separatorRow.Confusable shiftedRow ∧
    verifyChain separatorSha [(Edit.caller "mallory").apply separatorRow] = .broken 1 digestFault := by
  have hvalid : (verifyChain separatorSha [separatorRow]).valid = true := by
    rw [verifyChain_valid_iff,HashChain.valid_cons]
    exact ⟨rfl,separatorSha_rowHash rfl,rfl⟩
  have h := rowHash_pins_fields_iff separatorSha_injective
  constructor
  · apply Classical.not_not.mp
    rw [← h.1 separatorRow shiftedRow rfl]
    have hrow := separatorSha_rowHash (r := separatorRow) rfl
    have hshift := separatorSha_rowHash (r := shiftedRow) (by decide +kernel)
    exact fun hpin => separatorRow_ne_shiftedRow (hpin (hrow.trans hshift.symm))
  · exact (h.2 [] [] separatorRow (.caller "mallory") hvalid
      (fun h => absurd (congrArg (fun l => l.2.2.2.2.1) h) (by decide))).mpr id

/-- The rows of an accepted chain link to the genesis constant or to a digest. -/
theorem US_not_mem_prevHash {rows : List AuditRecord} (h : (links sha).Valid GENESIS rows)
    {r : AuditRecord} (hr : r ∈ rows) : US ∉ r.prevHash.toList := by
  obtain ⟨pre,post,rfl⟩ := List.append_of_mem hr
  obtain ⟨hpre,hrest⟩ := ((links sha).valid_append _ _ _).mp h
  have hlink : r.prevHash = (links sha).head GENESIS pre := ((links sha).valid_cons _ _ _).mp hrest |>.1
  rw [hlink]
  rcases (links sha).head_eq_or_digest hpre with hg | ⟨x,hx⟩
  · rw [hg]
    decide
  · rw [hx]
    exact Digests.not_mem_sha256Hex (by decide) _

/-- The separator after the link makes the link and the canonical form readable from the input. -/
theorem rowHash_split (hsha : Function.Injective sha) {a b : AuditRecord}
    (hpa : US ∉ a.prevHash.toList) (hpb : US ∉ b.prevHash.toList)
    (h : AuditHasher.rowHash sha a = AuditHasher.rowHash sha b) :
    a.prevHash = b.prevHash ∧ canonical a = canonical b := by
  have ht := congrArg String.toList (Digests.sha256Hex_injective hsha h)
  simp only [String.toList_append,String.toList_singleton,List.append_assoc,List.singleton_append] at ht
  obtain ⟨hp,hc⟩ := Delimited.append_cons_inj US hpa hpb ht
  exact ⟨String.toList_injective hp,String.toList_injective hc⟩

/-- No fork: the rows of an accepted chain link to pairwise distinct hashes. -/
theorem prevHash_nodup (hsha : Function.Injective sha)
    (hgen : ∀ s, Digests.sha256Hex sha s ≠ GENESIS) {rows : List AuditRecord}
    (h : (links sha).Valid GENESIS rows) : (rows.map AuditRecord.prevHash).Nodup := by
  apply (links sha).prevs_nodup GENESIS (fun r => US ∉ r.prevHash.toList) _ (fun r => hgen _) h
  · exact fun r hr => US_not_mem_prevHash h hr
  · exact fun a b ha hb hd => (rowHash_split hsha ha hb hd).1

/-- Backwards along both chains: equal head hashes force equal rows down to the genesis link. -/
theorem logical_eq_of_headHash_eq (hsha : Function.Injective sha)
    (hgen : ∀ s, Digests.sha256Hex sha s ≠ GENESIS) {rows rows' : List AuditRecord}
    (h : (verifyChain sha rows).valid = true) (h' : (verifyChain sha rows').valid = true)
    (hplain : ∀ r ∈ rows, r.Plain) (hplain' : ∀ r ∈ rows', r.Plain)
    (hhead : headHash rows = headHash rows') :
    rows.map AuditRecord.logical = rows'.map AuditRecord.logical := by
  rw [verifyChain_valid_iff] at h h'
  rw [headHash_eq sha,headHash_eq sha] at hhead
  apply (links sha).valid_binding AuditRecord.logical GENESIS
    (fun r => r.Plain ∧ US ∉ r.prevHash.toList) _ (fun r => hgen _) h h' _ _ hhead
  · intro a b ha hb hd
    obtain ⟨hprev,hcanonical⟩ := rowHash_split hsha ha.2 hb.2 hd
    exact ⟨hprev,ha.1.logical_eq hb.1 ((canonical_eq_iff a b).mp hcanonical)⟩
  · exact fun r hr => ⟨hplain r hr,US_not_mem_prevHash h hr⟩
  · exact fun r hr => ⟨hplain' r hr,US_not_mem_prevHash h' hr⟩

/-- A rejection names the first row at which the link or the digest fails. -/
theorem brokenSeq_first {rows : List AuditRecord} (h : (verifyChain sha rows).valid = false) :
    ∃ pre r post, rows = pre ++ r::post ∧ (verifyChain sha rows).brokenSeq = some r.seq ∧
      (∀ p, p <+: pre → (verifyChain sha p).valid = true) ∧
      (r.prevHash ≠ headHash pre ∨ AuditHasher.rowHash sha r ≠ r.rowHash) := by
  cases hc : (links sha).check GENESIS rows with
  | none => rw [(verifyChain_valid_iff sha rows).mpr hc] at h; exact Bool.noConfusion h
  | some rf =>
    obtain ⟨r,f⟩ := rf
    obtain ⟨pre,post,hrows,hpre,hf⟩ := ((links sha).check_eq_some_iff _ _ _ _).mp hc
    have hparts : ∀ p, p <+: pre → (verifyChain sha p).valid = true := by
      rintro p ⟨q,rfl⟩
      exact (verifyChain_valid_iff sha p).mpr (((links sha).valid_append _ _ _).mp hpre).1
    refine ⟨pre,r,post,hrows,?_,hparts,?_⟩
    · rw [verifyChain,verifyFrom_eq,hc]
      cases f <;> rfl
    · cases f with
      | link => rw [headHash_eq sha]; exact Or.inl hf
      | digest => exact Or.inr hf.2

/-- The head hash of an accepted chain binds every row, so rewrites that keep it are noticed, and
a rejection names the first row whose link or digest fails. -/
theorem verifyChain_binding (hsha : Function.Injective sha)
    (hgen : ∀ s, Digests.sha256Hex sha s ≠ GENESIS) :
    (∀ rows rows' : List AuditRecord, (verifyChain sha rows).valid = true →
      (∀ r ∈ rows, r.Plain) → (∀ r ∈ rows', r.Plain) → headHash rows = headHash rows' →
      ((verifyChain sha rows').valid = true →
        rows.length = rows'.length ∧ rows.map AuditRecord.logical = rows'.map AuditRecord.logical) ∧
      (rows.map AuditRecord.logical ≠ rows'.map AuditRecord.logical →
        (verifyChain sha rows').valid = false)) ∧
    ∀ rows : List AuditRecord, (verifyChain sha rows).valid = false → ∃ pre r post,
      rows = pre ++ r::post ∧ (verifyChain sha rows).brokenSeq = some r.seq ∧
        (∀ p, p <+: pre → (verifyChain sha p).valid = true) ∧
        (r.prevHash ≠ headHash pre ∨ AuditHasher.rowHash sha r ≠ r.rowHash) := by
  constructor
  · intro rows rows' h hplain hplain' hhead
    have hsame : (verifyChain sha rows').valid = true →
        rows.map AuditRecord.logical = rows'.map AuditRecord.logical := fun h' =>
      logical_eq_of_headHash_eq hsha hgen h h' hplain hplain' hhead
    refine ⟨fun h' => ⟨?_,hsame h'⟩,fun hne => ?_⟩
    · simpa using congrArg List.length (hsame h')
    · exact Bool.eq_false_iff.mpr fun h' => hne (hsame h')
  · exact fun rows h => brokenSeq_first h

/-- An `ATTEMPT` row of an ordinary run, at the head of a chain. -/
def plainRow : AuditRecord :=
  { separatorRow with runId := "run-1", rowHash := "a171d214599a4f223ae74d6d609d72a2b6d12ab74e7265cb7d49c6be668c59a2" }

/-- The real SHA-256 on the text the row hashes. -/
def plainSha : Sha256 := Sha256.table
  [("0000000000000000000000000000000000000000000000000000000000000000\u001f2026-06-21T10:00:00Z\u001frun-1\u001fopen_dra" ++
    "ft_sar\u001fATTEMPT\u001fpriya\u001fcompliance\u001f9fb622cdeb0408544a7276c41da25e53c78c58b1017fc53a4ca770c612ab1696\u001f",
    [161,113,210,20,89,154,79,34,58,231,77,109,96,157,114,162,
      182,209,42,183,78,114,101,203,125,73,198,190,102,140,89,162])]

/-- Naming another caller in the head row is noticed although the head hash is kept. -/
theorem verifyChain_binding_plainRow :
    (verifyChain plainSha [plainRow]).valid = true ∧
    (verifyChain plainSha [(Edit.caller "mallory").apply plainRow]).valid = false := by
  have hdigest : AuditHasher.rowHash plainSha plainRow = plainRow.rowHash := by
    rw [AuditHasher.rowHash,Digests.sha256Hex,plainSha,Sha256.table_toUTF8]
    decide +kernel
  have hvalid : (verifyChain plainSha [plainRow]).valid = true := by
    rw [verifyChain_valid_iff,HashChain.valid_cons]
    exact ⟨rfl,hdigest,rfl⟩
  have hplain : ∀ r ∈ [plainRow], r.Plain := List.forall_mem_singleton.mpr ⟨by decide,by decide⟩
  have hedit : ∀ r ∈ [(Edit.caller "mallory").apply plainRow], r.Plain :=
    List.forall_mem_singleton.mpr ⟨by decide,by decide⟩
  have hbind := (verifyChain_binding
    (Sha256.table_injective (by decide) (by decide) : Function.Injective plainSha)
    (table_ne_GENESIS (by decide))).1
  refine ⟨hvalid,(hbind _ _ hvalid hplain hedit rfl).2 fun h => ?_⟩
  exact absurd (congrArg (fun l => l.map fun x => x.2.2.2.2.1) h) (by decide)

end AuditChainVerifier
end AtlasCompliance.McpTools
