import AtlasCompliance.McpTools.AuditAppend

/-! Draft references: the sequence gives every transaction its own number, so the committed
references are pairwise distinct without any help from the `UNIQUE` constraint. -/
namespace AtlasCompliance.McpTools
open Java AuditHasher AuditChainVerifier

/-- The references an open transaction has drawn. -/
def Tx.refs (t : Tx) : List String :=
  match t.next with
  | .insertDraft _ draftRef => draftRef::t.draftRows.map SarDraft.draftRef
  | _ => t.draftRows.map SarDraft.draftRef

namespace Db
variable {τ : Type}

/-- `agent.sar_draft` as committed. -/
def sarDraft (db : Db τ) : List SarDraft := db.drafts.map Prod.snd

/-- The reference was formatted from a number that `own` gives to `id`. -/
def Drew (db : Db τ) (own : ℕ → Option τ) (id : τ) (ref : String) : Prop :=
  ∃ year n, n < db.refSeq ∧ own n = some id ∧ ref = SarDraftService.draftRef year n

/-- Every reference in the schema belongs to the transaction that drew its number. -/
structure RefsOwned (db : Db τ) (own : ℕ → Option τ) : Prop where
  committed : ∀ e ∈ db.drafts, db.Drew own e.1 e.2.draftRef
  open_ : ∀ id t, db.open_ id = some t → ∀ ref ∈ t.refs, db.Drew own id ref
  owners : (db.drafts.map Prod.fst).Sublist db.committed

theorem Drew.mono {db db' : Db τ} {own : ℕ → Option τ} {id : τ} {ref : String} (h : db.Drew own id ref)
    (hle : db.refSeq ≤ db'.refSeq) : db'.Drew own id ref := by
  obtain ⟨year,n,hn,ho,hr⟩ := h
  exact ⟨year,n,lt_of_lt_of_le hn hle,ho,hr⟩

theorem refsOwned_init (own : ℕ → Option τ) : (init : Db τ).RefsOwned own where
  committed e he := by simp [init] at he
  open_ id t h := by simp [init] at h
  owners := List.Sublist.refl _

/-- Two committed drafts with one reference would have been written by one transaction. -/
theorem RefsOwned.nodup {db : Db τ} {own : ℕ → Option τ} (h : db.RefsOwned own) (hc : db.committed.Nodup) :
    (db.sarDraft.map SarDraft.draftRef).Nodup := by
  have hown : (db.drafts.map Prod.fst).Nodup := hc.sublist h.owners
  rw [sarDraft,List.map_map]
  rw [List.nodup_map_iff_inj_on (List.Nodup.of_map _ hown)]
  intro d hd e he hde
  obtain ⟨y,m,-,hm,hdr⟩ := h.committed d hd
  obtain ⟨z,n,-,hn,her⟩ := h.committed e he
  obtain rfl := SarDraftService.draftRef_inj (hdr.symm.trans (hde.trans her))
  exact List.inj_on_of_nodup_map hown hd he (Option.some.inj (hm.symm.trans hn))

/-- At most one draft row is pending in a transaction. -/
theorem TxOk.draftRows_length {sha : Sha256} {db : Db τ} {id : τ} {t : Tx} (h : db.TxOk sha id t) :
    t.draftRows.length ≤ 1 := by
  have happend : ∀ a, t.Appends a → t.draftRows.length ≤ 1 := by
    intro a ha
    unfold Tx.Appends at ha
    cases hj : t.job with
    | append b =>
      simp only [hj] at ha
      simp [ha.2]
    | createDraft d =>
      simp only [hj] at ha
      obtain ⟨draft,hd,-⟩ := ha
      simp [hd]
  unfold TxOk at h
  cases hn : t.next with
  | nextval d => simp only [hn] at h; simp [h.2.1]
  | insertDraft d draftRef => simp only [hn] at h; simp [h.2.1]
  | advisoryLock a => simp only [hn] at h; exact happend a h.1
  | selectHead a => simp only [hn] at h; exact happend a h.1
  | insertAudit a prevHash => simp only [hn] at h; exact happend a h.1
  | commit r =>
    simp only [hn] at h
    obtain ⟨a,ha,-⟩ := h
    exact happend a ha

/-- Numbers not yet drawn may be given to any transaction. -/
theorem RefsOwned.reassign {db : Db τ} {own : ℕ → Option τ} (h : db.RefsOwned own) (id : τ) :
    db.RefsOwned (Function.update own db.refSeq (some id)) := by
  have hdrew : ∀ j ref, db.Drew own j ref → db.Drew (Function.update own db.refSeq (some id)) j ref := by
    rintro j ref ⟨year,n,hn,ho,hr⟩
    exact ⟨year,n,hn,by rw [Function.update_of_ne (Nat.ne_of_lt hn),ho],hr⟩
  exact ⟨fun e he => hdrew _ _ (h.committed e he),fun j t ht ref hr => hdrew _ _ (h.open_ j t ht ref hr),
    h.owners⟩

variable [DecidableEq τ]

/-- A step that leaves the committed rows alone and gives no transaction a foreign reference. -/
theorem RefsOwned.update {db db' : Db τ} {own : ℕ → Option τ} (h : db.RefsOwned own) (id : τ) (u : Option Tx)
    (hopen : db'.open_ = Function.update db.open_ id u) (hdrafts : db'.drafts = db.drafts)
    (hcommitted : db'.committed = db.committed) (hle : db.refSeq ≤ db'.refSeq)
    (hid : ∀ t, u = some t → ∀ ref ∈ t.refs, db'.Drew own id ref) : db'.RefsOwned own := by
  refine ⟨fun e he => ?_,fun j t ht => ?_,?_⟩
  · exact (h.committed e (hdrafts ▸ he)).mono hle
  · rw [hopen] at ht
    by_cases hj : j = id
    · subst hj
      exact hid t (by simpa using ht)
    · exact fun ref hr => (h.open_ j t (by simpa [hj] using ht) ref hr).mono hle
  · rw [hdrafts,hcommitted]
    exact h.owners

theorem RefsOwned.executed {sha : Sha256} {db db' : Db τ} {own : ℕ → Option τ} (hi : db.Inv sha)
    (h : db.RefsOwned own) {id : τ} {t : Tx} (ht : db.open_ id = some t)
    (he : Executed sha db id t db') : ∃ own', db'.RefsOwned own' := by
  have hold := h.open_ id t ht
  have hok := hi.tx id t ht
  cases he with
  | @nextval d year hn =>
    refine ⟨_,(h.reassign id).update id _ rfl rfl rfl (Nat.le_succ _) ?_⟩
    rintro _ ⟨⟩ ref hr
    simp only [TxOk,hn] at hok
    obtain rfl : ref = SarDraftService.draftRef year db.refSeq := by simpa [Tx.refs,hok.2.1] using hr
    exact ⟨year,db.refSeq,Nat.lt_succ_self _,by simp,rfl⟩
  | @insertDraft d draftRef createdAt draft hn hrow =>
    refine ⟨own,h.update id _ rfl rfl rfl le_rfl ?_⟩
    rintro _ ⟨⟩ ref hr
    apply hold ref
    simp only [TxOk,hn] at hok
    simpa [Tx.refs,hn,hok.2.1,(SarDraftService.draftRef_of_row hrow).1] using hr
  | advisoryLock hn =>
    refine ⟨own,h.update id _ rfl rfl rfl le_rfl ?_⟩
    rintro _ ⟨⟩ ref hr
    exact hold ref (by simpa [Tx.refs,hn] using hr)
  | selectHead hn =>
    refine ⟨own,h.update id _ rfl rfl rfl le_rfl ?_⟩
    rintro _ ⟨⟩ ref hr
    exact hold ref (by simpa [Tx.refs,hn] using hr)
  | insertAudit hn =>
    refine ⟨own,h.update id _ rfl rfl rfl le_rfl ?_⟩
    rintro _ ⟨⟩ ref hr
    exact hold ref (by simpa [Tx.refs,hn] using hr)
  | commit hn =>
    refine ⟨own,fun e he => ?_,fun j u hu => ?_,?_⟩
    · rcases List.mem_append.mp he with he | he
      · exact (h.committed e he).mono le_rfl
      · obtain ⟨d,hd,rfl⟩ := List.mem_map.mp he
        exact (hold d.draftRef (by simpa [Tx.refs,hn] using ⟨d,hd,rfl⟩)).mono le_rfl
    · by_cases hj : j = id
      · subst hj
        simp [setOpen] at hu
      · exact fun ref hr => (h.open_ j u (by simpa [setOpen,hj] using hu) ref hr).mono le_rfl
    · simp only [setOpen,List.map_append,List.map_map]
      apply h.owners.append
      rcases Nat.le_one_iff_eq_zero_or_eq_one.mp hok.draftRows_length with hzero | hone
      · simp [List.length_eq_zero_iff.mp hzero]
      · obtain ⟨d,hd⟩ := List.length_eq_one_iff.mp hone
        simp [hd]

/-- One event keeps every reference with the transaction that drew it. -/
theorem RefsOwned.step {sha : Sha256} {db db' : Db τ} {own : ℕ → Option τ} {op : Op τ} (hi : db.Inv sha)
    (h : db.RefsOwned own) (hs : db.step sha op = some db') : ∃ own', db'.RefsOwned own' := by
  cases op with
  | begin_ id job =>
    simp only [Db.step] at hs
    split at hs
    · exact absurd hs (by simp)
    · obtain rfl := Option.some.inj hs
      refine ⟨own,h.update id _ rfl rfl rfl le_rfl ?_⟩
      rintro _ ⟨⟩ ref hr
      cases job <;> simp [Tx.refs,Job.first] at hr
  | exec id clock =>
    obtain ⟨t,ht,he⟩ := exec_cases hs
    exact h.executed hi ht he
  | rollback id drawn =>
    simp only [Db.step,Db.rollback] at hs
    obtain ⟨t,ht,hs⟩ := Option.bind_eq_some_iff.mp hs
    obtain rfl := Option.some.inj hs
    refine ⟨own,?_⟩
    cases drawn <;> cases t.next <;>
      exact h.update id none rfl rfl rfl (by simp [setOpen]) (fun _ hu => absurd hu (by simp))

theorem refsOwned_reachable {sha : Sha256} {db : Db τ}
    (h : Transition.Reachable (Db.step sha) init db) : ∃ own, db.RefsOwned own := by
  have hboth := h.invariant (I := fun s => s.Inv sha ∧ ∃ own, s.RefsOwned own)
    (fun _ _ _ ⟨hi,_,ho⟩ hs => ⟨hi.step hs,ho.step hi hs⟩)
    ⟨inv_init sha,fun _ => none,refsOwned_init _⟩
  exact hboth.2

end Db
end AtlasCompliance.McpTools
