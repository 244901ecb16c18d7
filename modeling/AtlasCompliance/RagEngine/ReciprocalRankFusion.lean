import AtlasCompliance.Lib.RankFusion
import AtlasCompliance.RagEngine.Chunk

/-! Reciprocal rank fusion of the candidate lists, over exact rationals: every id once, in the one order
that its summed shares and its text give. -/
namespace AtlasCompliance.RagEngine
open RankFusion

/-! ### Ids as texts -/

theorem hexDigits_length (w n : ℕ) : (hexDigits w n).length = w := by
  induction w generalizing n with
  | zero => rfl
  | succ w ih => rw [hexDigits,List.length_append,ih,List.length_singleton]

theorem hexDigits_inj {w m n : ℕ} (h : hexDigits w m = hexDigits w n) : m % 16^w = n % 16^w := by
  have hdigit : ∀ a < 16, ∀ b < 16, Nat.digitChar a = Nat.digitChar b → a = b := by decide
  induction w generalizing m n with
  | zero => simp [Nat.mod_one]
  | succ w ih =>
    rw [hexDigits,hexDigits] at h
    obtain ⟨hhigh,hlow⟩ := List.append_inj h (by rw [hexDigits_length,hexDigits_length])
    have hlast := hdigit _ (Nat.mod_lt m (by decide)) _ (Nat.mod_lt n (by decide))
      (List.singleton_inj.mp hlow)
    have hrest := ih hhigh
    rw [pow_succ',Nat.mod_mul,Nat.mod_mul,hlast,hrest]

/-- The text tells ids apart. -/
theorem UUID.text_injective : Function.Injective UUID.text := by
  intro a b h
  have hgroup : ∀ {w m n : ℕ} {x y : List Char}, hexDigits w m ++ '-'::x = hexDigits w n ++ '-'::y →
      m % 16^w = n % 16^w ∧ x = y := by
    intro w m n x y heq
    obtain ⟨hdigits,htail⟩ := List.append_inj heq (by rw [hexDigits_length,hexDigits_length])
    exact ⟨hexDigits_inj hdigits,(List.cons.inj htail).2⟩
  have ha := a.bits.isLt
  have hb := b.bits.isLt
  simp only [UUID.text,List.append_assoc,List.cons_append] at h
  obtain ⟨h₁,h⟩ := hgroup h
  obtain ⟨h₂,h⟩ := hgroup h
  obtain ⟨h₃,h⟩ := hgroup h
  obtain ⟨h₄,h⟩ := hgroup h
  have h₅ := hexDigits_inj h
  have hbits : a.bits.toNat = b.bits.toNat := by
    norm_num at h₁ h₂ h₃ h₄ h₅ ha hb
    omega
  cases a
  cases b
  exact congrArg UUID.mk (BitVec.eq_of_toNat_eq hbits)

variable {D : Type}

/-- `withScore`. -/
def RetrievedChunk.withScore {E : Type} (c : RetrievedChunk D) (newScore : E) : RetrievedChunk E :=
  ⟨c.id,c.documentId,c.content,c.clearance,c.docId,c.title,c.sourceUri,newScore⟩

/-- The ids of a candidate list. -/
def ids (list : List (RetrievedChunk D)) : List UUID := list.map RetrievedChunk.id

/-- `ReciprocalRankFusion`, which refuses a constant that is not positive. -/
structure ReciprocalRankFusion where
  k : ℕ
  positive : 0 < k

namespace ReciprocalRankFusion

/-- The two maps of `fuse`; `representative` keeps the order in which it was filled. -/
structure Maps (D : Type) where
  fusedScore : UUID → Option ℚ
  representative : List (RetrievedChunk D)

/-- `Map.merge` with `Double::sum`. -/
def merge (scores : UUID → Option ℚ) (id : UUID) (value : ℚ) : UUID → Option ℚ :=
  Function.update scores id (match scores id with
    | none => some value
    | some old => some (old + value))

def putIfAbsent (chunks : List (RetrievedChunk D)) (chunk : RetrievedChunk D) :
    List (RetrievedChunk D) :=
  if chunk.id ∈ ids chunks then chunks else chunks ++ [chunk]

/-- The descending score first, then the text of the id. -/
def ordered (a b : RetrievedChunk ℚ) : Bool :=
  b.score < a.score || (a.score = b.score && a.id.text ≤ b.id.text)

variable (R : ReciprocalRankFusion)

/-- The body of the inner loop at index `i`. -/
def add (m : Maps D) (p : RetrievedChunk D × ℕ) : Maps D :=
  let rank := p.2 + 1
  ⟨merge m.fusedScore p.1.id (1 / ((R.k + rank : ℕ) : ℚ)),putIfAbsent m.representative p.1⟩

def collect (rankedLists : List (List (RetrievedChunk D))) : Maps D :=
  rankedLists.foldl (fun m list => list.zipIdx.foldl R.add m) ⟨fun _ => none,[]⟩

/-- `fuse`; there is no result if a representative had no score. -/
def fuse (rankedLists : List (List (RetrievedChunk D))) : Option (List (RetrievedChunk ℚ)) :=
  let m := R.collect rankedLists
  (m.representative.mapM fun c => (m.fusedScore c.id).map c.withScore).map fun scored =>
    scored.mergeSort ordered

/-- What a list gives to its item of index `i`. -/
def share (i : ℕ) : ℚ := 1 / ((R.k + (i + 1) : ℕ) : ℚ)

theorem share_nonneg (i : ℕ) : 0 ≤ R.share i := by
  rw [share]
  positivity

theorem share_strictAnti : StrictAnti R.share := by
  intro i j hij
  have hlt : ((R.k + (i + 1) : ℕ) : ℚ) < ((R.k + (j + 1) : ℕ) : ℚ) := by
    exact_mod_cast (by omega : R.k + (i + 1) < R.k + (j + 1))
  exact one_div_lt_one_div_of_lt (by positivity) hlt

variable {R}

theorem merge_getD (scores : UUID → Option ℚ) (id : UUID) (value : ℚ) (i : UUID) :
    (merge scores id value i).getD 0 = (scores i).getD 0 + if i = id then value else 0 := by
  rw [merge,Function.update_apply]
  split
  · rename_i h
    subst h
    cases scores i <;> simp
  · simp

theorem merge_isSome (scores : UUID → Option ℚ) (id : UUID) (value : ℚ) (i : UUID) :
    (merge scores id value i).isSome = true ↔ (scores i).isSome = true ∨ i = id := by
  rw [merge,Function.update_apply]
  split
  · rename_i h
    subst h
    cases scores i <;> simp
  · rename_i h
    simp [h]

theorem ids_putIfAbsent (chunks : List (RetrievedChunk D)) (chunk : RetrievedChunk D) :
    ids (putIfAbsent chunks chunk) =
      if chunk.id ∈ ids chunks then ids chunks else ids chunks ++ [chunk.id] := by
  rw [putIfAbsent]
  split <;> simp [ids]

/-- One representative for each id that has a score. -/
structure Maps.Sound (m : Maps D) : Prop where
  nodup : (ids m.representative).Nodup
  scored : ∀ id, (m.fusedScore id).isSome = true ↔ id ∈ ids m.representative

theorem mem_ids_add (m : Maps D) (p : RetrievedChunk D × ℕ) (id : UUID) :
    id ∈ ids (R.add m p).representative ↔ id ∈ ids m.representative ∨ id = p.1.id := by
  rw [add,ids_putIfAbsent]
  split
  · rename_i h
    constructor
    · exact Or.inl
    · rintro (hid | rfl)
      · exact hid
      · exact h
  · simp

theorem Maps.Sound.add {m : Maps D} (h : m.Sound) (p : RetrievedChunk D × ℕ) : (R.add m p).Sound where
  nodup := by
    rw [ReciprocalRankFusion.add,ids_putIfAbsent]
    split
    · exact h.nodup
    · rename_i hnew
      rw [List.nodup_append']
      exact ⟨h.nodup,List.nodup_singleton _,by simpa using hnew⟩
  scored id := by
    rw [mem_ids_add,← h.scored]
    exact merge_isSome _ _ _ _

/-- What the inner loop over one list does to the maps. -/
theorem foldl_add {list : List (RetrievedChunk D)} (hlist : (ids list).Nodup) (n : ℕ) {m : Maps D}
    (hm : m.Sound) : ((list.zipIdx n).foldl R.add m).Sound ∧
      (∀ id, id ∈ ids ((list.zipIdx n).foldl R.add m).representative ↔
        id ∈ ids m.representative ∨ id ∈ ids list) ∧
      ∀ id, (((list.zipIdx n).foldl R.add m).fusedScore id).getD 0 =
        (m.fusedScore id).getD 0 + given (fun i => R.share (n + i)) (ids list) id := by
  induction list generalizing n m with
  | nil => exact ⟨hm,by simp [ids],fun id => by simp [given,ids]⟩
  | cons c list ih =>
    obtain ⟨hc,hnodup⟩ := List.nodup_cons.mp hlist
    obtain ⟨hsound,hmem,hscore⟩ := ih hnodup (n+1) (hm.add (c,n))
    rw [List.zipIdx_cons,List.foldl_cons]
    refine ⟨hsound,fun id => ?_,fun id => ?_⟩
    · rw [hmem,mem_ids_add]
      simp only [ids,List.map_cons,List.mem_cons]
      tauto
    · have hshift : (fun i => R.share (n + 1 + i)) = fun i => R.share (n + (i + 1)) :=
        funext fun i => congrArg R.share (by omega)
      have hcons : given (fun i => R.share (n + i)) (ids (c::list)) id = if id = c.id then
          R.share n else given (fun i => R.share (n + (i + 1))) (ids list) id :=
        given_cons _ (ids list) c.id id
      rw [hscore,ReciprocalRankFusion.add,merge_getD,add_assoc,hshift,hcons]
      split
      · rename_i hid
        have hnone : given (fun i => R.share (n + (i + 1))) (ids list) c.id = 0 := given_of_notMem _ hc
        rw [hid,hnone,add_zero]
        rfl
      · rw [zero_add]

theorem collect_spec {lists : List (List (RetrievedChunk D))} (hlists : ∀ l ∈ lists, (ids l).Nodup)
    {m : Maps D} (hm : m.Sound) :
    (lists.foldl (fun m list => list.zipIdx.foldl R.add m) m).Sound ∧
      (∀ id, id ∈ ids (lists.foldl (fun m list => list.zipIdx.foldl R.add m) m).representative ↔
        id ∈ ids m.representative ∨ ∃ l ∈ lists, id ∈ ids l) ∧
      ∀ id, ((lists.foldl (fun m list => list.zipIdx.foldl R.add m) m).fusedScore id).getD 0 =
        (m.fusedScore id).getD 0 + total R.share (lists.map ids) id := by
  induction lists generalizing m with
  | nil => exact ⟨hm,by simp,fun id => by simp [total]⟩
  | cons l lists ih =>
    obtain ⟨hsound₁,hmem₁,hscore₁⟩ := @foldl_add D R l (hlists l List.mem_cons_self) 0 m hm
    obtain ⟨hsound,hmem,hscore⟩ := ih (fun l' hl' => hlists l' (List.mem_cons_of_mem l hl')) hsound₁
    rw [List.foldl_cons]
    refine ⟨hsound,fun id => ?_,fun id => ?_⟩
    · rw [hmem,hmem₁]
      simp only [List.mem_cons,exists_eq_or_imp]
      tauto
    · rw [hscore,hscore₁]
      simp [total,add_assoc]

theorem mapM_eq_some {α β : Type} {f : α → Option β} {g : α → β} {l : List α}
    (h : ∀ a ∈ l, f a = some (g a)) : l.mapM f = some (l.map g) := by
  induction l with
  | nil => rfl
  | cons a l ih =>
    rw [List.mapM_cons,h a List.mem_cons_self,ih fun b hb => h b (List.mem_cons_of_mem a hb)]
    rfl

theorem ordered_iff {a b : RetrievedChunk ℚ} : ordered a b = true ↔
    b.score < a.score ∨ a.score = b.score ∧ a.id.text ≤ b.id.text := by
  simp [ordered]

theorem ordered_trans (a b c : RetrievedChunk ℚ) (hab : ordered a b = true)
    (hbc : ordered b c = true) : ordered a c = true := by
  rw [ordered_iff] at hab hbc ⊢
  obtain hab | ⟨hab,htext⟩ := hab
  · obtain hbc | ⟨hbc,-⟩ := hbc
    · exact Or.inl (hbc.trans hab)
    · exact Or.inl (hbc ▸ hab)
  · obtain hbc | ⟨hbc,htext'⟩ := hbc
    · exact Or.inl (hab ▸ hbc)
    · exact Or.inr ⟨hab.trans hbc,htext.trans htext'⟩

theorem ordered_total (a b : RetrievedChunk ℚ) : (ordered a b || ordered b a) = true := by
  rw [Bool.or_eq_true,ordered_iff,ordered_iff]
  obtain hlt | heq | hlt := lt_trichotomy a.score b.score
  · exact Or.inr (Or.inl hlt)
  · obtain htext | htext := le_total a.id.text b.id.text
    · exact Or.inl (Or.inr ⟨heq,htext⟩)
    · exact Or.inr (Or.inr ⟨heq.symm,htext⟩)
  · exact Or.inl (Or.inl hlt)

/-- The scored chunks in their order. -/
structure Fused (lists : List (List UUID)) (scores : UUID → ℚ) (out : List (RetrievedChunk ℚ)) : Prop where
  nodup : (ids out).Nodup
  mem : ∀ id, id ∈ ids out ↔ ∃ l ∈ lists, id ∈ l
  scored : ∀ c ∈ out, c.score = scores c.id
  ordered : (ids out).Pairwise (Before scores UUID.text)

theorem fuse_fused {lists : List (List (RetrievedChunk D))} (hlists : ∀ l ∈ lists, (ids l).Nodup) :
    ∃ out, R.fuse lists = some out ∧
      Fused (lists.map ids) (total R.share (lists.map ids)) out := by
  obtain ⟨⟨hnodup,hscored⟩,hmem,hscore⟩ := @collect_spec D R lists hlists ⟨fun _ => none,[]⟩
    ⟨List.nodup_nil,fun id => by simp [ids]⟩
  let scores := total R.share (lists.map ids)
  let m := R.collect lists
  have hget : ∀ c ∈ m.representative, (m.fusedScore c.id).map c.withScore =
      some (c.withScore (scores c.id)) := by
    intro c hc
    obtain ⟨x,hx⟩ := Option.isSome_iff_exists.mp ((hscored c.id).mpr (List.mem_map_of_mem hc))
    have hval := hscore c.id
    rw [hx] at hval
    have hx' : m.fusedScore c.id = some (scores c.id) := by
      refine hx.trans (congrArg some ?_)
      simpa using hval
    rw [hx',Option.map_some]
  let scored := m.representative.map fun c => c.withScore (scores c.id)
  have hperm : (scored.mergeSort ordered).Perm scored := List.mergeSort_perm scored ordered
  have hids : (ids (scored.mergeSort ordered)).Perm (ids m.representative) := by
    have hsame : ids scored = ids m.representative := by simp [ids,scored,RetrievedChunk.withScore]
    exact hsame ▸ hperm.map RetrievedChunk.id
  have hall : ∀ c ∈ scored.mergeSort ordered, c.score = scores c.id := by
    intro c hc
    obtain ⟨c',-,rfl⟩ := List.mem_map.mp (hperm.subset hc)
    rfl
  have hsortnodup := hids.nodup_iff.mpr hnodup
  refine ⟨scored.mergeSort ordered,?_,hsortnodup,fun id => ?_,hall,?_⟩
  · exact congrArg (Option.map _) (mapM_eq_some hget)
  · refine hids.mem_iff.trans ((hmem id).trans ?_)
    simp [ids]
  · have hsorted := List.pairwise_mergeSort ordered_trans ordered_total scored
    refine List.pairwise_map.mpr ?_
    refine ((hsorted.and (List.pairwise_map.mp hsortnodup))).imp_of_mem ?_
    rintro a b ha hb ⟨hle,hne⟩
    rw [ordered_iff,hall a ha,hall b hb] at hle
    obtain hlt | ⟨heq,htext⟩ := hle
    · exact Or.inl hlt
    · exact Or.inr ⟨heq,lt_of_le_of_ne htext fun h => hne (UUID.text_injective h)⟩

/-- Fusion returns every id of the lists once, in the strict order of summed shares and then of texts;
the order of the lists does not matter, and what stands above another id in every list that has it
stands above it in the result. -/
theorem fuse_correct {lists : List (List (RetrievedChunk D))} (hlists : ∀ l ∈ lists, (ids l).Nodup) :
    ∃ out, R.fuse lists = some out ∧ (ids out).Nodup ∧
      (∀ id, id ∈ ids out ↔ ∃ l ∈ lists, id ∈ ids l) ∧
      out.Pairwise (fun a b => b.score < a.score ∨ a.score = b.score ∧ a.id.text < b.id.text) ∧
      (∀ c ∈ out, c.score = (lists.map fun l =>
        if c.id ∈ ids l then 1 / ((R.k + ((ids l).idxOf c.id + 1) : ℕ) : ℚ) else 0).sum) ∧
      (∀ lists', lists.Perm lists' → ∃ out', R.fuse lists' = some out' ∧
        out'.map (fun c => (c.id,c.score)) = out.map fun c => (c.id,c.score)) ∧
      ∀ a b, (∃ l ∈ lists, b ∈ ids l) → (∀ l ∈ lists, b ∈ ids l → Above a b (ids l)) →
        Above a b (ids out) := by
  obtain ⟨out,hout,hfused⟩ := @fuse_fused D R lists hlists
  have hmem : ∀ id, id ∈ ids out ↔ ∃ l ∈ lists, id ∈ ids l := by simpa using hfused.mem
  refine ⟨out,hout,hfused.nodup,hmem,?_,fun c hc => ?_,fun lists' hperm => ?_,fun a b hb habove => ?_⟩
  · refine (List.pairwise_map.mp hfused.ordered).imp_of_mem ?_
    intro a b ha hb hab
    rw [hfused.scored a ha,hfused.scored b hb]
    exact hab
  · rw [hfused.scored c hc,total,List.map_map]
    rfl
  · obtain ⟨out',hout',hfused'⟩ := @fuse_fused D R lists' fun l hl => hlists l (hperm.mem_iff.mpr hl)
    rw [← total_perm R.share (hperm.map ids)] at hfused'
    have hids : ids out' = ids out := by
      refine eq_of_perm hfused'.ordered hfused.ordered ?_
      refine (List.perm_ext_iff_of_nodup hfused'.nodup hfused.nodup).mpr fun id => ?_
      rw [hfused'.mem,hfused.mem]
      simp only [(hperm.map ids).mem_iff]
    have hpairs : ∀ {o : List (RetrievedChunk ℚ)},
        (∀ c ∈ o, c.score = total R.share (lists.map ids) c.id) →
          o.map (fun c => (c.id,c.score)) =
            (ids o).map fun id => (id,total R.share (lists.map ids) id) := by
      intro o ho
      rw [ids,List.map_map]
      exact List.map_congr_left fun c hc => congrArg (Prod.mk c.id) (ho c hc)
    exact ⟨out',hout',by rw [hpairs hfused'.scored,hpairs hfused.scored,hids]⟩
  · have hlt : total R.share (lists.map ids) b < total R.share (lists.map ids) a :=
      total_lt_total R.share_nonneg R.share_strictAnti (by simpa using hlists) (by simpa using hb)
        (by simpa using habove)
    have ha : a ∈ ids out := by
      obtain ⟨l,hl,hbl⟩ := hb
      exact (hmem a).mpr ⟨l,hl,(habove l hl hbl).mem⟩
    exact above_of_before hfused.ordered ha ((hmem b).mpr hb) (Or.inl hlt)

/-- A chunk by its number. -/
def numbered (n : ℕ) : RetrievedChunk Unit :=
  ⟨⟨BitVec.ofNat 128 n⟩,⟨0⟩,"Report within 30 days.","public",none,none,none,()⟩

/-- The third chunk comes behind the second one, which both retrievers found. -/
theorem fuse_correct_numbered : ∃ out,
    (⟨60,by decide⟩ : ReciprocalRankFusion).fuse [[numbered 1,numbered 2],[numbered 2,numbered 3]] =
      some out ∧ (ids out).Nodup ∧ Above (numbered 2).id (numbered 3).id (ids out) := by
  obtain ⟨out,hout,hnodup,-,-,-,-,habove⟩ := @fuse_correct Unit ⟨60,by decide⟩
    [[numbered 1,numbered 2],[numbered 2,numbered 3]] (by decide +kernel)
  refine ⟨out,hout,hnodup,habove _ _ ⟨[numbered 2,numbered 3],by simp,by simp [ids]⟩ ?_⟩
  intro l hl hmem
  simp only [List.mem_cons,List.not_mem_nil,or_false] at hl
  obtain rfl | rfl := hl
  · exact absurd hmem (by decide +kernel)
  · exact ⟨[],[(numbered 3).id],rfl,List.mem_singleton_self _⟩

end ReciprocalRankFusion
end AtlasCompliance.RagEngine
