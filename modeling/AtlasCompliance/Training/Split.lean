import AtlasCompliance.Training.Dataset

/-! When the split of a generated dataset is sound: exactly if no two pairs of a document ask the same
question. -/
namespace AtlasCompliance.Training
open Python Arranged

/-! ### Sizes -/

/-- Both sides have something where there are two examples or more. -/
theorem plannedSplit_bounds {n : ℕ} (h : 1 < n) : 1 ≤ (plannedSplit n).2 ∧ (plannedSplit n).2 < n := by
  unfold plannedSplit
  rw [if_neg (by omega)]
  simp only [if_pos h]
  omega

theorem plannedSplit_sum (n : ℕ) : (plannedSplit n).1 = n - (plannedSplit n).2 := by
  unfold plannedSplit
  by_cases h : n = 0
  · simp [h]
  · simp [h]

/-! ### The split of labelled pairs -/

section Labelled
variable {system : String} {shuffle : Shuffle} {pairs : List SyntheticPair}

/-- Every label is valid. -/
def Labelled (pairs : List SyntheticPair) : Prop := ∀ p ∈ pairs, p.label ∈ VALID_LABELS

theorem mapM_toExample (h : Labelled pairs) :
    pairs.mapM (toExample system) = .ok (pairs.map (exampleOf system)) := by
  induction pairs with
  | nil => rfl
  | cons p pairs ih =>
    rw [List.mapM_cons,toExample,if_pos (h p List.mem_cons_self),
      ih fun q hq => h q (List.mem_cons_of_mem p hq)]
    rfl

/-- The pairs in the order in which they are split. -/
def arranged (shuffle : Shuffle) (pairs : List SyntheticPair) : List SyntheticPair :=
  shuffled shuffle (sortBy stableKey pairs)

theorem arranged_perm : (arranged shuffle pairs).Perm pairs :=
  (shuffled_perm shuffle _).trans (sortBy_perm pairs)

theorem splitDataset_eq (h : Labelled pairs) : splitDataset system shuffle pairs =
    .ok (((arranged shuffle pairs).drop (plannedSplit pairs.length).2).map (exampleOf system),
      ((arranged shuffle pairs).take (plannedSplit pairs.length).2).map (exampleOf system)) := by
  have hlength : (arranged shuffle pairs).length = pairs.length := arranged_perm.length_eq
  have hlabel : Labelled (arranged shuffle pairs) := fun p hp => h p (arranged_perm.mem_iff.mp hp)
  have htrain := @mapM_toExample system ((arranged shuffle pairs).drop (plannedSplit pairs.length).2)
    fun p hp => hlabel p (List.mem_of_mem_drop hp)
  have hval := @mapM_toExample system ((arranged shuffle pairs).take (plannedSplit pairs.length).2)
    fun p hp => hlabel p (List.mem_of_mem_take hp)
  unfold splitDataset
  change (do
    let train ← ((arranged shuffle pairs).drop (plannedSplit (arranged shuffle pairs).length).2).mapM
      (toExample system)
    let val ← ((arranged shuffle pairs).take (plannedSplit (arranged shuffle pairs).length).2).mapM
      (toExample system)
    pure (train,val)) = _
  rw [hlength,htrain,hval]
  rfl

/-- The two sides hold the examples of all pairs, in the planned sizes and none in both, whatever order
the pairs came in. -/
structure Sound (system : String) (shuffle : Shuffle) (pairs : List SyntheticPair)
    (train val examples : List SFTExample) : Prop where
  split : splitDataset system shuffle pairs = .ok (train,val)
  all : pairs.mapM (toExample system) = .ok examples
  complete : (train ++ val).Perm examples
  sizes : (train.length,val.length) = plannedSplit pairs.length
  proper : 1 < pairs.length → 1 ≤ val.length ∧ val.length < pairs.length
  disjoint : ∀ e ∈ train, e ∉ val
  unordered : ∀ pairs', pairs'.Perm pairs → splitDataset system shuffle pairs' = .ok (train,val)

def SplitSound (system : String) (shuffle : Shuffle) (pairs : List SyntheticPair) : Prop :=
  ∃ train val examples, Sound system shuffle pairs train val examples

/-- The context of a pair is that of its document. -/
def Rooted (pairs : List SyntheticPair) : Prop :=
  ∀ p ∈ pairs, ∀ q ∈ pairs, p.provenance_ref = q.provenance_ref → p.context = q.context

theorem plannedSplit_le (n : ℕ) : (plannedSplit n).2 ≤ n := by
  unfold plannedSplit
  by_cases h : n = 0
  · simp [h]
  · simp only [if_neg h]
    split_ifs <;> omega

/-- Pairs of one context with the same example ask the same question. -/
theorem stableKey_eq_of_example (hroot : Rooted pairs) {p q : SyntheticPair} (hp : p ∈ pairs)
    (hq : q ∈ pairs) (h : exampleOf system p = exampleOf system q) : stableKey p = stableKey q := by
  have href : p.provenance_ref = q.provenance_ref := congrArg SFTExample.provenance_ref h
  have hcontent : p.question ++ "\n\n" ++ p.context = q.question ++ "\n\n" ++ q.context := by
    have hmessages := congrArg SFTExample.messages h
    simp only [exampleOf,turn,List.cons.injEq,Dict.mk.injEq,Prod.mk.injEq,true_and,and_true] at hmessages
    exact hmessages.1
  have hquestion : p.question = q.question := by
    have hlist := congrArg String.toList hcontent
    rw [hroot p hp q hq href] at hlist
    simp only [String.toList_append] at hlist
    exact String.toList_inj.mp (List.append_cancel_right (List.append_cancel_right hlist))
  rw [stableKey,stableKey,href,hquestion]

/-- The split is sound where no key occurs twice. -/
theorem splitSound_of_nodup (hlabel : Labelled pairs) (hroot : Rooted pairs)
    (hkeys : (pairs.map stableKey).Nodup) : SplitSound system shuffle pairs := by
  have hle := plannedSplit_le pairs.length
  have hlength : (arranged shuffle pairs).length = pairs.length := arranged_perm.length_eq
  refine ⟨_,_,_,splitDataset_eq hlabel,mapM_toExample hlabel,?_,?_,?_,?_,?_⟩
  · rw [← List.map_append]
    refine List.Perm.map _ (List.perm_append_comm.trans ?_)
    rw [List.take_append_drop]
    exact arranged_perm
  · simp only [List.length_map,List.length_drop,List.length_take,hlength,min_eq_left hle,
      ← plannedSplit_sum,Prod.mk.eta]
  · intro hn
    simp only [List.length_map,List.length_take,hlength,min_eq_left hle]
    exact plannedSplit_bounds hn
  · intro e htrain hval
    obtain ⟨p,hp,rfl⟩ := List.mem_map.mp htrain
    obtain ⟨q,hq,hpq⟩ := List.mem_map.mp hval
    have hmemp : p ∈ pairs := arranged_perm.mem_iff.mp (List.mem_of_mem_drop hp)
    have hmemq : q ∈ pairs := arranged_perm.mem_iff.mp (List.mem_of_mem_take hq)
    obtain rfl := List.inj_on_of_nodup_map hkeys hmemq hmemp (stableKey_eq_of_example hroot hmemq hmemp hpq)
    have hnodup : (arranged shuffle pairs).Nodup := arranged_perm.nodup_iff.mpr hkeys.of_map
    exact List.disjoint_take_drop hnodup le_rfl hq hp
  · intro pairs' hperm
    have hlabel' : Labelled pairs' := fun p hp => hlabel p (hperm.mem_iff.mp hp)
    have hsorted : arranged shuffle pairs' = arranged shuffle pairs := by
      rw [arranged,arranged,sortBy_eq_of_perm hperm.symm hkeys]
    rw [splitDataset_eq hlabel',hsorted,hperm.length_eq]

/-- Two examples at the ends of the order fall on different sides. -/
theorem ends_split {xs : List SyntheticPair} {p q : SyntheticPair} {k : ℕ} (hhead : xs.head? = some p)
    (hlast : xs.getLast? = some q) (hpos : 1 ≤ k) (hlt : k < xs.length) :
    p ∈ xs.take k ∧ q ∈ xs.drop k := by
  constructor
  · obtain ⟨rest,rfl⟩ := List.head?_eq_some_iff.mp hhead
    obtain ⟨k,rfl⟩ := Nat.exists_eq_succ_of_ne_zero (Nat.one_le_iff_ne_zero.mp hpos)
    exact List.mem_cons_self
  · have hdrop : (xs.drop k).getLast? = some q := by
      rw [List.getLast?_drop,if_neg (by omega),hlast]
    exact List.mem_of_getLast? hdrop

/-- An order that is kept tells pairs of one key apart by their examples. -/
theorem example_eq_of_unordered {p q : SyntheticPair} {rest : List SyntheticPair}
    (hlabel : Labelled (p::q::rest)) (hkey : stableKey p = stableKey q)
    (h : splitDataset system (fun _ => 1) (p::q::rest) =
      splitDataset system (fun _ => 1) (q::p::rest)) : exampleOf system p = exampleOf system q := by
  have hperm : (p::q::rest).Perm (q::p::rest) := List.Perm.swap q p rest
  have hlabel' : Labelled (q::p::rest) := fun r hr => hlabel r (hperm.mem_iff.mpr hr)
  rw [splitDataset_eq hlabel,splitDataset_eq hlabel'] at h
  obtain ⟨hdrop,htake⟩ := Prod.mk.inj (Except.ok.inj h)
  simp only [arranged,shuffled_one,List.length_cons] at hdrop htake
  have hexamples : (sortBy stableKey (p::q::rest)).map (exampleOf system) =
      (sortBy stableKey (q::p::rest)).map (exampleOf system) := by
    rw [← List.take_append_drop (plannedSplit (rest.length + 1 + 1)).2 (sortBy stableKey (p::q::rest)),
      ← List.take_append_drop (plannedSplit (rest.length + 1 + 1)).2 (sortBy stableKey (q::p::rest)),
      List.map_append,List.map_append,htake,hdrop]
  have hzip : (sortBy stableKey (p::q::rest)).map (fun r => (stableKey r,exampleOf system r)) =
      (sortBy stableKey (q::p::rest)).map fun r => (stableKey r,exampleOf system r) := by
    rw [← List.zip_map',← List.zip_map',map_sortBy_of_perm hperm,hexamples]
  -- among the pairs of the one key the order of listing is kept
  have hfilter := congrArg (fun l => (l.filter fun r => decide (r.1 = stableKey p)).map Prod.snd) hzip
  simp only [List.filter_map,Function.comp_def,List.map_map] at hfilter
  rw [filter_sortBy,filter_sortBy] at hfilter
  simp only [List.filter_cons,hkey,decide_true,if_true,List.map_cons,List.cons.injEq] at hfilter
  exact hfilter.1

/-- A key that occurs twice makes some split unsound. -/
theorem nodup_of_splitSound (hlabel : Labelled pairs)
    (h : ∀ shuffle, SplitSound system shuffle pairs) : (pairs.map stableKey).Nodup := by
  have hsorted : ((sortBy stableKey pairs).map stableKey).Perm (pairs.map stableKey) :=
    (sortBy_perm pairs).map stableKey
  rw [← hsorted.nodup_iff,List.Nodup,List.pairwise_map,List.pairwise_iff_getElem]
  intro i j hi hj hij hkey
  have hlength : (sortBy stableKey pairs).length = pairs.length := (sortBy_perm pairs).length_eq
  have hn : 1 < pairs.length := by omega
  obtain ⟨hpos,hlt⟩ := plannedSplit_bounds hn
  by_cases hexample : exampleOf system (sortBy stableKey pairs)[i] =
      exampleOf system (sortBy stableKey pairs)[j]
  · -- equal examples, brought to the two ends
    have hne : (⟨i,hi⟩ : Fin (sortBy stableKey pairs).length) ≠ ⟨j,hj⟩ := fun heq =>
      hij.ne (congrArg Fin.val heq)
    obtain ⟨shuffle,hhead,hlast⟩ := exists_shuffle_ends hne
    obtain ⟨train,val,examples,hsound⟩ := h shuffle
    have hsplit := hsound.split
    rw [splitDataset_eq hlabel] at hsplit
    obtain ⟨rfl,rfl⟩ := Prod.mk.inj (Except.ok.inj hsplit)
    obtain ⟨hp,hq⟩ := ends_split hhead hlast hpos (by rw [length_shuffled,hlength]; exact hlt)
    refine hsound.disjoint _ (List.mem_map_of_mem hq) ?_
    have hval := List.mem_map_of_mem (f := exampleOf system) hp
    exact hexample ▸ hval
  · -- different examples of one key, listed in both orders
    have hp : (sortBy stableKey pairs)[i] ∈ pairs := (sortBy_perm pairs).mem_iff.mp (List.getElem_mem hi)
    have hq : (sortBy stableKey pairs)[j] ∈ pairs := (sortBy_perm pairs).mem_iff.mp (List.getElem_mem hj)
    generalize (sortBy stableKey pairs)[i] = p at *
    generalize (sortBy stableKey pairs)[j] = q at *
    have hpq : q ≠ p := fun heq => hexample (by rw [heq])
    have hperm : pairs.Perm (p::q::(pairs.erase p).erase q) :=
      (List.perm_cons_erase hp).trans
        ((List.perm_cons_erase ((List.mem_erase_of_ne hpq).mpr hq)).cons p)
    obtain ⟨train,val,examples,hsound⟩ := h fun _ => 1
    have hfirst := hsound.unordered _ hperm.symm
    have hsecond := hsound.unordered _ ((List.Perm.swap q p _).symm.trans hperm.symm)
    exact hexample (example_eq_of_unordered (fun r hr => hlabel r (hperm.mem_iff.mpr hr)) hkey
      (hfirst.trans hsecond.symm))

/-- Every split of labelled pairs with the contexts of their documents is sound exactly if no key occurs
twice. -/
theorem splitSound_iff_nodup (hlabel : Labelled pairs) (hroot : Rooted pairs) :
    (∀ shuffle, SplitSound system shuffle pairs) ↔ (pairs.map stableKey).Nodup :=
  ⟨nodup_of_splitSound hlabel,fun hkeys _ => splitSound_of_nodup hlabel hroot hkeys⟩

end Labelled

/-! ### The generated dataset -/

section Generated
variable {T : Teacher} {draws : ℕ → Draw} {corpus : Corpus} {doc : TrustedDoc} {n m : ℤ}

theorem sliceTo_sublist {α : Type} (n : ℤ) (xs : List α) : (sliceTo n xs).Sublist xs := by
  unfold sliceTo
  split_ifs
  · exact List.take_sublist _ xs
  · exact List.take_sublist _ xs

/-- What the generator keeps of a pair, and that its question was not seen. -/
theorem mem_collect {seen : List (List Char)} {qas : List QA} {p : SyntheticPair}
    (h : p ∈ collect T doc seen qas) : p.provenance_ref = doc.doc_id ∧ p.context = contextOf doc ∧
      p.label = "answer" ∧ questionKey T p.question ∉ seen := by
  fun_induction collect T doc seen qas with
  | case1 => cases h
  | case2 seen qa rest hskip ih => exact ih h
  | case3 seen qa rest hnew answer hempty ih => exact ih h
  | case4 seen qa rest hnew answer hanswer ih =>
    obtain rfl | h := List.mem_cons.mp h
    · exact ⟨rfl,rfl,rfl,fun hmem => hnew (Or.inr (List.contains_iff_mem.mpr hmem))⟩
    · obtain ⟨href,hcontext,hlabel,hseen⟩ := ih h
      exact ⟨href,hcontext,hlabel,fun hmem => hseen (List.mem_cons_of_mem _ hmem)⟩

/-- No question is kept twice. -/
theorem collect_pairwise {seen : List (List Char)} {qas : List QA} :
    (collect T doc seen qas).Pairwise fun p q => p.question ≠ q.question := by
  fun_induction collect T doc seen qas with
  | case1 => exact List.Pairwise.nil
  | case2 seen qa rest hskip ih => exact ih
  | case3 seen qa rest hnew answer hempty ih => exact ih
  | case4 seen qa rest hnew answer hanswer ih =>
    refine List.pairwise_cons.mpr ⟨fun p hp heq => ?_,ih⟩
    exact (mem_collect hp).2.2.2 (List.mem_cons.mpr (Or.inl (congrArg (questionKey T) heq.symm)))

theorem mem_generateDocPairs {p : SyntheticPair} (h : p ∈ generateDocPairs T doc n) :
    p.provenance_ref = doc.doc_id ∧ p.context = contextOf doc ∧ p.label = "answer" := by
  obtain ⟨href,hcontext,hlabel,-⟩ := mem_collect ((sliceTo_sublist n _).subset h)
  exact ⟨href,hcontext,hlabel⟩

theorem generateDocPairs_pairwise :
    (generateDocPairs T doc n).Pairwise fun p q => p.question ≠ q.question :=
  collect_pairwise.sublist (sliceTo_sublist n _)

theorem mem_templatedRefusals {p : SyntheticPair} : p ∈ templatedRefusals corpus m draws ↔
    ∃ doc ∈ corpus.docs.zipIdx, ∃ draw ∈ drawsFor draws m doc.2, refusalOf doc.1 draw = p := by
  simp [templatedRefusals]

/-- A generated pair has a valid label and stems from a document of the corpus. -/
theorem mem_buildGeneratedDataset {p : SyntheticPair}
    (h : p ∈ buildGeneratedDataset T draws corpus n m) : p.label ∈ VALID_LABELS ∧
      ∃ doc ∈ corpus.docs, p.provenance_ref = doc.doc_id ∧ p.context = contextOf doc := by
  obtain h | h := List.mem_append.mp h
  · obtain ⟨doc,hdoc,h⟩ := List.mem_flatMap.mp h
    obtain ⟨href,hcontext,hlabel⟩ := mem_generateDocPairs h
    exact ⟨by simp [hlabel,VALID_LABELS],doc,hdoc,href,hcontext⟩
  · obtain ⟨doc,hdoc,draw,-,rfl⟩ := mem_templatedRefusals.mp h
    refine ⟨by simp [refusalOf,VALID_LABELS],doc.1,?_,rfl,rfl⟩
    exact (List.mem_zipIdx' hdoc).2 ▸ List.getElem_mem _

theorem labelled_buildGeneratedDataset : Labelled (buildGeneratedDataset T draws corpus n m) :=
  fun _ hp => (mem_buildGeneratedDataset hp).1

theorem rooted_buildGeneratedDataset : Rooted (buildGeneratedDataset T draws corpus n m) := by
  intro p hp q hq href
  obtain ⟨-,doc,hdoc,hrefp,hcontextp⟩ := mem_buildGeneratedDataset hp
  obtain ⟨-,doc',hdoc',hrefq,hcontextq⟩ := mem_buildGeneratedDataset hq
  have hid : doc.doc_id = doc'.doc_id := hrefp.symm.trans (href.trans hrefq)
  rw [hcontextp,hcontextq,List.inj_on_of_nodup_map corpus.distinct hdoc hdoc' hid]

set_option maxRecDepth 20000 in
theorem question_injective : ∀ t ∈ OUT_OF_SCOPE, ∀ e ∈ OTHER_ENTITIES, ∀ t' ∈ OUT_OF_SCOPE,
    ∀ e' ∈ OTHER_ENTITIES, t.1 ++ e ++ t.2 = t'.1 ++ e' ++ t'.2 → t = t' ∧ e = e' := by
  decide +kernel

theorem draw_eq_of_question {draw draw' : Draw} (h : draw.question = draw'.question) : draw = draw' := by
  obtain ⟨⟨t,ht⟩,e,he⟩ := draw
  obtain ⟨⟨t',ht'⟩,e',he'⟩ := draw'
  obtain ⟨rfl,rfl⟩ := question_injective t ht e he t' ht' e' he' h
  rfl

/-- Different questions or different documents. -/
theorem stableKey_ne {p q : SyntheticPair} :
    stableKey p ≠ stableKey q ↔ (p.provenance_ref = q.provenance_ref → p.question ≠ q.question) := by
  simp [stableKey]

theorem docs_pairwise : corpus.docs.Pairwise fun a b => a.doc_id ≠ b.doc_id :=
  List.pairwise_map.mp corpus.distinct

theorem zipIdx_pairwise : corpus.docs.zipIdx.Pairwise fun a b => a.1.doc_id ≠ b.1.doc_id := by
  have hfst : corpus.docs.zipIdx.map Prod.fst = corpus.docs := List.zipIdx_map_fst 0 corpus.docs
  have hpairwise := @docs_pairwise corpus
  rw [← hfst,List.pairwise_map] at hpairwise
  exact hpairwise

/-- The draws of each document differ, and none asks what the teacher's pairs ask already. -/
def Unrepeated (T : Teacher) (draws : ℕ → Draw) (corpus : Corpus) (n m : ℤ) : Prop :=
  ∀ doc ∈ corpus.docs.zipIdx, (drawsFor draws m doc.2).Nodup ∧
    ∀ draw ∈ drawsFor draws m doc.2, ∀ p ∈ generateDocPairs T doc.1 n, p.question ≠ draw.question

theorem nodup_iff_unrepeated : ((buildGeneratedDataset T draws corpus n m).map stableKey).Nodup ↔
    Unrepeated T draws corpus n m := by
  rw [List.Nodup,List.pairwise_map,buildGeneratedDataset,List.pairwise_append]
  have hanswers : (corpus.docs.flatMap fun doc => generateDocPairs T doc n).Pairwise fun p q =>
      stableKey p ≠ stableKey q := by
    refine List.pairwise_flatMap.mpr ⟨fun doc _ => ?_,docs_pairwise.imp fun hne p hp q hq => ?_⟩
    · exact generateDocPairs_pairwise.imp fun hne => stableKey_ne.mpr fun _ => hne
    · refine stableKey_ne.mpr fun href => ?_
      rw [(mem_generateDocPairs hp).1,(mem_generateDocPairs hq).1] at href
      exact absurd href hne
  have hrefusals : (templatedRefusals corpus m draws).Pairwise (fun p q => stableKey p ≠ stableKey q) ↔
      ∀ doc ∈ corpus.docs.zipIdx, (drawsFor draws m doc.2).Nodup := by
    have hone : ∀ (doc : TrustedDoc) (draw draw' : Draw),
        stableKey (refusalOf doc draw) ≠ stableKey (refusalOf doc draw') ↔ draw ≠ draw' := by
      intro doc draw draw'
      rw [stableKey_ne]
      exact ⟨fun h heq => h rfl (congrArg Draw.question heq),
        fun h _ heq => h (draw_eq_of_question heq)⟩
    rw [templatedRefusals,List.pairwise_flatMap,and_iff_left]
    · simp only [List.pairwise_map,hone,List.Nodup]
    · refine zipIdx_pairwise.imp fun hne p hp q hq => ?_
      obtain ⟨draw,-,rfl⟩ := List.mem_map.mp hp
      obtain ⟨draw',-,rfl⟩ := List.mem_map.mp hq
      exact stableKey_ne.mpr fun href => absurd href hne
  have hacross : (∀ p ∈ corpus.docs.flatMap fun doc => generateDocPairs T doc n,
      ∀ q ∈ templatedRefusals corpus m draws, stableKey p ≠ stableKey q) ↔
      ∀ doc ∈ corpus.docs.zipIdx, ∀ draw ∈ drawsFor draws m doc.2,
        ∀ p ∈ generateDocPairs T doc.1 n, p.question ≠ draw.question := by
    constructor
    · intro h doc hdoc draw hdraw p hp
      have hmem : doc.1 ∈ corpus.docs := (List.mem_zipIdx' hdoc).2 ▸ List.getElem_mem _
      have hne := h p (List.mem_flatMap.mpr ⟨doc.1,hmem,hp⟩) (refusalOf doc.1 draw)
        (mem_templatedRefusals.mpr ⟨doc,hdoc,draw,hdraw,rfl⟩)
      exact stableKey_ne.mp hne (mem_generateDocPairs hp).1
    · intro h p hp q hq
      obtain ⟨doc',hdoc',hp⟩ := List.mem_flatMap.mp hp
      obtain ⟨doc,hdoc,draw,hdraw,rfl⟩ := mem_templatedRefusals.mp hq
      refine stableKey_ne.mpr fun href => h doc hdoc draw hdraw p ?_
      have hmem : doc.1 ∈ corpus.docs := (List.mem_zipIdx' hdoc).2 ▸ List.getElem_mem _
      have hid : doc'.doc_id = doc.1.doc_id := (mem_generateDocPairs hp).1.symm.trans href
      rw [← List.inj_on_of_nodup_map corpus.distinct hdoc' hmem hid]
      exact hp
  rw [hrefusals,hacross,and_iff_right hanswers]
  exact ⟨fun h doc hdoc => ⟨h.1 doc hdoc,h.2 doc hdoc⟩,
    fun h => ⟨fun doc hdoc => (h doc hdoc).1,fun doc hdoc => (h doc hdoc).2⟩⟩

end Generated

/-- Every split of a generated dataset is sound exactly if for each document the draws of its refusals
differ and none of them asks a question that its answers ask. -/
theorem split_sound_iff (T : Teacher) (draws : ℕ → Draw) (corpus : Corpus) (n m : ℤ) (system : String) :
    (∀ shuffle, SplitSound system shuffle (buildGeneratedDataset T draws corpus n m)) ↔
      Unrepeated T draws corpus n m := by
  rw [splitSound_iff_nodup labelled_buildGeneratedDataset rooted_buildGeneratedDataset]
  exact nodup_iff_unrepeated

/-! ### A repeated draw -/

/-- A teacher without an answer. -/
def silent : Teacher := ⟨"silent",fun _ => "",fun _ => none,id⟩

/-- The template and the entity at two places. -/
def drawAt (t : Fin 4) (e : Fin 6) : Draw :=
  (⟨OUT_OF_SCOPE.get t,List.get_mem _ _⟩,⟨OTHER_ENTITIES.get e,List.get_mem _ _⟩)

/-- The first draws of the generator with its seed of 42. -/
def seeded (i : ℕ) : Draw :=
  [drawAt 0 0,drawAt 2 1,drawAt 1 1,drawAt 0 5,drawAt 0 4,drawAt 3 0,drawAt 0 0].getD i (drawAt 1 1)

def oneDoc : Corpus := ⟨[⟨"l2-aml-policy-overview",2,"A SAR is filed within 30 days."⟩],by simp⟩

/-- The seventh refusal of the first document repeats its first. -/
theorem repeated_refusal : ¬ ∀ (T : Teacher) (draws : ℕ → Draw) (corpus : Corpus) (n m : ℤ)
    (system : String) (shuffle : Shuffle),
      SplitSound system shuffle (buildGeneratedDataset T draws corpus n m) := by
  intro hall
  have hkeys := nodup_of_splitSound labelled_buildGeneratedDataset fun shuffle =>
    hall silent seeded oneDoc 6 7 "" shuffle
  obtain ⟨hdraws,-⟩ := nodup_iff_unrepeated.mp hkeys _ List.mem_cons_self
  have hrepeated : ¬ (drawsFor seeded 7 0).Nodup := by decide
  exact hrepeated hdraws

end AtlasCompliance.Training
