import AtlasCompliance.Training.Split

/-! The provenance manifest of a dataset: how it is built from the pairs, the checks it has to pass, and that
what is built passes them and fits the split. -/
namespace AtlasCompliance.Training
open Python Arranged

def GROUNDED_INVARIANT : String := "trusted-corpus-only"

def DEFAULT_SPLIT_STRATEGY : String := "deterministic-by-id"

/-- A set of corpus documents under one license. -/
structure Source where
  kind : String
  license : String
  count : ℤ
  ids : List String
  docs : List String

def Source.members (s : Source) : List String := s.ids ++ s.docs

structure SyntheticMeta where
  generator_model : String
  generator_provider : String
  prompt_template_sha : String
  count : ℤ
  answer_pairs : ℤ
  refusal_pairs : ℤ
  grounded_in : String

/-- The sizes of the two sides and how they were made. -/
structure SplitSizes where
  train : ℤ
  val : ℤ
  strategy : String

/-- A seed of a manifest: a whole number, or a value of another type. -/
inductive Seed
  | int (n : ℤ)
  | other (typeName : String)

structure Manifest where
  dataset_version : String
  seed : Seed
  sources : List Source
  synthetic : SyntheticMeta
  split : SplitSizes
  generated_at : String
  git_sha : String

inductive ManifestError
  | seedType (typeName : String)
  | emptyVersion
  | grounding (groundedIn : String)
  | noSources
  | sourceCount (kind : String) (count : ℤ) (members : ℕ)
  | unresolved (kind member : String)
  | negativeCount
  | countSum (count answers refusals : ℤ)
  | negativeSplit
  | emptyStrategy
  | ungrounded (refs : List String)
  deriving DecidableEq

/-- The message of an error, given how a text and a list of texts are quoted. -/
def ManifestError.message (quote : String → String) (quoteAll : List String → String) :
    ManifestError → String
  | seedType typeName => "seed must be an int, got " ++ typeName
  | emptyVersion => "dataset_version must be a non-empty string"
  | grounding groundedIn => "synthetic.grounded_in must be " ++ quote GROUNDED_INVARIANT ++ ", got " ++
      quote groundedIn
  | noSources => "manifest lists no sources"
  | sourceCount kind count members => "source " ++ quote kind ++ " count=" ++ toString count ++ " != " ++
      toString members ++ " listed members"
  | unresolved kind member => "source " ++ quote kind ++ " references id not in trusted corpus: " ++
      quote member
  | negativeCount => "synthetic counts must be non-negative"
  | countSum count answers refusals => "synthetic.count=" ++ toString count ++ " != answer_pairs(" ++
      toString answers ++ ") + refusal_pairs(" ++ toString refusals ++ ")"
  | negativeSplit => "split sizes must be non-negative"
  | emptyStrategy => "split.strategy must be a non-empty string"
  | ungrounded refs => "synthetic pair(s) grounded in non-listed source(s): " ++ quoteAll refs

/-! ### Building -/

def PROMPT_TEMPLATE : String :=
  "You are Atlas, an enterprise financial/compliance assistant. Answer the QUESTION using ONLY " ++
  "the CONTEXT. Cite every supporting source inline with a [doc:<id>] marker using the id shown " ++
  "in the context header. If the context does not contain the answer, refuse and say which " ++
  "information is missing — never guess.\n\n" ++
  "CONTEXT:\n[doc:\x7bdoc_id\x7d] \x7bcontext\x7d\n\nQUESTION: \x7bquestion\x7d\n\nANSWER:"

/-- What a build takes from its surroundings: a digest, the clock and the commit. -/
structure Surroundings where
  sha256 : String → String
  now : String
  gitSha : String

def provenanceRefs (pairs : List SyntheticPair) : List String := pairs.map SyntheticPair.provenance_ref

/-- The documents that the pairs stem from, each once, with their layers. -/
def resolveAll (corpus : Corpus) (refs : List String) : Except CorpusError (List (String × ℤ)) :=
  refs.mapM fun ref => do
    let doc ← corpus.resolve ref
    pure (ref,doc.layer)

def sourcesOf (resolved : List (String × ℤ)) : List Source :=
  let fbIds := (resolved.filter fun r => r.2 = 1).map Prod.fst
  let l2Ids := (resolved.filter fun r => r.2 ≠ 1).map Prod.fst
  (if fbIds = [] then [] else [⟨"financebench","CC-BY-NC-4.0",fbIds.length,fbIds,[]⟩]) ++
    if l2Ids = [] then [] else [⟨"layer2_overlay","authored-internal",l2Ids.length,[],l2Ids⟩]

def buildManifest (S : Surroundings) (pairs : List SyntheticPair) (corpus : Corpus)
    (datasetVersion : String) (seed : Seed) (generatorModel generatorProvider : String) :
    Except CorpusError Manifest := do
  let resolved ← resolveAll corpus (provenanceRefs pairs).eraseDups
  let sizes := plannedSplit pairs.length
  pure ⟨datasetVersion,seed,sourcesOf resolved,⟨generatorModel,generatorProvider,
    S.sha256 PROMPT_TEMPLATE,pairs.length,pairs.countP fun p => p.label = "answer",
    pairs.countP fun p => p.label = "refusal",GROUNDED_INVARIANT⟩,
    ⟨sizes.1,sizes.2,DEFAULT_SPLIT_STRATEGY⟩,S.now,S.gitSha⟩

/-! ### Validation -/

/-- An error unless the condition holds. -/
def demand (p : Prop) [Decidable p] (e : ManifestError) : Except ManifestError Unit :=
  if p then .ok () else .error e

def checkMember (corpus : Corpus) (kind member : String) : Except ManifestError Unit :=
  match corpus.resolve member with
  | .ok _ => .ok ()
  | .error _ => .error (.unresolved kind member)

def checkSource (corpus : Corpus) (s : Source) : Except ManifestError Unit := do
  demand (s.count = s.members.length) (.sourceCount s.kind s.count s.members.length)
  s.members.forM (checkMember corpus s.kind)

def checkSeed : Seed → Except ManifestError Unit
  | .int _ => .ok ()
  | .other typeName => .error (.seedType typeName)

/-- The refs that no source lists, in order. -/
def ungroundedRefs (manifest : Manifest) (refs : List String) : List String :=
  let allowed := manifest.sources.flatMap Source.members
  sortBy id (refs.filter fun r => r ∉ allowed).dedup

def validate (manifest : Manifest) (corpus : Corpus) (syntheticRefs : Option (List String)) :
    Except ManifestError Unit := do
  checkSeed manifest.seed
  demand (strip manifest.dataset_version.toList ≠ []) .emptyVersion
  demand (manifest.synthetic.grounded_in = GROUNDED_INVARIANT) (.grounding manifest.synthetic.grounded_in)
  demand (manifest.sources ≠ []) .noSources
  manifest.sources.forM (checkSource corpus)
  let syn := manifest.synthetic
  demand (0 ≤ min syn.count (min syn.answer_pairs syn.refusal_pairs)) .negativeCount
  demand (syn.count = syn.answer_pairs + syn.refusal_pairs)
    (.countSum syn.count syn.answer_pairs syn.refusal_pairs)
  demand (0 ≤ manifest.split.train ∧ 0 ≤ manifest.split.val) .negativeSplit
  demand (strip manifest.split.strategy.toList ≠ []) .emptyStrategy
  match syntheticRefs with
  | some refs => demand (ungroundedRefs manifest refs = []) (.ungrounded (ungroundedRefs manifest refs))
  | none => pure ()

/-! ### What passes -/

theorem demand_eq_ok {p : Prop} [Decidable p] {e : ManifestError} {u : Unit} :
    demand p e = .ok u ↔ p := by
  by_cases hp : p <;> simp [demand,hp]

/-- A check of each element passes when it passes on all. -/
theorem forM_eq_ok {α : Type} {f : α → Except ManifestError Unit} {xs : List α} {u : Unit} :
    xs.forM f = .ok u ↔ ∀ x ∈ xs, f x = .ok () := by
  induction xs with
  | nil => simp [pure,Except.pure]
  | cons x xs ih =>
    change (f x >>= fun _ => xs.forM f) = .ok u ↔ _
    rw [bind_eq_ok,List.forall_mem_cons,ih]
    exact ⟨fun ⟨_,h⟩ => h,fun h => ⟨(),h⟩⟩

theorem checkSource_eq_ok {corpus : Corpus} {s : Source} : checkSource corpus s = .ok () ↔
    s.count = s.members.length ∧ ∀ member ∈ s.members, ∃ doc, corpus.resolve member = .ok doc := by
  rw [checkSource,bind_eq_ok]
  simp only [demand_eq_ok,forM_eq_ok,exists_const]
  refine and_congr_right fun _ => forall₂_congr fun member _ => ?_
  unfold checkMember
  cases corpus.resolve member <;> simp

section Build
variable {corpus : Corpus} {refs : List String} {resolved : List (String × ℤ)}

theorem resolveAll_of_resolves (h : ∀ ref ∈ refs, ∃ doc, corpus.resolve ref = .ok doc) :
    ∃ resolved, resolveAll corpus refs = .ok resolved ∧ resolved.map Prod.fst = refs := by
  induction refs with
  | nil => exact ⟨[],rfl,rfl⟩
  | cons ref refs ih =>
    obtain ⟨doc,hdoc⟩ := h ref List.mem_cons_self
    obtain ⟨resolved,hresolved,hfst⟩ := ih fun r hr => h r (List.mem_cons_of_mem ref hr)
    refine ⟨(ref,doc.layer)::resolved,?_,by rw [List.map_cons,hfst]⟩
    unfold resolveAll at hresolved ⊢
    rw [List.mapM_cons,hdoc,hresolved]
    rfl

/-- A source counts its members, which are documents that were resolved. -/
theorem sourcesOf_sound : ∀ s ∈ sourcesOf resolved,
    s.count = s.members.length ∧ ∀ member ∈ s.members, member ∈ resolved.map Prod.fst := by
  have hfilter : ∀ p : String × ℤ → Bool, ∀ member ∈ (resolved.filter p).map Prod.fst,
      member ∈ resolved.map Prod.fst :=
    fun p => (List.filter_sublist.map Prod.fst).subset
  intro s hs
  simp only [sourcesOf,List.mem_append] at hs
  obtain hs | hs := hs
  · split_ifs at hs
    · cases hs
    · obtain rfl := List.mem_singleton.mp hs
      refine ⟨by simp [Source.members],fun member hmember => ?_⟩
      rw [Source.members,List.append_nil] at hmember
      exact hfilter _ member hmember
  · split_ifs at hs
    · cases hs
    · obtain rfl := List.mem_singleton.mp hs
      refine ⟨by simp [Source.members],fun member hmember => ?_⟩
      rw [Source.members,List.nil_append] at hmember
      exact hfilter _ member hmember

/-- Every document that was resolved is listed. -/
theorem mem_sourcesOf {ref : String} (h : ref ∈ resolved.map Prod.fst) :
    ref ∈ (sourcesOf resolved).flatMap Source.members := by
  obtain ⟨r,hr,rfl⟩ := List.mem_map.mp h
  rw [sourcesOf,List.flatMap_append,List.mem_append]
  by_cases hlayer : r.2 = 1
  · have hmem : r.1 ∈ (resolved.filter fun r => r.2 = 1).map Prod.fst :=
      List.mem_map_of_mem (List.mem_filter.mpr ⟨hr,by simpa using hlayer⟩)
    left
    rw [if_neg (List.ne_nil_of_mem hmem)]
    simpa [Source.members] using hmem
  · have hmem : r.1 ∈ (resolved.filter fun r => r.2 ≠ 1).map Prod.fst :=
      List.mem_map_of_mem (List.mem_filter.mpr ⟨hr,by simpa using hlayer⟩)
    right
    rw [if_neg (List.ne_nil_of_mem hmem)]
    simpa [Source.members] using hmem

end Build

/-- Labels are counted completely. -/
theorem countP_labels {pairs : List SyntheticPair} (h : Labelled pairs) :
    pairs.length = pairs.countP (fun p => decide (p.label = "answer")) +
      pairs.countP fun p => decide (p.label = "refusal") := by
  rw [List.length_eq_countP_add_countP fun p : SyntheticPair => decide (p.label = "answer")]
  refine congrArg _ (List.countP_congr fun p hp => ?_)
  have hlabel : p.label = "answer" ∨ p.label = "refusal" := by simpa [VALID_LABELS] using h p hp
  obtain heq | heq := hlabel <;> simp [heq]

/-- What is built from labelled pairs of the corpus passes validation against it and against the pairs, and
gives the sizes of every split of them. -/
theorem manifest_valid (S : Surroundings) (corpus : Corpus) {pairs : List SyntheticPair}
    (hne : pairs ≠ []) (hlabel : Labelled pairs)
    (hrefs : ∀ p ∈ pairs, ∃ doc, corpus.resolve p.provenance_ref = .ok doc) (seed : ℤ)
    {datasetVersion : String} (hversion : strip datasetVersion.toList ≠ [])
    (generatorModel generatorProvider : String) :
    ∃ manifest, buildManifest S pairs corpus datasetVersion (.int seed) generatorModel
        generatorProvider = .ok manifest ∧
      validate manifest corpus (some (provenanceRefs pairs)) = .ok () ∧
      ∀ system shuffle, ∃ train val, splitDataset system shuffle pairs = .ok (train,val) ∧
        manifest.split.train = train.length ∧ manifest.split.val = val.length := by
  have hall : ∀ ref ∈ (provenanceRefs pairs).eraseDups, ∃ doc, corpus.resolve ref = .ok doc := by
    intro ref href
    obtain ⟨p,hp,rfl⟩ := List.mem_map.mp (List.mem_eraseDups.mp href)
    exact hrefs p hp
  obtain ⟨resolved,hresolved,hfst⟩ := resolveAll_of_resolves hall
  have hlisted : ∀ ref ∈ provenanceRefs pairs, ref ∈ (sourcesOf resolved).flatMap Source.members :=
    fun ref href => mem_sourcesOf (hfst ▸ List.mem_eraseDups.mpr href)
  refine ⟨_,by unfold buildManifest; rw [hresolved]; rfl,?_,fun system shuffle => ?_⟩
  · simp only [validate,bind_eq_ok,demand_eq_ok,forM_eq_ok,checkSource_eq_ok]
    refine ⟨(),rfl,(),hversion,(),trivial,(),?_,(),fun s hs => ?_,(),?_,(),?_,(),?_,(),?_,?_⟩
    · obtain ⟨p,rest,rfl⟩ := List.exists_cons_of_ne_nil hne
      intro hnil
      have hmem := hlisted p.provenance_ref List.mem_cons_self
      rw [hnil] at hmem
      cases hmem
    · obtain ⟨hcount,hmembers⟩ := sourcesOf_sound s hs
      exact ⟨hcount,fun member hmember => hall member (hfst ▸ hmembers member hmember)⟩
    · exact le_min (Nat.cast_nonneg _) (le_min (Nat.cast_nonneg _) (Nat.cast_nonneg _))
    · exact_mod_cast countP_labels hlabel
    · exact ⟨Nat.cast_nonneg _,Nat.cast_nonneg _⟩
    · decide
    · have hnone : (provenanceRefs pairs).filter (fun r =>
          r ∉ (sourcesOf resolved).flatMap Source.members) = [] :=
        List.filter_eq_nil_iff.mpr fun ref href => by simpa using hlisted ref href
      unfold ungroundedRefs
      simp only [hnone,List.dedup_nil]
      exact List.mergeSort_nil
  · have hle := plannedSplit_le pairs.length
    have hlength : (arranged shuffle pairs).length = pairs.length := arranged_perm.length_eq
    refine ⟨_,_,splitDataset_eq hlabel,?_,?_⟩
    · simp only [List.length_map,List.length_drop,hlength]
      exact congrArg Nat.cast (plannedSplit_sum pairs.length)
    · rw [List.length_map,List.length_take,hlength,min_eq_left hle]

theorem manifest_valid_refusal : ∃ manifest,
    buildManifest ⟨id,"",""⟩ [refusalOf ⟨"l2-aml-policy-overview",2,"A SAR."⟩ (seeded 0)]
      ⟨[⟨"l2-aml-policy-overview",2,"A SAR."⟩],by simp⟩ "p6-v1" (.int 42) "silent" "none" =
        .ok manifest ∧
      validate manifest ⟨[⟨"l2-aml-policy-overview",2,"A SAR."⟩],by simp⟩
        (some ["l2-aml-policy-overview"]) = .ok () := by
  obtain ⟨manifest,hbuild,hvalid,-⟩ := @manifest_valid ⟨id,"",""⟩
    ⟨[⟨"l2-aml-policy-overview",2,"A SAR."⟩],by simp⟩
    [refusalOf ⟨"l2-aml-policy-overview",2,"A SAR."⟩ (seeded 0)] (by simp)
    (by simp [Labelled,refusalOf,VALID_LABELS]) (by simp [refusalOf,Corpus.resolve]) 42 "p6-v1"
    (by decide) "silent" "none"
  exact ⟨manifest,hbuild,hvalid⟩

end AtlasCompliance.Training
