import AtlasCompliance.Lib.Words
import AtlasCompliance.RagEngine.DocumentChunker

/-! What chunking does with the words of a document: it returns when each of them fits a window, and then
every word of the document stands in the windows, in order. -/
namespace AtlasCompliance.RagEngine
open Java Regex Words

namespace DocumentChunker

/-! ### The three splits -/

theorem isWhitespace_of_isSpace {c : Char} (h : isSpace c = true) : isWhitespace c = true := by
  simp only [isSpace,isWhitespace,Bool.or_eq_true,Bool.and_eq_true,decide_eq_true_eq,beq_iff_eq] at h ⊢
  omega

/-- What separates sentences and words: a whole run of `\s`. -/
def Run (s rest : List Char) : Prop := Blank isSpace s ∧ Opens isSpace rest

/-- What separates paragraphs. -/
def BlankLine (s : List Char) : Prop := ∃ m, (∀ c ∈ m, isSpace c = true) ∧ s = '\n'::(m ++ ['\n'])

theorem BlankLine.blank {s : List Char} (h : BlankLine s) : Blank isSpace s := by
  obtain ⟨m,hm,rfl⟩ := h
  refine ⟨List.cons_ne_nil _ _,?_⟩
  intro c hc
  simp only [List.mem_cons,List.mem_append,List.not_mem_nil,or_false] at hc
  obtain rfl | hc | rfl := hc
  · decide
  · exact hm c hc
  · decide

theorem spaces_plain : spaces.Plain := ⟨trivial,trivial⟩

theorem proper_of_blank {r : Pattern Char} (h : r.Plain) (hne : [] ∉ r.language) : r.Proper :=
  (framed_of_plain h).proper hne

theorem spaces_proper : spaces.Proper := proper_of_blank spaces_plain <| by
  rintro ⟨u,⟨a,rfl,-⟩,v,-,h⟩
  cases h

theorem divided_spaces (text : List Char) : Divided Run text (parts (tokens spaces text)) :=
  divided_parts (scanned_tokens spaces_proper text) fun before w rest groups hw h => by
    obtain ⟨hrun,hrest⟩ := run_of_plus_sat_ends isSpace h
    exact ⟨⟨hw,hrun⟩,hrest⟩

/-- `.`, `!` or `?`. -/
def isStop (c : Char) : Bool := c = '.' || c = '!' || c = '?'

theorem sentenceEnd_ends (before after : List Char) : sentenceEnd.ends ⟨before,after,[]⟩ =
    if before.head?.any isStop then spaces.ends ⟨before,after,[]⟩ else [] := by
  rw [sentenceEnd,Pattern.ends,Pattern.ends]
  split
  · rename_i h
    have hstop : before.head?.any isStop = true := h
    rw [if_pos hstop,List.flatMap_singleton]
  · rename_i h
    have hstop : ¬ before.head?.any isStop = true := h
    rw [if_neg hstop,List.flatMap_nil]

theorem sentenceEnd_proper : sentenceEnd.Proper := by
  rintro ⟨before,after,groups⟩ d h
  rw [sentenceEnd,Pattern.ends,Pattern.ends] at h
  split at h
  · rw [List.flatMap_singleton] at h
    exact spaces_proper _ _ h
  · cases h

theorem divided_sentences (text : List Char) : Divided Run text (parts (tokens sentenceEnd text)) :=
  divided_parts (scanned_tokens sentenceEnd_proper text) fun before w rest groups hw h => by
    rw [sentenceEnd_ends] at h
    split at h
    · obtain ⟨hrun,hrest⟩ := run_of_plus_sat_ends isSpace h
      exact ⟨⟨hw,hrun⟩,hrest⟩
    · cases h

theorem spaces_ends_eq_nil {before rest : List Char} {a : Char} :
    spaces.ends ⟨before,a::rest,[]⟩ = [] ↔ isSpace a = false := by
  constructor
  · exact not_of_plus_sat_ends isSpace
  · intro ha
    simp [spaces,Pattern.plus,Pattern.ends,ha]

/-- A sentence has no further sentence end. -/
theorem noMatch_of_sentence {text t : List Char} (ht : t ∈ split sentenceEnd text) :
    NoMatch sentenceEnd t := by
  obtain ⟨q,qs,hparts,-,hq,hqs⟩ := unmatched_parts (scanned_tokens sentenceEnd_proper text)
  have hmem := mem_parts_of_mem_split ht
  rw [hparts] at hmem
  have hall : ∃ before, Unmatched sentenceEnd before t := by
    obtain rfl | hmem := List.mem_cons.mp hmem
    · exact ⟨[],hq⟩
    · exact hqs t hmem
  obtain ⟨before,hno⟩ := hall
  intro u v huv
  rw [sentenceEnd_ends]
  obtain rfl | ⟨u,c,rfl⟩ := List.eq_nil_or_concat u
  · rfl
  · cases v with
    | nil =>
      split
      · rfl
      · rfl
    | cons a v =>
      obtain ⟨rest,hrest⟩ := hno _ _ huv (List.cons_ne_nil a v)
      rw [sentenceEnd_ends] at hrest
      simp only [List.concat_eq_append,List.reverse_append,List.reverse_singleton,
        List.cons_append,List.head?_cons] at hrest ⊢
      split
      · rename_i hstop
        rw [if_pos hstop] at hrest
        exact spaces_ends_eq_nil.mpr (spaces_ends_eq_nil.mp hrest)
      · rfl

/-- A text that begins with no space is split into its words. -/
theorem split_spaces {text : List Char} (hne : text ≠ []) (hopen : Opens isSpace text) :
    split spaces text = words isSpace text := by
  have hfree : ∀ t ∈ split spaces text, words isSpace t = [t] := by
    intro t ht
    have hpart := mem_parts_of_mem_split ht
    rw [words_of_free,if_neg]
    · simpa using split_ne_nil (p := isSpace) (fun _ _ h => h) hne hopen (divided_spaces text) t ht
    · intro a ha
      by_contra hspace
      rw [Bool.not_eq_false] at hspace
      refine not_infix_parts spaces_plain (scanned_tokens spaces_proper text) hpart
        (w := [a]) ?_ (List.cons_ne_nil a []) ((List.singleton_infix_iff a t).mpr ha)
      exact ⟨[a],⟨a,rfl,hspace⟩,[],⟨[],rfl,by simp⟩,rfl⟩
  rw [← split_flatMap_words (fun s rest h => h.1) (divided_spaces text),
    List.flatMap_congr hfree,List.flatMap_singleton']

theorem splitSmaller_words (text : List Char) :
    (splitSmaller text).flatMap (words isSpace) = words isSpace text := by
  rw [splitSmaller]
  split
  · exact split_flatMap_words (fun s rest h => h.1) (divided_sentences text)
  · exact split_flatMap_words (fun s rest h => h.1) (divided_spaces text)

/-- A unit that pack works on: not empty, and no space at its beginning. -/
def Solid (text : List Char) : Prop := text ≠ [] ∧ Opens isSpace text

theorem solid_splitSmaller {text : List Char} (h : Solid text) : ∀ t ∈ splitSmaller text, Solid t := by
  rw [splitSmaller]
  split
  · intro t ht
    exact ⟨split_ne_nil (p := isSpace) (fun _ _ h => h) h.1 h.2 (divided_sentences text) t ht,
      (divided_sentences text).opens (fun s rest h => h.2) h.2 t (mem_parts_of_mem_split ht)⟩
  · intro t ht
    exact ⟨split_ne_nil (p := isSpace) (fun _ _ h => h) h.1 h.2 (divided_spaces text) t ht,
      (divided_spaces text).opens (fun s rest h => h.2) h.2 t (mem_parts_of_mem_split ht)⟩

/-- A sentence is split into its words. -/
theorem splitSmaller_of_noMatch {text : List Char} (h : Solid text) (hno : NoMatch sentenceEnd text) :
    splitSmaller text = words isSpace text := by
  rw [splitSmaller,split_of_noMatch hno,split_spaces h.1 h.2]
  rfl

/-! ### Packing -/

variable {chunker : DocumentChunker} {smaller : List (List Char) → Option (List (List Char))}

theorem packFrom_oversized {current unit : List Char} {units : List (List Char)}
    (h : chunker.oversized unit = true) : packFrom chunker smaller current (unit::units) =
      (smaller (splitSmaller unit)).bind fun inner => (packFrom chunker smaller [] units).map fun rest =>
        flush current ++ inner ++ rest := by
  rw [packFrom,if_pos h]
  cases smaller (splitSmaller unit) with
  | none => rfl
  | some inner => cases packFrom chunker smaller [] units <;> rfl

/-- A unit that fits starts a window or goes on with the one there is. -/
theorem packFrom_fits {current unit : List Char} (units : List (List Char))
    (h : chunker.oversized unit = false) :
    (current ≠ [] ∧ packFrom chunker smaller current (unit::units) =
        (packFrom chunker smaller unit units).map fun rest => flush current ++ rest) ∨
      ((current = [] ∨ chunker.oversized (candidate current unit) = false) ∧
        packFrom chunker smaller current (unit::units) =
          packFrom chunker smaller (candidate current unit) units) := by
  cases hfull : chunker.oversized (candidate current unit) && !current.isEmpty with
  | true =>
    refine Or.inl ⟨?_,?_⟩
    · rintro rfl
      simp at hfull
    · rw [packFrom,h,hfull]
      cases packFrom chunker smaller unit units <;> rfl
  | false =>
    refine Or.inr ⟨?_,by rw [packFrom,h,hfull]; rfl⟩
    cases current with
    | nil => exact Or.inl rfl
    | cons c current => exact Or.inr (by simpa using hfull)

/-- The loop returns when the parts of the oversized units can be packed. -/
theorem packFrom_returns {units : List (List Char)} (h : ∀ u ∈ units, chunker.oversized u = true →
    ∃ out, smaller (splitSmaller u) = some out) (current : List Char) :
    ∃ out, packFrom chunker smaller current units = some out := by
  induction units generalizing current with
  | nil => exact ⟨flush current,rfl⟩
  | cons unit units ih =>
    have hrest := ih fun u hu => h u (List.mem_cons_of_mem unit hu)
    cases hbig : chunker.oversized unit with
    | true =>
      obtain ⟨inner,hinner⟩ := h unit List.mem_cons_self hbig
      obtain ⟨rest,hrest⟩ := hrest []
      exact ⟨_,by rw [packFrom_oversized hbig,hinner,hrest]; rfl⟩
    | false =>
      obtain ⟨-,heq⟩ | ⟨-,heq⟩ := @packFrom_fits chunker smaller current unit units hbig
      · obtain ⟨rest,hrest⟩ := hrest unit
        exact ⟨_,by rw [heq,hrest]; rfl⟩
      · rw [heq]
        exact hrest _

/-- And it packs the parts of each of them. -/
theorem packFrom_reaches {units out : List (List Char)} {current : List Char}
    (h : packFrom chunker smaller current units = some out) {u : List Char} (hu : u ∈ units)
    (hbig : chunker.oversized u = true) : ∃ inner, smaller (splitSmaller u) = some inner := by
  induction units generalizing current out with
  | nil => cases hu
  | cons unit units ih =>
    cases hunit : chunker.oversized unit with
    | true =>
      rw [packFrom_oversized hunit] at h
      obtain ⟨inner,hinner,hrest⟩ := Option.bind_eq_some_iff.mp h
      obtain ⟨rest,hrest,-⟩ := Option.map_eq_some_iff.mp hrest
      obtain rfl | hu := List.mem_cons.mp hu
      · exact ⟨inner,hinner⟩
      · exact ih hrest hu
    | false =>
      obtain rfl | hu := List.mem_cons.mp hu
      · rw [hbig] at hunit
        cases hunit
      · obtain ⟨-,heq⟩ | ⟨-,heq⟩ := @packFrom_fits chunker smaller current unit units hunit
        · rw [heq] at h
          obtain ⟨rest,hrest,-⟩ := Option.map_eq_some_iff.mp h
          exact ih hrest hu
        · exact ih (heq ▸ h) hu

/-- Three calls of `pack` inside each other suffice when every word fits a window. -/
theorem pack_returns {units : List (List Char)} (hunits : ∀ u ∈ units, Solid u)
    (hwords : ∀ u ∈ units, ∀ w ∈ words isSpace u, chunker.oversized w = false) :
    ∃ out, chunker.pack 3 units = some out := by
  have hfit : ∀ us : List (List Char), (∀ u ∈ us, chunker.oversized u = false) →
      ∃ out, chunker.pack 1 us = some out := fun us hus =>
    packFrom_returns (fun u hu hbig => by rw [hus u hu] at hbig; cases hbig) []
  have hsentences : ∀ us : List (List Char), (∀ u ∈ us, Solid u ∧ NoMatch sentenceEnd u) →
      (∀ u ∈ us, ∀ w ∈ words isSpace u, chunker.oversized w = false) →
        ∃ out, chunker.pack 2 us = some out := by
    intro us hus hws
    refine packFrom_returns (fun u hu hbig => ?_) []
    rw [splitSmaller_of_noMatch (hus u hu).1 (hus u hu).2]
    exact hfit _ (hws u hu)
  refine packFrom_returns (fun u hu hbig => ?_) []
  have hsolid := solid_splitSmaller (hunits u hu)
  have hparts : ∀ t ∈ splitSmaller u, ∀ w ∈ words isSpace t, chunker.oversized w = false := by
    intro t ht w hw
    refine hwords u hu w ?_
    rw [← splitSmaller_words]
    exact List.mem_flatMap.mpr ⟨t,ht,hw⟩
  by_cases hmany : 1 < (split sentenceEnd u).length
  · refine hsentences _ (fun t ht => ⟨hsolid t ht,?_⟩) hparts
    rw [splitSmaller,if_pos hmany] at ht
    exact noMatch_of_sentence ht
  · obtain ⟨out,hout⟩ := hfit (splitSmaller u) (by
      intro t ht
      have hself := hsolid t ht
      rw [splitSmaller,if_neg hmany,split_spaces (hunits u hu).1 (hunits u hu).2] at ht
      exact hwords u hu t ht)
    exact ⟨out,pack_mono (Nat.le_succ 1) hout⟩

/-- The windows `out` hold the words of `units` in order, and each fits. -/
structure Packs (chunker : DocumentChunker) (units out : List (List Char)) : Prop where
  words : out.flatMap (words isSpace) = units.flatMap (words isSpace)
  fits : ∀ o ∈ out, chunker.oversized o = false
  solid : ∀ o ∈ out, Solid o

theorem Packs.append {units units' out out' : List (List Char)} (h : Packs chunker units out)
    (h' : Packs chunker units' out') : Packs chunker (units ++ units') (out ++ out') where
  words := by rw [List.flatMap_append,List.flatMap_append,h.words,h'.words]
  fits o ho := (List.mem_append.mp ho).elim (h.fits o) (h'.fits o)
  solid o ho := (List.mem_append.mp ho).elim (h.solid o) (h'.solid o)

theorem Packs.of_words {units units' out : List (List Char)} (h : Packs chunker units out)
    (hwords : units.flatMap (Words.words isSpace) = units'.flatMap (Words.words isSpace)) :
    Packs chunker units' out := ⟨h.words.trans hwords,h.fits,h.solid⟩

/-- A window under construction: empty, or one that could be put out. -/
def Window (chunker : DocumentChunker) (current : List Char) : Prop :=
  current = [] ∨ Solid current ∧ chunker.oversized current = false

theorem Window.flush {current : List Char} (h : Window chunker current) :
    Packs chunker [current] (flush current) := by
  obtain rfl | ⟨hsolid,hfits⟩ := h
  · exact ⟨rfl,by simp [DocumentChunker.flush],by simp [DocumentChunker.flush]⟩
  · have hself : DocumentChunker.flush current = [current] :=
      if_neg (by simpa using hsolid.1)
    rw [hself]
    exact ⟨rfl,by simpa using hfits,by simpa using hsolid⟩

theorem words_joined (first second : List Char) :
    words isSpace (joined first second) = words isSpace first ++ words isSpace second :=
  words_append_seps_append (s := ['\n','\n']) first second (by simp) (by simp [isSpace])

theorem Solid.joined {first : List Char} (h : Solid first) (second : List Char) :
    Solid (joined first second) := by
  obtain ⟨c,first,rfl⟩ := List.exists_cons_of_ne_nil h.1
  exact ⟨List.cons_ne_nil _ _,h.2⟩

theorem Window.candidate {current unit : List Char} (h : Window chunker current) (hunit : Solid unit)
    (hfits : chunker.oversized unit = false)
    (hboth : current = [] ∨ chunker.oversized (candidate current unit) = false) :
    Window chunker (candidate current unit) ∧ words isSpace (candidate current unit) =
      words isSpace current ++ words isSpace unit := by
  obtain rfl | ⟨hsolid,-⟩ := h
  · exact ⟨Or.inr ⟨hunit,hfits⟩,rfl⟩
  · have hself : DocumentChunker.candidate current unit = DocumentChunker.joined current unit :=
      if_neg (by simpa using hsolid.1)
    obtain rfl | hboth := hboth
    · exact absurd rfl hsolid.1
    · rw [hself] at hboth ⊢
      exact ⟨Or.inr ⟨hsolid.joined unit,hboth⟩,words_joined current unit⟩

theorem packFrom_packs
    (hsmaller : ∀ us inner, (∀ u ∈ us, Solid u) → smaller us = some inner → Packs chunker us inner)
    {units out : List (List Char)} {current : List Char} (hunits : ∀ u ∈ units, Solid u)
    (hcurrent : Window chunker current) (h : packFrom chunker smaller current units = some out) :
    Packs chunker (current::units) out := by
  induction units generalizing current out with
  | nil =>
    obtain rfl := Option.some.inj h
    exact hcurrent.flush
  | cons unit units ih =>
    have hunit := hunits unit List.mem_cons_self
    have hrest : ∀ {current out}, Window chunker current →
        packFrom chunker smaller current units = some out → Packs chunker (current::units) out :=
      ih fun u hu => hunits u (List.mem_cons_of_mem unit hu)
    cases hbig : chunker.oversized unit with
    | true =>
      rw [packFrom_oversized hbig] at h
      obtain ⟨inner,hinner,hmap⟩ := Option.bind_eq_some_iff.mp h
      obtain ⟨rest,hpack,rfl⟩ := Option.map_eq_some_iff.mp hmap
      have hparts := hsmaller _ _ (solid_splitSmaller hunit) hinner
      refine ((hcurrent.flush.append hparts).append (hrest (Or.inl rfl) hpack)).of_words ?_
      simp [splitSmaller_words]
    | false =>
      obtain ⟨-,heq⟩ | ⟨hboth,heq⟩ := @packFrom_fits chunker smaller current unit units hbig
      · rw [heq] at h
        obtain ⟨rest,hpack,rfl⟩ := Option.map_eq_some_iff.mp h
        exact hcurrent.flush.append (hrest (Or.inr ⟨hunit,hbig⟩) hpack)
      · obtain ⟨hwindow,hwords⟩ := hcurrent.candidate hunit hbig hboth
        refine (hrest hwindow (heq ▸ h)).of_words ?_
        simp [hwords]

theorem pack_packs {depth : ℕ} {units out : List (List Char)} (hunits : ∀ u ∈ units, Solid u)
    (h : chunker.pack depth units = some out) : Packs chunker units out := by
  induction depth generalizing units out with
  | zero => cases h
  | succ depth ih =>
    have hpacks := packFrom_packs (fun us inner hus hinner => ih hus hinner) hunits (Or.inl rfl) h
    exact hpacks.of_words rfl

/-! ### Paragraphs -/

theorem infix_of_strip (text : List Char) : strip text <:+: text :=
  (List.rdropWhile_prefix _ _).isInfix.trans (List.dropWhile_suffix _).isInfix

theorem firm_strip {text : List Char} (h : strip text ≠ []) : Firm isWhitespace (strip text) := by
  refine ⟨h,?_,?_⟩
  · intro c hc
    obtain ⟨z,hz⟩ := List.rdropWhile_prefix isWhitespace (text.dropWhile isWhitespace)
    have hhead := List.head?_dropWhile_not isWhitespace text
    rw [← hz,List.head?_append,show (List.rdropWhile isWhitespace _).head? = some c from hc] at hhead
    simpa using hhead
  · intro c hc
    have hlast : ¬ isWhitespace ((strip text).getLast h) = true :=
      List.rdropWhile_last_not isWhitespace (text.dropWhile isWhitespace) h
    rw [List.getLast?_eq_some_getLast h] at hc
    obtain rfl := Option.some.inj hc
    simpa using hlast

theorem Firm.of_isWhitespace {x : List Char} (h : Firm isWhitespace x) : Firm isSpace x := by
  have hweak : ∀ c, isWhitespace c = false → isSpace c = false := by
    intro c hc
    by_contra hspace
    rw [isWhitespace_of_isSpace (by simpa using hspace)] at hc
    cases hc
  exact ⟨h.1,fun c hc => hweak c (h.2.1 c hc),fun c hc => hweak c (h.2.2 c hc)⟩

/-- A stretch between two characters that are no whitespace is not cut by `strip`. -/
theorem infix_strip {x text : List Char} (hx : Firm isWhitespace x) (h : x <:+: text) :
    x <:+: strip text := by
  have hdrop : ∀ {y t : List Char}, y ≠ [] → Opens isWhitespace y → y <:+: t →
      y <:+: t.dropWhile isWhitespace := by
    rintro y t hne hopen ⟨u,v,rfl⟩
    obtain ⟨c,y,rfl⟩ := List.exists_cons_of_ne_nil hne
    rw [List.append_assoc,List.dropWhile_append]
    split
    · rw [List.cons_append,List.dropWhile_cons_of_neg (by simp [hopen c rfl])]
      exact (List.prefix_append (c::y) v).isInfix
    · exact ⟨u.dropWhile isWhitespace,v,by simp⟩
  have hback := hdrop (List.reverse_ne_nil_iff.mpr hx.1) (by
    intro c hc
    rw [List.head?_reverse] at hc
    exact hx.2.2 c hc) (List.reverse_infix.mpr (hdrop hx.1 hx.2.1 h))
  rw [strip,List.rdropWhile,← List.reverse_infix,List.reverse_reverse]
  exact hback

/-- In a text without exotic whitespace, stripping keeps the words. -/
theorem words_strip {text : List Char}
    (h : ∀ c ∈ text, isWhitespace c = true → isSpace c = true) :
    words isSpace (strip text) = words isSpace text := by
  have hfront := words_seps_append (p := isSpace) (s := text.takeWhile isWhitespace)
    (fun c hc => h c ((List.takeWhile_prefix _).subset hc) (List.mem_takeWhile_imp hc))
    (text.dropWhile isWhitespace)
  have hback := words_append_of_seps (p := isSpace) (strip text)
    (s := (text.dropWhile isWhitespace).rtakeWhile isWhitespace) (fun c hc =>
      h c ((List.dropWhile_suffix _).subset ((List.rtakeWhile_suffix _ _).subset hc))
        (List.mem_rtakeWhile_imp hc))
  rw [strip,List.rdropWhile_append_rtakeWhile] at hback
  rw [List.takeWhile_append_dropWhile] at hfront
  rw [strip,← hback,hfront]

theorem paragraphEnd_plain : paragraphEnd.Plain := ⟨trivial,trivial,trivial⟩

theorem mem_paragraphEnd_language {s : List Char} : s ∈ paragraphEnd.language ↔
    ∃ m, (∀ c ∈ m, isSpace c = true) ∧ s = '\n'::(m ++ ['\n']) := by
  constructor
  · rintro ⟨_,⟨a,rfl,ha⟩,_,⟨m,hm,_,⟨b,rfl,hb⟩,rfl⟩,rfl⟩
    obtain rfl : a = '\n' := by simpa using ha
    obtain rfl : b = '\n' := by simpa using hb
    exact ⟨m,mem_language_star.mp hm,rfl⟩
  · rintro ⟨m,hm,rfl⟩
    exact ⟨['\n'],⟨'\n',rfl,rfl⟩,m ++ ['\n'],⟨m,mem_language_star.mpr hm,['\n'],⟨'\n',rfl,rfl⟩,rfl⟩,rfl⟩

theorem paragraphEnd_proper : paragraphEnd.Proper := proper_of_blank paragraphEnd_plain <| by
  intro h
  obtain ⟨m,-,h⟩ := mem_paragraphEnd_language.mp h
  cases h

theorem divided_paragraphs (text : List Char) :
    Divided (fun s _ => BlankLine s) text (parts (tokens paragraphEnd text)) :=
  divided_parts (scanned_tokens paragraphEnd_proper text) fun before w rest groups hw h => by
    obtain ⟨w',hw',hafter,-⟩ := (mem_ends paragraphEnd_plain).mp (List.mem_of_mem_head? h)
    obtain rfl := List.append_cancel_right hafter
    exact mem_paragraphEnd_language.mp hw'

/-- The paragraphs that are not blank. -/
def paragraphs (content : List Char) : List (List Char) :=
  ((split paragraphEnd (strip content)).map strip).filter fun p => !p.isEmpty

theorem splitParagraphs_eq (content : List Char) : splitParagraphs content =
    if (paragraphs content).isEmpty then [strip content] else paragraphs content := rfl

theorem mem_paragraphs {content p : List Char} (h : p ∈ paragraphs content) :
    Firm isWhitespace p ∧ p <:+: content ∧ ∀ s, BlankLine s → ¬ s <:+: p := by
  obtain ⟨hmem,hne⟩ := List.mem_filter.mp h
  obtain ⟨t,ht,rfl⟩ := List.mem_map.mp hmem
  have hpart := mem_parts_of_mem_split ht
  have hin : t <:+: content :=
    ((divided_paragraphs (strip content)).infix_of_mem hpart).trans (infix_of_strip content)
  refine ⟨firm_strip (by simpa using hne),(infix_of_strip t).trans hin,?_⟩
  intro s hs hwithin
  exact not_infix_parts paragraphEnd_plain (scanned_tokens paragraphEnd_proper _) hpart
    (mem_paragraphEnd_language.mpr hs) hs.blank.1 (hwithin.trans (infix_of_strip t))

/-- A stretch without a blank line, between two characters that are no whitespace, lies in one
paragraph. -/
theorem exists_paragraph {content x : List Char} (hx : Firm isWhitespace x)
    (hno : ∀ s, BlankLine s → ¬ s <:+: x) (hin : x <:+: content) :
    ∃ p ∈ paragraphs content, x <:+: p := by
  obtain ⟨t,ht,hxt⟩ := (divided_paragraphs (strip content)).exists_part (fun s rest h => h.blank)
    (Firm.of_isWhitespace hx) (fun s rest h => hno s h) (infix_strip hx hin)
  have hstrip := infix_strip hx hxt
  have hne : strip t ≠ [] := fun hnil => hx.1 (List.infix_nil.mp (hnil ▸ hstrip))
  have hpart : t ∈ split paragraphEnd (strip content) :=
    mem_split_of_mem_parts ht fun hnil => hx.1 (List.infix_nil.mp (hnil ▸ hxt))
  exact ⟨strip t,List.mem_filter.mpr ⟨List.mem_map_of_mem hpart,by simpa using hne⟩,hstrip⟩

theorem splitParagraphs_of_ne_nil {content : List Char} (h : strip content ≠ []) :
    splitParagraphs content = paragraphs content := by
  obtain ⟨c,y,hy⟩ := List.exists_cons_of_ne_nil h
  have hc : isWhitespace c = false := (firm_strip h).2.1 c (by rw [hy]; rfl)
  obtain ⟨p,hp,-⟩ := @exists_paragraph content [c] ⟨List.cons_ne_nil c [],by simpa [Opens] using hc,
      by simpa using hc⟩ (by
    rintro s ⟨m,-,rfl⟩ hwithin
    have hlength := hwithin.length_le
    simp at hlength) (((List.singleton_infix_iff c _).mpr (by rw [hy]; simp)).trans (infix_of_strip content))
  rw [splitParagraphs_eq,if_neg (by simpa using List.ne_nil_of_mem hp)]

theorem splitParagraphs_words {content : List Char}
    (h : ∀ c ∈ content, isWhitespace c = true → isSpace c = true) :
    (splitParagraphs content).flatMap (words isSpace) = words isSpace content := by
  by_cases hblank : strip content = []
  · rw [← words_strip h,hblank,splitParagraphs_eq,paragraphs,hblank]
    rfl
  · have hfilter : ∀ ps : List (List Char), (ps.filter fun p => !p.isEmpty).flatMap (words isSpace) =
        ps.flatMap (words isSpace) := by
      intro ps
      induction ps with
      | nil => rfl
      | cons p ps ih => cases p <;> simp [ih]
    have hstrip : ∀ t ∈ split paragraphEnd (strip content),
        words isSpace (strip t) = words isSpace t := by
      intro t ht
      refine words_strip fun c hc => h c ?_
      exact (infix_of_strip content).subset (((divided_paragraphs _).infix_of_mem
        (mem_parts_of_mem_split ht)).subset hc)
    rw [splitParagraphs_of_ne_nil hblank,paragraphs,hfilter,List.flatMap_map,List.flatMap_congr hstrip,
      split_flatMap_words (fun s rest h => h.blank) (divided_paragraphs _),words_strip h]

/-! ### When chunking returns -/

theorem length_le_of_infix {x y : List Char} (h : x <:+: y) :
    Text.length (String.ofList x) ≤ Text.length (String.ofList y) := by
  obtain ⟨u,v,rfl⟩ := h
  simp only [Text.length,String.toList_ofList,List.map_append,List.sum_append]
  omega

theorem oversized_estimate (hcounter : chunker.tokenCounter = estimateTokens)
    (hsize : 1 ≤ chunker.chunkSize) {text : List Char} : chunker.oversized text = true ↔
      4*chunker.chunkSize < Text.length (String.ofList text) := by
  rw [oversized,hcounter,estimateTokens,decide_eq_true_eq]
  omega

/-- A text without a space lies in one part of a unit that holds it. -/
theorem exists_smaller {text run : List Char} (hne : run ≠ []) (hrun : ∀ c ∈ run, isSpace c = false)
    (h : run <:+: text) : ∃ t ∈ splitSmaller text, run <:+: t := by
  have hfirm : Firm isSpace run := ⟨hne,fun c hc => hrun c (List.mem_of_mem_head? hc),
    fun c hc => hrun c (List.mem_of_mem_getLast? hc)⟩
  have hno : ∀ s rest, Run s rest → ¬ s <:+: run := by
    rintro s rest ⟨⟨hs,hspace⟩,-⟩ hwithin
    obtain ⟨c,s,rfl⟩ := List.exists_cons_of_ne_nil hs
    have hc := hrun c (hwithin.subset List.mem_cons_self)
    rw [hspace c List.mem_cons_self] at hc
    cases hc
  have hpart : ∀ r, Divided Run text (parts (tokens r text)) → ∃ t ∈ split r text, run <:+: t := by
    intro r hdivided
    obtain ⟨t,ht,hin⟩ := hdivided.exists_part (fun s rest h => h.1) hfirm hno h
    exact ⟨t,mem_split_of_mem_parts ht fun hnil => hne (List.infix_nil.mp (hnil ▸ hin)),hin⟩
  rw [splitSmaller]
  split
  · exact hpart sentenceEnd (divided_sentences text)
  · exact hpart spaces (divided_spaces text)

/-- A unit with a run too long for a window is never packed. -/
theorem pack_ne_some (hcounter : chunker.tokenCounter = estimateTokens) (hsize : 1 ≤ chunker.chunkSize)
    {run : List Char} (hrun : ∀ c ∈ run, isSpace c = false) (hlong : chunker.oversized run = true)
    {depth : ℕ} {units : List (List Char)} {u : List Char} (hu : u ∈ units) (hin : run <:+: u)
    (out : List (List Char)) : chunker.pack depth units ≠ some out := by
  have hne : run ≠ [] := by
    rintro rfl
    have hnil := (oversized_estimate hcounter hsize).mp hlong
    simp [Text.length] at hnil
    omega
  induction depth generalizing units u out with
  | zero => exact fun h => by cases h
  | succ depth ih =>
    intro h
    have hbig : chunker.oversized u = true := by
      rw [oversized_estimate hcounter hsize] at hlong ⊢
      have hle := length_le_of_infix hin
      omega
    obtain ⟨inner,hinner⟩ := packFrom_reaches h hu hbig
    obtain ⟨t,ht,hint⟩ := exists_smaller hne hrun hin
    exact ih ht hint inner hinner

/-- Somewhere in the content, in a stretch that a blank line does not break and that whitespace does not
begin or end, more than `limit` UTF-16 units stand without a space. -/
def LongRun (limit : ℤ) (content : List Char) : Prop :=
  ∃ x run, x <:+: content ∧ Firm isWhitespace x ∧ (∀ s, BlankLine s → ¬ s <:+: x) ∧ run <:+: x ∧
    (∀ c ∈ run, isSpace c = false) ∧ limit < Text.length (String.ofList run)

/-- Chunking with the production estimate returns exactly when the content has no run of characters
that is too long for a window. -/
theorem chunk_returns_iff (hcounter : chunker.tokenCounter = estimateTokens)
    (hsize : 1 ≤ chunker.chunkSize) (content : List Char) :
    (∃ depth chunks, chunker.chunk depth content = some chunks) ↔
      ¬ LongRun (4*chunker.chunkSize) content := by
  constructor
  · rintro ⟨depth,chunks,h⟩ ⟨x,run,hx,hfirm,hno,hrunx,hrun,hlong⟩
    obtain ⟨packed,hpacked,-⟩ := Option.map_eq_some_iff.mp h
    obtain ⟨p,hp,hxp⟩ := exists_paragraph hfirm hno hx
    rw [splitParagraphs_eq,if_neg (by simpa using List.ne_nil_of_mem hp)] at hpacked
    exact pack_ne_some hcounter hsize hrun ((oversized_estimate hcounter hsize).mpr hlong) hp
      (hrunx.trans hxp) packed hpacked
  · intro hshort
    have hpack : ∃ out, chunker.pack 3 (splitParagraphs content) = some out := by
      by_cases hblank : strip content = []
      · have hfits : chunker.oversized [] = false := by
          rw [← Bool.not_eq_true,oversized_estimate hcounter hsize]
          simp [Text.length]
          omega
        have hunits : splitParagraphs content = [[]] := by
          rw [splitParagraphs_eq,paragraphs,hblank]
          rfl
        obtain ⟨out,hout⟩ := @packFrom_returns chunker (chunker.pack 2) [[]] (by
          intro u hu hbig
          rw [List.mem_singleton.mp hu,hfits] at hbig
          cases hbig) []
        exact ⟨out,hunits ▸ hout⟩
      · rw [splitParagraphs_of_ne_nil hblank]
        have hall := fun p (hp : p ∈ paragraphs content) => mem_paragraphs hp
        refine pack_returns (fun p hp => ?_) fun p hp w hw => ?_
        · exact ⟨(hall p hp).1.1,(Firm.of_isWhitespace (hall p hp).1).2.1⟩
        · by_contra hbig
          obtain ⟨u,v,huv,-⟩ := stands_of_mem_words hw
          exact hshort ⟨p,w,(hall p hp).2.1,(hall p hp).1,(hall p hp).2.2,
            ⟨u,v,by rw [huv,List.append_assoc]⟩,free_of_mem_words hw,
            (oversized_estimate hcounter hsize).mp (by simpa using hbig)⟩
    obtain ⟨packed,hpacked⟩ := hpack
    exact ⟨3,_,by rw [chunk,hpacked]; rfl⟩

/-- The production chunker with windows of one token. -/
def oneToken : DocumentChunker := ⟨1,0,estimateTokens,by decide⟩

/-- Five letters in a row do not fit a window of one token, and no split makes them smaller. -/
theorem chunk_loops_on_long_word : ¬ ∀ chunker : DocumentChunker,
    chunker.tokenCounter = estimateTokens → 1 ≤ chunker.chunkSize → ∀ content : List Char,
      ∃ depth chunks, chunker.chunk depth content = some chunks := by
  intro h
  obtain ⟨depth,chunks,hchunk⟩ := h oneToken rfl (by decide) ['a','b','c','d','e']
  obtain ⟨packed,hpacked,-⟩ := Option.map_eq_some_iff.mp hchunk
  exact @pack_ne_some oneToken rfl (by decide) ['a','b','c','d','e'] (by simp [isSpace]) (by decide +kernel) depth
    (splitParagraphs ['a','b','c','d','e']) ['a','b','c','d','e'] (by decide +kernel) List.infix_rfl packed hpacked

/-- Words of four letters are chunked, so they are no long run. -/
theorem chunk_returns_short_words : ¬ LongRun 4 "abcd ef".toList :=
  (@chunk_returns_iff oneToken rfl (by decide) _).mp
    ⟨3,[⟨0,"abcd".toList⟩,⟨1,"ef".toList⟩],by decide +kernel⟩

/-! ### The overlap -/

/-- Words with a space between them. -/
def unwords (ws : List (List Char)) : List Char := [' '].intercalate ws

theorem unwords_cons (w : List Char) {ws : List (List Char)} (h : ws ≠ []) :
    unwords (w::ws) = w ++ ' '::unwords ws := by
  rw [unwords,List.intercalate_cons_of_ne_nil h,List.append_assoc,List.singleton_append,unwords]

theorem unwords_isEmpty {ws : List (List Char)} (h : ∀ w ∈ ws, w ≠ []) :
    (unwords ws).isEmpty = ws.isEmpty := by
  cases ws with
  | nil => rfl
  | cons w ws =>
    obtain ⟨c,w,rfl⟩ := List.exists_cons_of_ne_nil (h w List.mem_cons_self)
    cases ws with
    | nil => rfl
    | cons v ws => rw [unwords_cons _ (List.cons_ne_nil v ws)]; rfl

/-- What may be carried into the next chunk: one word, or words that cost at most `tokens`. -/
def Carries (chunker : DocumentChunker) (tokens : ℤ) (tail : List (List Char)) : Prop :=
  tail.length ≤ 1 ∨ chunker.tokenCounter (unwords tail) ≤ tokens

theorem trailing_cons {tokens : ℤ} {taken : List (List Char)} (w : List Char) (ws : List (List Char))
    (htaken : ∀ w ∈ taken, w ≠ []) : chunker.trailing tokens (unwords taken) (w::ws) =
      if tokens < chunker.tokenCounter (unwords (w::taken)) ∧ taken ≠ [] then unwords taken
      else chunker.trailing tokens (unwords (w::taken)) ws := by
  have hlonger : (if (unwords taken).isEmpty then w else w ++ ' '::unwords taken) =
      unwords (w::taken) := by
    rw [unwords_isEmpty htaken]
    cases taken with
    | nil => exact List.intercalate_singleton.symm
    | cons v taken => exact (unwords_cons w (List.cons_ne_nil v taken)).symm
  have hempty : (unwords taken).isEmpty = true ↔ taken = [] := by
    rw [unwords_isEmpty htaken,List.isEmpty_iff]
  rw [trailing,hlonger]
  simp only [hempty,ne_eq]

/-- The loop over the words, the last first, puts some of them before those taken already. -/
theorem trailing_eq {tokens : ℤ} {taken ws : List (List Char)} (hws : ∀ w ∈ ws, w ≠ [])
    (htaken : ∀ w ∈ taken, w ≠ []) (hcarries : Carries chunker tokens taken) :
    ∃ more, more <+: ws ∧ chunker.trailing tokens (unwords taken) ws =
      unwords (more.reverse ++ taken) ∧ Carries chunker tokens (more.reverse ++ taken) := by
  induction ws generalizing taken with
  | nil => exact ⟨[],List.prefix_rfl,rfl,hcarries⟩
  | cons w ws ih =>
    rw [trailing_cons w ws htaken]
    split
    · exact ⟨[],List.nil_prefix,rfl,hcarries⟩
    · rename_i hgo
      have hnext : Carries chunker tokens (w::taken) := by
        by_cases hnil : taken = []
        · exact Or.inl (by rw [hnil]; exact le_rfl)
        · exact Or.inr (not_lt.mp fun hover => hgo ⟨hover,hnil⟩)
      have hcons : ∀ v ∈ w::taken, v ≠ [] := by
        intro v hv
        obtain rfl | htail := List.mem_cons.mp hv
        · exact hws v List.mem_cons_self
        · exact htaken v htail
      obtain ⟨more,hmore,heq,hall⟩ := ih (fun v hv => hws v (List.mem_cons_of_mem w hv)) hcons hnext
      refine ⟨w::more,List.cons_prefix_cons.mpr ⟨rfl,hmore⟩,?_,?_⟩
      · rw [heq,List.reverse_cons,List.append_assoc]
        rfl
      · rw [List.reverse_cons,List.append_assoc]
        exact hall

theorem trailingTokens_eq {text : List Char} (htext : Solid text) (tokens : ℤ) :
    ∃ tail, tail <:+ words isSpace text ∧ chunker.trailingTokens text tokens = unwords tail ∧
      Carries chunker tokens tail := by
  have hwords : ∀ w ∈ (words isSpace text).reverse, w ≠ [] := fun w hw =>
    ne_nil_of_mem_words (List.mem_reverse.mp hw)
  obtain ⟨more,hmore,heq,hcarries⟩ := @trailing_eq chunker tokens [] (words isSpace text).reverse
    hwords (by simp) (Or.inl (Nat.zero_le 1))
  rw [List.append_nil] at heq hcarries
  refine ⟨more.reverse,?_,?_,hcarries⟩
  · rw [← List.reverse_prefix,List.reverse_reverse]
    exact hmore
  · rw [trailingTokens,split_spaces htext.1 htext.2]
    exact heq

/-- The texts of the chunks: each behind the first is its window behind words that end the window
before. -/
def Overlaps (chunker : DocumentChunker) (packed texts : List (List Char)) : Prop :=
  texts.length = packed.length ∧ texts.head? = packed.head? ∧
    ∀ i first second, packed[i]? = some first → packed[i+1]? = some second →
      ∃ tail, tail <:+ words isSpace first ∧ Carries chunker chunker.overlap tail ∧
        texts[i+1]? = some (if tail.isEmpty then second else joined (unwords tail) second)

theorem overlapped_length (packed : List (List Char)) :
    (chunker.overlapped packed).length = packed.length - 1 := by
  induction packed with
  | nil => rfl
  | cons first rest ih =>
    cases rest with
    | nil => rfl
    | cons second rest =>
      rw [overlapped,List.length_cons,ih]
      simp

theorem overlapped_getElem? {packed : List (List Char)} (hpacked : ∀ p ∈ packed, Solid p)
    {i : ℕ} {first second : List Char} (hfirst : packed[i]? = some first)
    (hsecond : packed[i+1]? = some second) :
    ∃ tail, tail <:+ words isSpace first ∧ Carries chunker chunker.overlap tail ∧
      (chunker.overlapped packed)[i]? =
        some (if tail.isEmpty then second else joined (unwords tail) second) := by
  induction packed generalizing i with
  | nil => cases hfirst
  | cons p rest ih =>
    cases rest with
    | nil => cases hsecond
    | cons q rest =>
      cases i with
      | zero =>
        obtain rfl := Option.some.inj hfirst
        obtain rfl := Option.some.inj hsecond
        obtain ⟨tail,htail,heq,hcarries⟩ := @trailingTokens_eq chunker p (hpacked p List.mem_cons_self)
          chunker.overlap
        have hwords : ∀ w ∈ tail, w ≠ [] := fun w hw => ne_nil_of_mem_words (htail.subset hw)
        refine ⟨tail,htail,hcarries,?_⟩
        rw [overlapped,heq,unwords_isEmpty hwords]
        rfl
      | succ i =>
        rw [overlapped]
        exact ih (fun u hu => hpacked u (List.mem_cons_of_mem p hu)) hfirst hsecond

theorem applyOverlap_overlaps {packed : List (List Char)} (hpacked : ∀ p ∈ packed, Solid p) :
    Overlaps chunker packed (chunker.applyOverlap packed) := by
  unfold applyOverlap
  split
  · refine ⟨rfl,rfl,?_⟩
    intro i first second hfirst hsecond
    exact ⟨[],List.nil_suffix,Or.inl (Nat.zero_le 1),hsecond⟩
  · cases packed with
    | nil => exact ⟨rfl,rfl,fun i first second hfirst => by cases hfirst⟩
    | cons p rest =>
      refine ⟨?_,rfl,?_⟩
      · rw [List.length_cons,overlapped_length]
        rfl
      · intro i first second hfirst hsecond
        exact overlapped_getElem? hpacked hfirst hsecond

/-- Chunking a document without exotic whitespace, when each of its words fits a window: nothing is
lost, nothing is doubled but the carried words. -/
theorem chunk_keeps_words {content : List Char}
    (hplain : ∀ c ∈ content, isWhitespace c = true → isSpace c = true)
    (hblank : ∃ c ∈ content, isWhitespace c = false)
    (hwords : ∀ w ∈ words isSpace content, chunker.tokenCounter w ≤ chunker.chunkSize) :
    ∃ packed chunks, (∀ depth, 3 ≤ depth → chunker.pack depth (splitParagraphs content) = some packed ∧
        chunker.chunk depth content = some chunks) ∧
      (∀ p ∈ packed, chunker.tokenCounter p ≤ chunker.chunkSize) ∧
      (packed.flatMap fun p => p.filter fun c => !isSpace c) = content.filter (fun c => !isSpace c) ∧
      Overlaps chunker packed (chunks.map Chunk.text) ∧
      chunks.map Chunk.index = List.range chunks.length := by
  have hfits : ∀ {text : List Char}, chunker.oversized text = false ↔
      chunker.tokenCounter text ≤ chunker.chunkSize := by
    intro text
    rw [oversized,decide_eq_false_iff_not,not_lt]
  obtain ⟨c,hc,hcw⟩ := hblank
  have hstrip : strip content ≠ [] := by
    intro hnil
    refine words_ne_nil (p := isSpace) hc ?_ (by rw [← words_strip hplain,hnil,words_nil])
    by_contra hspace
    rw [isWhitespace_of_isSpace (by simpa using hspace)] at hcw
    cases hcw
  have hunits : ∀ u ∈ splitParagraphs content, Solid u := by
    intro u hu
    rw [splitParagraphs_of_ne_nil hstrip] at hu
    have hfirm := (mem_paragraphs hu).1
    exact ⟨hfirm.1,(Firm.of_isWhitespace hfirm).2.1⟩
  have hunitwords : ∀ u ∈ splitParagraphs content, ∀ w ∈ words isSpace u,
      chunker.oversized w = false := by
    intro u hu w hw
    refine hfits.mpr (hwords w ?_)
    rw [← splitParagraphs_words hplain]
    exact List.mem_flatMap.mpr ⟨u,hu,hw⟩
  obtain ⟨packed,hpacked⟩ := pack_returns hunits hunitwords
  have hpacks := pack_packs hunits hpacked
  have hchunk : ∀ depth, 3 ≤ depth → chunker.pack depth (splitParagraphs content) = some packed :=
    fun depth hdepth => pack_mono hdepth hpacked
  refine ⟨packed,_,fun depth hdepth => ⟨hchunk depth hdepth,by rw [chunk,hchunk depth hdepth]; rfl⟩,
    fun p hp => hfits.mp (hpacks.fits p hp),?_,?_,?_⟩
  · have hflatten : packed.flatMap (fun p => p.filter fun c => !isSpace c) =
        (packed.flatMap (words isSpace)).flatten := by
      rw [List.flatMap_def,List.flatMap_def,List.flatten_flatten,List.map_map]
      exact congrArg List.flatten (List.map_congr_left fun p hp => (flatten_words p).symm)
    rw [hflatten,hpacks.words,splitParagraphs_words hplain,flatten_words]
  · have htexts : ((chunker.applyOverlap packed).zipIdx.map fun p => (⟨p.2,p.1⟩ : Chunk)).map Chunk.text =
        chunker.applyOverlap packed := by
      rw [List.map_map]
      exact List.zipIdx_map_fst 0 _
    rw [htexts]
    exact applyOverlap_overlaps hpacks.solid
  · exact chunk_indices (by rw [chunk,hpacked]; rfl)

/-- Windows of eight letters, of which three are carried on. -/
def eightLetters : DocumentChunker := ⟨8,3,fun text => text.length,by decide⟩

def twoParagraphs : List Char :=
  ['a','b',' ','c','.',' ','d',' ','e','f','g','h','\n','\n','i','j']

theorem chunk_keeps_words_twoParagraphs :
    ∃ packed chunks, (∀ depth, 3 ≤ depth →
        eightLetters.pack depth (splitParagraphs twoParagraphs) = some packed ∧
          eightLetters.chunk depth twoParagraphs = some chunks) ∧
      (∀ p ∈ packed, eightLetters.tokenCounter p ≤ 8) ∧
      (packed.flatMap fun p => p.filter fun c => !isSpace c) =
        twoParagraphs.filter (fun c => !isSpace c) ∧
      Overlaps eightLetters packed (chunks.map Chunk.text) ∧
      chunks.map Chunk.index = List.range chunks.length :=
  chunk_keeps_words (by simp [twoParagraphs,isSpace,isWhitespace]) ⟨'a',by simp [twoParagraphs],by rfl⟩
    (by decide +kernel)

end DocumentChunker
end AtlasCompliance.RagEngine
