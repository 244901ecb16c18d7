import AtlasCompliance.Evals.FormatValidity

/-! The citation that the generator puts behind a teacher's answer: which markers and which refusal cues of
the answer survive it, and when the result is a valid answer that cites its document only. -/
namespace AtlasCompliance.Training
open Python Regex Evals

/-- `\[doc:[A-Za-z0-9_-]+\]`. -/
def ANY_DOC_MARKER : Pattern Char :=
  .seq (.word (· == ·) ['[','d','o','c',':']) (.seq (.plus (.sat idChar)) (.word (· == ·) [']']))

/-- The text with every marker deleted, once. -/
def withoutMarkers (answer : List Char) : List Char := replaceAll ANY_DOC_MARKER [] answer

/-- `text.strip().rstrip(".")`. -/
def trimmed (text : List Char) : List Char := (strip text).rdropWhile (· == '.')

def enforceCitation (answer docId : List Char) : List Char :=
  let cleaned := trimmed (withoutMarkers answer)
  if cleaned.isEmpty then [] else cleaned ++ ' '::(marker docId ++ ['.'])

/-! ### What trimming keeps -/

section Trimmed
variable {isWord : Char → Bool} {start fin : Option Char → Option Char → Bool} {L : Language Char}

/-- Words that begin and end with letters are found in a text as in the trimmed one. -/
theorem found_trimmed (hstart : Sees isWord start) (hfin : Sees isWord fin)
    (hspace : ∀ c, isSpace c = true → isWord c = false) (hdot : isWord '.' = false)
    (hhead : ∀ w ∈ L, w.head?.any isWord = true) (hlast : ∀ w ∈ L, w.getLast?.any isWord = true)
    (text : List Char) : Found start fin L (trimmed text) ↔ Found start fin L text := by
  have hdots : ∀ c, (c == '.') = true → isWord c = false := by
    intro c hc
    rw [beq_iff_eq.mp hc]
    exact hdot
  rw [trimmed,strip,found_rdropWhile hstart hfin hdots hlast,
    found_rdropWhile hstart hfin hspace hlast,found_dropWhile hstart hfin hspace hhead]

end Trimmed

/-- A trimmed text does not begin with space. -/
theorem head_trimmed (text : List Char) : ∀ c ∈ (trimmed text).head?, isSpace c = false := by
  intro c hc
  have hprefix : trimmed text <+: text.dropWhile isSpace :=
    (List.rdropWhile_prefix _ _).trans (List.rdropWhile_prefix _ _)
  obtain ⟨rest,hrest⟩ := hprefix
  have hnot := List.head?_dropWhile_not isSpace text
  rw [← hrest,List.head?_append,Option.mem_def.mp hc] at hnot
  simpa using hnot

/-- A cited text has nothing to strip. -/
theorem strip_cited {cleaned docId : List Char} (hne : cleaned ≠ [])
    (hhead : ∀ c ∈ cleaned.head?, isSpace c = false) :
    strip (cleaned ++ ' '::(marker docId ++ ['.'])) = cleaned ++ ' '::(marker docId ++ ['.']) := by
  obtain ⟨c,cleaned,rfl⟩ := List.exists_cons_of_ne_nil hne
  have hc : isSpace c = false := hhead c rfl
  have hlast : c::cleaned ++ ' '::(marker docId ++ ['.']) =
      (c::cleaned ++ ' '::marker docId) ++ ['.'] := by simp
  rw [strip,List.cons_append,List.dropWhile_cons_of_neg (by simp [hc]),← List.cons_append,hlast]
  exact List.rdropWhile_concat_neg _ _ _ (by decide)

/-! ### Markers -/

theorem found_marker {id text : List Char} :
    Found anywhere anywhere ({marker id} : Language Char) text ↔ marker id <:+: text := by
  rw [found_anywhere]
  exact ⟨fun ⟨_,rfl,h⟩ => h,fun h => ⟨_,rfl,h⟩⟩

theorem marker_infix_trimmed {id : List Char} (text : List Char) :
    marker id <:+: trimmed text ↔ marker id <:+: text := by
  let isWord : Char → Bool := fun c => c == '[' || c == ']'
  have hhead : ∀ w ∈ ({marker id} : Language Char), w.head?.any isWord = true := by
    rintro w rfl
    rfl
  have hlast : ∀ w ∈ ({marker id} : Language Char), w.getLast?.any isWord = true := by
    rintro w rfl
    have hconcat : marker id = (['[','d','o','c',':'] ++ id) ++ [']'] := by simp [marker]
    rw [hconcat,List.getLast?_concat]
    rfl
  have hspace : ∀ c, isSpace c = true → isWord c = false := by
    intro c hc
    have hopen : c ≠ '[' := by
      rintro rfl
      cases hc
    have hclose : c ≠ ']' := by
      rintro rfl
      cases hc
    simp [isWord,hopen,hclose]
  rw [← found_marker,← found_marker]
  exact found_trimmed (sees_anywhere isWord) (sees_anywhere isWord) hspace rfl hhead hlast text

/-- The markers of a cited text. -/
theorem marker_infix_cited {id docId cleaned : List Char} (hid : IsId id) (hdoc : IsId docId) :
    marker id <:+: cleaned ++ ' '::(marker docId ++ ['.']) ↔ marker id <:+: cleaned ∨ id = docId := by
  have hspace : ∀ w ∈ ({marker id} : Language Char), ' ' ∉ w := by
    rintro w rfl hmem
    have hmem : ' ' ∈ id := by simpa [marker] using hmem
    cases hid.2 _ hmem
  have hne : [] ∉ ({marker id} : Language Char) := fun hnil => by cases hnil
  have hdot : ¬ marker id <:+: ['.'] := by
    intro hin
    have hlength := hin.length_le
    simp [marker] at hlength
  rw [← found_marker,@found_append_cons _ (fun _ => false) _ _ _ ' ' (sees_anywhere _)
    (sees_anywhere _) hne rfl hspace,found_marker,found_marker,marker_infix_append hid hdoc,
    or_iff_left hdot]

/-! ### Cues -/

section Cues
variable {A : Letters}

theorem isWord_of_ascii {c : Char} (hc : c.toNat < 128) (h : asciiWord c = false) :
    A.isWord c = false := (A.isWord_ascii c hc).trans h

/-- A phrase is found in a text as in the trimmed one. -/
theorem phrase_trimmed {r : Pattern Char} {fin : Option Char → Option Char → Bool}
    (hr : Phrased A r) (hfin : Sees A.isWord fin) (text : List Char) :
    Found (boundary A.isWord) fin r.language (trimmed text) ↔
      Found (boundary A.isWord) fin r.language text :=
  found_trimmed (sees_boundary _) hfin A.isWord_space (isWord_of_ascii (by decide) (by decide))
    hr.head hr.last text

/-- The part of a citation behind its bracket. -/
def tail (docId : List Char) : List Char := ['d','o','c'] ++ ':'::(docId ++ [']','.'])

theorem cited_eq (cleaned docId : List Char) : cleaned ++ ' '::(marker docId ++ ['.']) =
    (cleaned ++ [' ']) ++ '['::tail docId := by
  simp [marker,tail]

/-- The bracket of the citation separates phrases. -/
theorem phrase_cited {r : Pattern Char} {fin : Option Char → Option Char → Bool} (hr : Phrased A r)
    (hfin : Sees A.isWord fin) (cleaned docId : List Char) :
    Found (boundary A.isWord) fin r.language (cleaned ++ ' '::(marker docId ++ ['.'])) ↔
      Found (boundary A.isWord) fin r.language cleaned ∨
        Found (boundary A.isWord) fin r.language (tail docId) := by
  have hbracket : A.isWord '[' = false := isWord_of_ascii (by decide) (by decide)
  have hspace : A.isWord ' ' = false := isWord_of_ascii (by decide) (by decide)
  rw [cited_eq,found_append_cons (sees_boundary _) hfin (fun hnil => hr.ne_nil hnil rfl) hbracket
    hr.bracket,found_concat (sees_boundary _) hfin hspace hr.last]

theorem hasCue_eq_true {text : List Char} : hasCue A text = true ↔
    ∃ cue ∈ REFUSAL_CUES A, Found (boundary A.isWord) cue.2 cue.1.language text := by
  rw [hasCue,List.any_eq_true]
  refine exists_congr fun cue => and_congr_right fun hcue => ?_
  exact (cues_phrased cue hcue).1.search_iff

theorem hasCue_nil : hasCue A [] = false := by
  rw [← Bool.not_eq_true,hasCue_eq_true]
  rintro ⟨cue,hcue,u,w,v,htext,hw,-⟩
  have hnil : w = [] := (List.append_eq_nil_iff.mp (List.append_eq_nil_iff.mp htext.symm).2).1
  exact (cues_phrased cue hcue).1.ne_nil hw hnil

theorem hasCue_trimmed (text : List Char) : hasCue A (trimmed text) = hasCue A text := by
  rw [Bool.eq_iff_iff,hasCue_eq_true,hasCue_eq_true]
  refine exists_congr fun cue => and_congr_right fun hcue => ?_
  obtain ⟨hphrased,-,hsees⟩ := cues_phrased cue hcue
  exact phrase_trimmed hphrased hsees text

/-- The citation brings no cue: each has space in it. -/
theorem hasCue_cited {docId : List Char} (hdoc : IsId docId) (cleaned : List Char) :
    hasCue A (cleaned ++ ' '::(marker docId ++ ['.'])) = hasCue A cleaned := by
  rw [Bool.eq_iff_iff,hasCue_eq_true,hasCue_eq_true]
  refine exists_congr fun cue => and_congr_right fun hcue => ?_
  obtain ⟨hphrased,hspace,hsees⟩ := cues_phrased cue hcue
  rw [phrase_cited hphrased hsees]
  refine or_iff_left ?_
  rintro ⟨u,w,v,htail,hw,-⟩
  obtain ⟨c,hc,hspace⟩ := hspace.letter hw
  have hmem : c ∈ tail docId := by
    rw [htail]
    exact List.mem_append_right u (List.mem_append_left v hc)
  have hfree : ∀ c ∈ tail docId, isSpace c = false := by
    intro c hc
    simp only [tail,List.mem_append,List.mem_cons,List.not_mem_nil,or_false] at hc
    obtain (rfl | rfl | rfl) | rfl | hc | rfl | rfl := hc
    any_goals decide
    by_contra hspace
    rw [Bool.not_eq_false] at hspace
    have hword := asciiWord_of_space hspace
    have hid := hdoc.2 c hc
    simp only [idChar,hword,Bool.false_or,beq_iff_eq] at hid
    subst hid
    cases hspace
  rw [hfree c hmem] at hspace
  cases hspace

theorem hasRef_eq_true {text : List Char} : hasRef A text = true ↔
    Found (boundary A.isWord) (boundary A.isWord) (GROUNDING_REF A).language text :=
  phrased_groundingRef.search_iff

theorem hasRef_trimmed (text : List Char) : hasRef A (trimmed text) = hasRef A text := by
  rw [Bool.eq_iff_iff,hasRef_eq_true,hasRef_eq_true]
  exact phrase_trimmed phrased_groundingRef (sees_boundary _) text

theorem has_lit {q : Char → Prop} {a : Char} {s : String} (ha : a ∈ s.toList)
    (hq : ∀ c, A.same a c = true → q c) : (lit A s).Has q := by
  unfold lit
  generalize s.toList = w at ha
  induction w with
  | nil => cases ha
  | cons b w ih =>
    obtain rfl | ha := List.mem_cons.mp ha
    · exact Or.inl hq
    · exact Or.inr (ih ha)

/-- A reference to the sources has a letter that is not in `doc`. -/
theorem groundingRef_has : (GROUNDING_REF A).Has fun c => c ∉ ['d','o','c'] := by
  have hletter : ∀ a : Char, a ∉ ['d','o','c'] → ∀ c, A.same a c = true → c ∉ ['d','o','c'] := by
    intro a ha c hc hmem
    simp only [List.mem_cons,List.not_mem_nil,or_false] at hmem
    obtain rfl | rfl | rfl := hmem
    all_goals
      rw [A.same_ascii a _ (by decide)] at hc
      simp only [asciiSame,Bool.or_eq_true,beq_iff_eq] at hc
      obtain rfl | hc := hc
      · exact ha (by decide)
      · simp at hc
  have hhas : ∀ s : String, ∀ a ∈ s.toList, a ∉ ['d','o','c'] → (lit A s).Has fun c => c ∉ ['d','o','c'] :=
    fun s a hmem ha => has_lit hmem (hletter a ha)
  exact Or.inr ⟨Or.inl (hhas "source" 's' (by simp) (by decide)),hhas "context" 'n' (by simp) (by decide),
    Or.inl (hhas "document" 'u' (by simp) (by decide))⟩

/-- The citation brings no reference but one in its id. -/
theorem hasRef_cited (cleaned docId : List Char) :
    hasRef A (cleaned ++ ' '::(marker docId ++ ['.'])) = (hasRef A cleaned || hasRef A docId) := by
  have hcolon : A.isWord ':' = false := isWord_of_ascii (by decide) (by decide)
  have hclose : A.isWord ']' = false := isWord_of_ascii (by decide) (by decide)
  have hdot : A.isWord '.' = false := isWord_of_ascii (by decide) (by decide)
  have hphrased : Phrased A (GROUNDING_REF A) := phrased_groundingRef
  have hdoc : ¬ Found (boundary A.isWord) (boundary A.isWord) (GROUNDING_REF A).language ['d','o','c'] := by
    rintro ⟨u,w,v,htext,hw,-⟩
    obtain ⟨c,hc,hnot⟩ := groundingRef_has.letter hw
    refine hnot ?_
    rw [htext]
    exact List.mem_append_right u (List.mem_append_left v hc)
  have hends : docId ++ [']','.'] = (docId ++ [']']) ++ ['.'] := by simp
  rw [Bool.eq_iff_iff,Bool.or_eq_true,hasRef_eq_true,hasRef_eq_true,hasRef_eq_true,
    phrase_cited hphrased (sees_boundary _),tail,
    found_append_cons (sees_boundary _) (sees_boundary _) (fun hnil => hphrased.ne_nil hnil rfl) hcolon
      hphrased.colon,or_iff_right hdoc,hends,
    found_concat (sees_boundary _) (sees_boundary _) hdot hphrased.last,
    found_concat (sees_boundary _) (sees_boundary _) hclose hphrased.last]

end Cues

/-! ### The verdict on a cited answer -/

theorem mem_dropWhile_of_not {p : Char → Bool} {c : Char} (hc : p c = false) {text : List Char}
    (h : c ∈ text) : c ∈ text.dropWhile p := by
  rw [← @List.takeWhile_append_dropWhile _ p text] at h
  obtain h | h := List.mem_append.mp h
  · rw [List.mem_takeWhile_imp h] at hc
    cases hc
  · exact h

theorem mem_strip {c : Char} (hc : isSpace c = false) {text : List Char} (h : c ∈ text) :
    c ∈ strip text := by
  have hdrop := mem_dropWhile_of_not hc h
  rw [strip,List.rdropWhile,List.mem_reverse]
  exact mem_dropWhile_of_not hc (List.mem_reverse.mpr hdrop)

/-- The dot at the end is text beside the markers. -/
theorem answerText_ne_nil (text : List Char) (h : '.' ∈ text) : answerTextWithoutMarkers text ≠ [] := by
  refine List.ne_nil_of_mem (mem_strip (by decide) (mem_replaceAll docMarker_proper ?_ [] h))
  intro c d w hd hafter hmem
  obtain ⟨id,hid,hafter',-⟩ := mem_docMarker_ends.mp hd
  obtain rfl : w = marker id := List.append_cancel_right (hafter.symm.trans hafter')
  have hmem : '.' ∈ id := by simpa [marker] using hmem
  cases hid.2 _ hmem

/-- A cited answer is one when it cites nothing else and does not read as a grounded refusal. -/
theorem classify_cited {A : Letters} {cleaned docId : List Char} (hne : cleaned ≠ [])
    (hhead : ∀ c ∈ cleaned.head?, isSpace c = false) (hdoc : IsId docId)
    (hcited : citedDocIds (cleaned ++ ' '::(marker docId ++ ['.'])) = [docId]) :
    classify A (cleaned ++ ' '::(marker docId ++ ['.'])) (some [docId]) = .answer ↔
      ¬ (hasCue A cleaned = true ∧ (hasRef A cleaned = true ∨ hasRef A docId = true)) := by
  have hstrip := @strip_cited _ docId hne hhead
  have htext : (cleaned ++ ' '::(marker docId ++ ['.'])).isEmpty = false := by simp
  have hanswer : (answerTextWithoutMarkers (cleaned ++ ' '::(marker docId ++ ['.']))).isEmpty = false := by
    rw [List.isEmpty_eq_false_iff]
    exact answerText_ne_nil _ (by simp)
  unfold classify isGroundedRefusal
  simp only [hstrip,htext,hcited,hanswer,hasCue_cited hdoc,hasRef_cited]
  cases hasCue A cleaned <;> cases hasRef A cleaned <;> cases hasRef A docId <;> simp

/-- What the generator makes of a teacher's answer is empty or a valid answer that cites its document
only, unless a marker of another document is left once the markers are deleted, or what is left reads as
a refusal with a word for the sources in it or in the id. -/
theorem enforceCitation_valid_iff (A : Letters) (answer : List Char) {docId : List Char}
    (hdoc : IsId docId) : (enforceCitation answer docId = [] ∨
      (citedDocIds (enforceCitation answer docId) = [docId] ∧
        classify A (enforceCitation answer docId) (some [docId]) = .answer)) ↔
    (∀ id, IsId id → marker id <:+: withoutMarkers answer → id = docId) ∧
      ¬ (hasCue A (withoutMarkers answer) = true ∧
        (hasRef A (withoutMarkers answer) = true ∨ hasRef A docId = true)) := by
  rw [← hasCue_trimmed,← hasRef_trimmed (withoutMarkers answer)]
  have hmarker : ∀ id, marker id <:+: withoutMarkers answer ↔ marker id <:+: trimmed (withoutMarkers answer) :=
    fun id => (marker_infix_trimmed _).symm
  simp only [hmarker]
  unfold enforceCitation
  by_cases hnil : trimmed (withoutMarkers answer) = []
  · simp only [hnil,List.isEmpty_nil,if_true,hasCue_nil,Bool.false_eq_true,false_and,not_false_eq_true,
      and_true,true_or,true_iff]
    intro id hid hin
    have hlength := hin.length_le
    simp [marker] at hlength
  · simp only [List.isEmpty_eq_false_iff.mpr hnil,Bool.false_eq_true,if_false]
    have hcited : citedDocIds (trimmed (withoutMarkers answer) ++ ' '::(marker docId ++ ['.'])) = [docId] ↔
        ∀ id, IsId id → marker id <:+: trimmed (withoutMarkers answer) → id = docId := by
      rw [citedDocIds_eq_singleton]
      constructor
      · rintro ⟨-,-,hall⟩ id hid hin
        exact hall id hid ((marker_infix_cited hid hdoc).mpr (Or.inl hin))
      · intro hall
        refine ⟨hdoc,(marker_infix_cited hdoc hdoc).mpr (Or.inr rfl),fun id hid hin => ?_⟩
        obtain hin | heq := (marker_infix_cited hid hdoc).mp hin
        · exact hall id hid hin
        · exact heq
    rw [or_iff_right (by simp),← hcited]
    exact and_congr_right fun hone => classify_cited hnil (head_trimmed _) hdoc hone

theorem enforceCitation_valid_a : IsId ['a'] ∧
    ((enforceCitation [] ['a'] = [] ∨ (citedDocIds (enforceCitation [] ['a']) = [['a']] ∧
      classify asciiLetters (enforceCitation [] ['a']) (some [['a']]) = .answer)) ↔
    (∀ id, IsId id → marker id <:+: withoutMarkers [] → id = ['a']) ∧
      ¬ (hasCue asciiLetters (withoutMarkers []) = true ∧
        (hasRef asciiLetters (withoutMarkers []) = true ∨ hasRef asciiLetters ['a'] = true))) := by
  have hid : IsId ['a'] := ⟨by simp,by simp [idChar,asciiWord]⟩
  exact ⟨hid,enforceCitation_valid_iff asciiLetters [] hid⟩

/-- `[doc:[doc:a]b] x`: deleting the inner marker makes another one. -/
def nested : List Char :=
  ['[','d','o','c',':','[','d','o','c',':','a',']','b',']',' ','x']

theorem nested_cited_twice : ¬ ∀ (A : Letters) (answer docId : List Char), IsId docId →
    enforceCitation answer docId = [] ∨ (citedDocIds (enforceCitation answer docId) = [docId] ∧
      classify A (enforceCitation answer docId) (some [docId]) = .answer) := by
  intro hall
  have hcited : citedDocIds (enforceCitation nested ['c']) = [['b'],['c']] := by decide +kernel
  obtain hnil | ⟨hone,-⟩ := hall asciiLetters nested ['c'] ⟨by simp,by simp [idChar,asciiWord]⟩
  · rw [hnil] at hcited
    cases hcited
  · rw [hcited] at hone
    cases hone

end AtlasCompliance.Training
