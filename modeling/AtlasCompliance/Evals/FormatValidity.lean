import AtlasCompliance.Lib.Cut
import AtlasCompliance.Lib.Search
import AtlasCompliance.Python.Text

/-! The validator of the output format: markers of cited documents, the cues of a grounded refusal, and
the verdict on an output. -/
namespace AtlasCompliance.Evals
open Python Regex

/-! ### Markers -/

/-- `[A-Za-z0-9_-]`. -/
def idChar (c : Char) : Bool := asciiWord c || c == '-'

/-- `\[doc:([A-Za-z0-9_-]+)\]`. -/
def DOC_MARKER : Pattern Char :=
  .seq (.word (· == ·) ['[','d','o','c',':']) (.seq (.group 1 (.plus (.sat idChar)))
    (.word (· == ·) [']']))

/-- `cited_doc_ids`. -/
def citedDocIds (output : List Char) : List (List Char) := (findall DOC_MARKER 1 output).eraseDups

def answerTextWithoutMarkers (output : List Char) : List Char :=
  strip (replaceAll DOC_MARKER [] output)

/-! ### Refusals -/

section Refusals
variable (A : Letters)

def spaces : Pattern Char := .plus (.sat isSpace)

/-- A word, its letters read without regard to case. -/
def lit (s : String) : Pattern Char := .word A.same s.toList

/-- Two patterns with space between them. -/
def spaced (r s : Pattern Char) : Pattern Char := .seq r (.seq spaces s)

/-- `(can('?t|not)|could\s+not|cannot|unable\s+to|not\s+able\s+to)\s+answer`. -/
def CANNOT_ANSWER : Pattern Char :=
  spaced (.oneOf [.seq (lit A "can") (.alt (.seq (.opt (lit A "'")) (lit A "t")) (lit A "not")),
    spaced (lit A "could") (lit A "not"),lit A "cannot",spaced (lit A "unable") (lit A "to"),
    spaced (lit A "not") (spaced (lit A "able") (lit A "to"))]) (lit A "answer")

/-- `does\s+not\s+contain`. -/
def DOES_NOT_CONTAIN : Pattern Char :=
  spaced (lit A "does") (spaced (lit A "not") (lit A "contain"))

/-- `(no|not\s+enough|insufficient)\s+(information|context|data)`. -/
def NO_INFORMATION : Pattern Char :=
  spaced (.oneOf [lit A "no",spaced (lit A "not") (lit A "enough"),lit A "insufficient"])
    (.oneOf [lit A "information",lit A "context",lit A "data"])

/-- `not\s+(found|present|available)\s+in\s+the\s+(provided\s+)?(sources|context)`. -/
def NOT_FOUND : Pattern Char :=
  spaced (lit A "not") (spaced (.oneOf [lit A "found",lit A "present",lit A "available"])
    (spaced (lit A "in") (spaced (lit A "the") (.seq (.opt (.seq (lit A "provided") spaces))
      (.oneOf [lit A "sources",lit A "context"])))))

/-- The cues, each with what is asked of its end; all begin at a word boundary. -/
def REFUSAL_CUES : List (Pattern Char × (Option Char → Option Char → Bool)) :=
  [(CANNOT_ANSWER A,anywhere),(DOES_NOT_CONTAIN A,boundary A.isWord),
    (NO_INFORMATION A,boundary A.isWord),(NOT_FOUND A,boundary A.isWord)]

/-- `(provided\s+)?(sources?|context|documents?)`, between word boundaries. -/
def GROUNDING_REF : Pattern Char :=
  .seq (.opt (.seq (lit A "provided") spaces)) (.oneOf [.seq (lit A "source") (.opt (lit A "s")),
    lit A "context",.seq (lit A "document") (.opt (lit A "s"))])

def hasCue (text : List Char) : Bool :=
  (REFUSAL_CUES A).any fun cue => search (cue.1.inside (boundary A.isWord) cue.2) text

def hasRef (text : List Char) : Bool :=
  search ((GROUNDING_REF A).inside (boundary A.isWord) (boundary A.isWord)) text

/-- `is_grounded_refusal`. -/
def isGroundedRefusal (output : List Char) : Bool :=
  let text := strip output
  !text.isEmpty && hasCue A text && hasRef A text

end Refusals

/-! ### The verdict -/

inductive Verdict
  | answer
  | refusal
  | invalid
  deriving DecidableEq

def classify (A : Letters) (output : List Char) (allowedIds : Option (List (List Char))) : Verdict :=
  let text := strip output
  if text.isEmpty then .invalid
  else
    let ids := citedDocIds text
    let refusal := isGroundedRefusal A text
    if ids.isEmpty then if refusal then .refusal else .invalid
    else if refusal then .invalid
    else match allowedIds with
      | some allowed =>
        if ids.all (· ∈ allowed) then
          if (answerTextWithoutMarkers text).isEmpty then .invalid else .answer
        else .invalid
      | none => if (answerTextWithoutMarkers text).isEmpty then .invalid else .answer

/-! ### The markers of a text -/

def IsId (id : List Char) : Prop := id ≠ [] ∧ ∀ c ∈ id, idChar c = true

def marker (id : List Char) : List Char := ['[','d','o','c',':'] ++ (id ++ [']'])

theorem bracket_not_mem {id : List Char} (h : IsId id) : ']' ∉ id := fun hmem => by
  cases h.2 _ hmem

theorem marker_tail_ne {id : List Char} (h : IsId id) : ∀ c ∈ (marker id).tail, c ≠ '[' := by
  rintro c hc rfl
  obtain hmem | hmem : '[' ∈ ['d','o','c',':'] ∨ '[' ∈ id ++ [']'] := List.mem_append.mp hc
  · exact absurd hmem (by decide)
  · obtain hmem | hmem := List.mem_append.mp hmem
    · cases h.2 _ hmem
    · exact absurd hmem (by decide)

/-- The marker at the beginning of a text is one only. -/
theorem marker_append_inj {id id' rest rest' : List Char} (h : IsId id) (h' : IsId id')
    (heq : marker id ++ rest = marker id' ++ rest') : id = id' ∧ rest = rest' := by
  have hbody : id ++ ']'::rest = id' ++ ']'::rest' := by
    simpa [marker] using heq
  have htake : ∀ {i : List Char}, ']' ∉ i → ∀ r, (i ++ ']'::r).takeWhile (· != ']') = i := by
    intro i hi r
    rw [List.takeWhile_append_of_pos]
    · simp
    · intro c hc
      simp only [bne_iff_ne,ne_eq]
      rintro rfl
      exact hi hc
  have hid : id = id' := by
    rw [← htake (bracket_not_mem h) rest,hbody,htake (bracket_not_mem h') rest']
  subst hid
  exact ⟨rfl,by simpa using hbody⟩

theorem reads_word {w : List Char} {c d : Cursor Char} :
    d ∈ (Pattern.word (· == ·) w).ends c ↔ c.after = w ++ d.after ∧ d.before = w.reverse ++ c.before ∧
      d.groups = c.groups := by
  rw [mem_ends (plain_word _ w)]
  unfold Reads
  simp [mem_language_word,List.forall₂_eq_eq_eq]

theorem mem_language_id {w : List Char} : w ∈ (Pattern.plus (.sat idChar)).language ↔ IsId w := by
  rw [Pattern.plus,mem_language_seq_sat]
  unfold IsId
  cases w with
  | nil => simp
  | cons a w => simp [mem_language_star]

/-- A match of the pattern is a marker, its group the id. -/
theorem mem_docMarker_ends {c d : Cursor Char} : d ∈ DOC_MARKER.ends c ↔
    ∃ id, IsId id ∧ c.after = marker id ++ d.after ∧ d.before = (marker id).reverse ++ c.before ∧
      d.groups = (1,id)::c.groups := by
  simp only [DOC_MARKER,Pattern.ends,List.mem_flatMap,List.mem_map,reads_word]
  constructor
  · rintro ⟨e,⟨hafter,hbefore,hgroups⟩,-,⟨f,hf,rfl⟩,hafter'',hbefore'',hgroups''⟩
    obtain ⟨id,hid,hafter',hbefore',hgroups'⟩ :=
      (mem_ends (r := .plus (.sat idChar)) ⟨trivial,trivial⟩).mp hf
    have hgroup : e.after.take (e.after.length - f.after.length) = id := by
      simp [hafter']
    dsimp only at hafter'' hbefore'' hgroups''
    refine ⟨id,mem_language_id.mp hid,?_,?_,?_⟩
    · simp [hafter,hafter',hafter'',marker]
    · simp [hbefore,hbefore',hbefore'',marker]
    · rw [hgroups'',hgroup,hgroups',hgroups]
  · rintro ⟨id,hid,hafter,hbefore,hgroups⟩
    refine ⟨⟨['[','d','o','c',':'].reverse ++ c.before,id ++ ']'::d.after,c.groups⟩,
      ⟨by simp [hafter,marker],rfl,rfl⟩,_,
      ⟨⟨id.reverse ++ (['[','d','o','c',':'].reverse ++ c.before),']'::d.after,c.groups⟩,?_,rfl⟩,
      rfl,?_,?_⟩
    · exact (mem_ends (r := .plus (.sat idChar)) ⟨trivial,trivial⟩).mpr
        ⟨id,mem_language_id.mpr hid,rfl,rfl,rfl⟩
    · simp [hbefore,marker]
    · simp [hgroups]

theorem docMarker_proper : DOC_MARKER.Proper := by
  intro c d hd
  obtain ⟨id,-,hafter,-⟩ := mem_docMarker_ends.mp hd
  have hlength := congrArg List.length hafter
  simp only [marker,List.length_append,List.length_cons,List.length_nil] at hlength
  omega

/-- A word that begins with a letter found nowhere before. -/
theorem infix_append_of_not_mem {b : Char} {t s rest : List Char} (hs : ∀ c ∈ s, c ≠ b) :
    b::t <:+: s ++ rest ↔ b::t <:+: rest := by
  induction s with
  | nil => rfl
  | cons c s ih =>
    rw [List.cons_append,List.infix_cons_iff,ih fun e he => hs e (List.mem_cons_of_mem _ he)]
    refine or_iff_right fun hprefix => ?_
    obtain ⟨r,hr⟩ := hprefix
    exact hs c List.mem_cons_self (List.cons.inj hr).1.symm

/-- The markers of a text that begins with one. -/
theorem marker_infix_append {id id' rest : List Char} (h : IsId id) (h' : IsId id') :
    marker id <:+: marker id' ++ rest ↔ id = id' ∨ marker id <:+: rest := by
  have hshape : ∀ i, marker i = '['::(marker i).tail := fun _ => rfl
  rw [hshape id',List.cons_append,List.infix_cons_iff,hshape id,
    infix_append_of_not_mem (marker_tail_ne h'),← hshape id]
  refine or_congr_left ⟨fun hprefix => ?_,fun heq => ?_⟩
  · obtain ⟨r,hr⟩ := hprefix
    exact (marker_append_inj h h' hr).1
  · subst heq
    exact List.prefix_append _ _

/-- What a scan captures are the ids of the markers of the text. -/
theorem hit_iff_of_scanned {before after : List Char} {ts : List (Token Char)}
    (h : Scanned DOC_MARKER before after ts) {id : List Char} :
    (∃ w groups, Token.hit w groups ∈ ts ∧ groups.lookup 1 = some id) ↔
      IsId id ∧ marker id <:+: after := by
  induction h with
  | done before => simp [marker]
  | @keep before rest a ts hnone hrest ih =>
    have hhit : ∀ w groups, Token.hit w groups ∈ Token.keep a::ts ↔ Token.hit w groups ∈ ts := by simp
    simp only [hhit,ih,List.infix_cons_iff]
    refine and_congr_right fun hid => (or_iff_right fun hprefix => ?_).symm
    obtain ⟨r,hr⟩ := hprefix
    have hend : (⟨(marker id).reverse ++ before,r,[(1,id)]⟩ : Cursor Char) ∈
        DOC_MARKER.ends ⟨before,a::rest,[]⟩ :=
      mem_docMarker_ends.mpr ⟨id,hid,hr.symm,rfl,rfl⟩
    exact List.ne_nil_of_mem hend hnone
  | @hit before w rest groups ts hw hsome hrest ih =>
    obtain ⟨id',hid',hafter,-,hgroups⟩ := mem_docMarker_ends.mp (List.mem_of_mem_head? hsome)
    obtain rfl : w = marker id' := List.append_cancel_right hafter
    obtain rfl : groups = [(1,id')] := hgroups
    constructor
    · rintro ⟨v,gs,hmem,hlookup⟩
      obtain heq | hmem := List.mem_cons.mp hmem
      · obtain ⟨-,rfl⟩ := Token.hit.inj heq
        obtain rfl : id' = id := by simpa using hlookup
        exact ⟨hid',(marker_infix_append hid' hid').mpr (Or.inl rfl)⟩
      · obtain ⟨hid,hin⟩ := ih.mp ⟨v,gs,hmem,hlookup⟩
        exact ⟨hid,(marker_infix_append hid hid').mpr (Or.inr hin)⟩
    · rintro ⟨hid,hin⟩
      obtain rfl | hin := (marker_infix_append hid hid').mp hin
      · exact ⟨_,_,List.mem_cons_self,by simp⟩
      · obtain ⟨v,gs,hmem,hlookup⟩ := ih.mpr ⟨hid,hin⟩
        exact ⟨v,gs,List.mem_cons_of_mem _ hmem,hlookup⟩

theorem mem_citedDocIds {output id : List Char} :
    id ∈ citedDocIds output ↔ IsId id ∧ marker id <:+: output := by
  rw [citedDocIds,List.mem_eraseDups,mem_findall]
  exact hit_iff_of_scanned (scanned_tokens docMarker_proper output)

/-- Exactly one document is cited. -/
theorem citedDocIds_eq_singleton {output id : List Char} : citedDocIds output = [id] ↔
    IsId id ∧ marker id <:+: output ∧ ∀ id', IsId id' → marker id' <:+: output → id' = id := by
  constructor
  · intro heq
    have hid := mem_citedDocIds.mp (heq ▸ List.mem_singleton_self id)
    refine ⟨hid.1,hid.2,fun id' hid' hin => ?_⟩
    have hmem := mem_citedDocIds.mpr ⟨hid',hin⟩
    rw [heq] at hmem
    exact List.mem_singleton.mp hmem
  · rintro ⟨hid,hin,hall⟩
    have hmem : ∀ id', id' ∈ findall DOC_MARKER 1 output → id' = id := by
      intro id' hid'
      obtain ⟨hid',hin'⟩ := mem_citedDocIds.mp (List.mem_eraseDups.mpr hid')
      exact hall id' hid' hin'
    obtain ⟨id',ids,hids⟩ := List.exists_cons_of_ne_nil
      (List.ne_nil_of_mem (List.mem_eraseDups.mp (mem_citedDocIds.mpr ⟨hid,hin⟩)))
    rw [hids] at hmem
    obtain rfl := hmem id' List.mem_cons_self
    have hnil : ids.filter (fun b => !b == id') = [] :=
      List.filter_eq_nil_iff.mpr fun b hb => by simp [hmem b (List.mem_cons_of_mem _ hb)]
    rw [citedDocIds,hids,List.eraseDups_cons,hnil,List.eraseDups_nil]

/-! ### The phrases -/

section Phrases
variable {A : Letters}

/-- Lower-case letters, one at least. -/
def Spelled (s : String) : Prop :=
  s.toList ≠ [] ∧ ∀ a ∈ s.toList, 97 ≤ a.toNat ∧ a.toNat ≤ 122

/-- A letter that markers do not begin with. -/
def Inside (c : Char) : Prop := c ≠ '[' ∧ c ≠ ':'

/-- A pattern without marks of a marker whose words begin and end with a letter of a word. -/
structure Phrased (A : Letters) (r : Pattern Char) : Prop where
  only : r.Only Inside
  has : r.Has fun _ => True
  opens : r.Opens fun c => A.isWord c = true
  closes : r.Closes fun c => A.isWord c = true

theorem inside_of_same {a c : Char} (ha : Inside a) (h : A.same a c = true) : Inside c := by
  obtain ⟨hbracket,hcolon⟩ := ha
  constructor
  · rintro rfl
    rw [A.same_ascii a '[' (by decide)] at h
    simp [asciiSame,hbracket.symm] at h
  · rintro rfl
    rw [A.same_ascii a ':' (by decide)] at h
    simp [asciiSame,hcolon.symm] at h

theorem inside_of_lower {a : Char} (ha : 97 ≤ a.toNat ∧ a.toNat ≤ 122) : Inside a := by
  constructor
  · rintro rfl
    exact absurd ha (by decide)
  · rintro rfl
    exact absurd ha (by decide)

theorem phrased_word {w : List Char} (hne : w ≠ [])
    (hw : ∀ a ∈ w, 97 ≤ a.toNat ∧ a.toNat ≤ 122) : Phrased A (.word A.same w) := by
  have hsat : ∀ a, (97 ≤ a.toNat ∧ a.toNat ≤ 122) → ∀ c, A.same a c = true → A.isWord c = true :=
    fun a ha c hc => A.same_word a c ha hc
  have honly : ∀ a, (97 ≤ a.toNat ∧ a.toNat ≤ 122) → ∀ c, A.same a c = true → Inside c :=
    fun a ha c hc => inside_of_same (inside_of_lower ha) hc
  induction w with
  | nil => exact absurd rfl hne
  | cons a w ih =>
    have ha := hw a List.mem_cons_self
    cases w with
    | nil => exact ⟨⟨honly a ha,trivial⟩,Or.inl fun _ _ => trivial,⟨hsat a ha,Or.inr trivial⟩,
        trivial,Or.inr (hsat a ha)⟩
    | cons b w =>
      have hrest := ih (by simp) fun c hc => hw c (List.mem_cons_of_mem a hc)
      exact ⟨⟨honly a ha,hrest.only⟩,Or.inr hrest.has,⟨hsat a ha,Or.inr hrest.opens⟩,
        hrest.closes,Or.inl hrest.has⟩

theorem phrased_lit {s : String} (h : Spelled s) : Phrased A (lit A s) := phrased_word h.1 h.2

theorem spaces_only : spaces.Only Inside := by
  have hsat : ∀ c, isSpace c = true → Inside c := by
    intro c hc
    constructor
    · rintro rfl
      cases hc
    · rintro rfl
      cases hc
  exact ⟨hsat,hsat⟩

namespace Phrased
variable {r s : Pattern Char}

theorem alt (hr : Phrased A r) (hs : Phrased A s) : Phrased A (.alt r s) :=
  ⟨⟨hr.only,hs.only⟩,⟨hr.has,hs.has⟩,⟨hr.opens,hs.opens⟩,hr.closes,hs.closes⟩

theorem spaced (hr : Phrased A r) (hs : Phrased A s) : Phrased A (spaced r s) :=
  ⟨⟨hr.only,spaces_only,hs.only⟩,Or.inl hr.has,⟨hr.opens,Or.inl hr.has⟩,⟨hs.closes,Or.inl hs.has⟩,
    Or.inl (Or.inr hs.has)⟩

/-- An ending that may be missing. -/
theorem seq_opt (hr : Phrased A r) (hs : Phrased A s) : Phrased A (.seq r (.opt s)) :=
  ⟨⟨hr.only,hs.only,trivial⟩,Or.inl hr.has,⟨hr.opens,Or.inl hr.has⟩,⟨hs.closes,trivial⟩,
    Or.inr hr.closes⟩

/-- A word and space in front that may be missing. -/
theorem opt_spaces_seq (hr : Phrased A r) (hs : Phrased A s) :
    Phrased A (.seq (.opt (.seq r spaces)) s) :=
  ⟨⟨⟨⟨hr.only,spaces_only⟩,trivial⟩,hs.only⟩,Or.inr hs.has,
    ⟨⟨⟨hr.opens,Or.inl hr.has⟩,trivial⟩,Or.inr hs.opens⟩,hs.closes,Or.inl hs.has⟩

theorem ne_nil (hr : Phrased A r) {w : List Char} (hw : w ∈ r.language) : w ≠ [] := hr.has.ne_nil hw

theorem head (hr : Phrased A r) : ∀ w ∈ r.language, w.head?.any A.isWord = true := by
  intro w hw
  obtain ⟨a,v,rfl⟩ := List.exists_cons_of_ne_nil (hr.ne_nil hw)
  exact hr.opens.head hw a rfl

theorem last (hr : Phrased A r) : ∀ w ∈ r.language, w.getLast?.any A.isWord = true := by
  intro w hw
  cases hlast : w.getLast? with
  | none => exact absurd (List.getLast?_eq_none_iff.mp hlast) (hr.ne_nil hw)
  | some a => exact hr.closes.last hw a hlast

theorem bracket (hr : Phrased A r) : ∀ w ∈ r.language, '[' ∉ w :=
  fun _ hw hmem => (hr.only.letters hw _ hmem).1 rfl

theorem colon (hr : Phrased A r) : ∀ w ∈ r.language, ':' ∉ w :=
  fun _ hw hmem => (hr.only.letters hw _ hmem).2 rfl

/-- Searching for a phrase is looking for its words. -/
theorem search_iff (hr : Phrased A r) {fin : Option Char → Option Char → Bool} {text : List Char} :
    search (r.inside (boundary A.isWord) fin) text = true ↔
      Found (boundary A.isWord) fin r.language text :=
  search_inside hr.only.plain fun hnil => hr.ne_nil hnil rfl

end Phrased

theorem phrased_cannotAnswer : Phrased A (CANNOT_ANSWER A) := by
  have hnot : Phrased A (lit A "not") := phrased_lit (by simp [Spelled])
  have hto : Phrased A (lit A "to") := phrased_lit (by simp [Spelled])
  have ht : Phrased A (lit A "t") := phrased_lit (by simp [Spelled])
  -- the apostrophe is no letter, but the word goes on behind it
  have happostrophe : (lit A "'").Only Inside :=
    ⟨fun c hc => inside_of_same ⟨by decide,by decide⟩ hc,trivial⟩
  have hcan : Phrased A
      (.seq (lit A "can") (.alt (.seq (.opt (lit A "'")) (lit A "t")) (lit A "not"))) := by
    have hword : Phrased A (lit A "can") := phrased_lit (by simp [Spelled])
    exact ⟨⟨hword.only,⟨⟨happostrophe,trivial⟩,ht.only⟩,hnot.only⟩,Or.inl hword.has,
      ⟨hword.opens,Or.inl hword.has⟩,⟨⟨ht.closes,Or.inl ht.has⟩,hnot.closes⟩,
      Or.inl ⟨Or.inr ht.has,hnot.has⟩⟩
  refine Phrased.spaced ?_ (phrased_lit (by simp [Spelled]))
  exact hcan.alt (((phrased_lit (by simp [Spelled])).spaced hnot).alt
    ((phrased_lit (by simp [Spelled])).alt (((phrased_lit (by simp [Spelled])).spaced hto).alt
      (hnot.spaced ((phrased_lit (by simp [Spelled])).spaced hto)))))

theorem phrased_doesNotContain : Phrased A (DOES_NOT_CONTAIN A) :=
  (phrased_lit (by simp [Spelled])).spaced
    ((phrased_lit (by simp [Spelled])).spaced (phrased_lit (by simp [Spelled])))

theorem phrased_noInformation : Phrased A (NO_INFORMATION A) := by
  have hlit : ∀ s ∈ ["no","not","enough","insufficient","information","context","data"],
      Phrased A (lit A s) := by
    intro s hs
    exact phrased_lit ((by simp [Spelled] : ∀ s ∈ _,Spelled s) s hs)
  refine Phrased.spaced ?_ ?_
  · exact (hlit "no" (by simp)).alt (((hlit "not" (by simp)).spaced (hlit "enough" (by simp))).alt
      (hlit "insufficient" (by simp)))
  · exact (hlit "information" (by simp)).alt ((hlit "context" (by simp)).alt (hlit "data" (by simp)))

theorem phrased_notFound : Phrased A (NOT_FOUND A) := by
  have hlit : ∀ s ∈ ["not","found","present","available","in","the","provided","sources","context"],
      Phrased A (lit A s) := by
    intro s hs
    exact phrased_lit ((by simp [Spelled] : ∀ s ∈ _,Spelled s) s hs)
  refine (hlit "not" (by simp)).spaced (Phrased.spaced ?_ ?_)
  · exact (hlit "found" (by simp)).alt ((hlit "present" (by simp)).alt (hlit "available" (by simp)))
  · exact (hlit "in" (by simp)).spaced ((hlit "the" (by simp)).spaced
      ((hlit "provided" (by simp)).opt_spaces_seq ((hlit "sources" (by simp)).alt
        (hlit "context" (by simp)))))

theorem phrased_groundingRef : Phrased A (GROUNDING_REF A) := by
  have hlit : ∀ s ∈ ["provided","source","s","context","document"], Phrased A (lit A s) := by
    intro s hs
    exact phrased_lit ((by simp [Spelled] : ∀ s ∈ _,Spelled s) s hs)
  refine (hlit "provided" (by simp)).opt_spaces_seq ?_
  exact ((hlit "source" (by simp)).seq_opt (hlit "s" (by simp))).alt ((hlit "context" (by simp)).alt
    ((hlit "document" (by simp)).seq_opt (hlit "s" (by simp))))

/-- A cue is a phrase with space in it; its end is not looked at or is a word boundary. -/
theorem cues_phrased : ∀ cue ∈ REFUSAL_CUES A, Phrased A cue.1 ∧
    (cue.1.Has fun c => isSpace c = true) ∧ Sees A.isWord cue.2 := by
  have hspaced : ∀ r s : Pattern Char, (spaced r s).Has fun c => isSpace c = true :=
    fun _ _ => Or.inr (Or.inl (Or.inl fun _ hc => hc))
  intro cue hcue
  simp only [REFUSAL_CUES,List.mem_cons,List.not_mem_nil,or_false] at hcue
  obtain rfl | rfl | rfl | rfl := hcue
  · exact ⟨phrased_cannotAnswer,hspaced _ _,sees_anywhere _⟩
  · exact ⟨phrased_doesNotContain,hspaced _ _,sees_boundary _⟩
  · exact ⟨phrased_noInformation,hspaced _ _,sees_boundary _⟩
  · exact ⟨phrased_notFound,hspaced _ _,sees_boundary _⟩

end Phrases

end AtlasCompliance.Evals
