import AtlasCompliance.Gateway.Safety
import AtlasCompliance.Lib.Pieces

/-! What the redactor leaves: no structured pattern and no term of the denylist, the rest of the text
in order, and as many marks as it counts. -/
namespace AtlasCompliance.Gateway.PiiRedactor
open Java Regex

/-- What is masked. -/
inductive Kind
  | DENYLIST_TERM
  | SSN_TIN
  | DOB
  | PASSPORT
  | ACCOUNT_NUMBER
  deriving DecidableEq

/-- The type in the marker and in the counts. -/
def Kind.type : Kind → List Char
  | .DENYLIST_TERM => ['D','E','N','Y','L','I','S','T','_','T','E','R','M']
  | .SSN_TIN => ['S','S','N','_','T','I','N']
  | .DOB => ['D','O','B']
  | .PASSPORT => ['P','A','S','S','P','O','R','T']
  | .ACCOUNT_NUMBER => ['A','C','C','O','U','N','T','_','N','U','M','B','E','R']

abbrev mark (kind : Kind) : List Char := marker kind.type

/-- The structured patterns in the order of their passes. -/
def structured : List (Kind × Pattern Char) :=
  [(.SSN_TIN,SSN_TIN),(.DOB,DOB),(.PASSPORT,PASSPORT),(.ACCOUNT_NUMBER,ACCOUNT)]

/-- The passes for the terms that are not blank. -/
def denied (nameDenylist : List String) : List (Kind × Pattern Char) :=
  (nameDenylist.filter fun t => !Text.isBlank t).map fun t =>
    (.DENYLIST_TERM,.word sameIgnoreCase t.toList)

def applyAll (passes : List (Kind × Pattern Char)) (r : Redaction) : Redaction :=
  passes.foldl (fun r p => apply p.2 p.1.type r) r

theorem applyAll_append (ps qs : List (Kind × Pattern Char)) (r : Redaction) :
    applyAll (ps ++ qs) r = applyAll qs (applyAll ps r) := List.foldl_append

theorem applyDenylist_eq (nameDenylist : List String) (r : Redaction) :
    applyDenylist nameDenylist r = applyAll (denied nameDenylist) r := by
  induction nameDenylist generalizing r with
  | nil => rfl
  | cons t rest ih =>
    by_cases ht : Text.isBlank t = true
    · simpa [applyDenylist,denied,ht] using ih r
    · have hrest := ih (apply (.word sameIgnoreCase t.toList) Kind.DENYLIST_TERM.type r)
      simpa [applyDenylist,denied,ht,applyAll,Kind.type] using hrest

theorem applyPatterns_eq (r : Redaction) : applyPatterns r = applyAll structured r := rfl

/-- Only the empty text is spared the passes. -/
theorem redact_of_ne_nil {nameDenylist : List String} {input : List Char} (h : input ≠ []) :
    redact nameDenylist input = applyAll (denied nameDenylist ++ structured) ⟨input,[]⟩ := by
  unfold redact
  rw [if_neg (by simpa using h),applyDenylist_eq,applyPatterns_eq,applyAll_append]

theorem text_applyAll (ps : List (Kind × Pattern Char)) (r : Redaction) : (applyAll ps r).text =
    ps.foldl (fun text p => replaceAll p.2 (mark p.1) text) r.text := by
  induction ps generalizing r with
  | nil => rfl
  | cons p ps ih => exact ih (apply p.2 p.1.type r)

theorem bracketed_mark : Bracketed mark '[' ']' := fun k =>
  ⟨['R','E','D','A','C','T','E','D',':'] ++ k.type,rfl⟩

/-- A pass whose matches lie outside every marker. -/
def Sound (edge : Option Char → Option Char → Bool) (p : Pattern Char) : Prop :=
  ∃ L, Framed edge L p ∧ ∀ w ∈ L, Outside mark '[' ']' w

theorem inert_mark {L : Language Char} (h : ∀ w ∈ L, Outside mark '[' ']' w) (kind : Kind) :
    Inert L (mark kind) :=
  inert_of_infix (fun w hw => (h w hw).opening) (fun w hw => (h w hw).closing)
    fun w hw => (h w hw).inside kind

theorem nil_not_mem {L : Language Char} (h : ∀ w ∈ L, Outside mark '[' ']' w) : [] ∉ L :=
  fun hnil => (h [] hnil).nonempty rfl

section Passes
variable {near edge : Option Char → Option Char → Bool} {p q : Pattern Char}

theorem Sound.noMatch_self (hp : Sound edge p) (kind : Kind) (text : List Char) :
    NoMatch p (replaceAll p (mark kind) text) := by
  obtain ⟨L,hframed,hout⟩ := hp
  exact hframed.noMatch_iff.mpr
    (free_replaceAll_self hframed (by simp [marker]) (inert_mark hout kind) (nil_not_mem hout) text)

theorem Sound.noMatch (hp : Sound edge p) (hq : Sound near q)
    (hnear : ∀ x y, near x y = true → edge x y = true) (kind : Kind) {text : List Char}
    (h : NoMatch p text) : NoMatch p (replaceAll q (mark kind) text) := by
  obtain ⟨L,hframed,hout⟩ := hp
  obtain ⟨K,hframed',hout'⟩ := hq
  exact hframed.noMatch_iff.mpr ((hframed.noMatch_iff.mp h).replaceAll_near hframed' hnear
    (nil_not_mem hout') (by simp [marker]) (inert_mark hout kind) (nil_not_mem hout))

/-- A pass over a text without a match changes nothing. -/
theorem apply_of_noMatch {r : Redaction} (h : NoMatch p r.text) (type : List Char) :
    apply p type r = r := by
  unfold apply
  simp [h.replaceAll_eq,h.count_eq]

theorem applyAll_of_noMatch {ps : List (Kind × Pattern Char)} {r : Redaction}
    (h : ∀ p ∈ ps, NoMatch p.2 r.text) : applyAll ps r = r := by
  induction ps with
  | nil => rfl
  | cons p ps ih =>
    change applyAll ps (apply p.2 p.1.type r) = r
    rw [apply_of_noMatch (h p List.mem_cons_self)]
    exact ih fun q hq => h q (List.mem_cons_of_mem p hq)

/-- What a pass has cleared stays cleared. -/
theorem noMatch_applyAll {ps : List (Kind × Pattern Char)} (hps : ∀ q ∈ ps, Sound near q.2)
    (hp : Sound edge p) (hnear : ∀ x y, near x y = true → edge x y = true) {r : Redaction}
    (h : NoMatch p r.text) : NoMatch p (applyAll ps r).text := by
  induction ps generalizing r with
  | nil => exact h
  | cons q ps ih =>
    exact ih (fun q' hq' => hps q' (List.mem_cons_of_mem q hq'))
      (hp.noMatch (hps q List.mem_cons_self) hnear q.1 h)

/-- Every pass clears its pattern. -/
theorem noMatch_applyAll_self {ps : List (Kind × Pattern Char)} (hps : ∀ q ∈ ps, Sound edge q.2)
    (r : Redaction) : ∀ q ∈ ps, NoMatch q.2 (applyAll ps r).text := by
  induction ps generalizing r with
  | nil => simp
  | cons p ps ih =>
    intro q hq
    have hps' : ∀ q ∈ ps, Sound edge q.2 := fun q hq => hps q (List.mem_cons_of_mem p hq)
    obtain rfl | hq := List.mem_cons.mp hq
    · exact noMatch_applyAll hps' (hps q List.mem_cons_self) (fun _ _ h => h)
        ((hps q List.mem_cons_self).noMatch_self q.1 r.text)
    · exact ih hps' _ q hq

end Passes

/-! ### The counts and the markers -/

/-- The count of one type. -/
def countOf (type : List Char) (counts : Counts) : ℕ :=
  (counts.lookup (String.ofList type)).getD 0

theorem countOf_mergeCount (type type' : List Char) (n : ℕ) (counts : Counts) :
    countOf type (mergeCount (String.ofList type') n counts) =
      countOf type counts + if type = type' then n else 0 := by
  have hkey : String.ofList type = String.ofList type' ↔ type = type' := by
    constructor
    · intro h
      simpa using congrArg String.toList h
    · exact fun h => h ▸ rfl
  induction counts with
  | nil =>
    by_cases h : type = type'
    · simp [countOf,mergeCount,h]
    · have hne := mt hkey.mp h
      simp [countOf,mergeCount,h,List.lookup_cons,beq_eq_false_iff_ne.mpr hne]
  | cons c counts ih =>
    obtain ⟨key,m⟩ := c
    rw [mergeCount]
    split_ifs with hc h h
    · subst hc h
      simp [countOf]
    · have hne : (String.ofList type == key) = false :=
        beq_eq_false_iff_ne.mpr fun heq => h (hkey.mp (heq.trans hc))
      simp [countOf,List.lookup_cons,hne]
    · subst h
      have hne : (String.ofList type == key) = false := beq_eq_false_iff_ne.mpr (Ne.symm hc)
      simpa [countOf,List.lookup_cons,hne] using ih
    · by_cases heq : String.ofList type = key
      · simp [countOf,heq]
      · simpa [countOf,List.lookup_cons,beq_eq_false_iff_ne.mpr heq,h] using ih

theorem type_injective : Function.Injective Kind.type := by
  intro k k' h
  cases k <;> cases k' <;> first | rfl | exact absurd h (by decide)

/-- The text is the input with words under markers, and the counts count the markers. -/
structure Marked (input : List Char) (r : Redaction) (ps : List (Piece Kind Char)) : Prop where
  original : Piece.original ps = input
  rendered : Piece.rendered mark ps = r.text
  counts : ∀ k : Kind, countOf k.type r.counts = Piece.masks k ps

theorem Marked.apply {edge : Option Char → Option Char → Bool} {p : Pattern Char}
    (hp : Sound edge p) (kind : Kind) {input : List Char} {r : Redaction}
    {ps : List (Piece Kind Char)} (h : Marked input r ps) :
    ∃ qs, Marked input (apply p kind.type r) qs := by
  obtain ⟨L,hframed,hout⟩ := hp
  obtain ⟨qs,horiginal,hrendered,hmasks⟩ :=
    exists_pieces_replaceAll bracketed_mark hframed hout kind ps
  rw [h.rendered] at hrendered hmasks
  refine ⟨qs,horiginal.trans h.original,hrendered,fun k => ?_⟩
  have hcounts : countOf k.type (PiiRedactor.apply p kind.type r).counts =
      countOf k.type r.counts + if k = kind then count p r.text else 0 := by
    unfold PiiRedactor.apply
    by_cases hpos : 0 < count p r.text
    · simp only [hpos,if_true,countOf_mergeCount,type_injective.eq_iff]
    · have hzero : count p r.text = 0 := Nat.eq_zero_of_not_pos hpos
      simp [hzero]
  rw [hcounts,hmasks,h.counts]

theorem Marked.applyAll {ps : List (Kind × Pattern Char)}
    (hps : ∀ p ∈ ps, ∃ edge, Sound edge p.2) {input : List Char} {r : Redaction}
    {pieces : List (Piece Kind Char)} (h : Marked input r pieces) :
    ∃ qs, Marked input (applyAll ps r) qs := by
  induction ps generalizing r pieces with
  | nil => exact ⟨pieces,h⟩
  | cons p ps ih =>
    obtain ⟨edge,hp⟩ := hps p List.mem_cons_self
    obtain ⟨qs,hqs⟩ := h.apply hp p.1
    exact ih (fun q hq => hps q (List.mem_cons_of_mem p hq)) hqs

/-! ### The passes lie outside the markers -/

/-- The letters of the structured patterns. -/
def Structural (c : Char) : Prop :=
  isDigit c = true ∨ c = '-' ∨ c = '/' ∨ (65 ≤ c.toNat ∧ c.toNat ≤ 90)

theorem not_digit_mark (k : Kind) : ∀ c ∈ mark k, isDigit c = false := by
  have hall : (mark k).all fun c => !isDigit c := by cases k <;> decide
  intro c hc
  simpa using List.all_eq_true.mp hall c hc

/-- A pattern of structural letters with a digit among them lies outside the markers. -/
theorem sound_whole {core : Pattern Char} (hplain : core.Plain) (honly : core.Only Structural)
    (hhas : core.Has fun c => isDigit c = true) :
    Sound wordBoundary (core.whole wordBoundary) := by
  refine ⟨core.language,framed_whole wordBoundary hplain,fun w hw => ?_⟩
  obtain ⟨d,hd,hdigit⟩ := hhas.letter hw
  have hletters := honly.letters hw
  refine ⟨List.ne_nil_of_mem hd,fun h => ?_,fun h => ?_,fun k hin => ?_⟩
  · exact absurd (hletters _ h) (by simp [Structural,isDigit])
  · exact absurd (hletters _ h) (by simp [Structural,isDigit])
  · rw [not_digit_mark k d (hin.subset hd)] at hdigit
    cases hdigit

theorem sound_structured : ∀ p ∈ structured, Sound wordBoundary p.2 := by
  have hdigit : ∀ a, isDigit a = true → Structural a := fun a ha => Or.inl ha
  have hdash : Structural '-' := Or.inr (Or.inl rfl)
  have hslash : Structural '/' := Or.inr (Or.inr (Or.inl rfl))
  have hupper : ∀ a : Char, 65 ≤ a.toNat → a.toNat ≤ 90 → Structural a := fun a ha ha' =>
    Or.inr (Or.inr (Or.inr ⟨ha,ha'⟩))
  intro p hp
  simp only [structured,List.mem_cons,List.not_mem_nil,or_false] at hp
  obtain rfl | rfl | rfl | rfl := hp
  · refine sound_whole ?_ ?_ ?_
    · simp [Pattern.Plain,Pattern.times,digit,letter]
    · simpa [Pattern.Only,Pattern.times,digit,letter,hdash] using hdigit
    · simp [Pattern.Has,Pattern.times,digit]
  · refine sound_whole ?_ ?_ ?_
    · simp [Pattern.Plain,Pattern.times,Pattern.between,Pattern.upTo,Pattern.opt,digit,letter]
    · simpa [Pattern.Only,Pattern.times,Pattern.between,Pattern.upTo,Pattern.opt,digit,letter,
        hdash,hslash] using hdigit
    · simp [Pattern.Has,Pattern.times,Pattern.between,digit]
  · refine sound_whole ?_ ?_ ?_
    · simp [Pattern.Plain,Pattern.times,digit]
    · simpa [Pattern.Only,Pattern.times,digit] using ⟨hupper,hdigit⟩
    · simp [Pattern.Has,Pattern.times,digit]
  · refine sound_whole ?_ ?_ ?_
    · simp [Pattern.Plain,Pattern.times,Pattern.atLeast,digit]
    · simpa [Pattern.Only,Pattern.times,Pattern.atLeast,digit] using hdigit
    · simp [Pattern.Has,Pattern.times,Pattern.atLeast,digit]

/-- No bracket in the term, and the term in no marker, letters compared without their case. -/
structure Clear (term : String) : Prop where
  opening : '[' ∉ term.toList
  closing : ']' ∉ term.toList
  inside : ∀ k, ¬ term.toList.map Char.toLower <:+: (mark k).map Char.toLower

theorem toLower_bracket {a c : Char} (h : c.toLower = a) (ha : a.toNat < 97 ∨ 122 < a.toNat) :
    c = a := by
  unfold Char.toLower at h
  split at h
  · rename_i hc
    have hlow : 65 ≤ c.val.toNat := UInt32.le_iff_toNat_le.mp hc.1
    have hhigh : c.val.toNat ≤ 90 := UInt32.le_iff_toNat_le.mp hc.2
    have hnat : a.toNat = c.val.toNat + 32 := by
      rw [← h]
      change (c.val + ('a'.val - 'A'.val)).toNat = c.val.toNat + 32
      rw [UInt32.toNat_add]
      change (c.val.toNat + 32)%2^32 = c.val.toNat + 32
      omega
    omega
  · exact h

theorem sound_term {term : String} (h : Clear term) (hblank : Text.isBlank term = false) :
    Sound anywhere (.word sameIgnoreCase term.toList) := by
  refine ⟨_,framed_of_plain (plain_word _ _),fun w hw => ?_⟩
  have hmap : w.map Char.toLower = term.toList.map Char.toLower := mem_language_word_map.mp hw
  have hbracket : ∀ a : Char, a.toLower = a → (a.toNat < 97 ∨ 122 < a.toNat) → a ∈ w →
      a ∈ term.toList := by
    intro a hlower ha hmem
    have hin : a ∈ term.toList.map Char.toLower := by
      rw [← hmap,← hlower]
      exact List.mem_map_of_mem hmem
    obtain ⟨c,hc,hca⟩ := List.mem_map.mp hin
    exact toLower_bracket hca ha ▸ hc
  refine ⟨?_,fun hmem => ?_,fun hmem => ?_,fun k hin => ?_⟩
  · rintro rfl
    have hnil : term.toList = [] := by simpa using hmap.symm
    simp [Text.isBlank,hnil] at hblank
  · exact h.opening (hbracket '[' (by decide) (by decide) hmem)
  · exact h.closing (hbracket ']' (by decide) (by decide) hmem)
  · exact h.inside k (hmap ▸ hin.map Char.toLower)

section Redact
variable {nameDenylist : List String}

theorem sound_denied (h : ∀ t ∈ nameDenylist, Text.isBlank t = false → Clear t) :
    ∀ p ∈ denied nameDenylist, Sound anywhere p.2 := by
  intro p hp
  obtain ⟨t,ht,rfl⟩ := List.mem_map.mp hp
  obtain ⟨hmem,hblank⟩ := List.mem_filter.mp ht
  rw [Bool.not_eq_true'] at hblank
  exact sound_term (h t hmem hblank) hblank

theorem sound_passes (h : ∀ t ∈ nameDenylist, Text.isBlank t = false → Clear t) :
    ∀ p ∈ denied nameDenylist ++ structured, ∃ edge, Sound edge p.2 := by
  intro p hp
  obtain hp | hp := List.mem_append.mp hp
  · exact ⟨anywhere,sound_denied h p hp⟩
  · exact ⟨wordBoundary,sound_structured p hp⟩

theorem Sound.noMatch_nil {edge : Option Char → Option Char → Bool} {p : Pattern Char}
    (hp : Sound edge p) : NoMatch p [] := by
  obtain ⟨L,hframed,hout⟩ := hp
  refine hframed.noMatch_iff.mpr fun u v huv => ?_
  rintro ⟨w,hw,rest,hv,-⟩
  obtain ⟨-,rfl⟩ := List.append_eq_nil_iff.mp huv.symm
  exact (hout w hw).nonempty (List.append_eq_nil_iff.mp hv.symm).1

/-- All passes, one after the other. -/
theorem redact_eq (h : ∀ t ∈ nameDenylist, Text.isBlank t = false → Clear t)
    (input : List Char) :
    redact nameDenylist input = applyAll (denied nameDenylist ++ structured) ⟨input,[]⟩ := by
  cases input with
  | nil =>
    refine (applyAll_of_noMatch fun p hp => ?_).symm
    obtain ⟨edge,hsound⟩ := sound_passes h p hp
    exact hsound.noMatch_nil
  | cons c input => exact redact_of_ne_nil (by simp)

/-- Nothing that is looked for is left. -/
theorem noMatch_redact (h : ∀ t ∈ nameDenylist, Text.isBlank t = false → Clear t)
    (input : List Char) : ∀ p ∈ denied nameDenylist ++ structured,
      NoMatch p.2 (redact nameDenylist input).text := by
  intro p hp
  rw [redact_eq h,applyAll_append]
  obtain hp | hp := List.mem_append.mp hp
  · exact noMatch_applyAll sound_structured (sound_denied h p hp) (fun _ _ _ => rfl)
      (noMatch_applyAll_self (sound_denied h) _ p hp)
  · exact noMatch_applyAll_self sound_structured _ p hp

/-- No structured pattern and no term of the denylist that is not blank is left, the text outside the
markers is kept in order, every marker is counted, and a second run changes nothing. -/
theorem redact_complete (h : ∀ t ∈ nameDenylist, Text.isBlank t = false → Clear t)
    (input : List Char) :
    (∀ p ∈ [SSN_TIN,DOB,PASSPORT,ACCOUNT], NoMatch p (redact nameDenylist input).text) ∧
    (∀ t ∈ nameDenylist, Text.isBlank t = false → ∀ w, w <:+: (redact nameDenylist input).text →
      w.map Char.toLower ≠ t.toList.map Char.toLower) ∧
    (∃ ps, Marked input (redact nameDenylist input) ps) ∧
    redact nameDenylist (redact nameDenylist input).text =
      ⟨(redact nameDenylist input).text,[]⟩ := by
  have hno := noMatch_redact h input
  refine ⟨?_,?_,?_,?_⟩
  · intro p hp
    simp only [List.mem_cons,List.not_mem_nil,or_false] at hp
    obtain rfl | rfl | rfl | rfl := hp
    · exact hno (.SSN_TIN,SSN_TIN) (by simp [structured])
    · exact hno (.DOB,DOB) (by simp [structured])
    · exact hno (.PASSPORT,PASSPORT) (by simp [structured])
    · exact hno (.ACCOUNT_NUMBER,ACCOUNT) (by simp [structured])
  · intro t ht hblank w hw hmap
    have hterm := hno (.DENYLIST_TERM,.word sameIgnoreCase t.toList)
      (List.mem_append_left _ (List.mem_map.mpr ⟨t,List.mem_filter.mpr ⟨ht,by simp [hblank]⟩,rfl⟩))
    exact free_anywhere_iff.mp ((framed_of_plain (plain_word _ _)).noMatch_iff.mp hterm) w
      (mem_language_word_map.mpr hmap) hw
  · rw [redact_eq h]
    have hstart : Marked input ⟨input,[]⟩ (input.map .keep) :=
      ⟨by simpa using Piece.original_keeps input [],by simpa using Piece.rendered_keeps mark input [],
        fun k => by simpa [countOf,Piece.masks] using (Piece.masks_keeps k input []).symm⟩
    exact hstart.applyAll (sound_passes h)
  · rw [redact_eq h (redact nameDenylist input).text]
    exact applyAll_of_noMatch hno

end Redact

theorem clear_acme : Clear "Acme" where
  opening := by decide
  closing := by decide
  inside k := by cases k <;> decide

theorem redact_complete_acme :
    redact ["Acme"] (redact ["Acme"] "ACME paid 123-45-6789".toList).text =
      ⟨(redact ["Acme"] "ACME paid 123-45-6789".toList).text,[]⟩ :=
  (redact_complete (fun t ht _ => by
    obtain rfl := List.mem_singleton.mp ht
    exact clear_acme) _).2.2.2

/-- A blank term is skipped and stays in the text. -/
theorem blank_term_left : ¬ ∀ nameDenylist : List String, (∀ t ∈ nameDenylist, Clear t) →
    ∀ input, ∀ t ∈ nameDenylist, ∀ w, w <:+: (redact nameDenylist input).text →
      w.map Char.toLower ≠ t.toList.map Char.toLower := by
  intro h
  have hclear : Clear " " := ⟨by decide,by decide,fun k => by cases k <;> decide⟩
  refine h [" "] (fun t ht => ?_) ['a',' ','b'] " " (by simp) [' '] ?_ (by decide)
  · obtain rfl := List.mem_singleton.mp ht
    exact hclear
  · exact ⟨['a'],['b'],by decide +kernel⟩

end AtlasCompliance.Gateway.PiiRedactor
