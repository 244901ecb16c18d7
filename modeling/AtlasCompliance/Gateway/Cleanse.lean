import AtlasCompliance.Lib.Cut
import AtlasCompliance.Lib.Patched
import AtlasCompliance.Gateway.Redactor
import AtlasCompliance.Gateway.Sanitizer

/-! Redaction followed by sanitizing: only the removal of script blocks and tags can bring a structured
pattern about, and only by joining letters that a removed stretch parted. -/
namespace AtlasCompliance.Gateway
open Java Regex PiiRedactor OutputSanitizer

/-! ### The words of the structured patterns -/

/-- A digit, a dash or a slash. -/
def Inner (c : Char) : Prop := isDigit c = true ∨ c = '-' ∨ c = '/'

def Upper (c : Char) : Prop := 65 ≤ c.toNat ∧ c.toNat ≤ 90

/-- Inner letters behind a digit, or digits behind a capital. -/
def PiiWord (w : List Char) : Prop :=
  (∃ a v, w = a::v ∧ isDigit a = true ∧ ∀ c ∈ v, Inner c) ∨
    ∃ a b v, w = a::b::v ∧ Upper a ∧ isDigit b = true ∧ ∀ c ∈ v, isDigit c = true

/-- The part of a structured pattern between its word boundaries. -/
structure PiiCore (core : Pattern Char) : Prop where
  plain : core.Plain
  first : core.First fun c => isWord c = true
  last : core.Last fun c => isWord c = true
  word : ∀ w ∈ core.language, PiiWord w

theorem word_of_digit {c : Char} (h : isDigit c = true) : isWord c = true := by simp [isWord,h]

theorem word_of_upper {c : Char} (h : Upper c) : isWord c = true := by
  obtain ⟨hlow,hhigh⟩ := h
  simp [isWord,hlow,hhigh]

theorem piiWord_of_only {core : Pattern Char} (hfirst : core.First fun c => isDigit c = true)
    (honly : core.Only Inner) : ∀ w ∈ core.language, PiiWord w := by
  intro w hw
  obtain ⟨d,hd,-⟩ := (mem_language_iff_ends honly.plain).mp hw
  obtain ⟨a,ha,hdigit,-⟩ := hfirst.head hd
  obtain ⟨v,rfl⟩ : ∃ v, w = a::v := List.head?_eq_some_iff.mp ha
  exact Or.inl ⟨a,v,rfl,hdigit,fun c hc => honly.letters hw c (List.mem_cons_of_mem a hc)⟩

theorem pii_cores : ∀ p ∈ [SSN_TIN,DOB,PASSPORT,ACCOUNT],
    ∃ core, p = core.whole wordBoundary ∧ PiiCore core := by
  have hdash : Inner '-' := Or.inr (Or.inl rfl)
  have hslash : Inner '/' := Or.inr (Or.inr rfl)
  have hdigit : ∀ c, isDigit c = true → Inner c := fun c hc => Or.inl hc
  have hword : ∀ c, isDigit c = true → isWord c = true := fun c hc => word_of_digit hc
  have hlast : ∀ n, (Pattern.times (n + 1) digit).Last fun c => isWord c = true :=
    Pattern.last_times hword
  intro p hp
  simp only [List.mem_cons,List.not_mem_nil,or_false] at hp
  obtain rfl | rfl | rfl | rfl := hp
  · refine ⟨_,rfl,?_,?_,?_,piiWord_of_only ?_ ?_⟩
    · simp [Pattern.Plain,Pattern.times,digit,PiiRedactor.letter]
    · simpa [Pattern.First,Pattern.times,digit] using hword
    · exact Or.inl (Or.inl (Or.inl (Or.inl (hlast 3))))
    · simp [Pattern.First,Pattern.times,digit]
    · simpa [Pattern.Only,Pattern.times,digit,PiiRedactor.letter,hdash] using hdigit
  · refine ⟨_,rfl,?_,?_,?_,piiWord_of_only ?_ ?_⟩
    · simp [Pattern.Plain,Pattern.times,Pattern.between,Pattern.upTo,Pattern.opt,digit,
        PiiRedactor.letter]
    · simpa [Pattern.First,Pattern.times,Pattern.between,digit] using hword
    · exact ⟨Or.inl (Or.inl (Or.inl (Or.inl (hlast 1)))),Or.inl (Or.inl (Or.inl (Or.inl (hlast 3))))⟩
    · simp [Pattern.First,Pattern.times,Pattern.between,digit]
    · simpa [Pattern.Only,Pattern.times,Pattern.between,Pattern.upTo,Pattern.opt,digit,
        PiiRedactor.letter,hdash,hslash] using hdigit
  · refine ⟨_,rfl,?_,?_,?_,?_⟩
    · simp [Pattern.Plain,Pattern.times,digit]
    · intro c hc
      exact word_of_upper (by simpa [Upper] using hc)
    · exact Or.inl (hlast 6)
    · intro w hw
      obtain ⟨a,v,rfl,ha,hv⟩ := mem_language_seq_sat.mp hw
      obtain ⟨hlength,hdigits⟩ := mem_language_times.mp hv
      obtain ⟨b,v,rfl⟩ : ∃ b v', v = b::v' := List.exists_cons_of_ne_nil (by
        rintro rfl
        cases hlength)
      exact Or.inr ⟨a,b,v,rfl,by simpa [Upper] using ha,hdigits b List.mem_cons_self,
        fun c hc => hdigits c (List.mem_cons_of_mem b hc)⟩
  · refine ⟨_,rfl,?_,?_,?_,piiWord_of_only ?_ ?_⟩
    · simp [Pattern.Plain,Pattern.times,Pattern.atLeast,digit]
    · simpa [Pattern.First,Pattern.times,Pattern.atLeast,digit] using hword
    · simpa [Pattern.Last,Pattern.Only,Pattern.times,Pattern.atLeast,digit] using hword
    · simp [Pattern.First,Pattern.times,Pattern.atLeast,digit]
    · simpa [Pattern.Only,Pattern.times,Pattern.atLeast,digit] using hdigit

theorem inner_of_tail {x y : List Char} {b : Char} (h : PiiWord (x ++ b::y)) (hx : x ≠ []) :
    Inner b := by
  obtain ⟨c,x,rfl⟩ := List.exists_cons_of_ne_nil hx
  obtain ⟨a,v,hw,-,hv⟩ | ⟨a,d,v,hw,-,hd,hv⟩ := h
  · obtain ⟨-,hw⟩ := List.cons.inj hw
    exact hv b (hw ▸ by simp)
  · obtain ⟨-,hw⟩ := List.cons.inj hw
    have hb : b ∈ d::v := hw ▸ by simp
    obtain rfl | hb := List.mem_cons.mp hb
    · exact Or.inl hd
    · exact Or.inl (hv b hb)

/-! ### What the sanitizer exchanges -/

section Exchanged
variable {L : Language Char}

/-- No structured word takes part in a stretch without digits that neither begins with an inner letter
nor ends with a capital. -/
theorem solid_of_no_digit (hL : ∀ w ∈ L, PiiWord w) {s : List Char}
    (hdigit : ∀ c ∈ s, isDigit c = false) (hfirst : ∃ a, s.head? = some a ∧ ¬ Inner a)
    (hlast : ∀ c ∈ s.getLast?, ¬ Upper c) : Solid wordBoundary L s := by
  obtain ⟨a,ha,hinner⟩ := hfirst
  refine ⟨?_,?_,?_⟩
  · rintro rfl
    cases ha
  · intro x y hw hx hy hhead
    obtain ⟨b,y,rfl⟩ := List.exists_cons_of_ne_nil hy
    obtain rfl : b = a := Option.some.inj (hhead.trans ha)
    exact hinner (inner_of_tail (hL _ hw) hx)
  · intro p q hs hq w hw before rest rest' hread
    exfalso
    obtain ⟨b,q,rfl⟩ := List.exists_cons_of_ne_nil hq
    have hmem : ∀ c ∈ b::q, isDigit c = false := fun c hc =>
      hdigit c (hs ▸ List.mem_append_right p hc)
    obtain ⟨c,v,rfl,hc,-⟩ | ⟨c,d,v,rfl,hc,hd,-⟩ := hL w hw
    · obtain ⟨rfl,-⟩ := List.cons.inj hread
      exact absurd (hmem b List.mem_cons_self) (by simp [hc])
    · obtain ⟨rfl,htail⟩ := List.cons.inj hread
      cases q with
      | nil => exact hlast b (by simp [hs]) hc
      | cons e q =>
        obtain ⟨rfl,-⟩ := List.cons.inj htail
        exact absurd (hmem e (by simp)) (by simp [hd])

theorem word_of_toLower {c a : Char} (h : c.toLower = a) (ha : isWord a = true) :
    isWord c = true := by
  obtain hc | hc := toLower_eq_or c
  · rw [← hc,h]
    exact ha
  · exact word_of_upper hc

theorem not_digit_of_toLower {c a : Char} (h : c.toLower = a) (ha : isDigit a = false) :
    isDigit c = false := by
  by_contra hdigit
  rw [Bool.not_eq_false] at hdigit
  obtain hc | hc := toLower_eq_or c
  · rw [hc] at h
    rw [h,ha] at hdigit
    cases hdigit
  · simp only [isDigit,Bool.and_eq_true,decide_eq_true_eq] at hdigit
    omega

theorem not_inner_of_toLower {c a : Char} (h : c.toLower = a) (ha : isDigit a = false)
    (hword : isWord a = true) : ¬ Inner c := by
  rintro (hdigit | rfl | rfl)
  · rw [not_digit_of_toLower h ha] at hdigit
    cases hdigit
  · exact absurd (h ▸ hword) (by decide)
  · exact absurd (h ▸ hword) (by decide)

theorem solid_jsUri (hL : ∀ w ∈ L, PiiWord w) {s : List Char} (hs : s ∈ JS_URI.language) :
    Solid wordBoundary L s := by
  have hmap := mem_jsUri.mp hs
  refine solid_of_no_digit hL ?_ ?_ ?_
  · intro c hc
    have hlower : c.toLower ∈ ['j','a','v','a','s','c','r','i','p','t',':'] :=
      hmap ▸ List.mem_map_of_mem hc
    have hall : ['j','a','v','a','s','c','r','i','p','t',':'].all fun c => !isDigit c := by decide
    exact not_digit_of_toLower rfl (by simpa using List.all_eq_true.mp hall _ hlower)
  · cases s with
    | nil => cases hmap
    | cons a s =>
      exact ⟨a,rfl,not_inner_of_toLower (List.cons.inj hmap).1 (by decide) (by decide)⟩
  · intro c hc hupper
    have hlast : (s.map Char.toLower).getLast? = some ':' := by
      rw [hmap]
      rfl
    rw [List.getLast?_map,Option.mem_def.mp hc] at hlast
    have hword := word_of_upper hupper
    obtain rfl : c = ':' := toLower_bracket (Option.some.inj hlast) (by decide)
    exact absurd hword (by decide)

/-- A word letter has a word letter before it. -/
def Running (w : List Char) : Prop := w.IsChain fun a b => isWord b = true → isWord a = true

theorem running_append {xs zs : List Char} (hxs : ∀ c ∈ xs, isWord c = true)
    (hzs : ∀ c ∈ zs, isWord c = false) : Running (xs ++ zs) := by
  induction xs with
  | nil =>
    induction zs with
    | nil => exact List.isChain_nil
    | cons z zs ih =>
      refine List.IsChain.cons (ih fun c hc => hzs c (List.mem_cons_of_mem z hc)) fun b hb hword => ?_
      have hb' : b ∈ zs := List.mem_of_mem_head? hb
      exact absurd (hword.symm.trans (hzs b (List.mem_cons_of_mem z hb'))) (by simp)
  | cons x xs ih =>
    exact List.IsChain.cons (ih fun c hc => hxs c (List.mem_cons_of_mem x hc))
      fun _ _ _ => hxs x List.mem_cons_self

theorem wordBoundary_eq {left right : Option Char} (h : right.any isWord = true) :
    wordBoundary left right = !left.any isWord := by
  simp [wordBoundary,h]

theorem wordBoundary_eq_left {left right : Option Char} (h : left.any isWord = true) :
    wordBoundary left right = !right.any isWord := by
  rw [wordBoundary,h]
  cases right.any isWord <;> rfl

theorem head_word {w : List Char} (h : PiiWord w) : ∃ a v, w = a::v ∧ isWord a = true := by
  obtain ⟨a,v,rfl,ha,-⟩ | ⟨a,b,v,rfl,ha,-⟩ := h
  · exact ⟨a,v,rfl,word_of_digit ha⟩
  · exact ⟨a,b::v,rfl,word_of_upper ha⟩

theorem not_word_of_space {c : Char} (h : isSpace c = true) : isWord c = false := by
  by_contra hword
  rw [Bool.not_eq_false] at hword
  rw [not_space_of_word hword] at h
  cases h

theorem solid_eventHandler (hL : ∀ w ∈ L, PiiWord w) {s : List Char}
    (hs : s ∈ EVENT_HANDLER.language) : Solid wordBoundary L s := by
  obtain ⟨z,o,n,x,xs,ys,rfl,hz,ho,hn,hx,hxs,hys⟩ := mem_eventHandler.mp hs
  have hrunning : Running ((o::n::x::xs) ++ (ys ++ ['='])) := by
    refine running_append ?_ ?_
    · intro c hc
      simp only [List.mem_cons] at hc
      obtain rfl | rfl | rfl | hc := hc
      · exact word_of_toLower ho (by decide)
      · exact word_of_toLower hn (by decide)
      · exact hx
      · exact hxs c hc
    · intro c hc
      obtain hc | hc := List.mem_append.mp hc
      · exact not_word_of_space (hys c hc)
      · obtain rfl := List.mem_singleton.mp hc
        decide
  refine ⟨by simp,?_,?_⟩
  · intro u v hw hu hv hhead
    obtain ⟨b,v,rfl⟩ := List.exists_cons_of_ne_nil hv
    obtain rfl : b = z := Option.some.inj hhead
    obtain hinner | rfl | rfl := inner_of_tail (hL _ hw) hu
    · exact absurd ((not_word_of_space hz).symm.trans (word_of_digit hinner)) (by simp)
    · exact absurd hz (by decide)
    · exact absurd hz (by decide)
  · intro p q hpq hq w hw before rest rest' hread
    obtain ⟨b,q,rfl⟩ := List.exists_cons_of_ne_nil hq
    obtain ⟨a,v,rfl,hword⟩ := head_word (hL w hw)
    obtain ⟨rfl,htail⟩ : b = a ∧ q ++ rest = v ++ rest' := List.cons.inj hread
    rw [wordBoundary_eq (by simpa using hword)]
    cases p with
    | nil =>
      obtain rfl : z = b := (List.cons.inj hpq).1
      exact absurd ((not_word_of_space hz).symm.trans hword) (by simp)
    | cons c p =>
      obtain ⟨-,hpq⟩ := List.cons.inj hpq
      obtain rfl | ⟨p,d,rfl⟩ := List.eq_nil_or_concat p
      · -- the word would have to go on with the n of the handler
        exfalso
        obtain ⟨rfl,hq'⟩ : o = b ∧ n::x::(xs ++ (ys ++ ['='])) = q := List.cons.inj hpq
        have hno : isDigit o = false := not_digit_of_toLower ho (by decide)
        obtain ⟨_,_,heq,hdigit,-⟩ | ⟨_,e,v',heq,-,hdigit,-⟩ := hL _ hw
        · obtain ⟨rfl,-⟩ := List.cons.inj heq
          exact absurd (hno.symm.trans hdigit) (by simp)
        · obtain ⟨-,rfl⟩ := List.cons.inj heq
          obtain ⟨rfl,-⟩ : n = e ∧ _ := List.cons.inj (hq' ▸ htail)
          exact absurd ((not_digit_of_toLower hn (by decide)).symm.trans hdigit) (by simp)
      · have hchain : Running (p ++ ([d] ++ (b::q))) := by
          have heq : (o::n::x::xs) ++ (ys ++ ['=']) = p ++ ([d] ++ (b::q)) := by
            simpa using hpq
          exact heq ▸ hrunning
        have hd := (List.isChain_cons_cons.mp (List.isChain_append.mp hchain).2.1).1 hword
        simp [hd]

/-- Stretches with the same kinds of letters at their ends look alike from outside. -/
theorem alike_of_solid {s t : List Char} (hs : Solid wordBoundary L s) (ht : Solid wordBoundary L t)
    (hhead : s.head?.any isWord = t.head?.any isWord)
    (hlast : s.getLast?.any isWord = t.getLast?.any isWord) : Alike wordBoundary L s t :=
  ⟨hs,ht,fun _ => by simp only [wordBoundary,hhead],fun _ => by simp only [wordBoundary,hlast]⟩

/-- A mark of lower-case letters and punctuation. -/
theorem solid_mark (hL : ∀ w ∈ L, PiiWord w) {t : List Char} {a : Char} (ha : t.head? = some a)
    (hinner : ¬ Inner a) (h : (t.all fun c => !isDigit c && !(65 ≤ c.toNat && c.toNat ≤ 90)) = true) :
    Solid wordBoundary L t := by
  have hall := List.all_eq_true.mp h
  refine solid_of_no_digit hL (fun c hc => ?_) ⟨a,ha,hinner⟩ fun c hc hupper => ?_
  · have hc' := hall c hc
    simp only [Bool.and_eq_true,Bool.not_eq_true'] at hc'
    exact hc'.1
  · obtain ⟨hlow,hhigh⟩ := hupper
    have hc' := hall c (List.mem_of_getLast? hc)
    simp [hlow,hhigh] at hc'

theorem not_inner {c : Char} (h : (isDigit c || c == '-' || c == '/') = false) : ¬ Inner c := by
  rintro (hdigit | rfl | rfl)
  · simp [hdigit] at h
  · cases h
  · cases h

theorem alike_jsUri (hL : ∀ w ∈ L, PiiWord w) {s : List Char} (hs : s ∈ JS_URI.language) :
    Alike wordBoundary L s ['b','l','o','c','k','e','d',':'] := by
  have hmap := mem_jsUri.mp hs
  refine alike_of_solid (solid_jsUri hL hs)
    (solid_mark hL (a := 'b') rfl (not_inner (by decide)) (by decide)) ?_ ?_
  · cases s with
    | nil => cases hmap
    | cons a s => exact word_of_toLower (List.cons.inj hmap).1 (by decide)
  · have hlast : (s.map Char.toLower).getLast? = some ':' := by
      rw [hmap]
      rfl
    rw [List.getLast?_map] at hlast
    obtain ⟨c,hc,hcolon⟩ := Option.map_eq_some_iff.mp hlast
    obtain rfl : c = ':' := toLower_bracket hcolon (by decide)
    rw [hc]
    rfl

theorem alike_eventHandler (hL : ∀ w ∈ L, PiiWord w) {s : List Char}
    (hs : s ∈ EVENT_HANDLER.language) :
    Alike wordBoundary L s [' ','d','a','t','a','-','b','l','o','c','k','e','d','='] := by
  refine alike_of_solid (solid_eventHandler hL hs)
    (solid_mark hL (a := ' ') rfl (not_inner (by decide)) (by decide)) ?_ ?_
  · obtain ⟨z,o,n,x,xs,ys,rfl,hz,-⟩ := mem_eventHandler.mp hs
    exact not_word_of_space hz
  · rw [getLast_eventHandler hs]
    rfl

theorem alike_angle (hL : ∀ w ∈ L, PiiWord w) {b : Char} {t : List Char}
    (hb : b = '<' ∧ t = ['&','l','t',';'] ∨ b = '>' ∧ t = ['&','g','t',';']) {s : List Char}
    (hs : s ∈ (OutputSanitizer.letter b).language) : Alike wordBoundary L s t := by
  obtain ⟨c,rfl,hc⟩ := hs
  obtain rfl : b = c := beq_iff_eq.mp hc
  obtain ⟨rfl,rfl⟩ | ⟨rfl,rfl⟩ := hb
  · exact alike_of_solid (solid_mark hL (a := '<') rfl (not_inner (by decide)) (by decide))
      (solid_mark hL (a := '&') rfl (not_inner (by decide)) (by decide)) rfl rfl
  · exact alike_of_solid (solid_mark hL (a := '>') rfl (not_inner (by decide)) (by decide))
      (solid_mark hL (a := '&') rfl (not_inner (by decide)) (by decide)) rfl rfl

theorem nil_not_mem_pii (hL : ∀ w ∈ L, PiiWord w) : [] ∉ L := by
  intro h
  obtain ⟨a,v,hw,-⟩ := head_word (hL [] h)
  cases hw

/-- Defusing and escaping neither make nor break a structured word. -/
theorem free_escape_defuse_iff (hL : ∀ w ∈ L, PiiWord w) (text : List Char) :
    Free wordBoundary L (escape (defuse text)) ↔ Free wordBoundary L text := by
  have hnil := nil_not_mem_pii hL
  rw [escape_eq,
    free_replaceAll_iff hnil (framed_of_plain (r := OutputSanitizer.letter '>') trivial)
      (fun s hs => alike_angle hL (Or.inr ⟨rfl,rfl⟩) hs),
    free_replaceAll_iff hnil (framed_of_plain (r := OutputSanitizer.letter '<') trivial)
      (fun s hs => alike_angle hL (Or.inl ⟨rfl,rfl⟩) hs),
    defuse,free_replaceAll_iff hnil (framed_of_plain plain_eventHandler)
      (fun s hs => alike_eventHandler hL hs),
    free_replaceAll_iff hnil (framed_of_plain plain_jsUri) (fun s hs => alike_jsUri hL hs)]

end Exchanged

/-! ### What the sanitizer removes -/

/-- The letters that are left when script blocks and tags are removed, with their places. -/
def strippedPlaces (text : List Char) : List (Char × ℕ) :=
  replaceAll (DANGLING_SCRIPT_OPEN.comap Prod.fst) []
    (replaceAll (SCRIPTISH.comap Prod.fst) [] text.zipIdx)

theorem strippedPlaces_map_fst (text : List Char) :
    (strippedPlaces text).map Prod.fst = stripScripts text := by
  rw [strippedPlaces,replaceAll_comap,replaceAll_comap,List.zipIdx_map_fst]
  rfl

theorem first_tagOpen : tagOpen.First fun c => c = '<' := fun _ hc => (beq_iff_eq.mp hc).symm

theorem first_scriptish : SCRIPTISH.First fun c => c = '<' := first_tagOpen

theorem first_dangling : DANGLING_SCRIPT_OPEN.First fun c => c = '<' := first_tagOpen

theorem last_angle : (OutputSanitizer.letter '>').Last fun c => c = '>' :=
  fun _ hc => (beq_iff_eq.mp hc).symm

theorem last_scriptish : SCRIPTISH.Last fun c => c = '>' :=
  Or.inl (Or.inl (Or.inl (Or.inl (Or.inl (Or.inl (Or.inl (Or.inl last_angle)))))))

theorem last_dangling : DANGLING_SCRIPT_OPEN.Last fun c => c = '>' := Or.inl (Or.inl last_angle)

/-- What is left on places that follow each other was there, between letters that look the same or are
the brackets of a removed stretch. -/
theorem stripped_stands {text : List Char} {u w v : List (Char × ℕ)} (hne : w ≠ [])
    (hw : Contiguous w) (h : strippedPlaces text = u ++ (w ++ v)) :
    ∃ u' v', text.zipIdx = u' ++ (w ++ v') ∧
      (v'.head? = v.head? ∨ ∃ a, v'.head? = some a ∧ a.1 = '<') ∧
      (u'.getLast? = u.getLast? ∨ ∃ a, u'.getLast? = some a ∧ a.1 = '>') := by
  have hcut := cut_replaceAll (first_scriptish.comap Prod.fst) (last_scriptish.comap Prod.fst)
    text.zipIdx
  have hcut' := cut_replaceAll (first_dangling.comap Prod.fst) (last_dangling.comap Prod.fst)
    (replaceAll (SCRIPTISH.comap Prod.fst) [] text.zipIdx)
  have honward : Onward text.zipIdx := onward_zipIdx text 0
  obtain ⟨u₁,v₁,heq,hright,hleft⟩ := hcut'.stands (honward.sublist hcut.sublist)
    (Or.inl rfl : Borders _ none none) hne hw h
  obtain ⟨u₀,v₀,heq₀,hright₀,hleft₀⟩ := hcut.stands honward
    (Or.inl rfl : Borders _ none none) hne hw heq
  simp only [Option.or_none] at hleft hleft₀
  refine ⟨u₀,v₀,heq₀,?_,?_⟩
  · obtain hsame | hnew := hright₀
    · rw [hsame]
      exact hright
    · exact Or.inr hnew
  · obtain hsame | hnew := hleft₀
    · rw [hsame]
      exact hleft
    · exact Or.inr hnew

/-- A match of the pattern that covers `w` between `u` and `v`. -/
def Matches (p : Pattern Char) (u w v : List Char) : Prop :=
  ∃ groups, ⟨w.reverse ++ u.reverse,v,groups⟩ ∈ p.ends ⟨u.reverse,w ++ v,[]⟩

/-- The pattern matches in what the removal leaves, over letters that a removed stretch parted. -/
def Joins (p : Pattern Char) (text : List Char) : Prop :=
  ∃ u w v, strippedPlaces text = u ++ (w ++ v) ∧
    Matches p (u.map Prod.fst) (w.map Prod.fst) (v.map Prod.fst) ∧ ¬ Contiguous w

theorem matches_iff {core : Pattern Char} (h : core.Plain) {u w v : List Char} :
    Matches (core.whole wordBoundary) u w v ↔ w ∈ core.language ∧
      wordBoundary u.getLast? (w ++ v).head? = true ∧
        wordBoundary (w.reverse ++ u.reverse).head? v.head? = true := by
  unfold Matches
  simp only [framed_whole wordBoundary h _ _,List.head?_reverse]
  constructor
  · rintro ⟨groups,⟨x,hx,hafter,-⟩,hstart,hend⟩
    exact ⟨List.append_cancel_right hafter ▸ hx,hstart,hend⟩
  · rintro ⟨hw,hstart,hend⟩
    exact ⟨[],⟨w,hw,rfl,rfl,rfl⟩,hstart,hend⟩

theorem noMatch_iff_matches {core : Pattern Char} (h : core.Plain) {text : List Char} :
    NoMatch (core.whole wordBoundary) text ↔
      ∀ u w v, text = u ++ (w ++ v) → ¬ Matches (core.whole wordBoundary) u w v := by
  rw [(framed_whole wordBoundary h).noMatch_iff]
  constructor
  · intro hfree u w v huv hmatch
    obtain ⟨hw,hstart,hend⟩ := (matches_iff h).mp hmatch
    exact hfree u (w ++ v) huv ⟨w,hw,v,rfl,by simpa using hstart,hend⟩
  · rintro hno u _ huv ⟨w,hw,v,rfl,hstart,hend⟩
    exact hno u w v huv ((matches_iff h).mpr ⟨hw,by simpa using hstart,hend⟩)

section Core
variable {core : Pattern Char}

theorem PiiCore.head (hcore : PiiCore core) {w : List Char} (hw : w ∈ core.language)
    (v : List Char) : (w ++ v).head?.any isWord = true := by
  obtain ⟨a,w,rfl,ha⟩ := head_word (hcore.word w hw)
  exact ha

theorem PiiCore.last_word (hcore : PiiCore core) {w : List Char} (hw : w ∈ core.language)
    (u : List Char) : (w.reverse ++ u).head?.any isWord = true := by
  have hends : ⟨w.reverse ++ u,[],[]⟩ ∈ core.ends ⟨u,w,[]⟩ :=
    (mem_ends hcore.plain).mpr ⟨w,hw,by simp,rfl,rfl⟩
  obtain ⟨a,ha,hword⟩ := hcore.last.last hends
  rw [ha]
  exact hword

/-- Where a structured word stands depends only on the letters next to it being word letters. -/
theorem PiiCore.matches_iff (hcore : PiiCore core) {u w v : List Char} :
    Matches (core.whole wordBoundary) u w v ↔ w ∈ core.language ∧
      u.getLast?.any isWord = false ∧ v.head?.any isWord = false := by
  rw [Gateway.matches_iff hcore.plain]
  constructor
  · rintro ⟨hw,hstart,hend⟩
    have hlast := hcore.last_word hw u.reverse
    rw [wordBoundary_eq (hcore.head hw v)] at hstart
    rw [wordBoundary_eq_left hlast] at hend
    exact ⟨hw,by simpa using hstart,by simpa using hend⟩
  · rintro ⟨hw,hstart,hend⟩
    refine ⟨hw,?_,?_⟩
    · rw [wordBoundary_eq (hcore.head hw v),hstart]
      rfl
    · rw [wordBoundary_eq_left (hcore.last_word hw u.reverse),hend]
      rfl

/-- From a text without a match, the removal makes one exactly by joining parted letters. -/
theorem PiiCore.noMatch_strip_iff (hcore : PiiCore core) {text : List Char}
    (h : NoMatch (core.whole wordBoundary) text) :
    NoMatch (core.whole wordBoundary) (stripScripts text) ↔
      ¬ Joins (core.whole wordBoundary) text := by
  rw [noMatch_iff_matches hcore.plain] at h ⊢
  constructor
  · rintro hno ⟨u,w,v,heq,hmatch,-⟩
    refine hno _ _ _ ?_ hmatch
    rw [← strippedPlaces_map_fst,heq,List.map_append,List.map_append]
  · intro hjoins u w v huv hmatch
    rw [← strippedPlaces_map_fst] at huv
    obtain ⟨tu,tail,heq,rfl,htail⟩ := List.map_eq_append_iff.mp huv
    obtain ⟨tw,tv,rfl,rfl,rfl⟩ := List.map_eq_append_iff.mp htail
    obtain ⟨hw,hstart,hend⟩ := hcore.matches_iff.mp hmatch
    by_cases hcontiguous : Contiguous tw
    · have hne : tw ≠ [] := by
        rintro rfl
        obtain ⟨a,v,hnil,-⟩ := head_word (hcore.word _ hw)
        cases hnil
      obtain ⟨tu',tv',htext,hright,hleft⟩ := stripped_stands hne hcontiguous heq
      refine h (tu'.map Prod.fst) (tw.map Prod.fst) (tv'.map Prod.fst) ?_
        (hcore.matches_iff.mpr ⟨hw,?_,?_⟩)
      · rw [← List.map_append,← List.map_append,← htext,List.zipIdx_map_fst]
      · rw [List.getLast?_map] at hstart ⊢
        obtain hsame | ⟨a,ha,hangle⟩ := hleft
        · rw [hsame]
          exact hstart
        · rw [ha]
          change isWord a.1 = false
          rw [hangle]
          decide
      · rw [List.head?_map] at hend ⊢
        obtain hsame | ⟨a,ha,hangle⟩ := hright
        · rw [hsame]
          exact hend
        · rw [ha]
          change isWord a.1 = false
          rw [hangle]
          decide
    · exact hjoins ⟨tu,tw,tv,heq,hmatch,hcontiguous⟩

/-- The sanitizer makes a match in a text without one exactly by joining parted letters. -/
theorem PiiCore.noMatch_sanitize_iff (hcore : PiiCore core) {text : List Char}
    (h : NoMatch (core.whole wordBoundary) text) :
    NoMatch (core.whole wordBoundary) (sanitize text).text ↔
      ¬ Joins (core.whole wordBoundary) text := by
  have hframed := framed_whole wordBoundary hcore.plain
  rw [sanitize_text,hframed.noMatch_iff,free_escape_defuse_iff hcore.word,← hframed.noMatch_iff]
  exact hcore.noMatch_strip_iff h

end Core

/-! ### Cleansed texts -/

/-- No structured pattern matches anywhere in the text. -/
def PiiFree (text : List Char) : Prop := ∀ p ∈ [SSN_TIN,DOB,PASSPORT,ACCOUNT], NoMatch p text

theorem piiFree_nil : PiiFree [] := by
  intro p hp
  obtain ⟨core,rfl,hcore⟩ := pii_cores p hp
  refine (framed_whole wordBoundary hcore.plain).noMatch_iff.mpr fun u v huv => ?_
  rintro ⟨w,hw,rest,hv,-⟩
  obtain ⟨-,rfl⟩ := List.append_eq_nil_iff.mp huv.symm
  obtain ⟨a,v,rfl,-⟩ := head_word (hcore.word w hw)
  cases hv

/-- Whatever the denylist does, the structured passes come last. -/
theorem piiFree_redact (nameDenylist : List String) (input : List Char) :
    PiiFree (redact nameDenylist input).text := by
  unfold redact
  by_cases hempty : input.isEmpty = true
  · rw [if_pos hempty]
    obtain rfl := List.isEmpty_iff.mp hempty
    exact piiFree_nil
  · rw [if_neg hempty,applyPatterns_eq]
    have hno := noMatch_applyAll_self sound_structured (applyDenylist nameDenylist ⟨input,[]⟩)
    intro p hp
    simp only [List.mem_cons,List.not_mem_nil,or_false] at hp
    obtain rfl | rfl | rfl | rfl := hp
    · exact hno (.SSN_TIN,SSN_TIN) (by simp [structured])
    · exact hno (.DOB,DOB) (by simp [structured])
    · exact hno (.PASSPORT,PASSPORT) (by simp [structured])
    · exact hno (.ACCOUNT_NUMBER,ACCOUNT) (by simp [structured])

/-- Some structured pattern matches over letters that a removed block or tag parted. -/
def Rejoined (text : List Char) : Prop := ∃ p ∈ [SSN_TIN,DOB,PASSPORT,ACCOUNT], Joins p text

theorem piiFree_sanitize_iff {text : List Char} (h : PiiFree text) :
    PiiFree (sanitize text).text ↔ ¬ Rejoined text := by
  constructor
  · rintro hfree ⟨p,hp,hjoins⟩
    obtain ⟨core,rfl,hcore⟩ := pii_cores p hp
    exact (hcore.noMatch_sanitize_iff (h _ hp)).mp (hfree _ hp) hjoins
  · intro hno p hp
    obtain ⟨core,rfl,hcore⟩ := pii_cores p hp
    exact (hcore.noMatch_sanitize_iff (h _ hp)).mpr fun hjoins => hno ⟨_,hp,hjoins⟩

/-- With redaction on, the cleansed text is free of structured patterns exactly when it is not
sanitized or no pattern is joined over a block or tag removed from the redacted text. -/
theorem piiFree_cleanse_iff {safety : SafetyProperties} (hpii : safety.piiEnabled = true)
    (text : List Char) (counts : Counts) : PiiFree (safety.cleanse text counts).1 ↔
      (safety.sanitizeEnabled = true → ¬ Rejoined (redact safety.nameDenylist text).text) := by
  have hfree := piiFree_redact safety.nameDenylist text
  simp only [SafetyProperties.cleanse,SafetyProperties.redacted,SafetyProperties.sanitized,hpii,
    if_true]
  by_cases hsanitize : safety.sanitizeEnabled = true
  · simp only [hsanitize,if_true,forall_true_left]
    exact piiFree_sanitize_iff hfree
  · simp only [hsanitize,Bool.false_eq_true,if_false,false_implies,iff_true]
    exact hfree

/-- With redaction and sanitizing both on. -/
theorem cleanse_clean_iff (nameDenylist : List String) (text : List Char) (counts : Counts) :
    (PiiFree (SafetyProperties.cleanse ⟨true,true,nameDenylist⟩ text counts).1 ∧
      '<' ∉ (SafetyProperties.cleanse ⟨true,true,nameDenylist⟩ text counts).1 ∧
        '>' ∉ (SafetyProperties.cleanse ⟨true,true,nameDenylist⟩ text counts).1) ↔
      ¬ Rejoined (redact nameDenylist text).text := by
  have hangle : '<' ∉ (SafetyProperties.cleanse ⟨true,true,nameDenylist⟩ text counts).1 ∧
      '>' ∉ (SafetyProperties.cleanse ⟨true,true,nameDenylist⟩ text counts).1 := by
    simp only [SafetyProperties.cleanse,SafetyProperties.redacted,SafetyProperties.sanitized,if_true]
    have hinactive := inactive_sanitize (redact nameDenylist text).text
    exact ⟨hinactive.lt,hinactive.gt⟩
  rw [piiFree_cleanse_iff (show (⟨true,true,nameDenylist⟩ : SafetyProperties).piiEnabled = true from rfl)]
  simp [hangle]

/-- An account number cut in two by an empty style block. -/
def partedAccount : List Char := "1234<style></style>5678".toList

set_option maxRecDepth 20000 in
theorem partedAccount_rejoined : ¬ ∀ nameDenylist text counts,
    PiiFree (SafetyProperties.cleanse ⟨true,true,nameDenylist⟩ text counts).1 := by
  intro h
  have hno := h [] partedAccount [] ACCOUNT (by simp) []
    (SafetyProperties.cleanse ⟨true,true,[]⟩ partedAccount []).1 rfl
  have hout : (SafetyProperties.cleanse ⟨true,true,[]⟩ partedAccount []).1 =
      ['1','2','3','4','5','6','7','8'] := by decide +kernel
  rw [hout] at hno
  exact absurd hno (by decide +kernel)

end AtlasCompliance.Gateway
