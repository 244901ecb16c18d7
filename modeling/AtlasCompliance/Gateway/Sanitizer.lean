import AtlasCompliance.Gateway.Safety

/-! What the output sanitizer leaves: no angle bracket, no script address and no event handler, so
that sanitizing again changes nothing. -/
namespace AtlasCompliance.Gateway.OutputSanitizer
open Java Regex

theorem plain_jsUri : JS_URI.Plain := plain_word _ _

theorem mem_jsUri {w : List Char} : w ∈ JS_URI.language ↔
    w.map Char.toLower = ['j','a','v','a','s','c','r','i','p','t',':'] :=
  mem_language_word_map

theorem plain_eventHandler : EVENT_HANDLER.Plain :=
  ⟨trivial,plain_word _ _,⟨trivial,trivial⟩,trivial,trivial⟩

/-- A word of the event handlers. -/
theorem mem_eventHandler {w : List Char} : w ∈ EVENT_HANDLER.language ↔
    ∃ s o n x xs ys, w = s::o::n::x::(xs ++ (ys ++ ['='])) ∧ isSpace s = true ∧
      o.toLower = 'o' ∧ n.toLower = 'n' ∧ isWord x = true ∧ (∀ c ∈ xs, isWord c = true) ∧
      ∀ c ∈ ys, isSpace c = true := by
  constructor
  · intro h
    obtain ⟨s,v,rfl,hs,hv⟩ := mem_language_seq_sat.mp h
    obtain ⟨_,hon,_,⟨_,hword,_,⟨ys,hys,_,⟨e,rfl,he⟩,rfl⟩,rfl⟩,rfl⟩ := hv
    obtain ⟨o,n,rfl⟩ : ∃ o n, _ = [o,n] :=
      List.length_eq_two.mp (mem_language_word.mp hon).length_eq.symm
    obtain ⟨x,xs,rfl,hx,hxs⟩ := mem_language_seq_sat.mp hword
    have hon' := mem_language_word_map.mp hon
    simp only [List.map_cons,List.map_nil,List.cons.injEq,and_true] at hon'
    obtain rfl : '=' = e := by simpa using he
    exact ⟨s,o,n,x,xs,ys,by simp,hs,hon'.1,hon'.2,hx,mem_language_star.mp hxs,
      mem_language_star.mp hys⟩
  · rintro ⟨s,o,n,x,xs,ys,rfl,hs,ho,hn,hx,hxs,hys⟩
    refine mem_language_seq_sat.mpr ⟨s,_,rfl,hs,[o,n],?_,x::(xs ++ (ys ++ ['='])),?_,by simp⟩
    · refine mem_language_word_map.mpr ?_
      simp [ho,hn]
    · refine ⟨x::xs,mem_language_seq_sat.mpr ⟨x,xs,rfl,hx,mem_language_star.mpr hxs⟩,ys ++ ['='],
        ⟨ys,mem_language_star.mpr hys,['='],⟨'=',rfl,rfl⟩,rfl⟩,by simp⟩

theorem nil_not_mem_jsUri : [] ∉ JS_URI.language := fun h => by
  have hmap := mem_jsUri.mp h
  cases hmap

theorem nil_not_mem_eventHandler : [] ∉ EVENT_HANDLER.language := fun h => by
  obtain ⟨s,o,n,x,xs,ys,hw,-⟩ := mem_eventHandler.mp h
  cases hw

/-! ### The marks cannot take part in a word -/

theorem not_space_of_word {c : Char} (h : isWord c = true) : isSpace c = false := by
  by_contra hspace
  rw [Bool.not_eq_false] at hspace
  simp only [isWord,isSpace,isDigit,Bool.or_eq_true,Bool.and_eq_true,decide_eq_true_eq,
    beq_iff_eq] at h hspace
  obtain ((h | h) | h) | rfl := h
  · omega
  · omega
  · omega
  · exact absurd hspace (by decide)

theorem ne_of_toLower {a c : Char} (h : c.toLower = a) {b : Char} (hb : b.toLower ≠ a) : c ≠ b := by
  rintro rfl
  exact hb h

theorem not_space_of_toLower {a c : Char} (h : c.toLower = a) (ha : isSpace a = false) :
    isSpace c = false := by
  by_contra hspace
  rw [Bool.not_eq_false] at hspace
  have hlower : c.toLower = c := by
    obtain hc | hc := toLower_eq_or c
    · exact hc
    · simp only [isSpace,Bool.or_eq_true,Bool.and_eq_true,decide_eq_true_eq,beq_iff_eq] at hspace
      omega
  rw [← h,hlower,hspace] at ha
  cases ha

/-- No `d` follows a space. -/
def Spaced (w : List Char) : Prop := w.IsChain fun a b => isSpace a = true → b ≠ 'd'

theorem Spaced.cons {c : Char} {w : List Char} (hw : Spaced w) (hc : isSpace c = false) :
    Spaced (c::w) :=
  List.IsChain.cons hw fun _ _ hspace => absurd (hc.symm.trans hspace) (by simp)

theorem spaced_blanks {ys : List Char} (h : ∀ c ∈ ys, isSpace c = true) : Spaced (ys ++ ['=']) := by
  induction ys with
  | nil => exact List.isChain_singleton _
  | cons y ys ih =>
    refine List.IsChain.cons (ih fun c hc => h c (List.mem_cons_of_mem y hc)) fun b hb _ => ?_
    cases ys with
    | nil =>
      obtain rfl : '=' = b := by simpa using hb
      decide
    | cons z ys =>
      obtain rfl : z = b := by simpa using hb
      have hz := h z (by simp)
      rintro rfl
      exact absurd hz (by decide)

theorem spaced_letters {xs w : List Char} (h : ∀ c ∈ xs, isWord c = true) (hw : Spaced w) :
    Spaced (xs ++ w) := by
  induction xs with
  | nil => exact hw
  | cons x xs ih =>
    exact (ih fun c hc => h c (List.mem_cons_of_mem x hc)).cons
      (not_space_of_word (h x List.mem_cons_self))

theorem spaced_eventHandler {w : List Char} (hw : w ∈ EVENT_HANDLER.language) : Spaced w := by
  obtain ⟨s,o,n,x,xs,ys,rfl,-,ho,hn,hx,hxs,hys⟩ := mem_eventHandler.mp hw
  have hrest := (spaced_letters hxs (spaced_blanks hys)).cons (not_space_of_word hx)
  refine List.IsChain.cons ((hrest.cons (not_space_of_toLower hn (by decide))).cons
    (not_space_of_toLower ho (by decide))) fun b hb _ => ?_
  obtain rfl : o = b := by simpa using hb
  exact ne_of_toLower ho (by decide)

theorem getLast_eventHandler {w : List Char} (hw : w ∈ EVENT_HANDLER.language) :
    w.getLast? = some '=' := by
  obtain ⟨s,o,n,x,xs,ys,rfl,-⟩ := mem_eventHandler.mp hw
  simp [List.getLast?_cons,List.getLast?_append]

/-- The end of an event handler does not begin as the mark does. -/
theorem not_blocked_of_suffix {w x : List Char} (hw : w ∈ EVENT_HANDLER.language)
    (hxw : ' '::x <:+ w) : ∃ b y, x = b::y ∧ b ≠ 'd' := by
  have hspaced : Spaced (' '::x) := (spaced_eventHandler hw).suffix hxw
  cases x with
  | nil =>
    obtain ⟨v,rfl⟩ := hxw
    have hlast := getLast_eventHandler hw
    rw [List.getLast?_concat] at hlast
    cases hlast
  | cons b x => exact ⟨b,x,rfl,(List.isChain_cons.mp hspaced).1 b rfl (by decide)⟩

/-- The mark of an event handler has a single space, at its beginning. -/
theorem space_of_mark_suffix {a : Char} {m : List Char}
    (h : a::m <:+ [' ','d','a','t','a','-','b','l','o','c','k','e','d','=']) :
    isSpace a = false ∨ (a = ' ' ∧ m = ['d','a','t','a','-','b','l','o','c','k','e','d','=']) := by
  obtain hmark | hrest := List.suffix_cons_iff.mp h
  · obtain ⟨rfl,rfl⟩ := List.cons.inj hmark
    exact Or.inr ⟨rfl,rfl⟩
  · have hletter : ∀ c ∈ ['d','a','t','a','-','b','l','o','c','k','e','d','='],
        isSpace c = false := by simp [isSpace]
    exact Or.inl (hletter a (hrest.subset List.mem_cons_self))

theorem inert_blocked :
    Inert EVENT_HANDLER.language [' ','d','a','t','a','-','b','l','o','c','k','e','d','='] := by
  intro w hw x m hx hm hxw hmm hor
  obtain ⟨a,x,rfl⟩ := List.exists_cons_of_ne_nil hx
  obtain ⟨b,m,rfl⟩ := List.exists_cons_of_ne_nil hm
  -- a common first letter is the space of the mark
  have hclash : a = b → ∃ c y, x = c::y ∧ c ≠ 'd' ∧
      m = ['d','a','t','a','-','b','l','o','c','k','e','d','='] := by
    rintro rfl
    have hspace : isSpace a = true := by
      obtain hword | hmark := hor
      · obtain ⟨s,o,n,y,xs,ys,rfl,hs,-⟩ := mem_eventHandler.mp hw
        rw [(List.cons.inj hword).1]
        exact hs
      · rw [(List.cons.inj hmark).1]
        decide
    obtain hnot | ⟨rfl,rfl⟩ := space_of_mark_suffix hmm
    · exact absurd (hnot.symm.trans hspace) (by simp)
    · obtain ⟨c,y,rfl,hc⟩ := not_blocked_of_suffix hw hxw
      exact ⟨c,y,rfl,hc,rfl⟩
  constructor
  · intro h
    obtain ⟨hab,h⟩ := List.cons_prefix_cons.mp h
    obtain ⟨c,y,rfl,hc,rfl⟩ := hclash hab
    exact hc (List.cons_prefix_cons.mp h).1
  · intro h
    obtain ⟨hab,h⟩ := List.cons_prefix_cons.mp h
    obtain ⟨c,y,rfl,hc,rfl⟩ := hclash hab.symm
    exact hc (List.cons_prefix_cons.mp h).1.symm

theorem inert_jsUri_blocked : Inert JS_URI.language ['b','l','o','c','k','e','d',':'] :=
  inert_of_map Char.toLower (fun _ hw => mem_jsUri.mp hw) (by decide)

theorem inert_jsUri_data :
    Inert JS_URI.language [' ','d','a','t','a','-','b','l','o','c','k','e','d','='] := by
  refine inert_of_heads ?_ ?_
  · rintro w hw a ha hmem
    obtain rfl := Option.some.inj ha
    have hlower := mem_jsUri.mp hw ▸ List.mem_map_of_mem (f := Char.toLower) hmem
    exact absurd hlower (by decide)
  · rintro w hw a ha hmem
    obtain ⟨w,rfl⟩ : ∃ w', w = a::w' := List.head?_eq_some_iff.mp ha
    have hlower : a.toLower = 'j' := (List.cons.inj (mem_jsUri.mp hw)).1
    exact absurd (hlower ▸ List.mem_map_of_mem (f := Char.toLower) hmem) (by decide)

/-- The escape of an angle bracket begins with a letter of no word that is looked for. -/
theorem inert_escaped {L : Language Char} {mark : List Char} (hmark : mark.head? = some '&')
    (hamp : ∀ w ∈ L, '&' ∉ w) (hL : ∀ w ∈ L, ∀ a ∈ w.head?, a ∉ mark) : Inert L mark := by
  refine inert_of_heads (fun w hw a ha => ?_) hL
  obtain rfl := Option.some.inj (hmark.symm.trans ha)
  exact hamp w hw

theorem amp_not_mem_jsUri {w : List Char} (hw : w ∈ JS_URI.language) : '&' ∉ w := by
  intro h
  have hlower := mem_jsUri.mp hw ▸ List.mem_map_of_mem (f := Char.toLower) h
  exact absurd hlower (by decide)

theorem not_mem_eventHandler {a : Char} (hspace : isSpace a = false) (hword : isWord a = false)
    (hon : a.toLower ≠ 'o' ∧ a.toLower ≠ 'n') (heq : a ≠ '=') {w : List Char}
    (hw : w ∈ EVENT_HANDLER.language) : a ∉ w := by
  obtain ⟨s,o,n,x,xs,ys,rfl,hs,ho,hn,hx,hxs,hys⟩ := mem_eventHandler.mp hw
  have hneWord : ∀ {c : Char}, isWord c = true → a ≠ c := by
    rintro c hc rfl
    rw [hword] at hc
    cases hc
  have hneSpace : ∀ {c : Char}, isSpace c = true → a ≠ c := by
    rintro c hc rfl
    rw [hspace] at hc
    cases hc
  intro h
  simp only [List.mem_cons,List.mem_append,List.not_mem_nil,or_false] at h
  obtain h | h | h | h | h | h | h := h
  · exact hneSpace hs h
  · exact hon.1 (h ▸ ho)
  · exact hon.2 (h ▸ hn)
  · exact hneWord hx h
  · exact hneWord (hxs _ h) rfl
  · exact hneSpace (hys _ h) rfl
  · exact heq h

theorem amp_not_mem_eventHandler {w : List Char} (hw : w ∈ EVENT_HANDLER.language) : '&' ∉ w :=
  not_mem_eventHandler (by decide) (by decide) (by decide) (by decide) hw

theorem head_jsUri {w : List Char} (hw : w ∈ JS_URI.language) {a : Char} (ha : a ∈ w.head?) :
    a.toLower = 'j' := by
  obtain ⟨w,rfl⟩ : ∃ w', w = a::w' := List.head?_eq_some_iff.mp ha
  exact (List.cons.inj (mem_jsUri.mp hw)).1

theorem head_eventHandler {w : List Char} (hw : w ∈ EVENT_HANDLER.language) {a : Char}
    (ha : a ∈ w.head?) : isSpace a = true := by
  obtain ⟨s,o,n,x,xs,ys,rfl,hs,-⟩ := mem_eventHandler.mp hw
  exact Option.some.inj ha ▸ hs

/-! ### What is left -/

theorem escape_eq (text : List Char) : escape text =
    replaceAll (letter '>') ['&','g','t',';'] (replaceAll (letter '<') ['&','l','t',';'] text) := by
  rw [letter,letter,replaceAll_sat,replaceAll_sat,List.flatMap_assoc]
  refine List.flatMap_congr fun c _ => ?_
  unfold escapeAngle
  by_cases hlt : c = '<'
  · subst hlt
    decide
  · by_cases hgt : c = '>'
    · subst hgt
      decide
    · simp [hlt,hgt,Ne.symm hlt,Ne.symm hgt]

theorem angle_not_mem_escape (text : List Char) : '<' ∉ escape text ∧ '>' ∉ escape text := by
  have hno : ∀ c, '<' ∉ escapeAngle c ∧ '>' ∉ escapeAngle c := by
    intro c
    unfold escapeAngle
    split_ifs with hlt hgt
    · decide
    · decide
    · simp [eq_comm,hlt,hgt]
  constructor
  · intro h
    obtain ⟨c,-,hc⟩ := List.mem_flatMap.mp h
    exact (hno c).1 hc
  · intro h
    obtain ⟨c,-,hc⟩ := List.mem_flatMap.mp h
    exact (hno c).2 hc

theorem escape_of_not_mem {text : List Char} (hlt : '<' ∉ text) (hgt : '>' ∉ text) :
    escape text = text := by
  have hself : ∀ c ∈ text, escapeAngle c = [c] := by
    intro c hc
    have hclt : c ≠ '<' := fun heq => hlt (heq ▸ hc)
    have hcgt : c ≠ '>' := fun heq => hgt (heq ▸ hc)
    rw [escapeAngle,if_neg hclt,if_neg hcgt]
  rw [escape,List.flatMap_congr hself]
  exact List.flatMap_singleton' text

/-- Escaping brings about no word that has no ampersand and begins with no letter of an escape. -/
theorem Free.escape {L : Language Char} (hnil : [] ∉ L) (hamp : ∀ w ∈ L, '&' ∉ w)
    (hhead : ∀ w ∈ L, ∀ a ∈ w.head?, a ∉ ['&','l','t',';','g']) {text : List Char}
    (h : Free anywhere L text) : Free anywhere L (escape text) := by
  have hframed : ∀ c, Framed anywhere (letter c).language (letter c) := fun c =>
    framed_of_plain (r := letter c) trivial
  have hproper : ∀ c, [] ∉ (letter c).language := by
    rintro c ⟨a,ha,-⟩
    cases ha
  rw [escape_eq]
  refine (h.replaceAll (hframed _) (hproper _) (by simp) (inert_escaped rfl hamp fun w hw a ha hmem =>
    hhead w hw a ha ?_) hnil).replaceAll (hframed _) (hproper _) (by simp)
      (inert_escaped rfl hamp fun w hw a ha hmem => hhead w hw a ha ?_) hnil
  · exact List.mem_of_mem_take (i := 4) hmem
  · simp only [List.mem_cons,List.not_mem_nil,or_false] at hmem ⊢
    obtain h | h | h | h := hmem <;> simp [h]

/-- Nothing active: no angle bracket, no script address and no event handler. -/
structure Inactive (text : List Char) : Prop where
  lt : '<' ∉ text
  gt : '>' ∉ text
  jsUri : ∀ w, w <:+: text →
    w.map Char.toLower ≠ ['j','a','v','a','s','c','r','i','p','t',':']
  eventHandler : NoMatch EVENT_HANDLER text

theorem jsUri_free (text : List Char) : Free anywhere JS_URI.language (escape (defuse text)) := by
  refine Free.escape nil_not_mem_jsUri (fun _ => amp_not_mem_jsUri) ?_ ?_
  · intro w hw a ha hmem
    have hlower := head_jsUri hw ha ▸ List.mem_map_of_mem (f := Char.toLower) hmem
    exact absurd hlower (by decide)
  · exact (free_replaceAll_self (framed_of_plain plain_jsUri) (by simp) inert_jsUri_blocked
      nil_not_mem_jsUri text).replaceAll (framed_of_plain plain_eventHandler)
        nil_not_mem_eventHandler (by simp) inert_jsUri_data nil_not_mem_jsUri

theorem eventHandler_free (text : List Char) :
    Free anywhere EVENT_HANDLER.language (escape (defuse text)) := by
  refine Free.escape nil_not_mem_eventHandler (fun _ => amp_not_mem_eventHandler) ?_ ?_
  · intro w hw a ha hmem
    have hspace := head_eventHandler hw ha
    simp only [List.mem_cons,List.not_mem_nil,or_false] at hmem
    obtain rfl | rfl | rfl | rfl | rfl := hmem <;> exact absurd hspace (by decide)
  · exact free_replaceAll_self (framed_of_plain plain_eventHandler) (by simp) inert_blocked
      nil_not_mem_eventHandler _

theorem sanitize_text (input : List Char) :
    (sanitize input).text = escape (defuse (stripScripts input)) := by
  rw [sanitize]

theorem inactive_sanitize (input : List Char) : Inactive (sanitize input).text := by
  rw [sanitize_text]
  obtain ⟨hlt,hgt⟩ := angle_not_mem_escape (defuse (stripScripts input))
  refine ⟨hlt,hgt,?_,?_⟩
  · exact fun w hw hmap => free_anywhere_iff.mp (jsUri_free _) w (mem_jsUri.mpr hmap) hw
  · exact (framed_of_plain plain_eventHandler).noMatch_iff.mpr (eventHandler_free _)

/-- Without an angle bracket no tag opens. -/
theorem noMatch_of_tagOpen {text : List Char} (h : '<' ∉ text) (r : Pattern Char) :
    NoMatch (.seq tagOpen r) text := by
  intro u v huv
  have hnone : tagOpen.ends ⟨u.reverse,v,[]⟩ = [] := by
    cases v with
    | nil => rfl
    | cons a rest =>
      have ha : a ≠ '<' := by
        rintro rfl
        exact h (by simp [huv])
      simp [tagOpen,letter,Pattern.ends,Ne.symm ha]
  simp [Pattern.ends,hnone]

/-- What is inactive is left as it is. -/
theorem sanitize_of_inactive {text : List Char} (h : Inactive text) : sanitize text = ⟨text,0⟩ := by
  have hscript : NoMatch SCRIPTISH text := noMatch_of_tagOpen h.lt _
  have hdangling : NoMatch DANGLING_SCRIPT_OPEN text := noMatch_of_tagOpen h.lt _
  have huri : NoMatch JS_URI text := (framed_of_plain plain_jsUri).noMatch_iff.mpr
    (free_anywhere_iff.mpr fun w hw hin => h.jsUri w hin (mem_jsUri.mp hw))
  have hstrip : stripScripts text = text := by
    rw [stripScripts,hscript.replaceAll_eq,hdangling.replaceAll_eq]
  have hdefuse : defuse text = text := by
    rw [defuse,huri.replaceAll_eq,h.eventHandler.replaceAll_eq]
  unfold sanitize
  simp only [hstrip,hdefuse,escape_of_not_mem h.lt h.gt,hscript.replaceAll_eq,huri.replaceAll_eq,
    hscript.count_eq,hdangling.count_eq,huri.count_eq,h.eventHandler.count_eq]
  simp [h.lt,h.gt]

/-- The sanitizer leaves nothing active, and a second run removes nothing. -/
theorem sanitize_inert (input : List Char) : Inactive (sanitize input).text ∧
    sanitize (sanitize input).text = ⟨(sanitize input).text,0⟩ :=
  ⟨inactive_sanitize input,sanitize_of_inactive (inactive_sanitize input)⟩

end AtlasCompliance.Gateway.OutputSanitizer
