import AtlasCompliance.RagEngine.Reading

/-! What the guardrail's scanner misses: an unquarantined chunk spells a phrase in the prompt only
through characters that the neutraliser put in. -/
namespace AtlasCompliance.RagEngine
open Java Regex

theorem isWhitespace_of_isSpace {c : Char} (h : isSpace c = true) : isWhitespace c = true := by
  simp only [isSpace,isWhitespace,Bool.or_eq_true,Bool.and_eq_true,decide_eq_true_eq,beq_iff_eq]
    at h ⊢
  omega

/-- Something is left when the whitespace goes. -/
def Inked (text : List Letter) : Prop := ∃ l ∈ text, isWhitespace l.1 = false

theorem isSpace_blank : isSpace ' ' = true := by decide

/-- A blank before a collapsed text, or the first blank of it. -/
theorem push_space {l : Letter} (hl : isSpace l.1 = true) (text : List Letter) :
    push l text = (' ',l.2)::text ∧ (∀ d ∈ text.head?, isSpace d.1 = false) ∨
      ∃ d rest, text = d::rest ∧ isSpace d.1 = true ∧ push l text = (' ',l.2 || d.2)::rest := by
  cases text with
  | nil => exact Or.inl ⟨by simp [push,hl],by simp⟩
  | cons d rest =>
    by_cases hd : isSpace d.1 = true
    · exact Or.inr ⟨d,rest,rfl,hd,by simp [push,hl,hd]⟩
    · rw [Bool.not_eq_true] at hd
      refine Or.inl ⟨by simp [push,hl,hd],?_⟩
      intro e he
      obtain rfl : d = e := by simpa using he
      exact hd

theorem push_nonspace {l : Letter} (hl : isSpace l.1 = false) (text : List Letter) :
    push l text = l::text := by
  simp [push,hl]

theorem inked_cons {l : Letter} {text : List Letter} :
    Inked (l::text) ↔ isWhitespace l.1 = false ∨ Inked text := by
  simp [Inked]

theorem inked_push (l : Letter) (text : List Letter) :
    Inked (push l text) ↔ isWhitespace l.1 = false ∨ Inked text := by
  by_cases hl : isSpace l.1 = true
  · have hlw : isWhitespace l.1 = true := isWhitespace_of_isSpace hl
    have hblank : isWhitespace ' ' = true := by decide
    obtain ⟨h,-⟩ | ⟨d,rest,rfl,hd,h⟩ := push_space hl text
    · simp [h,inked_cons,hlw,hblank]
    · simp [h,inked_cons,hlw,hblank,isWhitespace_of_isSpace hd]
  · rw [push_nonspace (by simpa using hl),inked_cons]

theorem inked_collapsed (text : List Letter) : Inked (text.foldr push []) ↔ Inked text := by
  induction text with
  | nil => rfl
  | cons l text ih => rw [List.foldr_cons,inked_push,inked_cons,ih]

/-- A collapsed text has no other space than a blank. -/
theorem eq_blank_of_collapsed {text : List Letter} {d : Letter} (h : d ∈ text.foldr push [])
    (hd : isSpace d.1 = true) : d.1 = ' ' := by
  induction text with
  | nil => cases h
  | cons l text ih =>
    rw [List.foldr_cons] at h
    by_cases hl : isSpace l.1 = true
    · obtain ⟨hpush,-⟩ | ⟨e,rest,htext,-,hpush⟩ := push_space hl (text.foldr push [])
      · obtain rfl | h := List.mem_cons.mp (hpush ▸ h)
        · rfl
        · exact ih h
      · obtain rfl | h := List.mem_cons.mp (hpush ▸ h)
        · rfl
        · exact ih (htext ▸ List.mem_cons_of_mem e h)
    · obtain rfl | h := List.mem_cons.mp (push_nonspace (by simpa using hl) _ ▸ h)
      · exact absurd hd hl
      · exact ih h

theorem own_collapsed {text : List Char} {d : Letter} (h : d ∈ (own text).foldr push []) :
    d.2 = false := by
  induction text generalizing d with
  | nil => cases h
  | cons c text ih =>
    change d ∈ push (c,false) ((own text).foldr push []) at h
    by_cases hc : isSpace c = true
    · obtain ⟨hpush,-⟩ | ⟨e,rest,htext,-,hpush⟩ := push_space (l := (c,false)) hc
        ((own text).foldr push [])
      · obtain rfl | h := List.mem_cons.mp (hpush ▸ h)
        · rfl
        · exact ih h
      · obtain rfl | h := List.mem_cons.mp (hpush ▸ h)
        · have he : e.2 = false := ih (by rw [htext]; exact List.mem_cons_self)
          simpa using he
        · exact ih (htext ▸ List.mem_cons_of_mem e h)
    · obtain rfl | h := List.mem_cons.mp (push_nonspace (l := (c,false)) (by simpa using hc) _ ▸ h)
      · rfl
      · exact ih h

/-- A text of the chunk's own characters only grows at the front. -/
theorem collapsed_own_append (g text : List Char) :
    ∃ s, (own (g ++ text)).foldr push [] = s ++ (own text).foldr push [] ∧
      (Inked (own g) → Inked s) := by
  induction g with
  | nil => exact ⟨[],rfl,id⟩
  | cons c g ih =>
    obtain ⟨s,hs,hink⟩ := ih
    change ∃ s, push (c,false) ((own (g ++ text)).foldr push []) = _ ∧ (Inked ((c,false)::own g) → _)
    rw [inked_cons]
    by_cases hc : isSpace c = true
    · have hspace : isWhitespace c = false ∨ Inked (own g) → Inked s := fun h =>
        hink (h.resolve_left (by rw [isWhitespace_of_isSpace hc]; decide))
      obtain ⟨hpush,-⟩ | ⟨d,rest,htext,hd,hpush⟩ := push_space (l := (c,false)) hc
        ((own (g ++ text)).foldr push [])
      · exact ⟨(' ',false)::s,by rw [hpush,hs]; rfl,fun h => inked_cons.mpr (Or.inr (hspace h))⟩
      · have hmem : d ∈ (own (g ++ text)).foldr push [] := by simp [htext]
        have hd' : d = (' ',false) := Prod.ext (eq_blank_of_collapsed hmem hd) (own_collapsed hmem)
        refine ⟨s,?_,hspace⟩
        rw [hpush,← hs,htext,hd']
        rfl
    · refine ⟨(c,false)::s,?_,fun h => inked_cons.mpr (h.imp id hink)⟩
      rw [push_nonspace (l := (c,false)) (by simpa using hc),hs]
      rfl

/-- A text with characters put in, and the text that the scanner has instead: something else for every
blank put in, and a colon for a leader. -/
inductive Relates : List Letter → List Char → Prop
  | nil : Relates [] []
  | keep (c : Char) {t : List Letter} {r : List Char} (h : Relates t r) :
      Relates ((c,false)::t) (c::r)
  | leader {t : List Letter} {r : List Char} (h : Relates t r) :
      Relates (('․',true)::t) (':'::r)
  | comment (g : List Char) {t : List Letter} {r : List Char} (h : Relates t r) :
      Relates ((' ',true)::t) (g ++ r)

theorem Relates.inked {t : List Letter} {r : List Char} (h : Relates t r) (ht : Inked t) :
    Inked (own r) := by
  induction h with
  | nil => exact ht
  | keep c h ih => exact inked_cons.mpr ((inked_cons.mp ht).imp id ih)
  | leader h ih => exact inked_cons.mpr (Or.inl (by decide))
  | comment g h ih =>
    obtain ⟨l,hl,hink⟩ := ih ((inked_cons.mp ht).resolve_left (by decide))
    exact ⟨l,by simp only [own,List.map_append,List.mem_append]; exact Or.inr hl,hink⟩

/-- Letters of which none was put in. -/
def Untouched (w : List Letter) : Prop := ∀ l ∈ w, l.2 = false

theorem Relates.inked_collapsed {t : List Letter} {r : List Char} (h : Relates t r)
    (ht : Inked (t.foldr push [])) : Inked ((own r).foldr push []) :=
  (RagEngine.inked_collapsed _).mpr (h.inked ((RagEngine.inked_collapsed _).mp ht))

/-- Untouched letters with which the collapsed text begins, the other text begins with too. -/
theorem Relates.of_front {t : List Letter} {r : List Char} (h : Relates t r) {w b : List Letter}
    (ht : t.foldr push [] = w ++ b) (hw : Untouched w) :
    ∃ b', (own r).foldr push [] = w ++ b' ∧ (Inked b → Inked b') := by
  induction h generalizing w with
  | nil =>
    obtain ⟨rfl,rfl⟩ := List.append_eq_nil_iff.mp ht.symm
    exact ⟨[],rfl,id⟩
  | @keep c t r h ih =>
    cases w with
    | nil =>
      refine ⟨_,rfl,fun hb => ?_⟩
      rw [List.nil_append] at ht
      exact (Relates.keep c h).inked_collapsed (ht ▸ hb)
    | cons l w =>
      change push (c,false) (t.foldr push []) = l::(w ++ b) at ht
      change ∃ b', push (c,false) ((own r).foldr push []) = _ ∧ _
      have hl : l.2 = false := hw l List.mem_cons_self
      have hw' : Untouched w := fun l hl => hw l (List.mem_cons_of_mem _ hl)
      by_cases hc : isSpace c = true
      · obtain ⟨hpush,hhead⟩ | ⟨d,rest,hd,hspace,hpush⟩ := push_space (l := (c,false)) hc
          (t.foldr push [])
        · -- a blank of its own in front of what follows
          rw [hpush] at ht
          obtain ⟨rfl,htail⟩ := List.cons.inj ht
          obtain ⟨b',hb',hink⟩ := ih htail hw'
          obtain ⟨hpush',-⟩ | ⟨e,rest',he,hspace',hpush'⟩ := push_space (l := (c,false)) hc
            ((own r).foldr push [])
          · exact ⟨b',by rw [hpush',hb']; rfl,hink⟩
          · have he' : e.2 = false := own_collapsed (by rw [he]; exact List.mem_cons_self)
            cases w with
            | nil =>
              refine ⟨rest',by rw [hpush',he']; rfl,fun hb => ?_⟩
              have hinked := h.inked_collapsed (by rw [htail]; exact hb)
              rw [he,inked_cons] at hinked
              exact hinked.resolve_left (by rw [isWhitespace_of_isSpace hspace']; decide)
            | cons l' w =>
              have hl' : isSpace l'.1 = false := hhead l' (by rw [htail]; rfl)
              rw [hb'] at he
              rw [← (List.cons.inj he).1,hl'] at hspace'
              cases hspace'
        · -- the blank with which the rest begins already
          rw [hpush] at ht
          have hd' : d = l := by
            have hmem : d ∈ t.foldr push [] := by rw [hd]; exact List.mem_cons_self
            have hblank := eq_blank_of_collapsed hmem hspace
            obtain ⟨hl',-⟩ := List.cons.inj ht
            rw [← hl']
            exact Prod.ext hblank rfl
          subst hd'
          obtain ⟨b',hb',hink⟩ := ih (w := d::w) (by rw [hd,(List.cons.inj ht).2]; rfl) hw
          refine ⟨b',?_,hink⟩
          rw [hb',List.cons_append]
          have hblank : isSpace (c,false).1 = true := hc
          have hsame : (' ',d.2) = d := (List.cons.inj ht).1
          simp only [push,hblank,if_true,hspace,Bool.false_or]
          rw [hsame]
      · have hnot : isSpace c = false := by simpa using hc
        rw [push_nonspace (l := (c,false)) hnot] at ht ⊢
        obtain ⟨rfl,htail⟩ := List.cons.inj ht
        obtain ⟨b',hb',hink⟩ := ih htail fun l hl => hw l (List.mem_cons_of_mem _ hl)
        exact ⟨b',by rw [hb']; rfl,hink⟩
  | @leader t r h ih =>
    cases w with
    | nil =>
      refine ⟨_,rfl,fun hb => ?_⟩
      rw [List.nil_append] at ht
      exact (Relates.leader h).inked_collapsed (ht ▸ hb)
    | cons l w =>
      rw [List.foldr_cons,push_nonspace (by decide)] at ht
      have hl : l.2 = false := hw l List.mem_cons_self
      rw [← (List.cons.inj ht).1] at hl
      cases hl
  | @comment g t r h ih =>
    cases w with
    | nil =>
      refine ⟨_,rfl,fun hb => ?_⟩
      rw [List.nil_append] at ht
      exact (Relates.comment g h).inked_collapsed (ht ▸ hb)
    | cons l w =>
      have hl : l.2 = false := hw l List.mem_cons_self
      rw [List.foldr_cons] at ht
      obtain ⟨hpush,-⟩ | ⟨d,rest,-,-,hpush⟩ := push_space (l := (' ',true)) isSpace_blank
        (t.foldr push [])
      · rw [hpush] at ht
        rw [← (List.cons.inj ht).1] at hl
        cases hl
      · rw [hpush] at ht
        rw [← (List.cons.inj ht).1] at hl
        cases hl

/-- What stands behind the first letter of a collapsed text stood in the text before it was put in
front. -/
theorem push_inside {x l : Letter} {t a rest : List Letter} (h : push x t = l::(a ++ rest)) :
    ∃ a₀, t = a₀ ++ rest ∧ (Inked (l::a) → isWhitespace x.1 = false ∨ Inked a₀) := by
  by_cases hx : isSpace x.1 = true
  · have hblank : isWhitespace ' ' = true := by decide
    obtain ⟨hpush,-⟩ | ⟨d,tail,rfl,-,hpush⟩ := push_space hx t
    · obtain ⟨rfl,htail⟩ := List.cons.inj (hpush.symm.trans h)
      refine ⟨a,htail,fun hink => Or.inr ((inked_cons.mp hink).resolve_left ?_)⟩
      rw [hblank]
      decide
    · obtain ⟨rfl,rfl⟩ := List.cons.inj (hpush.symm.trans h)
      refine ⟨d::a,rfl,fun hink => Or.inr (inked_cons.mpr (Or.inr ?_))⟩
      refine (inked_cons.mp hink).resolve_left ?_
      rw [hblank]
      decide
  · rw [push_nonspace (by simpa using hx)] at h
    obtain ⟨rfl,htail⟩ := List.cons.inj h
    exact ⟨a,htail,inked_cons.mp⟩

/-- Untouched letters that stand somewhere in the collapsed text stand in the other text too, with
something before or behind them where there is something here. -/
theorem Relates.of_inside {t : List Letter} {r : List Char} (h : Relates t r) {a w b : List Letter}
    (ht : t.foldr push [] = a ++ (w ++ b)) (hne : w ≠ []) (hw : Untouched w) :
    ∃ a' b', (own r).foldr push [] = a' ++ (w ++ b') ∧ (Inked a → Inked a') ∧
      (Inked b → Inked b') := by
  have hgrow : ∀ (g : List Char) {x l : Letter} {t a : List Letter} {r : List Char},
      push x (t.foldr push []) = l::(a ++ (w ++ b)) →
      (isWhitespace x.1 = false → Inked (own g)) →
      (∀ {a}, t.foldr push [] = a ++ (w ++ b) → ∃ a' b', (own r).foldr push [] = a' ++ (w ++ b') ∧
        (Inked a → Inked a') ∧ (Inked b → Inked b')) →
      ∃ a' b', (own (g ++ r)).foldr push [] = a' ++ (w ++ b') ∧ (Inked (l::a) → Inked a') ∧
        (Inked b → Inked b') := by
    intro g x l t a r hpush hx ih
    obtain ⟨a₀,ht₀,hink₀⟩ := push_inside hpush
    obtain ⟨a',b',hb',hinka,hinkb⟩ := ih ht₀
    obtain ⟨s,hs,hinks⟩ := collapsed_own_append g r
    refine ⟨s ++ a',b',by rw [hs,hb',List.append_assoc],fun hink => ?_,hinkb⟩
    obtain hx' | ha := hink₀ hink
    · obtain ⟨d,hd,hdi⟩ := hinks (hx hx')
      exact ⟨d,List.mem_append_left a' hd,hdi⟩
    · obtain ⟨d,hd,hdi⟩ := hinka ha
      exact ⟨d,List.mem_append_right s hd,hdi⟩
  induction h generalizing a with
  | nil => exact absurd (List.append_eq_nil_iff.mp (List.append_eq_nil_iff.mp ht.symm).2).1 hne
  | @keep c t r h ih =>
    cases a with
    | nil =>
      obtain ⟨b',hb',hink⟩ := (Relates.keep c h).of_front (w := w) (b := b) ht hw
      exact ⟨[],b',hb',id,hink⟩
    | cons l a => exact hgrow [c] ht (fun hc => ⟨(c,false),List.mem_cons_self,hc⟩) ih
  | @leader t r h ih =>
    cases a with
    | nil =>
      obtain ⟨b',hb',hink⟩ := (Relates.leader h).of_front (w := w) (b := b) ht hw
      exact ⟨[],b',hb',id,hink⟩
    | cons l a => exact hgrow [':'] ht (fun _ => ⟨(':',false),List.mem_cons_self,by decide⟩) ih
  | @comment g t r h ih =>
    cases a with
    | nil =>
      obtain ⟨b',hb',hink⟩ := (Relates.comment g h).of_front (w := w) (b := b) ht hw
      exact ⟨[],b',hb',id,hink⟩
    | cons l a => exact hgrow g ht (fun hblank => absurd hblank (by decide)) ih

section Strip
variable {α : Type} {p : α → Bool}

/-- What is left when a text is stripped in front. -/
theorem dropWhile_eq_append_iff {text m : List α} (hm : m ≠ []) :
    (∃ a', text.dropWhile p = a' ++ m) ↔
      ∃ a, text = a ++ m ∧ ((∃ x ∈ a, p x = false) ∨ ∀ x ∈ m.head?, p x = false) := by
  induction text with
  | nil => simp [hm]
  | cons c text ih =>
    by_cases hc : p c = true
    · rw [List.dropWhile_cons_of_pos hc,ih]
      constructor
      · rintro ⟨a,rfl,hink⟩
        exact ⟨c::a,rfl,hink.imp_left fun ⟨x,hx,hpx⟩ => ⟨x,List.mem_cons_of_mem c hx,hpx⟩⟩
      · rintro ⟨a,ha,hink⟩
        cases a with
        | nil =>
          obtain rfl : c::text = m := ha
          obtain ⟨x,hx,-⟩ | hhead := hink
          · cases hx
          · exact absurd (hhead c rfl) (by simp [hc])
        | cons d a =>
          obtain ⟨rfl,rfl⟩ := List.cons.inj ha
          refine ⟨a,rfl,hink.imp_left ?_⟩
          rintro ⟨x,hx,hpx⟩
          obtain rfl | hx := List.mem_cons.mp hx
          · rw [hc] at hpx
            cases hpx
          · exact ⟨x,hx,hpx⟩
    · rw [List.dropWhile_cons_of_neg hc]
      rw [Bool.not_eq_true] at hc
      constructor
      · rintro ⟨a,ha⟩
        refine ⟨a,ha,?_⟩
        cases a with
        | nil =>
          refine Or.inr fun x hx => ?_
          rw [List.nil_append] at ha
          obtain rfl : c = x := by simpa [← ha] using hx
          exact hc
        | cons d a =>
          obtain ⟨rfl,-⟩ := List.cons.inj ha
          exact Or.inl ⟨c,List.mem_cons_self,hc⟩
      · rintro ⟨a,ha,-⟩
        exact ⟨a,ha⟩

theorem rdropWhile_eq_append_iff {text m : List α} (hm : m ≠ []) :
    (∃ b', text.rdropWhile p = m ++ b') ↔
      ∃ b, text = m ++ b ∧ ((∃ x ∈ b, p x = false) ∨ ∀ x ∈ m.getLast?, p x = false) := by
  have hrev := @dropWhile_eq_append_iff _ p text.reverse m.reverse (by simpa using hm)
  rw [List.head?_reverse] at hrev
  constructor
  · rintro ⟨b,hb⟩
    obtain ⟨a,ha,hink⟩ := hrev.mp ⟨b.reverse,by
      rw [← List.reverse_append,← hb,List.rdropWhile,List.reverse_reverse]⟩
    refine ⟨a.reverse,?_,hink.imp_left fun ⟨x,hx,hpx⟩ => ⟨x,List.mem_reverse.mpr hx,hpx⟩⟩
    rw [← List.reverse_reverse text,ha,List.reverse_append,List.reverse_reverse]
  · rintro ⟨b,rfl,hink⟩
    obtain ⟨a,ha⟩ := hrev.mpr ⟨b.reverse,List.reverse_append,
      hink.imp_left fun ⟨x,hx,hpx⟩ => ⟨x,List.mem_reverse.mpr hx,hpx⟩⟩
    refine ⟨a.reverse,?_⟩
    rw [List.rdropWhile,ha,List.reverse_append,List.reverse_reverse]

/-- What stands in a stripped text stands in the text, and where it begins or ends with what is
stripped there is something else before or behind it. -/
theorem infix_strip_iff {text w : List α} (hw : w ≠ []) :
    w <:+: (text.dropWhile p).rdropWhile p ↔ ∃ a b, text = a ++ (w ++ b) ∧
      ((∃ x ∈ a, p x = false) ∨ ∀ x ∈ w.head?, p x = false) ∧
      ((∃ x ∈ b, p x = false) ∨ ∀ x ∈ w.getLast?, p x = false) := by
  have hhead : ∀ b, (w ++ b).head? = w.head? := fun b => by
    obtain ⟨c,w,rfl⟩ := List.exists_cons_of_ne_nil hw
    rfl
  have hlast : ∀ a, (a ++ w).getLast? = w.getLast? := fun a => by
    rw [List.getLast?_append,List.getLast?_eq_some_getLast hw,Option.some_or]
  constructor
  · rintro ⟨a,b,hab⟩
    obtain ⟨b',hb',hinkb⟩ := (rdropWhile_eq_append_iff (m := a ++ w) (by simp [hw])).mp ⟨b,hab.symm⟩
    obtain ⟨a',ha',hinka⟩ := (dropWhile_eq_append_iff (m := w ++ b') (by simp [hw])).mp
      ⟨a,by rw [hb',List.append_assoc]⟩
    exact ⟨a',b',ha',hhead b' ▸ hinka,hlast a ▸ hinkb⟩
  · rintro ⟨a,b,hab,hinka,hinkb⟩
    obtain ⟨a',ha'⟩ := (dropWhile_eq_append_iff (m := w ++ b) (by simp [hw])).mpr
      ⟨a,hab,(hhead b).symm ▸ hinka⟩
    have hdrop : text.dropWhile p = a' ++ w ++ b := by rw [ha',List.append_assoc]
    obtain ⟨b',hb'⟩ := (rdropWhile_eq_append_iff (m := a' ++ w) (by simp [hw])).mpr
      ⟨b,hdrop,(hlast a').symm ▸ hinkb⟩
    exact ⟨a',b',hb'.symm⟩

end Strip

/-- Untouched letters of the stripped text stand in the scanner's text. -/
theorem Relates.infix_strip {t : List Letter} {r : List Char} (h : Relates t r) {w : List Letter}
    (hw : Untouched w) (ht : w <:+: stripLetters (t.foldr push [])) :
    w <:+: stripLetters ((own r).foldr push []) := by
  by_cases hne : w = []
  · exact hne ▸ List.nil_infix
  · obtain ⟨a,b,hab,hhead,hlast⟩ := (infix_strip_iff hne).mp ht
    obtain ⟨a',b',hab',hinka,hinkb⟩ := h.of_inside hab hne hw
    exact (infix_strip_iff hne).mpr ⟨a',b',hab',hhead.imp_left hinka,hlast.imp_left hinkb⟩

/-- A neutralised text and the scanner's text, both without comment markers: the letters of the chunk,
a broken token for a token, and a blank put in where the scanner has a blank and the inside of a
comment. -/
inductive Passes : List Letter → List Char → Prop
  | nil : Passes [] []
  | keep (c : Char) {t : List Letter} {r : List Char} (h : Passes t r) :
      Passes ((c,false)::t) (c::r)
  | token {w : List Char} {t : List Letter} {r : List Char} (hw : w ∈ TAG_TOKEN.language)
      (h : Passes t r) : Passes (BROKEN_LETTERS ++ t) (w ++ r)
  | comment {g : List Char} {t : List Letter} {r : List Char}
      (hg : g.getLast? = some ' ' ∨ g.getLast? = some '>') (h : Passes t r) :
      Passes ((' ',true)::t) (' '::(g ++ r))

theorem Passes.append {t u : List Letter} {r s : List Char} (h : Passes t r) (k : Passes u s) :
    Passes (t ++ u) (r ++ s) := by
  induction h with
  | nil => exact k
  | keep c h ih => exact .keep c ih
  | token hw h ih =>
    rw [List.append_assoc,List.append_assoc]
    exact .token hw ih
  | comment hg h ih =>
    rw [List.cons_append,List.cons_append,List.append_assoc]
    exact .comment hg ih

theorem passes_own (text : List Char) : Passes (own text) text := by
  induction text with
  | nil => exact .nil
  | cons c text ih => exact .keep c ih

section Casing
variable (casing : Casing)

theorem ascii_of_toLower {c : Char} (h : c.toLower.toNat < 128) : c.toNat < 128 := by
  obtain hc | hc := toLower_eq_or c
  · exact hc ▸ h
  · omega

theorem isAlpha_iff {c : Char} : c.isAlpha = true ↔
    (65 ≤ c.toNat ∧ c.toNat ≤ 90) ∨ (97 ≤ c.toNat ∧ c.toNat ≤ 122) := by
  simp only [Char.isAlpha,Char.isUpper,Char.isLower,Bool.or_eq_true,Bool.and_eq_true,
    decide_eq_true_eq,ge_iff_le,UInt32.le_iff_toNat_le]
  rfl

theorem isAlpha_of_toLower {c : Char} (h : c.toLower.isAlpha = true) : c.isAlpha = true := by
  obtain hc | hc := toLower_eq_or c
  · exact hc ▸ h
  · exact isAlpha_iff.mpr (Or.inl hc)

theorem lowerAt_ascii {c : Char} (hc : c.toNat < 128) (before rest : List Char) :
    casing.lowerAt before c rest = [c.toLower] := by
  have hne : c ≠ 'Σ' := by
    rintro rfl
    exact absurd hc (by decide)
  rw [Casing.lowerAt,if_neg hne,(casing.ascii c hc).1]

theorem meetsCased_cons (c : Char) (rest : List Char) : casing.meetsCased (c::rest) =
    if casing.ignorable c then casing.meetsCased rest else casing.cased c := by
  by_cases hc : casing.ignorable c = true <;> simp [Casing.meetsCased,hc]

theorem meetsCased_letter {c : Char} (hc : c.isAlpha = true) (rest : List Char) :
    casing.meetsCased (c::rest) = true := by
  have hcode := isAlpha_iff.mp hc
  obtain ⟨-,hcased,hign⟩ := casing.ascii c (by omega)
  have hign' : casing.ignorable c = false := by
    rw [hign]
    simp only [List.contains_eq_mem,List.mem_cons,List.not_mem_nil,or_false,decide_eq_false_iff_not]
    omega
  rw [meetsCased_cons,hign',hcased,hc]
  rfl

theorem meetsCased_stop {c : Char} (hc : c = ' ' ∨ c = '>') (rest : List Char) :
    casing.meetsCased (c::rest) = false := by
  obtain ⟨-,hcased,hign⟩ := casing.ascii c (by obtain rfl | rfl := hc <;> decide)
  have hcased' : casing.cased c = false := by
    rw [hcased]
    obtain rfl | rfl := hc <;> decide
  have hign' : casing.ignorable c = false := by
    rw [hign]
    obtain rfl | rfl := hc <;> decide
  simp [meetsCased_cons,hcased',hign']

/-- Only the letters next to it matter for the lower case of a character. -/
theorem lowerAt_congr {before before' rest rest' : List Char} (c : Char)
    (hb : casing.meetsCased before = casing.meetsCased before')
    (hr : casing.meetsCased rest = casing.meetsCased rest') :
    casing.lowerAt before c rest = casing.lowerAt before' c rest' := by
  rw [Casing.lowerAt,Casing.lowerAt,hb,hr]

theorem lowerCase_append (before g r : List Char) : ∃ x,
    casing.lowerCase before (g ++ r) = x ++ casing.lowerCase (g.reverse ++ before) r := by
  induction g generalizing before with
  | nil => exact ⟨[],rfl⟩
  | cons c g ih =>
    obtain ⟨x,hx⟩ := ih (c::before)
    refine ⟨casing.lowerAt before c (g ++ r) ++ x,?_⟩
    rw [List.cons_append,Casing.lowerCase,hx]
    simp

/-- Words that are in lower case and ASCII once their case is dropped. -/
theorem lowerCase_word {w v : List Char} (hw : w.map Char.toLower = v)
    (hv : ∀ c ∈ v, c.toNat < 128) (before r : List Char) :
    casing.lowerCase before (w ++ r) = v ++ casing.lowerCase (w.reverse ++ before) r := by
  subst hw
  induction w generalizing before with
  | nil => rfl
  | cons c w ih =>
    have hc : c.toNat < 128 := ascii_of_toLower (hv c.toLower (by simp))
    rw [List.cons_append,Casing.lowerCase,lowerAt_ascii casing hc,
      ih (c::before) fun d hd => hv d (List.mem_cons_of_mem _ hd)]
    simp

theorem token_letters {w : List Char} (hw : w ∈ TAG_TOKEN.language) :
    w.map Char.toLower = ['a','t','l','a','s',':','d','o','c'] := by
  have hmap := mem_language_ignoreCase.mp hw
  exact hmap.trans (by decide)

theorem Passes.meetsCased {t : List Letter} {r : List Char} (h : Passes t r) :
    casing.meetsCased (t.map Prod.fst) = casing.meetsCased r := by
  induction h with
  | nil => rfl
  | keep c h ih => rw [List.map_cons,meetsCased_cons,meetsCased_cons,ih]
  | @token w t r hw h ih =>
    have hletters := token_letters hw
    cases w with
    | nil => cases hletters
    | cons c w =>
      have hc : c.isAlpha = true := isAlpha_of_toLower (by rw [(List.cons.inj hletters).1]; decide)
      rw [List.cons_append,meetsCased_letter casing hc]
      exact meetsCased_letter casing (by decide) _
  | comment hg h ih =>
    rw [meetsCased_stop casing (Or.inl rfl),List.map_cons,meetsCased_stop casing (Or.inl rfl)]

theorem Relates.own_append {t : List Letter} {r : List Char} (h : Relates t r) (x : List Char) :
    Relates (x.map (fun c => (c,false)) ++ t) (x ++ r) := by
  induction x with
  | nil => exact h
  | cons c x ih => exact .keep c ih

theorem lowerLetters_broken (before : List Char) (t : List Letter) :
    lowerLetters casing before (BROKEN_LETTERS ++ t) =
      BROKEN_LETTERS ++ lowerLetters casing (BROKEN_TOKEN.reverse ++ before) t := by
  have hleader : ∀ before rest, casing.lowerAt before '․' rest = ['․'] := fun before rest => by
    rw [Casing.lowerAt,if_neg (by decide),casing.punctuation '․' (by decide) (by decide)]
  have hletter : ∀ c ∈ ['a','t','l','s','d','o','c'], ∀ before rest,
      casing.lowerAt before c rest = [c] := by
    intro c hc before rest
    have hcode : c.toNat < 128 ∧ c.toLower = c := by
      simp only [List.mem_cons,List.not_mem_nil,or_false] at hc
      obtain rfl | rfl | rfl | rfl | rfl | rfl | rfl := hc <;> decide
    rw [lowerAt_ascii casing hcode.1,hcode.2]
  simp [BROKEN_LETTERS,BROKEN_TOKEN,lowerLetters,hleader,hletter]

/-- In lower case the two texts still differ only where the neutraliser put something in. -/
theorem Passes.lower {t : List Letter} {r : List Char} (h : Passes t r) {before before' : List Char}
    (hb : casing.meetsCased before = casing.meetsCased before') :
    Relates (lowerLetters casing before t) (casing.lowerCase before' r) := by
  induction h generalizing before before' with
  | nil => exact .nil
  | @keep c t r h ih =>
    have hsame := lowerAt_congr casing c hb (Passes.meetsCased casing h)
    rw [lowerLetters,Casing.lowerCase,hsame]
    refine (ih ?_).own_append _
    rw [meetsCased_cons,meetsCased_cons,hb]
  | @token w t r hw h ih =>
    have hletters := token_letters hw
    rw [lowerLetters_broken,lowerCase_word casing hletters (by simp)]
    have hrest : Relates (lowerLetters casing (BROKEN_TOKEN.reverse ++ before) t)
        (casing.lowerCase (w.reverse ++ before') r) := by
      refine ih ?_
      have hlast : w.reverse.map Char.toLower = ['c','o','d',':','s','a','l','t','a'] := by
        rw [List.map_reverse,hletters]
        rfl
      obtain ⟨c,w',hw'⟩ : ∃ c w', w.reverse = c::w' := by
        cases hrev : w.reverse with
        | nil => rw [hrev] at hlast; cases hlast
        | cons c w' => exact ⟨c,w',rfl⟩
      have hc : c.isAlpha = true := by
        rw [hw'] at hlast
        exact isAlpha_of_toLower (by rw [(List.cons.inj hlast).1]; decide)
      rw [hw',List.cons_append,meetsCased_letter casing hc]
      exact meetsCased_letter casing (by decide) _
    exact .keep 'a' (.keep 't' (.keep 'l' (.keep 'a' (.keep 's' (.leader (.keep 'd' (.keep 'o'
      (.keep 'c' hrest))))))))
  | @comment g t r hg h ih =>
    obtain ⟨x,hx⟩ := lowerCase_append casing (' '::before') g r
    have hblank : ∀ before rest, casing.lowerAt before ' ' rest = [' '] := fun before rest =>
      lowerAt_ascii casing (by decide) before rest
    rw [lowerLetters,Casing.lowerCase,hblank,hblank,hx]
    refine Relates.comment (' '::x) (ih ?_)
    obtain ⟨c,g',hg',hstop⟩ : ∃ c g', g.reverse = c::g' ∧ (c = ' ' ∨ c = '>') := by
      rw [← List.head?_reverse] at hg
      cases hrev : g.reverse with
      | nil => simp [hrev] at hg
      | cons c g' => exact ⟨c,g',rfl,by simpa [hrev] using hg⟩
    rw [meetsCased_stop casing (Or.inl rfl),hg',List.cons_append,meetsCased_stop casing hstop]

end Casing

end AtlasCompliance.RagEngine
