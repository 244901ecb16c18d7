import AtlasCompliance.Lib.Scan
import AtlasCompliance.Lib.Replace

/-! The words of a text, and texts that a pattern divides: how the parts between the matches of a split
keep the words of the whole. -/
namespace AtlasCompliance.Words
open Regex

universe u
variable {α : Type u} {p : α → Bool}

/-- The maximal runs of letters outside `p`. -/
def words (p : α → Bool) (text : List α) : List (List α) :=
  (text.splitOnP p).filter fun w => !w.isEmpty

@[simp] theorem words_nil (p : α → Bool) : words p [] = [] := rfl

theorem words_append_cons (x y : List α) {a : α} (ha : p a = true) :
    words p (x ++ a::y) = words p x ++ words p y := by
  rw [words,List.splitOnP_append_cons x y ha,List.filter_append]
  rfl

theorem words_cons_of_sep (x : List α) {a : α} (ha : p a = true) : words p (a::x) = words p x := by
  simpa using words_append_cons [] x ha

theorem words_seps_append {s : List α} (hs : ∀ a ∈ s, p a = true) (x : List α) :
    words p (s ++ x) = words p x := by
  induction s with
  | nil => rfl
  | cons a s ih =>
    rw [List.cons_append,words_cons_of_sep _ (hs a List.mem_cons_self)]
    exact ih fun b hb => hs b (List.mem_cons_of_mem a hb)

/-- Separators between two texts keep their words apart. -/
theorem words_append_seps_append (x y : List α) {s : List α} (hne : s ≠ [])
    (hs : ∀ a ∈ s, p a = true) : words p (x ++ (s ++ y)) = words p x ++ words p y := by
  obtain ⟨a,s,rfl⟩ := List.exists_cons_of_ne_nil hne
  rw [List.cons_append,words_append_cons _ _ (hs a List.mem_cons_self),
    words_seps_append fun b hb => hs b (List.mem_cons_of_mem a hb)]

theorem words_append_of_seps (x : List α) {s : List α} (hs : ∀ a ∈ s, p a = true) :
    words p (x ++ s) = words p x := by
  cases s with
  | nil => rw [List.append_nil]
  | cons a s =>
    rw [words_append_cons _ _ (hs a List.mem_cons_self)]
    have hnil := words_seps_append (fun b hb => hs b (List.mem_cons_of_mem a hb)) []
    rw [List.append_nil] at hnil
    rw [hnil,words_nil,List.append_nil]

theorem words_of_free {w : List α} (hw : ∀ a ∈ w, p a = false) :
    words p w = if w.isEmpty then [] else [w] := by
  rw [words,List.splitOnP_eq_singleton hw]
  cases w <;> rfl

/-- The letters of the words are those outside `p`. -/
theorem flatten_words (x : List α) : (words p x).flatten = x.filter fun a => !p a := by
  have hempty : ∀ ws : List (List α), (ws.filter fun w => !w.isEmpty).flatten = ws.flatten := by
    intro ws
    induction ws with
    | nil => rfl
    | cons w ws ih => cases w <;> simp [ih]
  rw [words,hempty]
  induction x with
  | nil => rfl
  | cons a x ih =>
    rw [List.splitOnP_cons_eq_if_modifyHead]
    cases ha : p a with
    | true => simpa [ha] using ih
    | false =>
      obtain ⟨w,ws,hws⟩ := List.exists_cons_of_ne_nil (List.splitOnP_ne_nil p x)
      rw [hws] at ih ⊢
      simpa [ha] using ih

theorem words_ne_nil {x : List α} {a : α} (ha : a ∈ x) (hp : p a = false) : words p x ≠ [] := by
  intro h
  have hflat := flatten_words (p := p) x
  rw [h] at hflat
  have hmem : a ∈ x.filter fun a => !p a := List.mem_filter.mpr ⟨ha,by rw [hp]; rfl⟩
  rw [← hflat] at hmem
  cases hmem

theorem ne_nil_of_mem_words {x w : List α} (h : w ∈ words p x) : w ≠ [] := by
  have hne := (List.mem_filter.mp h).2
  rintro rfl
  cases hne

theorem free_of_mem_words {x w : List α} (h : w ∈ words p x) : ∀ a ∈ w, p a = false := by
  intro a ha
  have hmem : a ∈ (words p x).flatten := List.mem_flatten.mpr ⟨w,h,ha⟩
  rw [flatten_words] at hmem
  simpa using (List.mem_filter.mp hmem).2

theorem free_or_sep (p : α → Bool) (x : List α) : (∀ a ∈ x, p a = false) ∨
    ∃ y a z, (∀ b ∈ y, p b = false) ∧ p a = true ∧ x = y ++ a::z := by
  induction x with
  | nil => exact Or.inl (by simp)
  | cons c x ih =>
    cases hc : p c with
    | true => exact Or.inr ⟨[],c,x,by simp,hc,rfl⟩
    | false =>
      obtain hfree | ⟨y,a,z,hy,ha,rfl⟩ := ih
      · exact Or.inl (by simpa [hc] using hfree)
      · exact Or.inr ⟨c::y,a,z,by simpa [hc] using hy,ha,rfl⟩

/-- Induction over the separators, the first one first. -/
theorem induction_on_seps {motive : List α → Prop} (free : ∀ x, (∀ a ∈ x, p a = false) → motive x)
    (sep : ∀ y a z, (∀ b ∈ y, p b = false) → p a = true → motive z → motive (y ++ a::z))
    (x : List α) : motive x := by
  induction hn : x.length using Nat.strongRec generalizing x with
  | ind n ih =>
    obtain hfree | ⟨y,a,z,hy,ha,rfl⟩ := free_or_sep p x
    · exact free x hfree
    · rw [List.length_append,List.length_cons] at hn
      exact sep y a z hy ha (ih z.length (by omega) z rfl)

/-- The text has the word `w` between separators or the ends of the text. -/
def Stands (p : α → Bool) (x w : List α) : Prop :=
  ∃ u v, x = u ++ (w ++ v) ∧ (∀ a ∈ u.getLast?, p a = true) ∧ ∀ a ∈ v.head?, p a = true

theorem Stands.of_append {y z w : List α} {a : α} (ha : p a = true) (h : Stands p z w) :
    Stands p (y ++ a::z) w := by
  obtain ⟨u,v,rfl,hu,hv⟩ := h
  refine ⟨y ++ a::u,v,by simp,?_,hv⟩
  intro b hb
  obtain rfl | ⟨u,c,rfl⟩ := List.eq_nil_or_concat u
  · obtain rfl : a = b := by simpa using hb
    exact ha
  · obtain rfl : c = b := by simpa [List.getLast?_append,List.getLast?_cons] using hb
    exact hu c (by simp)

theorem stands_of_mem_words {x w : List α} (h : w ∈ words p x) : Stands p x w := by
  induction x using induction_on_seps (p := p) with
  | free x hfree =>
    rw [words_of_free hfree] at h
    split at h
    · cases h
    · obtain rfl := List.mem_singleton.mp h
      exact ⟨[],[],by simp,by simp,by simp⟩
  | sep y a z hy ha ih =>
    rw [words_append_cons _ _ ha,words_of_free hy] at h
    obtain h | h := List.mem_append.mp h
    · split at h
      · cases h
      · obtain rfl := List.mem_singleton.mp h
        exact ⟨[],a::z,rfl,by simp,by simpa using ha⟩
    · exact (ih h).of_append ha

/-! ### Divided texts -/

/-- A text cut into parts; `sep s rest` says that `s` may stand between a part and `rest`. -/
inductive Divided (sep : List α → List α → Prop) : List α → List (List α) → Prop
  | whole (t : List α) : Divided sep t [t]
  | part {s rest : List α} {ps : List (List α)} (t : List α) (hs : sep s rest)
      (h : Divided sep rest ps) : Divided sep (t ++ (s ++ rest)) (t::ps)

/-- What is between the parts: letters of `p`, at least one. -/
def Blank (p : α → Bool) (s : List α) : Prop := s ≠ [] ∧ ∀ a ∈ s, p a = true

/-- The text begins with no letter of `p`. -/
def Opens (p : α → Bool) (x : List α) : Prop := ∀ a ∈ x.head?, p a = false

/-- The text is not empty, and neither begins nor ends with a letter of `p`. -/
def Firm (p : α → Bool) (x : List α) : Prop := x ≠ [] ∧ Opens p x ∧ ∀ a ∈ x.getLast?, p a = false

namespace Divided
variable {sep : List α → List α → Prop} {text : List α} {ps : List (List α)}

theorem exists_cons (h : Divided sep text ps) : ∃ q qs, ps = q::qs ∧ q <+: text := by
  cases h with
  | whole => exact ⟨text,[],rfl,List.prefix_rfl⟩
  | part t hs h => exact ⟨t,_,rfl,List.prefix_append _ _⟩

theorem cons_head {q : List α} {qs : List (List α)} (a : α) (h : Divided sep text (q::qs)) :
    Divided sep (a::text) ((a::q)::qs) := by
  cases h with
  | whole => exact .whole (a::text)
  | part t hs h => exact .part (a::q) hs h

/-- The parts keep the words. -/
theorem flatMap_words (hsep : ∀ s rest, sep s rest → Blank p s) (h : Divided sep text ps) :
    ps.flatMap (words p) = words p text := by
  induction h with
  | whole t => simp
  | part t hs h ih =>
    obtain ⟨hne,hp⟩ := hsep _ _ hs
    rw [List.flatMap_cons,ih,words_append_seps_append _ _ hne hp]

theorem infix_of_mem (h : Divided sep text ps) {t : List α} (ht : t ∈ ps) : t <:+: text := by
  induction h with
  | whole t' => exact List.mem_singleton.mp ht ▸ List.infix_rfl
  | @part s rest ps t' hs h ih =>
    obtain rfl | ht := List.mem_cons.mp ht
    · exact (List.prefix_append _ _).isInfix
    · exact (ih ht).trans ⟨t' ++ s,[],by simp⟩

/-- A stretch that no separator meets lies in one part. -/
theorem exists_part (hsep : ∀ s rest, sep s rest → Blank p s) (h : Divided sep text ps) {x : List α}
    (hx : Firm p x) (hno : ∀ s rest, sep s rest → ¬ s <:+: x) (hin : x <:+: text) :
    ∃ t ∈ ps, x <:+: t := by
  obtain ⟨hne,hopen,hclose⟩ := hx
  induction h with
  | whole t => exact ⟨t,List.mem_singleton_self t,hin⟩
  | @part s rest ps t hs h ih =>
    have hblank := (hsep s rest hs).2
    obtain ⟨u,v,huv⟩ := hin
    rw [List.append_assoc] at huv
    obtain ⟨c,rfl,hc⟩ | ⟨c,rfl,hc⟩ := List.append_eq_append_iff.mp huv
    · -- the stretch begins in the part
      obtain ⟨d,rfl,hd⟩ | ⟨d,rfl,hd⟩ := List.append_eq_append_iff.mp hc
      · exact ⟨u ++ (x ++ d),List.mem_cons_self,(List.infix_append u x d).trans (by simp)⟩
      · obtain rfl | ⟨d,a,rfl⟩ := List.eq_nil_or_concat d
        · exact ⟨u ++ c,List.mem_cons_self,⟨u,[],by simp⟩⟩
        · obtain ⟨e,he,-⟩ | ⟨e,he,-⟩ := List.append_eq_append_iff.mp hd
          · exact absurd ⟨c,e,by rw [he,List.append_assoc]⟩ (hno s rest hs)
          · have ha := hblank a (by rw [he]; simp)
            rw [hclose a (by simp)] at ha
            cases ha
    · -- the stretch begins behind the part
      obtain ⟨d,rfl,hd⟩ | ⟨d,rfl,hd⟩ := List.append_eq_append_iff.mp hc
      · obtain ⟨t',ht',hin⟩ := ih ⟨d,v,by rw [hd,List.append_assoc]⟩
        exact ⟨t',List.mem_cons_of_mem _ ht',hin⟩
      · cases d with
        | nil =>
          obtain ⟨t',ht',hin⟩ := ih ⟨[],v,by simpa using hd⟩
          exact ⟨t',List.mem_cons_of_mem _ ht',hin⟩
        | cons a d =>
          obtain ⟨b,x,rfl⟩ := List.exists_cons_of_ne_nil hne
          obtain ⟨rfl,-⟩ := List.cons.inj hd
          have hb := hblank b (by simp)
          rw [hopen b rfl] at hb
          cases hb

/-- Separators that leave nothing of `p` behind: the parts begin where the text does, or with another
letter. -/
theorem opens (hsep : ∀ s rest, sep s rest → Opens p rest) (hopen : Opens p text)
    (h : Divided sep text ps) : ∀ t ∈ ps, Opens p t := by
  induction h with
  | whole t => simpa using hopen
  | @part s rest ps t hs h ih =>
    intro t' ht'
    obtain rfl | ht' := List.mem_cons.mp ht'
    · intro a ha
      refine hopen a ?_
      rw [List.head?_append,Option.mem_def.mp ha]
      rfl
    · exact ih (hsep s rest hs) t' ht'

/-- Then only parts at the end are empty. -/
theorem rdropWhile_eq_filter (hsep : ∀ s rest, sep s rest → Blank p s ∧ Opens p rest)
    (hopen : Opens p text) (h : Divided sep text ps) :
    ps.rdropWhile List.isEmpty = ps.filter fun t => !t.isEmpty := by
  induction h with
  | whole t => cases t <;> simp [List.rdropWhile_singleton]
  | @part s rest ps t hs h ih =>
    obtain ⟨⟨hne,hp⟩,hrest⟩ := hsep s rest hs
    obtain ⟨b,s,rfl⟩ := List.exists_cons_of_ne_nil hne
    cases t with
    | nil =>
      have hb := hopen b rfl
      rw [hp b List.mem_cons_self] at hb
      cases hb
    | cons a t =>
      rw [List.rdropWhile,List.reverse_cons,List.dropWhile_append]
      have htail := ih hrest
      rw [List.rdropWhile] at htail
      split
      · rename_i hempty
        rw [List.isEmpty_iff.mp hempty] at htail
        simp [← htail]
      · rw [List.reverse_append,htail]
        simp

end Divided

/-! ### Splitting at a pattern -/

variable {r : Pattern α} {before after : List α} {ts : List (Token α)}

theorem divided_parts {sep : List α → List α → Prop} (h : Scanned r before after ts)
    (hsep : ∀ before w rest groups, w ≠ [] →
      (r.ends ⟨before,w ++ rest,[]⟩).head? = some ⟨w.reverse ++ before,rest,groups⟩ → sep w rest) :
    Divided sep after (parts ts) := by
  induction h with
  | done before => exact .whole []
  | @keep before rest a ts hnone hrest ih =>
    obtain ⟨q,qs,hparts,-⟩ := ih.exists_cons
    rw [parts,hparts]
    rw [hparts] at ih
    exact ih.cons_head a
  | @hit before w rest groups ts hw hsome hrest ih =>
    exact .part [] (hsep before w rest groups hw hsome) ih

/-- At no place of `t`, read behind `before`, the pattern matches the text that goes on there. -/
def Unmatched (r : Pattern α) (before t : List α) : Prop :=
  ∀ u v, t = u ++ v → v ≠ [] → ∃ rest, r.ends ⟨u.reverse ++ before,v ++ rest,[]⟩ = []

/-- The parts have no match. -/
theorem unmatched_parts (h : Scanned r before after ts) : ∃ q qs, parts ts = q::qs ∧ q <+: after ∧
    Unmatched r before q ∧ ∀ t ∈ qs, ∃ before', Unmatched r before' t := by
  induction h with
  | done before =>
    refine ⟨[],[],rfl,List.prefix_rfl,?_,by simp⟩
    intro u v huv hv
    exact absurd (List.append_eq_nil_iff.mp huv.symm).2 hv
  | @keep before rest a ts hnone hrest ih =>
    obtain ⟨q,qs,hparts,⟨z,hz⟩,hq,hqs⟩ := ih
    refine ⟨a::q,qs,by rw [parts,hparts],⟨z,by rw [List.cons_append,hz]⟩,?_,hqs⟩
    intro u v huv hv
    cases u with
    | nil =>
      obtain rfl : a::q = v := huv
      exact ⟨z,by simpa [hz] using hnone⟩
    | cons b u =>
      obtain ⟨rfl,hqv⟩ := List.cons.inj huv
      obtain ⟨z',hz'⟩ := hq u v hqv hv
      exact ⟨z',by simpa using hz'⟩
  | @hit before w rest groups ts hw hsome hrest ih =>
    obtain ⟨q,qs,hparts,-,hq,hqs⟩ := ih
    refine ⟨[],q::qs,by rw [parts,hparts],List.nil_prefix,?_,?_⟩
    · intro u v huv hv
      exact absurd (List.append_eq_nil_iff.mp huv.symm).2 hv
    · intro t ht
      obtain rfl | ht := List.mem_cons.mp ht
      · exact ⟨_,hq⟩
      · exact hqs t ht

/-- A pattern without conditions on its place matches inside no part. -/
theorem not_infix_parts (hr : r.Plain) (h : Scanned r before after ts) {t : List α}
    (ht : t ∈ parts ts) {w : List α} (hw : w ∈ r.language) (hne : w ≠ []) : ¬ w <:+: t := by
  obtain ⟨q,qs,hparts,-,hq,hqs⟩ := unmatched_parts h
  have hall : ∃ before', Unmatched r before' t := by
    rw [hparts] at ht
    obtain rfl | ht := List.mem_cons.mp ht
    · exact ⟨before,hq⟩
    · exact hqs t ht
  obtain ⟨before',hno⟩ := hall
  rintro ⟨u,v,huv⟩
  obtain ⟨rest,hrest⟩ := hno u (w ++ v) (by rw [← huv,List.append_assoc]) (by simp [hne])
  have hmem := (mem_ends hr (c := ⟨u.reverse ++ before',w ++ v ++ rest,[]⟩)
    (d := ⟨w.reverse ++ (u.reverse ++ before'),v ++ rest,[]⟩)).mpr
    ⟨w,hw,by rw [List.append_assoc],rfl,rfl⟩
  rw [hrest] at hmem
  cases hmem

variable {text : List α}

theorem split_cases (r : Pattern α) (text : List α) :
    (∃ t, parts (tokens r text) = [t] ∧ split r text = [t]) ∨
      split r text = (parts (tokens r text)).rdropWhile List.isEmpty := by
  rw [split]
  split
  · rename_i t ht
    exact Or.inl ⟨t,ht,rfl⟩
  · exact Or.inr rfl

theorem mem_parts_of_mem_split {t : List α} (ht : t ∈ split r text) : t ∈ parts (tokens r text) := by
  obtain ⟨q,hparts,hsplit⟩ | hsplit := split_cases r text
  · rwa [hparts,← hsplit]
  · rw [hsplit] at ht
    exact (List.rdropWhile_prefix _ _).subset ht

/-- Only empty parts are dropped at the end. -/
theorem split_append (r : Pattern α) (text : List α) :
    ∃ es, split r text ++ es = parts (tokens r text) ∧ ∀ e ∈ es, e = [] := by
  obtain ⟨q,hparts,hsplit⟩ | hsplit := split_cases r text
  · exact ⟨[],by rw [hparts,hsplit,List.append_nil],by simp⟩
  · refine ⟨(parts (tokens r text)).rtakeWhile List.isEmpty,?_,?_⟩
    · rw [hsplit,List.rdropWhile_append_rtakeWhile]
    · intro e he
      exact List.isEmpty_iff.mp (List.mem_rtakeWhile_imp he)

theorem mem_split_of_mem_parts {t : List α} (ht : t ∈ parts (tokens r text)) (hne : t ≠ []) :
    t ∈ split r text := by
  obtain ⟨es,hes,hempty⟩ := split_append r text
  rw [← hes] at ht
  obtain ht | ht := List.mem_append.mp ht
  · exact ht
  · exact absurd (hempty t ht) hne

theorem split_flatMap_words {sep : List α → List α → Prop}
    (hsep : ∀ s rest, sep s rest → Blank p s) (h : Divided sep text (parts (tokens r text))) :
    (split r text).flatMap (words p) = words p text := by
  obtain ⟨es,hes,hempty⟩ := split_append r text
  have hnil : es.flatMap (words p) = [] :=
    List.flatMap_eq_nil_iff.mpr fun e he => by rw [hempty e he,words_nil]
  have hwords := h.flatMap_words hsep
  rwa [← hes,List.flatMap_append,hnil,List.append_nil] at hwords

/-- A text that opens with no separator is split into parts of which none is empty. -/
theorem split_ne_nil {sep : List α → List α → Prop}
    (hsep : ∀ s rest, sep s rest → Blank p s ∧ Opens p rest) (hne : text ≠ [])
    (hopen : Opens p text) (h : Divided sep text (parts (tokens r text))) :
    ∀ t ∈ split r text, t ≠ [] := by
  intro t ht
  obtain ⟨q,hparts,hsplit⟩ | hsplit := split_cases r text
  · rw [hparts] at h
    rw [hsplit] at ht
    obtain rfl := List.mem_singleton.mp ht
    cases h with
    | whole => exact hne
    | part _ _ h =>
      obtain ⟨_,_,hcons,-⟩ := h.exists_cons
      cases hcons
  · rw [hsplit,h.rdropWhile_eq_filter hsep hopen] at ht
    simpa using (List.mem_filter.mp ht).2

theorem split_of_noMatch (h : NoMatch r text) : split r text = [text] := by
  have hparts : ∀ x : List α, parts (x.map Token.keep) = [x] := by
    intro x
    induction x with
    | nil => rfl
    | cons a x ih => rw [List.map_cons,parts,ih]
  rw [split,h.tokens_eq,hparts]

end AtlasCompliance.Words
