import AtlasCompliance.Lib.Replace

/-! Replacing words of one length in a text that is put together: where no word runs over the seam the
parts are replaced each on its own. -/
namespace AtlasCompliance.Regex

universe u
variable {α : Type u}

/-- The text as stretches without a match and matches in turn, and the same stretches with the mark
between them. -/
inductive Stretches (L : Language α) (mark : List α) : List α → List α → Prop
  | last (s : List α) : Stretches L mark s s
  | cons {s w x y : List α} (hw : w ∈ L) (hrest : Stretches L mark x y) :
      Stretches L mark (s ++ (w ++ x)) (s ++ (mark ++ y))

theorem Stretches.keep {L : Language α} {mark x y : List α} (a : α) (h : Stretches L mark x y) :
    Stretches L mark (a::x) (a::y) := by
  cases h with
  | last => exact .last (a::x)
  | cons hw hrest => exact Stretches.cons (s := a::_) hw hrest

theorem Scanned.stretches {edge : Option α → Option α → Bool} {L : Language α} {r : Pattern α}
    (hr : Framed edge L r) (mark : List α) {before after : List α} {ts : List (Token α)}
    (h : Scanned r before after ts) : Stretches L mark after (marked mark ts) := by
  induction h with
  | done before => exact .last []
  | keep hnone hrest ih => exact ih.keep _
  | hit hw hsome hrest ih =>
    obtain ⟨v,hv,hafter,-⟩ := ((hr _ _).mp (List.mem_of_mem_head? hsome)).1
    exact .cons (s := []) (List.append_cancel_right hafter ▸ hv) ih

theorem stretches_replaceAll {edge : Option α → Option α → Bool} {L : Language α} {r : Pattern α}
    (hr : Framed edge L r) (hne : [] ∉ L) (mark text : List α) :
    Stretches L mark text (replaceAll r mark text) :=
  (scanned_tokens (hr.proper hne) text).stretches hr mark

theorem Stretches.mem {L : Language α} {mark x y : List α} (h : Stretches L mark x y) {a : α}
    (ha : a ∈ y) : a ∈ x ∨ a ∈ mark := by
  induction h with
  | last s => exact Or.inl ha
  | cons hw hrest ih =>
    simp only [List.mem_append] at ha ⊢
    tauto

/-- A text in which no word stands is left as it is. -/
theorem Stretches.eq_of_free {L : Language α} {mark x y : List α} (h : Stretches L mark x y)
    (hfree : ∀ w ∈ L, ¬ w <:+: x) : y = x := by
  cases h with
  | last => rfl
  | @cons s w x y hw hrest => exact absurd ⟨s,x,List.append_assoc s w x⟩ (hfree w hw)

/-- The last letter of the text stays, or it is the mark's. -/
theorem Stretches.getLast? {L : Language α} {mark x y : List α} (h : Stretches L mark x y)
    (hL : [] ∉ L) (hmark : mark ≠ []) {z : α} (hz : x.getLast? = some z) :
    y.getLast? = some z ∨ y.getLast? = mark.getLast? := by
  induction h with
  | last s => exact Or.inl hz
  | @cons s w x y hw hrest ih =>
    have hsome : mark.getLast? = some (mark.getLast hmark) := List.getLast?_eq_some_getLast hmark
    by_cases hx : x = []
    · right
      have hy : y = [] := by
        cases hrest with
        | last => exact hx
        | cons hv hrest =>
          have hv' := (List.append_eq_nil_iff.mp (List.append_eq_nil_iff.mp hx).2).1
          exact absurd (hv' ▸ hv) hL
      rw [hy,List.append_nil,List.getLast?_append,hsome,Option.some_or]
    · have hxlast : x.getLast? = some z := by
        rw [List.getLast?_append,List.getLast?_append,List.getLast?_eq_some_getLast hx,
          Option.some_or,Option.some_or] at hz
        rw [List.getLast?_eq_some_getLast hx,hz]
      obtain h | h := ih hxlast
      · left
        rw [List.getLast?_append,List.getLast?_append,h,Option.some_or,Option.some_or]
      · right
        rw [List.getLast?_append,List.getLast?_append,h,hsome,Option.some_or,Option.some_or]

/-- If a letter parts what an operation does to a text, so does a word of such letters. -/
theorem append_word_of_parts {f : List α → List α} (hnil : f [] = []) {m : List α}
    (hm : ∀ a ∈ m, ∀ u v, f (u ++ a::v) = f u ++ a::f v) (hne : m ≠ []) (u v : List α) :
    f (u ++ (m ++ v)) = f u ++ (m ++ f v) := by
  induction m generalizing u with
  | nil => exact absurd rfl hne
  | cons a m ih =>
    rw [List.cons_append,hm a List.mem_cons_self]
    by_cases hempty : m = []
    · rw [hempty,List.nil_append]
      rfl
    · have hrest := ih (fun b hb => hm b (List.mem_cons_of_mem a hb)) hempty []
      rw [List.nil_append,hnil,List.nil_append] at hrest
      rw [hrest,List.cons_append]

/-- Words of one length that are not empty. -/
structure Fixed (r : Pattern α) (n : ℕ) : Prop where
  plain : r.Plain
  length : ∀ w ∈ r.language, w.length = n + 1

theorem fixed_word (same : α → α → Bool) (a : α) (w : List α) :
    Fixed (Pattern.word same (a::w)) w.length where
  plain := plain_word same (a::w)
  length _ hv := (mem_language_word.mp hv).length_eq.symm

namespace Fixed
variable {r : Pattern α} {n : ℕ}

theorem nil_not_mem (h : Fixed r n) : [] ∉ r.language := fun hnil => by
  have hlength := h.length [] hnil
  simp at hlength

theorem ne_nil (h : Fixed r n) {w : List α} (hw : w ∈ r.language) : w ≠ [] := fun hnil =>
  h.nil_not_mem (hnil ▸ hw)

theorem proper (h : Fixed r n) : r.Proper := (framed_of_plain h.plain).proper h.nil_not_mem

theorem ends_eq_nil (h : Fixed r n) {before after : List α} :
    r.ends ⟨before,after,[]⟩ = [] ↔ ∀ w ∈ r.language, ¬ w <+: after := by
  rw [← not_iff_not,← ne_eq,(framed_of_plain h.plain).ends_ne_nil]
  simp only [not_forall,not_not]
  constructor
  · rintro ⟨w,hw,rest,hrest,-⟩
    exact ⟨w,hw,rest,hrest.symm⟩
  · rintro ⟨w,hw,rest,hrest⟩
    exact ⟨w,hw,rest,hrest.symm,rfl,rfl⟩

/-- What a scan does: nothing is left, no word begins here, or one does. -/
theorem scanned_cases (h : Fixed r n) {before after : List α} {ts : List (Token α)}
    (hs : Scanned r before after ts) : (after = [] ∧ ts = []) ∨
    (∃ a rest ts', after = a::rest ∧ (∀ w ∈ r.language, ¬ w <+: after) ∧ ts = .keep a::ts' ∧
      Scanned r (a::before) rest ts') ∨
    (∃ w ∈ r.language, ∃ rest groups ts', after = w ++ rest ∧ ts = .hit w groups::ts' ∧
      Scanned r (w.reverse ++ before) rest ts') := by
  cases hs with
  | done before => exact Or.inl ⟨rfl,rfl⟩
  | keep hnone hrest => exact Or.inr (Or.inl ⟨_,_,_,rfl,h.ends_eq_nil.mp hnone,rfl,hrest⟩)
  | hit hw hsome hrest =>
    obtain ⟨v,hv,hafter,-⟩ := (mem_ends h.plain).mp (List.mem_of_mem_head? hsome)
    exact Or.inr (Or.inr ⟨_,List.append_cancel_right hafter ▸ hv,_,_,_,rfl,rfl,hrest⟩)

theorem same_of_prefix (h : Fixed r n) {w v rest rest' : List α} (hw : w ∈ r.language)
    (hv : v ∈ r.language) (heq : w ++ rest = v ++ rest') : w = v ∧ rest = rest' :=
  List.append_inj heq ((h.length w hw).trans (h.length v hv).symm)

/-- The scan does not depend on what stands behind it. -/
theorem marked_unique (h : Fixed r n) (mark : List α) {before before' after : List α}
    {ts ts' : List (Token α)} (hs : Scanned r before after ts) (hs' : Scanned r before' after ts') :
    marked mark ts = marked mark ts' := by
  induction hlen : after.length using Nat.strongRec generalizing before before' after ts ts' with
  | ind k ih =>
    obtain ⟨rfl,rfl⟩ | ⟨a,rest,us,rfl,hnone,rfl,ht⟩ | ⟨w,hw,rest,groups,us,rfl,rfl,ht⟩ :=
      h.scanned_cases hs
    · obtain ⟨-,rfl⟩ | ⟨_,_,_,h',-⟩ | ⟨w,hw,_,_,_,h',-⟩ := h.scanned_cases hs'
      · rfl
      · cases h'
      · exact absurd (List.append_eq_nil_iff.mp h'.symm).1 (h.ne_nil hw)
    · obtain ⟨h',-⟩ | ⟨b,rest',us',h',-,rfl,ht'⟩ | ⟨w,hw,rest',_,_,h',-⟩ := h.scanned_cases hs'
      · cases h'
      · obtain ⟨rfl,rfl⟩ := List.cons.inj h'
        exact congrArg (a::·) (ih _ (by simp [← hlen]) ht ht' rfl)
      · exact absurd ⟨rest',h'.symm⟩ (hnone w hw)
    · obtain ⟨h',-⟩ | ⟨_,_,_,-,hnone,-⟩ | ⟨v,hv,rest',groups',us',h',rfl,ht'⟩ :=
        h.scanned_cases hs'
      · exact absurd (List.append_eq_nil_iff.mp h').1 (h.ne_nil hw)
      · exact absurd (List.prefix_append w rest) (hnone w hw)
      · obtain ⟨rfl,rfl⟩ := h.same_of_prefix hw hv h'
        refine congrArg (mark ++ ·) (ih _ ?_ ht ht' rfl)
        rw [← hlen,List.length_append,h.length w hw]
        omega

theorem replaceAll_nil (h : Fixed r n) (mark : List α) : replaceAll r mark [] = [] := by
  rw [replaceAll_eq_marked,h.marked_unique mark (scanned_tokens h.proper []) (.done [])]
  rfl

theorem replaceAll_hit (h : Fixed r n) (mark : List α) {w : List α} (hw : w ∈ r.language)
    (rest : List α) : replaceAll r mark (w ++ rest) = mark ++ replaceAll r mark rest := by
  obtain ⟨h',-⟩ | ⟨_,_,_,-,hnone,-⟩ | ⟨v,hv,rest',groups,us,h',hts,hs⟩ :=
    h.scanned_cases (scanned_tokens h.proper (w ++ rest))
  · exact absurd (List.append_eq_nil_iff.mp h').1 (h.ne_nil hw)
  · exact absurd (List.prefix_append w rest) (hnone w hw)
  · obtain ⟨rfl,rfl⟩ := h.same_of_prefix hw hv h'
    rw [replaceAll_eq_marked,hts,replaceAll_eq_marked]
    exact congrArg (mark ++ ·) (h.marked_unique mark hs (scanned_tokens h.proper rest))

theorem replaceAll_keep (h : Fixed r n) (mark : List α) {a : α} {rest : List α}
    (hnone : ∀ w ∈ r.language, ¬ w <+: a::rest) :
    replaceAll r mark (a::rest) = a::replaceAll r mark rest := by
  obtain ⟨h',-⟩ | ⟨b,rest',us,h',-,hts,hs⟩ | ⟨w,hw,rest',_,_,h',-⟩ :=
    h.scanned_cases (scanned_tokens h.proper (a::rest))
  · cases h'
  · obtain ⟨rfl,rfl⟩ := List.cons.inj h'
    rw [replaceAll_eq_marked,hts,replaceAll_eq_marked]
    exact congrArg (a::·) (h.marked_unique mark hs (scanned_tokens h.proper rest))
  · exact absurd ⟨rest',h'.symm⟩ (hnone w hw)

/-- No word begins in the first text and ends in the second. -/
def Seam (r : Pattern α) (u v : List α) : Prop :=
  ∀ a b, a ++ b ∈ r.language → a ≠ [] → b ≠ [] → a <:+ u → ¬ b <+: v

theorem replaceAll_append (h : Fixed r n) (mark : List α) {u v : List α} (hseam : Seam r u v) :
    replaceAll r mark (u ++ v) = replaceAll r mark u ++ replaceAll r mark v := by
  induction hlen : u.length using Nat.strongRec generalizing u with
  | ind k ih =>
    cases u with
    | nil => rw [h.replaceAll_nil,List.nil_append,List.nil_append]
    | cons a u =>
      by_cases hword : ∃ w ∈ r.language, w <+: a::u
      · obtain ⟨w,hw,u',hu'⟩ := hword
        rw [← hu',List.append_assoc,h.replaceAll_hit mark hw,h.replaceAll_hit mark hw,
          ih u'.length ?_ ?_ rfl,List.append_assoc]
        · rw [← hlen,← hu',List.length_append,h.length w hw]
          omega
        · intro x y hxy hx hy hxu
          exact hseam x y hxy hx hy (hxu.trans (hu' ▸ List.suffix_append w u'))
      · have hnone : ∀ w ∈ r.language, ¬ w <+: a::(u ++ v) := by
          intro w hw hpre
          obtain hle | ⟨y,rfl⟩ := List.prefix_or_prefix_of_prefix hpre
            (List.prefix_append (a::u) v)
          · exact hword ⟨w,hw,hle⟩
          · have hy : y ≠ [] := fun hnil => hword ⟨_,hw,by simp [hnil]⟩
            exact hseam (a::u) y hw (List.cons_ne_nil a u) hy List.suffix_rfl
              ((List.prefix_append_right_inj (a::u)).mp hpre)
        have hnone' : ∀ w ∈ r.language, ¬ w <+: a::u := fun w hw hle => hword ⟨w,hw,hle⟩
        rw [List.cons_append,h.replaceAll_keep mark hnone,h.replaceAll_keep mark hnone',
          ih u.length (by simp [← hlen]) ?_ rfl,List.cons_append]
        intro x y hxy hx hy hxu
        exact hseam x y hxy hx hy (hxu.trans (List.suffix_cons a u))

/-- A letter that no word has parts the text. -/
theorem replaceAll_append_cons (h : Fixed r n) (mark : List α) {u v : List α} {x : α}
    (hx : ∀ w ∈ r.language, x ∉ w) :
    replaceAll r mark (u ++ x::v) = replaceAll r mark u ++ x::replaceAll r mark v := by
  have hstart : ∀ b : List α, b ≠ [] → b <+: x::v → x ∈ b := by
    intro b hb hpre
    obtain ⟨c,b,rfl⟩ := List.exists_cons_of_ne_nil hb
    rw [(List.cons_prefix_cons.mp hpre).1]
    exact List.mem_cons_self
  rw [h.replaceAll_append mark fun a b hab _ hb _ hpre =>
      hx _ hab (List.mem_append_right a (hstart b hb hpre)),
    h.replaceAll_keep mark fun w hw hpre => hx w hw (hstart w (h.ne_nil hw) hpre)]

end Fixed

end AtlasCompliance.Regex
