import AtlasCompliance.Lib.Tagged

/-! Deleting matches from a text whose letters carry their places: what stands in the remaining text on
places that follow each other stood in the whole text. -/
namespace AtlasCompliance.Regex

universe u v
variable {α : Type u} {β : Type v}

/-! ### The first and the last letter of a match -/

/-- The first letter that the pattern reads is there and satisfies `q`. -/
def Pattern.First (q : α → Prop) : Pattern α → Prop
  | .sat p => ∀ a, p a = true → q a
  | .seq r _ => r.First q
  | .alt r s => r.First q ∧ s.First q
  | .empty | .star _ _ | .look _ | .group _ _ | .backref _ _ => False

/-- The last letter that the pattern reads is there and satisfies `q`. -/
def Pattern.Last (q : α → Prop) : Pattern α → Prop
  | .sat p => ∀ a, p a = true → q a
  | .seq r s => s.Last q ∨ (r.Last q ∧ s.Only q)
  | .alt r s => r.Last q ∧ s.Last q
  | .empty | .star _ _ | .look _ | .group _ _ | .backref _ _ => False

theorem Pattern.Only.plain {q : α → Prop} {r : Pattern α} (h : r.Only q) : r.Plain := by
  induction r with
  | empty | sat p => trivial
  | seq r s ihr ihs | alt r s ihr ihs => exact ⟨ihr h.1,ihs h.2⟩
  | star greedy r ih => exact ih h
  | look p | group n r ih | backref same n => cases h

theorem Pattern.First.head {q : α → Prop} {r : Pattern α} (h : r.First q) {c d : Cursor α}
    (hd : d ∈ r.ends c) : ∃ a, c.after.head? = some a ∧ q a ∧ d.after.length < c.after.length := by
  induction r generalizing c d with
  | sat p =>
    obtain ⟨before,after,groups⟩ := c
    cases after with
    | nil => simp [Pattern.ends] at hd
    | cons a rest =>
      by_cases ha : p a = true
      · obtain rfl : d = _ := by simpa [Pattern.ends,ha] using hd
        exact ⟨a,rfl,h a ha,by simp⟩
      · simp [Pattern.ends,ha] at hd
  | seq r s ihr ihs =>
    obtain ⟨e,he,hd⟩ := List.mem_flatMap.mp hd
    obtain ⟨a,ha,hq,hlt⟩ := ihr h he
    obtain ⟨w,hw,-⟩ := ends_moves hd
    have hle : d.after.length ≤ e.after.length := by simp [hw]
    exact ⟨a,ha,hq,by omega⟩
  | alt r s ihr ihs =>
    obtain hd | hd := List.mem_append.mp hd
    · exact ihr h.1 hd
    · exact ihs h.2 hd
  | empty | star greedy r ih | look p | group n r ih | backref same n => cases h

theorem Pattern.First.proper {q : α → Prop} {r : Pattern α} (h : r.First q) : r.Proper := by
  intro c d hd
  obtain ⟨a,-,-,hlt⟩ := h.head hd
  exact hlt

theorem Pattern.Last.last {q : α → Prop} {r : Pattern α} (h : r.Last q) {c d : Cursor α}
    (hd : d ∈ r.ends c) : ∃ a, d.before.head? = some a ∧ q a := by
  induction r generalizing c d with
  | sat p =>
    obtain ⟨before,after,groups⟩ := c
    cases after with
    | nil => simp [Pattern.ends] at hd
    | cons a rest =>
      by_cases ha : p a = true
      · obtain rfl : d = _ := by simpa [Pattern.ends,ha] using hd
        exact ⟨a,rfl,h a ha⟩
      · simp [Pattern.ends,ha] at hd
  | seq r s ihr ihs =>
    obtain ⟨e,he,hd⟩ := List.mem_flatMap.mp hd
    obtain h | ⟨hr,hs⟩ := h
    · exact ihs h hd
    · obtain ⟨a,ha,hq⟩ := ihr hr he
      obtain ⟨w,hw,-,hbefore,-⟩ := (mem_ends hs.plain).mp hd
      cases hlast : w.reverse with
      | nil => exact ⟨a,by rw [hbefore,hlast]; exact ha,hq⟩
      | cons b v =>
        have hb : b ∈ w := List.mem_reverse.mp (hlast ▸ List.mem_cons_self)
        exact ⟨b,by rw [hbefore,hlast]; rfl,hs.letters hw b hb⟩
  | alt r s ihr ihs =>
    obtain hd | hd := List.mem_append.mp hd
    · exact ihr h.1 hd
    · exact ihs h.2 hd
  | empty | star greedy r ih | look p | group n r ih | backref same n => cases h

theorem Pattern.First.comap {q : α → Prop} {r : Pattern α} (h : r.First q) (f : β → α) :
    (r.comap f).First fun b => q (f b) := by
  induction r with
  | sat p => exact fun b hb => h (f b) hb
  | seq r s ihr ihs => exact ihr h
  | alt r s ihr ihs => exact ⟨ihr h.1,ihs h.2⟩
  | empty | star greedy r ih | look p | group n r ih | backref same n => cases h

theorem Pattern.Only.comap {q : α → Prop} {r : Pattern α} (h : r.Only q) (f : β → α) :
    (r.comap f).Only fun b => q (f b) := by
  induction r with
  | empty => trivial
  | sat p => exact fun b hb => h (f b) hb
  | seq r s ihr ihs | alt r s ihr ihs => exact ⟨ihr h.1,ihs h.2⟩
  | star greedy r ih => exact ih h
  | look p | group n r ih | backref same n => cases h

theorem Pattern.Last.comap {q : α → Prop} {r : Pattern α} (h : r.Last q) (f : β → α) :
    (r.comap f).Last fun b => q (f b) := by
  induction r with
  | sat p => exact fun b hb => h (f b) hb
  | seq r s ihr ihs =>
    obtain h | ⟨hr,hs⟩ := h
    · exact Or.inl (ihs h)
    · exact Or.inr ⟨ihr hr,hs.comap f⟩
  | alt r s ihr ihs => exact ⟨ihr h.1,ihs h.2⟩
  | empty | star greedy r ih | look p | group n r ih | backref same n => cases h

theorem Pattern.last_times {q : α → Prop} {p : α → Bool} (h : ∀ a, p a = true → q a) (n : ℕ) :
    (Pattern.times (n + 1) (.sat p)).Last q := by
  induction n with
  | zero => exact Or.inr ⟨h,trivial⟩
  | succ n ih => exact Or.inl ih

/-! ### Deletions -/

/-- The second text is the first without some stretches, each of which begins with an `o` letter and
ends with a `c` letter. -/
inductive Cut (o c : β → Prop) : List β → List β → Prop
  | nil : Cut o c [] []
  | keep {x y : List β} (a : β) (h : Cut o c x y) : Cut o c (a::x) (a::y)
  | drop {s x y : List β} (hfirst : ∃ a, s.head? = some a ∧ o a)
      (hlast : ∃ a, s.getLast? = some a ∧ c a) (h : Cut o c x y) : Cut o c (s ++ x) y

theorem cut_replaceAll {o c : β → Prop} {r : Pattern β} (hfirst : r.First o) (hlast : r.Last c)
    (text : List β) : Cut o c text (replaceAll r [] text) := by
  have hscan : ∀ {before after ts}, Scanned r before after ts →
      Cut o c after (marked [] ts) := by
    intro before after ts h
    induction h with
    | done before => exact .nil
    | keep hnone hrest ih => exact .keep _ ih
    | hit hw hsome hrest ih =>
      have hmem := List.mem_of_mem_head? hsome
      obtain ⟨a,ha,hoa,-⟩ := hfirst.head hmem
      obtain ⟨b,hb,hcb⟩ := hlast.last hmem
      obtain ⟨x,w,rfl⟩ := List.exists_cons_of_ne_nil hw
      refine .drop ⟨a,ha,hoa⟩ ⟨b,?_,hcb⟩ ih
      rw [← hb,List.getLast?_eq_head?_reverse]
      cases hrev : (x::w).reverse with
      | nil => simp at hrev
      | cons y v => rfl
  exact hscan (scanned_tokens hfirst.proper text)

theorem Cut.sublist {o c : β → Prop} {x y : List β} (h : Cut o c x y) : y.Sublist x := by
  induction h with
  | nil => exact List.Sublist.refl _
  | keep a h ih => exact ih.cons_cons a
  | drop hfirst hlast h ih => exact ih.trans (List.sublist_append_right _ _)

section Places
variable {o c : α × ℕ → Prop}

/-- Places that follow each other. -/
def Contiguous (w : List (α × ℕ)) : Prop := w.IsChain fun a b => b.2 = a.2 + 1

/-- Letters at places further and further on. -/
def Onward (x : List (α × ℕ)) : Prop := x.Pairwise fun a b => a.2 < b.2

theorem onward_zipIdx (text : List α) (n : ℕ) : Onward (text.zipIdx n) := by
  induction text generalizing n with
  | nil => exact List.Pairwise.nil
  | cons a text ih =>
    refine List.Pairwise.cons ?_ (ih (n + 1))
    intro b hb
    have hle := (List.mem_zipIdx hb).1
    exact hle

theorem Onward.sublist {x y : List (α × ℕ)} (h : Onward x) (hxy : y.Sublist x) : Onward y :=
  List.Pairwise.sublist hxy h

/-- From outside a place looks as before, or the letter there begins a deleted stretch. -/
def Borders (p : α × ℕ → Prop) (kept was : Option (α × ℕ)) : Prop :=
  was = kept ∨ ∃ a, was = some a ∧ p a

theorem Cut.borders {x y : List (α × ℕ)} (h : Cut o c x y) : Borders o y.head? x.head? := by
  cases h with
  | nil => exact Or.inl rfl
  | keep a h => exact Or.inl rfl
  | drop hfirst hlast h =>
    obtain ⟨a,ha,hoa⟩ := hfirst
    exact Or.inr ⟨a,by simp [List.head?_append,ha],hoa⟩

/-- What follows a kept letter place by place was there in one piece. -/
theorem Cut.read {x y : List (α × ℕ)} (h : Cut o c x y) {b : α × ℕ} (honward : Onward (b::x))
    {w v : List (α × ℕ)} (hw : Contiguous (b::w)) (hy : y = w ++ v) :
    ∃ v', x = w ++ v' ∧ Borders o v.head? v'.head? := by
  induction w generalizing x y b with
  | nil =>
    obtain rfl : y = v := hy
    exact ⟨x,rfl,h.borders⟩
  | cons a w ih =>
    obtain ⟨hnext,hw'⟩ := List.isChain_cons_cons.mp hw
    cases h with
    | nil => cases hy
    | @keep x y d h =>
      obtain ⟨rfl,htail⟩ := List.cons.inj hy
      obtain ⟨v',rfl,hborder⟩ := ih h (List.pairwise_cons.mp honward).2 hw' htail
      exact ⟨v',rfl,hborder⟩
    | @drop s x y hfirst hlast h =>
      exfalso
      obtain ⟨d,hd,-⟩ := hfirst
      obtain ⟨s,rfl⟩ : ∃ s', s = d::s' := List.head?_eq_some_iff.mp hd
      have ha : a ∈ x := h.sublist.subset (hy ▸ List.mem_cons_self)
      have hbd := (List.pairwise_cons.mp honward).1 d List.mem_cons_self
      have hda := (List.pairwise_cons.mp (List.pairwise_cons.mp honward).2).1 a
        (List.mem_append_right s ha)
      omega

/-- What stands in the remaining text on places that follow each other stood in the whole one, between
letters that look the same or are those of deleted stretches. -/
theorem Cut.stands {x y : List (α × ℕ)} (h : Cut o c x y) (honward : Onward x)
    {before before' : Option (α × ℕ)} (hplace : Borders c before' before) {u w v : List (α × ℕ)}
    (hne : w ≠ []) (hw : Contiguous w) (hy : y = u ++ (w ++ v)) :
    ∃ u' v', x = u' ++ (w ++ v') ∧ Borders o v.head? v'.head? ∧
      Borders c (u.getLast?.or before') (u'.getLast?.or before) := by
  induction h generalizing before before' u with
  | nil => exact absurd (List.append_eq_nil_iff.mp (List.append_eq_nil_iff.mp hy.symm).2).1 hne
  | @keep x y a h ih =>
    cases u with
    | nil =>
      obtain ⟨b,w,rfl⟩ := List.exists_cons_of_ne_nil hne
      obtain ⟨rfl,htail⟩ : a = b ∧ y = w ++ v := List.cons.inj hy
      obtain ⟨v',rfl,hborder⟩ := h.read honward hw htail
      exact ⟨[],v',rfl,hborder,by simpa using hplace⟩
    | cons b u =>
      obtain ⟨rfl,htail⟩ : a = b ∧ y = u ++ (w ++ v) := List.cons.inj hy
      obtain ⟨u',v',rfl,hborder,hleft⟩ := @ih (List.pairwise_cons.mp honward).2 (some a) (some a)
        (Or.inl rfl) u htail
      refine ⟨a::u',v',rfl,hborder,?_⟩
      simpa [List.getLast?_cons] using hleft
  | @drop s x y hfirst hlast h ih =>
    obtain ⟨d,hd,hcd⟩ := hlast
    obtain ⟨u',v',rfl,hborder,hleft⟩ := @ih (List.pairwise_append.mp honward).2.1 (some d) before'
      (Or.inr ⟨d,rfl,hcd⟩) u hy
    refine ⟨s ++ u',v',by simp,hborder,?_⟩
    simpa [List.getLast?_append,hd] using hleft

end Places

end AtlasCompliance.Regex
