import Mathlib

/-! Fusing ranked lists: every list gives an item a share that falls with its place, the shares are summed,
and the items are put in order by their sums and, where these agree, by a key. -/
namespace AtlasCompliance.RankFusion

universe u v w
variable {ι : Type u} [DecidableEq ι] {K : Type v}

/-- The item `a` stands in the list, and `b` stands somewhere below it. -/
def Above (a b : ι) (l : List ι) : Prop := ∃ x y, l = x ++ a::y ∧ b ∈ y

omit [DecidableEq ι] in
theorem Above.mem {a b : ι} {l : List ι} (h : Above a b l) : a ∈ l := by
  obtain ⟨x,y,rfl,-⟩ := h
  simp

theorem Above.idxOf_lt {a b : ι} {l : List ι} (h : Above a b l) (hl : l.Nodup) :
    l.idxOf a < l.idxOf b := by
  obtain ⟨x,y,rfl,hb⟩ := h
  obtain ⟨-,hcons,hdisjoint⟩ := List.nodup_append'.mp hl
  have ha : a ∉ x := fun hmem => hdisjoint hmem List.mem_cons_self
  have hbx : b ∉ x := fun hmem => hdisjoint hmem (List.mem_cons_of_mem a hb)
  have hab : a ≠ b := by
    rintro rfl
    exact (List.nodup_cons.mp hcons).1 hb
  rw [List.idxOf_append_of_notMem ha,List.idxOf_append_of_notMem hbx,List.idxOf_cons_self,
    List.idxOf_cons_ne _ hab]
  omega

section Shares
variable [AddCommMonoid K] (share : ℕ → K)

/-- What one list gives to an item. -/
def given (l : List ι) (a : ι) : K := if a ∈ l then share (l.idxOf a) else 0

theorem given_of_notMem {l : List ι} {a : ι} (h : a ∉ l) : given share l a = 0 := if_neg h

/-- The list's head has the first place, and every other item one place less in the tail. -/
theorem given_cons (l : List ι) (a b : ι) : given share (a::l) b =
    if b = a then share 0 else given (fun i => share (i+1)) l b := by
  unfold given
  by_cases hab : b = a
  · simp [hab]
  · simp [hab,List.idxOf_cons_ne l (Ne.symm hab)]

/-- What all lists give to an item. -/
def total (lists : List (List ι)) (a : ι) : K := (lists.map fun l => given share l a).sum

/-- The order of the lists does not matter. -/
theorem total_perm {lists lists' : List (List ι)} (h : lists.Perm lists') :
    total share lists = total share lists' := by
  funext a
  exact (h.map fun l => given share l a).sum_eq

variable [PartialOrder K] [IsOrderedCancelAddMonoid K] {share}

/-- An item that stands above another one wherever that one stands is given more. -/
theorem total_lt_total (hpos : ∀ n, 0 ≤ share n) (hanti : StrictAnti share) {lists : List (List ι)}
    {a b : ι} (hnodup : ∀ l ∈ lists, l.Nodup) (hb : ∃ l ∈ lists, b ∈ l)
    (h : ∀ l ∈ lists, b ∈ l → Above a b l) : total share lists b < total share lists a := by
  have hgiven : ∀ l ∈ lists, b ∈ l → given share l b < given share l a := by
    intro l hl hbl
    rw [given,given,if_pos hbl,if_pos (h l hl hbl).mem]
    exact hanti ((h l hl hbl).idxOf_lt (hnodup l hl))
  have hle : ∀ l ∈ lists, given share l b ≤ given share l a := by
    intro l hl
    by_cases hbl : b ∈ l
    · exact (hgiven l hl hbl).le
    · rw [given,if_neg hbl,given]
      split
      · exact hpos _
      · exact le_rfl
  obtain ⟨l,hl,hbl⟩ := hb
  exact List.sum_lt_sum _ _ hle ⟨l,hl,hgiven l hl hbl⟩

end Shares

section Order
variable {T : Type w} [LinearOrder K] [LinearOrder T] {score : ι → K} {key : ι → T}

/-- The larger score first, and of equal scores the smaller key. -/
def Before (score : ι → K) (key : ι → T) (a b : ι) : Prop :=
  score b < score a ∨ score a = score b ∧ key a < key b

omit [DecidableEq ι] in
theorem Before.asymm {a b : ι} (h : Before score key a b) : ¬ Before score key b a := by
  rintro (hlt | ⟨heq,hkey⟩)
  · obtain hlt' | ⟨heq',-⟩ := h
    · exact lt_asymm hlt hlt'
    · exact hlt.ne heq'
  · obtain hlt' | ⟨-,hkey'⟩ := h
    · exact hlt'.ne heq
    · exact lt_asymm hkey hkey'

omit [DecidableEq ι] in
/-- There is one way to put items in this order. -/
theorem eq_of_perm {l l' : List ι} (h : l.Pairwise (Before score key))
    (h' : l'.Pairwise (Before score key)) (hperm : l.Perm l') : l = l' :=
  hperm.eq_of_pairwise (fun _ _ _ _ hab hba => absurd hba hab.asymm) h h'

omit [DecidableEq ι] in
/-- What goes before another item stands above it. -/
theorem above_of_before {l : List ι} (h : l.Pairwise (Before score key)) {a b : ι} (ha : a ∈ l)
    (hb : b ∈ l) (hab : Before score key a b) : Above a b l := by
  obtain ⟨x,y,rfl⟩ := List.append_of_mem ha
  refine ⟨x,y,rfl,?_⟩
  obtain hb | hb := List.mem_append.mp hb
  · obtain ⟨-,-,hcross⟩ := List.pairwise_append.mp h
    exact absurd (hcross b hb a List.mem_cons_self) hab.asymm
  · obtain rfl | hb := List.mem_cons.mp hb
    · exact absurd hab hab.asymm
    · exact hb

end Order
end AtlasCompliance.RankFusion
