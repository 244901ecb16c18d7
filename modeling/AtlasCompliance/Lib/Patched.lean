import AtlasCompliance.Lib.Replace

/-! Texts that differ in patches: where no word can enter a patch or begin in one, and the patches look
alike from outside, the same words stand in both. -/
namespace AtlasCompliance.Regex

universe u
variable {α : Type u}

/-- The second text is the first with some stretches exchanged for others. -/
inductive Patched (R : List α → List α → Prop) : List α → List α → Prop
  | nil : Patched R [] []
  | keep {x y : List α} (a : α) (h : Patched R x y) : Patched R (a::x) (a::y)
  | swap {s t x y : List α} (hst : R s t) (h : Patched R x y) : Patched R (s ++ x) (t ++ y)

theorem Patched.symm {R : List α → List α → Prop} {x y : List α} (h : Patched R x y) :
    Patched (fun s t => R t s) y x := by
  induction h with
  | nil => exact .nil
  | keep a h ih => exact .keep a ih
  | swap hst h ih => exact .swap hst ih

theorem Patched.mono {R S : List α → List α → Prop} (hRS : ∀ s t, R s t → S s t) {x y : List α}
    (h : Patched R x y) : Patched S x y := by
  induction h with
  | nil => exact .nil
  | keep a h ih => exact .keep a ih
  | swap hst h ih => exact .swap (hRS _ _ hst) ih

theorem Scanned.patched {r : Pattern α} (mark : List α) {before after : List α}
    {ts : List (Token α)} (h : Scanned r before after ts) :
    Patched (fun s t => (∃ before rest groups, (r.ends ⟨before,s ++ rest,[]⟩).head? =
      some ⟨s.reverse ++ before,rest,groups⟩) ∧ t = mark) after (marked mark ts) := by
  induction h with
  | done before => exact .nil
  | keep hnone hrest ih => exact .keep _ ih
  | hit hw hsome hrest ih => exact .swap ⟨⟨_,_,_,hsome⟩,rfl⟩ ih

/-- Replacing exchanges words of the pattern for the mark. -/
theorem Framed.patched {near : Option α → Option α → Bool} {K : Language α} {r : Pattern α}
    (hr : Framed near K r) (hne : [] ∉ K) (mark text : List α) :
    Patched (fun s t => s ∈ K ∧ t = mark) text (replaceAll r mark text) := by
  refine ((scanned_tokens (hr.proper hne) text).patched mark).mono ?_
  rintro s t ⟨⟨before,rest,groups,hsome⟩,rfl⟩
  obtain ⟨w,hw,hafter,-⟩ := ((hr _ _).mp (List.mem_of_mem_head? hsome)).1
  exact ⟨List.append_cancel_right hafter ▸ hw,rfl⟩

section Stands
variable {edge : Option α → Option α → Bool} {L : Language α}

/-- No word of `L` runs into the stretch, and none that stands begins in it. -/
structure Solid (edge : Option α → Option α → Bool) (L : Language α) (s : List α) : Prop where
  nonempty : s ≠ []
  enter : ∀ x y, x ++ y ∈ L → x ≠ [] → y ≠ [] → y.head? ≠ s.head?
  inside : ∀ p q, s = p ++ q → q ≠ [] → ∀ w ∈ L, ∀ before rest rest', q ++ rest = w ++ rest' →
    edge (p.reverse ++ before).head? q.head? = false

/-- Two stretches that words take no part in and that look alike from outside. -/
structure Alike (edge : Option α → Option α → Bool) (L : Language α) (s t : List α) : Prop where
  left : Solid edge L s
  right : Solid edge L t
  head : ∀ o, edge o s.head? = edge o t.head?
  last : ∀ o, edge s.getLast? o = edge t.getLast? o

theorem Alike.symm {s t : List α} (h : Alike edge L s t) : Alike edge L t s :=
  ⟨h.right,h.left,fun o => (h.head o).symm,fun o => (h.last o).symm⟩

theorem head?_append_of_ne_nil {s : List α} (hs : s ≠ []) (x : List α) :
    (s ++ x).head? = s.head? := by
  obtain ⟨a,s,rfl⟩ := List.exists_cons_of_ne_nil hs
  rfl

/-- The rest of a word that is read in one text is read in the other. -/
theorem read_of_patched {x y : List α} (h : Patched (Alike edge L) x y) {bx by' p u rest : List α}
    (hplace : ∀ o, edge bx.head? o = edge by'.head? o) (hp : p ≠ []) (hw : p ++ u ∈ L)
    (hy : y = u ++ rest) (hend : edge (u.reverse ++ by').head? rest.head? = true) :
    ∃ rest', x = u ++ rest' ∧ edge (u.reverse ++ bx).head? rest'.head? = true := by
  induction h generalizing bx by' p u with
  | nil =>
    obtain ⟨rfl,rfl⟩ := List.append_eq_nil_iff.mp hy.symm
    exact ⟨[],rfl,(hplace _).trans hend⟩
  | @keep x y a h ih =>
    cases u with
    | nil =>
      obtain rfl : a::y = rest := hy
      exact ⟨a::x,rfl,(hplace _).trans hend⟩
    | cons b u =>
      obtain ⟨rfl,htail⟩ := List.cons.inj hy
      obtain ⟨rest',rfl,hedge⟩ := @ih (a::bx) (a::by') (p ++ [a]) u (fun _ => rfl) (by simp)
        (by simpa using hw) htail (by simpa using hend)
      exact ⟨rest',rfl,by simpa using hedge⟩
  | @swap s t x y hst h ih =>
    cases u with
    | nil =>
      refine ⟨s ++ x,rfl,?_⟩
      rw [List.reverse_nil,List.nil_append] at hend ⊢
      rw [hplace,head?_append_of_ne_nil hst.left.nonempty,hst.head,
        ← head?_append_of_ne_nil hst.right.nonempty y,hy]
      exact hend
    | cons b u =>
      have hhead : (b::u).head? = t.head? := by
        rw [← head?_append_of_ne_nil hst.right.nonempty y,hy]
        rfl
      exact absurd hhead (hst.right.enter p (b::u) hw hp (by simp))

/-- A word that stands in the second text stands in the first. -/
theorem stands_of_patched (hL : [] ∉ L) {x y : List α} (h : Patched (Alike edge L) x y)
    {bx by' u v : List α} (hplace : ∀ o, edge bx.head? o = edge by'.head? o) (hy : y = u ++ v)
    (hstands : Stands edge L (u.reverse ++ by') v) :
    ∃ p q, x = p ++ q ∧ Stands edge L (p.reverse ++ bx) q := by
  obtain ⟨w,hw,rest,rfl,hstart,hend⟩ := hstands
  have hwne : w ≠ [] := fun hnil => hL (hnil ▸ hw)
  induction h generalizing bx by' u with
  | nil =>
    obtain ⟨-,hv⟩ := List.append_eq_nil_iff.mp hy.symm
    exact absurd (List.append_eq_nil_iff.mp hv).1 hwne
  | @keep x y a h ih =>
    cases u with
    | nil =>
      obtain ⟨b,w,rfl⟩ := List.exists_cons_of_ne_nil hwne
      obtain ⟨rfl,htail⟩ : a = b ∧ y = w ++ rest := List.cons.inj hy
      obtain ⟨rest',rfl,hedge⟩ := @read_of_patched _ _ _ _ _ h (a::bx) (a::by') [a] w rest
        (fun _ => rfl) (by simp) hw htail (by simpa using hend)
      refine ⟨[],a::(w ++ rest'),rfl,a::w,hw,rest',rfl,?_,by simpa using hedge⟩
      exact (hplace _).trans (by simpa using hstart)
    | cons b u =>
      obtain ⟨rfl,htail⟩ : a = b ∧ y = u ++ (w ++ rest) := List.cons.inj hy
      obtain ⟨p,q,rfl,hstands⟩ := @ih (a::bx) (a::by') u (fun _ => rfl) htail
        (by simpa using hstart) (by simpa using hend)
      exact ⟨a::p,q,rfl,by simpa using hstands⟩
  | @swap s t x y hst h ih =>
    have hlast : ∀ {m b : List α}, m ≠ [] → (m.reverse ++ b).head? = m.getLast? := by
      intro m b hm
      rw [head?_append_of_ne_nil (by simpa using hm),List.head?_reverse]
    obtain ⟨u',rfl,htail⟩ : ∃ u', u = t ++ u' ∧ y = u' ++ (w ++ rest) := by
      obtain h | ⟨m,rfl,hcut⟩ := List.append_eq_append_iff.mp hy
      · exact h
      · by_cases hm : m = []
        · subst hm
          exact ⟨[],by simp,by simpa using hcut.symm⟩
        · have hno := hst.right.inside u m rfl hm w hw by' y rest hcut.symm
          rw [← head?_append_of_ne_nil hm y,← hcut,hstart] at hno
          cases hno
    obtain ⟨p,q,rfl,hstands⟩ := @ih (s.reverse ++ bx) (t.reverse ++ by') u' (fun o => by
      rw [hlast hst.left.nonempty,hlast hst.right.nonempty,hst.last]) htail
      (by simpa using hstart) (by simpa using hend)
    exact ⟨s ++ p,q,by simp,by simpa using hstands⟩

/-- The same words stand in both texts, if any. -/
theorem free_iff_of_patched (hL : [] ∉ L) {x y : List α} (h : Patched (Alike edge L) x y) :
    Free edge L x ↔ Free edge L y := by
  constructor
  · intro hfree u v huv hstands
    obtain ⟨p,q,hpq,hstands⟩ := @stands_of_patched _ _ _ hL _ _ h [] [] u v (fun _ => rfl) huv
      (by simpa using hstands)
    exact hfree p q hpq (by simpa using hstands)
  · intro hfree u v huv hstands
    obtain ⟨p,q,hpq,hstands⟩ := @stands_of_patched _ _ _ hL _ _
      (h.symm.mono fun _ _ hst => hst.symm) [] [] u v (fun _ => rfl) huv (by simpa using hstands)
    exact hfree p q hpq (by simpa using hstands)

/-- Replacing by a mark that looks like each of the replaced words changes no standing. -/
theorem free_replaceAll_iff (hL : [] ∉ L) {near : Option α → Option α → Bool} {K : Language α}
    {r : Pattern α} {mark : List α} (hr : Framed near K r) (hK : ∀ s ∈ K, Alike edge L s mark)
    (text : List α) : Free edge L (replaceAll r mark text) ↔ Free edge L text := by
  have hne : [] ∉ K := fun hnil => (hK [] hnil).left.nonempty rfl
  have hpatched : Patched (Alike edge L) text (replaceAll r mark text) := by
    refine (hr.patched hne mark text).mono ?_
    rintro s _ ⟨hs,rfl⟩
    exact hK s hs
  exact (free_iff_of_patched hL hpatched).symm

end Stands

end AtlasCompliance.Regex
