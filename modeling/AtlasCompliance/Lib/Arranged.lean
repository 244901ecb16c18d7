import Mathlib

/-! Arranging a list: stably by a key, and by a permutation of its positions. -/
namespace AtlasCompliance.Arranged

universe u v
variable {α : Type u} {κ : Type v}

section Keys
variable [LinearOrder κ] (key : α → κ)

/-- Not behind another element by the key. -/
def ordered (a b : α) : Bool := decide (key a ≤ key b)

/-- Sorted by a key, equal keys in the order they had. -/
def sortBy (xs : List α) : List α := xs.mergeSort (ordered key)

variable {key}

theorem ordered_iff {a b : α} : ordered key a b = true ↔ key a ≤ key b := by simp [ordered]

theorem ordered_trans (a b c : α) (hab : ordered key a b = true) (hbc : ordered key b c = true) :
    ordered key a c = true :=
  ordered_iff.mpr ((ordered_iff.mp hab).trans (ordered_iff.mp hbc))

theorem ordered_total (a b : α) : (ordered key a b || ordered key b a) = true := by
  rw [Bool.or_eq_true,ordered_iff,ordered_iff]
  exact le_total (key a) (key b)

theorem sortBy_perm (xs : List α) : (sortBy key xs).Perm xs := List.mergeSort_perm _ _

theorem sortBy_pairwise (xs : List α) : (sortBy key xs).Pairwise fun a b => key a ≤ key b :=
  (List.pairwise_mergeSort ordered_trans ordered_total xs).imp ordered_iff.mp

/-- The keys in their order depend on no order of the list. -/
theorem map_sortBy_of_perm {xs ys : List α} (h : xs.Perm ys) :
    (sortBy key xs).map key = (sortBy key ys).map key := by
  have hperm : ((sortBy key xs).map key).Perm ((sortBy key ys).map key) :=
    (((sortBy_perm xs).trans h).trans (sortBy_perm ys).symm).map key
  exact hperm.eq_of_pairwise (fun a b _ _ hab hba => le_antisymm hab hba)
    (List.pairwise_map.mpr (sortBy_pairwise xs)) (List.pairwise_map.mpr (sortBy_pairwise ys))

/-- Where the keys are distinct, neither does the sorted list. -/
theorem sortBy_eq_of_perm {xs ys : List α} (h : xs.Perm ys) (hkeys : (xs.map key).Nodup) :
    sortBy key xs = sortBy key ys := by
  have hperm : (sortBy key xs).Perm (sortBy key ys) :=
    ((sortBy_perm xs).trans h).trans (sortBy_perm ys).symm
  refine hperm.eq_of_pairwise (fun a b ha hb hab hba => ?_) (sortBy_pairwise xs) (sortBy_pairwise ys)
  have hmema : a ∈ xs := (sortBy_perm xs).mem_iff.mp ha
  have hmemb : b ∈ xs := h.mem_iff.mpr ((sortBy_perm ys).mem_iff.mp hb)
  exact List.inj_on_of_nodup_map hkeys hmema hmemb (le_antisymm hab hba : key a = key b)

/-- Sorting keeps the order of the elements with one key. -/
theorem filter_sortBy (k : κ) (xs : List α) :
    (sortBy key xs).filter (fun a => key a = k) = xs.filter fun a => key a = k := by
  have hequal : (xs.filter fun a => key a = k).Pairwise fun a b => ordered key a b = true := by
    refine List.pairwise_of_forall_mem_list fun a ha b hb => ?_
    have hka : key a = k := by simpa using (List.mem_filter.mp ha).2
    have hkb : key b = k := by simpa using (List.mem_filter.mp hb).2
    exact ordered_iff.mpr (hka.trans hkb.symm).le
  have hsublist := List.sublist_mergeSort ordered_trans ordered_total hequal List.filter_sublist
  have hfiltered := hsublist.filter fun a => decide (key a = k)
  rw [List.filter_filter] at hfiltered
  simp only [Bool.and_self] at hfiltered
  refine (hfiltered.eq_of_length ?_).symm
  exact (((sortBy_perm xs).filter _).length_eq).symm

end Keys

/-! ### Permuted positions -/

/-- A permutation of positions for each length. -/
abbrev Shuffle : Type := (n : ℕ) → Equiv.Perm (Fin n)

/-- The list with its positions permuted. -/
def shuffled (σ : Shuffle) (xs : List α) : List α := List.ofFn (xs.get ∘ σ xs.length)

theorem shuffled_perm (σ : Shuffle) (xs : List α) : (shuffled σ xs).Perm xs := by
  have hperm := (σ xs.length).ofFn_comp_perm xs.get
  rwa [List.ofFn_get] at hperm

@[simp] theorem length_shuffled (σ : Shuffle) (xs : List α) : (shuffled σ xs).length = xs.length :=
  List.length_ofFn

theorem shuffled_one (xs : List α) : shuffled (fun _ => 1) xs = xs := List.ofFn_get xs

/-- Two positions can be brought to any two others. -/
theorem exists_perm {n : ℕ} {a b i j : Fin n} (hab : a ≠ b) (hij : i ≠ j) :
    ∃ σ : Equiv.Perm (Fin n), σ a = i ∧ σ b = j := by
  have hne : Equiv.swap a i b ≠ i := by
    intro heq
    have hb := congrArg (Equiv.swap a i) heq
    rw [Equiv.swap_apply_self,Equiv.swap_apply_right] at hb
    exact hab hb.symm
  refine ⟨(Equiv.swap a i).trans (Equiv.swap (Equiv.swap a i b) j),?_,?_⟩
  · rw [Equiv.trans_apply,Equiv.swap_apply_left,Equiv.swap_apply_of_ne_of_ne hne.symm hij]
  · rw [Equiv.trans_apply,Equiv.swap_apply_left]

/-- Two elements at different positions can be brought to the two ends. -/
theorem exists_shuffle_ends {xs : List α} {i j : Fin xs.length} (hij : i ≠ j) :
    ∃ σ : Shuffle, (shuffled σ xs).head? = some (xs.get i) ∧
      (shuffled σ xs).getLast? = some (xs.get j) := by
  have hlength : 1 < xs.length := by
    have hne := Fin.val_ne_of_ne hij
    omega
  let first : Fin xs.length := ⟨0,by omega⟩
  let last : Fin xs.length := ⟨xs.length - 1,by omega⟩
  have hends : first ≠ last := fun heq => by
    have hval := congrArg Fin.val heq
    simp only [first,last] at hval
    omega
  obtain ⟨σ,hfirst,hlast⟩ := exists_perm hends hij
  refine ⟨fun n => if h : n = xs.length then h ▸ σ else 1,?_,?_⟩
  · rw [List.head?_eq_getElem?]
    simp only [shuffled,dif_pos,List.getElem?_ofFn]
    rw [dif_pos (by omega)]
    exact congrArg (fun p => some (xs.get p)) hfirst
  · rw [List.getLast?_eq_getElem?]
    simp only [shuffled,dif_pos,List.getElem?_ofFn,List.length_ofFn]
    rw [dif_pos (by omega)]
    exact congrArg (fun p => some (xs.get p)) hlast

end AtlasCompliance.Arranged
