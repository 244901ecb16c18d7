import Mathlib

/-! Ranks in a list where equal elements share the average of their places. -/
namespace AtlasCompliance.Midranks

universe u
variable {α : Type u} [LinearOrder α]

/-- The elements below `x`. -/
def below (keys : List α) (x : α) : ℕ := keys.countP fun y => y < x

/-- The elements above `x`. -/
def above (keys : List α) (x : α) : ℕ := keys.countP fun y => x < y

/-- The average of the places, from 1, that the copies of `x` take in the order. -/
def midrank (keys : List α) (x : α) : ℚ := below keys x + ((keys.count x : ℚ)+1)/2

/-- The sum of `t³ - t` over the groups of `t` equal elements, one share for each element. -/
def tieTerm (keys : List α) : ℚ := (keys.map fun x => (keys.count x : ℚ)^2 - 1).sum

theorem midrank_of_perm {keys keys' : List α} (h : keys.Perm keys') :
    midrank keys = midrank keys' := by
  funext x
  simp only [midrank,below,h.countP_eq,h.count_eq]

theorem tieTerm_of_perm {keys keys' : List α} (h : keys.Perm keys') :
    tieTerm keys = tieTerm keys' := by
  simp only [tieTerm,h.count_eq]
  exact (h.map _).sum_eq

/-! ### The sum of the ranks -/

theorem below_add_count_add_above (keys : List α) (x : α) :
    below keys x + keys.count x + above keys x = keys.length := by
  induction keys with
  | nil => rfl
  | cons y keys ih =>
    simp only [below,above,List.countP_cons,List.count_cons,List.length_cons,beq_iff_eq,
      decide_eq_true_eq] at ih ⊢
    obtain h | h | h := lt_trichotomy y x
    · rw [if_pos h,if_neg h.ne,if_neg h.not_gt]
      omega
    · rw [if_neg h.not_lt,if_pos h,if_neg h.not_gt]
      omega
    · rw [if_neg h.not_gt,if_neg h.ne',if_pos h]
      omega

omit [LinearOrder α] in
/-- Pairs counted by their first or by their second element. -/
theorem sum_countP_comm (r : α → α → Bool) (xs ys : List α) :
    (xs.map fun x => ys.countP (r x)).sum = (ys.map fun y => xs.countP fun x => r x y).sum := by
  induction xs with
  | nil => simp
  | cons x xs ih =>
    have hsplit : ∀ ys : List α, (ys.map fun y => (x::xs).countP fun x => r x y).sum =
        ys.countP (r x) + (ys.map fun y => xs.countP fun x => r x y).sum := by
      intro ys
      induction ys with
      | nil => rfl
      | cons y ys ihy =>
        simp only [List.map_cons,List.sum_cons,List.countP_cons] at ihy ⊢
        omega
    rw [List.map_cons,List.sum_cons,ih,hsplit]

theorem sum_below_eq_sum_above (keys : List α) :
    (keys.map (below keys)).sum = (keys.map (above keys)).sum :=
  sum_countP_comm (fun x y => decide (y < x)) keys keys

/-- The ranks add up to what distinct elements would have. -/
theorem sum_midrank (keys : List α) :
    (keys.map (midrank keys)).sum = (keys.length : ℚ) * (keys.length+1)/2 := by
  have hconst : (keys.map fun x => below keys x + keys.count x + above keys x).sum =
      keys.length * keys.length := by
    rw [List.map_congr_left fun x _ => below_add_count_add_above keys x]
    simp
  have hparts : (keys.map (below keys)).sum + (keys.map fun x => keys.count x).sum +
      (keys.map (above keys)).sum = keys.length * keys.length := by
    rw [← hconst,← List.sum_map_add,← List.sum_map_add]
  rw [← sum_below_eq_sum_above] at hparts
  have hsum : (keys.map (midrank keys)).sum = ((keys.map (below keys)).sum : ℚ) +
      ((keys.map fun x => keys.count x).sum + keys.length)/2 := by
    have hgen : ∀ zs : List α, (zs.map (midrank keys)).sum = ((zs.map (below keys)).sum : ℚ) +
        ((zs.map fun x => keys.count x).sum + zs.length)/2 := by
      intro zs
      induction zs with
      | nil => simp
      | cons z zs ih =>
        simp only [List.map_cons,List.sum_cons,List.length_cons,ih,midrank]
        push_cast
        ring
    exact hgen keys
  have hcast : (((keys.map (below keys)).sum : ℕ) : ℚ) + ((keys.map fun x => keys.count x).sum : ℕ) +
      ((keys.map (below keys)).sum : ℕ) = keys.length * keys.length := by exact_mod_cast hparts
  rw [hsum]
  linarith

/-- The ties take no more than one group of everything would. -/
theorem tieTerm_le (keys : List α) :
    tieTerm keys ≤ (keys.length : ℚ) * ((keys.length : ℚ)^2 - 1) := by
  have hshare : ∀ q ∈ keys.map fun x => (keys.count x : ℚ)^2 - 1, q ≤ (keys.length : ℚ)^2 - 1 := by
    intro q hq
    obtain ⟨x,-,rfl⟩ := List.mem_map.mp hq
    have hcount : (keys.count x : ℚ) ≤ keys.length := by exact_mod_cast List.count_le_length
    gcongr
  have hle := List.sum_le_card_nsmul _ _ hshare
  simpa [tieTerm,nsmul_eq_mul] using hle

/-! ### Runs of equal elements in a sorted list -/

/-- All before the place is below all from the place on. -/
def Boundary (keys : List α) (i : ℕ) : Prop := ∀ a ∈ keys.take i, ∀ b ∈ keys.drop i, a < b

theorem boundary_zero (keys : List α) : Boundary keys 0 := fun a ha => by simp at ha

theorem boundary_of_length_le {keys : List α} {i : ℕ} (h : keys.length ≤ i) : Boundary keys i := by
  intro a _ b hb
  rw [List.drop_eq_nil_of_le h] at hb
  cases hb

/-- In a sorted list a step up is a boundary. -/
theorem boundary_of_lt {keys : List α} (hsorted : keys.Pairwise (· ≤ ·)) {j : ℕ}
    (hj : j+1 < keys.length) (hup : keys[j] < keys[j+1]) : Boundary keys (j+1) := by
  rw [List.pairwise_iff_getElem] at hsorted
  intro a ha b hb
  obtain ⟨k,hk,rfl⟩ := List.mem_take_iff_getElem.mp ha
  obtain ⟨l,hl,rfl⟩ := List.mem_drop_iff_getElem.mp hb
  have hlow : keys[k] ≤ keys[j] := by
    obtain h | h := Nat.lt_or_eq_of_le (show k ≤ j by omega)
    · exact hsorted k j (by omega) (by omega) h
    · simp [h]
  have hhigh : keys[j+1] ≤ keys[j+1+l] := by
    cases l with
    | zero => exact le_rfl
    | succ l => exact hsorted (j+1) (j+1+(l+1)) hj (by omega) (by omega)
  exact hlow.trans_lt (hup.trans_le hhigh)

omit [LinearOrder α] in
/-- What is between the two places of a run. -/
theorem take_eq_append_replicate {keys : List α} {i j : ℕ} {x : α} (hij : i ≤ j)
    (hrun : ∀ k, i ≤ k → k < j → keys[k]? = some x) :
    keys.take j = keys.take i ++ List.replicate (j-i) x := by
  induction j, hij using Nat.le_induction with
  | base => simp
  | succ j hij ih =>
    have hx := hrun j hij (Nat.lt_succ_self j)
    rw [List.take_add_one,hx,ih fun k hik hkj => hrun k hik (by omega),Nat.succ_sub hij,
      List.replicate_succ']
    simp

variable {keys : List α} {i j : ℕ} {x : α}

/-- Between two boundaries the run is all there is of its element, and starts above the rest. -/
theorem counts_of_run (hi : Boundary keys i) (hj : Boundary keys j) (hij : i < j)
    (hlength : j ≤ keys.length) (hrun : ∀ k, i ≤ k → k < j → keys[k]? = some x) :
    below keys x = i ∧ keys.count x = j-i := by
  have htake := take_eq_append_replicate hij.le hrun
  have hkeys : keys = keys.take i ++ List.replicate (j-i) x ++ keys.drop j := by
    rw [← htake,List.take_append_drop]
  have hbefore : ∀ a ∈ keys.take i, a < x := by
    intro a ha
    refine hi a ha x (List.mem_of_getElem? (i := 0) ?_)
    rw [List.getElem?_drop]
    exact hrun i le_rfl hij
  have hafter : ∀ b ∈ keys.drop j, x < b := by
    refine hj x ?_
    rw [htake]
    refine List.mem_append_right _ (List.mem_replicate.mpr ⟨?_,rfl⟩)
    omega
  have hlow : (keys.take i).countP (fun y => y < x) = i := by
    rw [List.countP_eq_length.mpr fun a ha => decide_eq_true (hbefore a ha),List.length_take]
    omega
  have hhigh : (keys.drop j).countP (fun y => y < x) = 0 :=
    List.countP_eq_zero.mpr fun b hb => by simpa using (hafter b hb).le
  have hnone : ∀ zs : List α, (∀ z ∈ zs, z ≠ x) → zs.count x = 0 := fun zs hzs =>
    List.count_eq_zero_of_not_mem fun hx => hzs x hx rfl
  constructor
  · rw [below,hkeys,List.countP_append,List.countP_append,hlow,hhigh]
    simp [List.countP_replicate]
  · rw [hkeys,List.count_append,List.count_append,hnone _ fun a ha => (hbefore a ha).ne,
      hnone _ fun b hb => (hafter b hb).ne',List.count_replicate_self]
    omega

/-- The rank of a run is the average of its first and last places. -/
theorem midrank_of_run (hi : Boundary keys i) (hj : Boundary keys (j+1)) (hij : i ≤ j)
    (hlength : j < keys.length) (hrun : ∀ k, i ≤ k → k < j+1 → keys[k]? = some x) :
    midrank keys x = ((i+1+j+1 : ℕ) : ℚ)/2 := by
  obtain ⟨hbelow,hcount⟩ := counts_of_run hi hj (Nat.lt_succ_of_le hij) hlength hrun
  rw [midrank,hbelow,hcount,Nat.cast_sub (by omega)]
  push_cast
  ring

/-- A run adds its own `t³ - t` to the ties. -/
theorem sum_take_of_run (hi : Boundary keys i) (hj : Boundary keys (j+1)) (hij : i ≤ j)
    (hlength : j < keys.length) (hrun : ∀ k, i ≤ k → k < j+1 → keys[k]? = some x) :
    ((keys.take (j+1)).map fun x => (keys.count x : ℚ)^2 - 1).sum =
      ((keys.take i).map fun x => (keys.count x : ℚ)^2 - 1).sum +
        (((j+1-i : ℕ) : ℚ)^3 - (j+1-i : ℕ)) := by
  obtain ⟨-,hcount⟩ := counts_of_run hi hj (Nat.lt_succ_of_le hij) hlength hrun
  rw [take_eq_append_replicate (Nat.le_succ_of_le hij) hrun,List.map_append,List.sum_append,
    List.map_replicate,List.sum_replicate,hcount,nsmul_eq_mul]
  ring

end AtlasCompliance.Midranks
