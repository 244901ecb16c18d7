import Mathlib
import AtlasCompliance.Lib.Arranged
import AtlasCompliance.Lib.Looping
import AtlasCompliance.Lib.Midranks
import AtlasCompliance.Lib.Rounding

/-! The Wilcoxon signed-rank test over exact numbers: its two tie loops end, the ranks they assign
are the average ranks, and the variance they leave is positive. -/
namespace AtlasCompliance.Training
open Arranged Looping Midranks

/-- How the test can stop without a result; `unfinished` where a bound on the rounds runs out. -/
inductive Stop where
  | valueError (text : String)
  | indexError
  | zeroDivision
  | unfinished
  deriving DecidableEq

/-- An element by its position. -/
def item {α : Type} (xs : List α) (i : ℕ) : Except Stop α :=
  match xs[i]? with
  | some x => .ok x
  | none => .error .indexError

/-- The differences that are not zero. -/
def nonZero (base ft : List ℚ) : List ℚ :=
  ((base.zip ft).filter fun p => p.2 ≠ p.1).map fun p => p.2 - p.1

/-- Whether the run of equal keys goes on after `j`. -/
def tieGoesOn (key : ℕ → Except Stop ℚ) (n i j : ℕ) : Except Stop Bool :=
  if j+1 < n then do
    let next ← key (j+1)
    let first ← key i
    return decide (next = first)
  else return false

/-- The last position of the run of equal keys from `i`. -/
def tieEnd (key : ℕ → Except Stop ℚ) (n rounds i : ℕ) : Except Stop ℕ :=
  loop (tieGoesOn key n i) (fun j => .ok (j+1)) .unfinished rounds i

/-! ### The ranks -/

/-- The positions in the order of their absolute differences. -/
def order (diffs : List ℚ) : List ℕ :=
  sortBy (fun i => |diffs.getD i 0|) (List.range diffs.length)

/-- The absolute difference at a place of the order. -/
def magnitude (diffs : List ℚ) (k : ℕ) : Except Stop ℚ := do
  let p ← item (order diffs) k
  let d ← item diffs p
  return |d|

/-- `ranks[order[k]] = avg_rank` -/
def assign (diffs : List ℚ) (avgRank : ℚ) (ranks : List ℚ) (k : ℕ) : Except Stop (List ℚ) := do
  let p ← item (order diffs) k
  if p < ranks.length then return ranks.set p avgRank else .error .indexError

/-- One tie group ranked. -/
def rankGroup (diffs : List ℚ) (rounds : ℕ) (s : ℕ × List ℚ) : Except Stop (ℕ × List ℚ) := do
  let j ← tieEnd (magnitude diffs) diffs.length rounds s.1
  let avgRank : ℚ := ((s.1+1+j+1 : ℕ) : ℚ)/2
  let ranks ← (List.range' s.1 (j+1-s.1)).foldlM (assign diffs avgRank) s.2
  return (j+1,ranks)

def ranksOf (diffs : List ℚ) (rounds : ℕ) : Except Stop (List ℚ) := do
  let s ← loop (fun s => .ok (decide (s.1 < diffs.length))) (rankGroup diffs rounds) .unfinished
    rounds (0,List.replicate diffs.length 0)
  return s.2

/-! ### The tie correction -/

def absd (diffs : List ℚ) : List ℚ := sortBy id (diffs.map abs)

/-- One tie group added to the tie term. -/
def correctGroup (diffs : List ℚ) (rounds : ℕ) (s : ℕ × ℚ) : Except Stop (ℕ × ℚ) := do
  let j ← tieEnd (item (absd diffs)) diffs.length rounds s.1
  let t := j+1-s.1
  return (j+1,if 1 < t then s.2 + ((t : ℚ)^3 - t) else s.2)

def tieTermOf (diffs : List ℚ) (rounds : ℕ) : Except Stop ℚ := do
  let s ← loop (fun s => .ok (decide (s.1 < diffs.length))) (correctGroup diffs rounds) .unfinished
    rounds (0,0)
  return s.2

/-! ### The test -/

/-- What the test computes of the differences before the p-value. -/
structure RankSums where
  n : ℕ
  ranks : List ℚ
  wPlus : ℚ
  wMinus : ℚ
  tieTerm : ℚ
  deriving DecidableEq

/-- The statistic. -/
def RankSums.w (s : RankSums) : ℚ := min s.wPlus s.wMinus

def RankSums.meanW (s : RankSums) : ℚ := (s.n : ℚ) * (s.n+1)/4

def RankSums.varW (s : RankSums) : ℚ := (s.n : ℚ) * (s.n+1) * (2*s.n+1)/24 - s.tieTerm/48

/-- The ranks of the differences on one side of zero, added up. -/
def sumRanks (side : ℚ → Bool) (diffs ranks : List ℚ) : ℚ :=
  (((diffs.zip ranks).filter fun p => side p.1).map Prod.snd).sum

def rankSums (diffs : List ℚ) (rounds : ℕ) : Except Stop RankSums := do
  let ranks ← ranksOf diffs rounds
  let tieTerm ← tieTermOf diffs rounds
  return ⟨diffs.length,ranks,sumRanks (fun d => 0 < d) diffs ranks,
    sumRanks (fun d => d < 0) diffs ranks,tieTerm⟩

/-- The functions of the `math` module that the p-value is computed with. -/
structure Maths where
  sqrt : ℚ → ℚ
  erfc : ℚ → ℚ
  sqrt_pos : ∀ q, 0 < q → 0 < sqrt q

/-- The survival function of the normal distribution. -/
def normalSf (m : Maths) (z : ℚ) : ℚ := 1/2 * m.erfc (z/m.sqrt 2)

def divide (a b : ℚ) : Except Stop ℚ := if b = 0 then .error .zeroDivision else .ok (a/b)

/-- The two-sided p-value at a number of standard deviations. -/
def twoSided (m : Maths) (z : ℚ) : ℚ := Rounding.decimals 4 (min 1 (2*normalSf m z))

def wilcoxonSignedRankP (m : Maths) (rounds : ℕ) (base ft : List ℚ) : Except Stop ℚ :=
  if base.length ≠ ft.length then
    .error (.valueError "wilcoxon: base and ft must be the same length")
  else if (nonZero base ft).length = 0 then .ok 1
  else do
    let s ← rankSums (nonZero base ft) rounds
    if s.varW ≤ 0 then return 1
    let z ← divide (|s.w-s.meanW| - 1/2) (m.sqrt s.varW)
    return twoSided m z

/-! ### The tie groups -/

theorem item_eq_ok {α : Type} {xs : List α} {i : ℕ} {x : α} (h : xs[i]? = some x) :
    item xs i = .ok x := by
  rw [item,h]

section Groups
variable {key : ℕ → Except Stop ℚ} {keys : List ℚ}
  (hkey : ∀ k x, keys[k]? = some x → key k = .ok x)

include hkey in
theorem tieGoesOn_eq {n i j : ℕ} (hlength : keys.length = n) (hi : i < n) :
    tieGoesOn key n i j = .ok (decide (j+1 < n ∧ keys[j+1]? = keys[i]?)) := by
  subst hlength
  by_cases hj : j+1 < keys.length
  · have hnext := hkey (j+1) keys[j+1] (List.getElem?_eq_getElem hj)
    have hfirst := hkey i keys[i] (List.getElem?_eq_getElem hi)
    rw [List.getElem?_eq_getElem hj,List.getElem?_eq_getElem hi]
    simp [tieGoesOn,hj,hnext,hfirst,Except.bind,bind,pure,Except.pure]
  · simp [tieGoesOn,hj,pure,Except.pure]

include hkey in
/-- The inner loop ends at the last place of the run it starts in. -/
theorem tieEnd_ends {n i rounds : ℕ} (hlength : keys.length = n) (hi : i < n)
    (hrounds : n < rounds) :
    ∃ j, tieEnd key n rounds i = .ok j ∧ i ≤ j ∧ j < n ∧
      (∀ k, i ≤ k → k < j+1 → keys[k]? = keys[i]?) ∧ (j+1 < n → keys[j+1]? ≠ keys[i]?) := by
  let inv : ℕ → Prop := fun j => i ≤ j ∧ j < n ∧ ∀ k, i ≤ k → k < j+1 → keys[k]? = keys[i]?
  have hround : ∀ j, inv j → tieGoesOn key n i j = .ok false ∨
      tieGoesOn key n i j = .ok true ∧ ∃ j', Except.ok (j+1) = (Except.ok j' : Except Stop ℕ) ∧
        inv j' ∧ n-j' < n-j := by
    intro j hinv
    obtain ⟨hij,hjn,hrun⟩ := hinv
    rw [tieGoesOn_eq hkey hlength hi]
    by_cases hagain : j+1 < n ∧ keys[j+1]? = keys[i]?
    · refine Or.inr ⟨by rw [decide_eq_true hagain],j+1,rfl,⟨by omega,hagain.1,?_⟩,by omega⟩
      intro k hik hkj
      obtain hlt | heq := Nat.lt_or_eq_of_le (Nat.le_of_lt_succ hkj)
      · exact hrun k hik hlt
      · rw [heq,hagain.2]
    · exact Or.inl (by rw [decide_eq_false hagain])
  have hstart : inv i := ⟨le_rfl,hi,fun k hik hki => by rw [show k = i by omega]⟩
  obtain ⟨j,hloop,⟨hij,hjn,hrun⟩,hstop⟩ :=
    @loop_ends _ _ _ _ _ inv (fun j => n-j) hround rounds i hstart (by omega)
  refine ⟨j,hloop,hij,hjn,hrun,fun hj heq => ?_⟩
  rw [tieGoesOn_eq hkey hlength hi,decide_eq_true ⟨hj,heq⟩] at hstop
  cases hstop

include hkey in
/-- Over sorted keys that is the end of the tie group. -/
theorem tieEnd_group {n i rounds : ℕ} (hsorted : keys.Pairwise (· ≤ ·)) (hlength : keys.length = n)
    (hi : i < n) (hrounds : n < rounds) :
    ∃ j x, tieEnd key n rounds i = .ok j ∧ i ≤ j ∧ j < n ∧
      (∀ k, i ≤ k → k < j+1 → keys[k]? = some x) ∧ Boundary keys (j+1) := by
  obtain ⟨j,hend,hij,hjn,hrun,hnext⟩ := tieEnd_ends hkey hlength hi hrounds
  subst hlength
  have hfirst : keys[i]? = some keys[i] := List.getElem?_eq_getElem hi
  refine ⟨j,keys[i],hend,hij,hjn,fun k hik hkj => (hrun k hik hkj).trans hfirst,?_⟩
  by_cases hj : j+1 < keys.length
  · have hlast : keys[j] = keys[i] := by
      have hsame := hrun j hij (Nat.lt_succ_self j)
      rwa [List.getElem?_eq_getElem hjn,hfirst,Option.some_inj] at hsame
    have hne : keys[j+1] ≠ keys[i] := by
      have hdiffer := hnext hj
      rwa [List.getElem?_eq_getElem hj,hfirst,ne_eq,Option.some_inj] at hdiffer
    have hle : keys[j] ≤ keys[j+1] :=
      List.pairwise_iff_getElem.mp hsorted j (j+1) hjn hj (Nat.lt_succ_self j)
    exact boundary_of_lt hsorted hj (lt_of_le_of_ne hle (hlast.trans_ne hne.symm))
  · exact boundary_of_length_le (not_lt.mp hj)

end Groups

/-! ### What the loops compute -/

theorem absd_pairwise (diffs : List ℚ) : (absd diffs).Pairwise (· ≤ ·) := sortBy_pairwise _

theorem absd_perm (diffs : List ℚ) : (absd diffs).Perm (diffs.map abs) := sortBy_perm _

@[simp] theorem length_absd (diffs : List ℚ) : (absd diffs).length = diffs.length := by
  rw [(absd_perm diffs).length_eq,List.length_map]

theorem order_perm (diffs : List ℚ) : (order diffs).Perm (List.range diffs.length) := sortBy_perm _

theorem order_nodup (diffs : List ℚ) : (order diffs).Nodup :=
  (order_perm diffs).nodup_iff.mpr List.nodup_range

@[simp] theorem length_order (diffs : List ℚ) : (order diffs).length = diffs.length := by
  rw [(order_perm diffs).length_eq,List.length_range]

theorem mem_order {diffs : List ℚ} {p : ℕ} : p ∈ order diffs ↔ p < diffs.length := by
  rw [(order_perm diffs).mem_iff,List.mem_range]

/-- The differences in their order have the sorted absolute values. -/
theorem map_order (diffs : List ℚ) :
    (order diffs).map (fun p => |diffs.getD p 0|) = absd diffs := by
  have hvalues : (List.range diffs.length).map (fun p => |diffs.getD p 0|) = diffs.map abs := by
    apply List.ext_getElem
    · simp
    · intro p h h'
      simp only [List.length_map,List.length_range] at h
      simp [List.getD,List.getElem?_eq_getElem h]
  have hperm := ((order_perm diffs).map fun p => |diffs.getD p 0|).trans
    (hvalues ▸ (absd_perm diffs).symm)
  refine hperm.eq_of_pairwise (fun a b _ _ hab hba => le_antisymm hab hba) ?_ (absd_pairwise diffs)
  exact List.pairwise_map.mpr (sortBy_pairwise _)

theorem absd_getElem? {diffs : List ℚ} {k p : ℕ} (h : (order diffs)[k]? = some p) :
    (absd diffs)[k]? = some |diffs.getD p 0| := by
  rw [← map_order,List.getElem?_map,h]
  rfl

theorem magnitude_eq_ok {diffs : List ℚ} {k : ℕ} {x : ℚ} (h : (absd diffs)[k]? = some x) :
    magnitude diffs k = .ok x := by
  obtain ⟨hk,-⟩ := List.getElem?_eq_some_iff.mp h
  rw [length_absd] at hk
  obtain ⟨p,hp⟩ : ∃ p, (order diffs)[k]? = some p :=
    ⟨_,List.getElem?_eq_getElem (by rwa [length_order])⟩
  have hplt : p < diffs.length := mem_order.mp (List.mem_of_getElem? hp)
  have hx := absd_getElem? hp
  rw [h,Option.some_inj] at hx
  have hd : diffs[p]? = some diffs[p] := List.getElem?_eq_getElem hplt
  simp [magnitude,item_eq_ok hp,item_eq_ok hd,hx,List.getD,hd,bind,Except.bind,pure,Except.pure]

/-- The group's rank goes to the positions at its places and to no other. -/
theorem assign_places (diffs : List ℚ) (avgRank : ℚ) (ks : List ℕ) (ranks : List ℚ)
    (hks : ∀ k ∈ ks, k < diffs.length) (hlength : ranks.length = diffs.length) :
    ∃ ranks', ks.foldlM (assign diffs avgRank) ranks = .ok ranks' ∧
      ranks'.length = diffs.length ∧ ∀ k p, (order diffs)[k]? = some p →
        ranks'[p]? = if k ∈ ks then some avgRank else ranks[p]? := by
  induction ks generalizing ranks with
  | nil => exact ⟨ranks,rfl,hlength,fun k p _ => by simp⟩
  | cons l ks ih =>
    have hl := hks l List.mem_cons_self
    obtain ⟨q,hq⟩ : ∃ q, (order diffs)[l]? = some q :=
      ⟨_,List.getElem?_eq_getElem (by rwa [length_order])⟩
    have hqlt : q < ranks.length := hlength ▸ mem_order.mp (List.mem_of_getElem? hq)
    have hset : assign diffs avgRank ranks l = .ok (ranks.set q avgRank) := by
      simp [assign,item_eq_ok hq,hqlt,bind,Except.bind,pure,Except.pure]
    obtain ⟨ranks',hfold,hlength',hplaces⟩ := ih (ranks.set q avgRank)
      (fun k hk => hks k (List.mem_cons_of_mem _ hk)) (by rw [List.length_set,hlength])
    refine ⟨ranks',?_,hlength',fun k p hp => ?_⟩
    · rw [List.foldlM_cons,hset]
      exact hfold
    · rw [hplaces k p hp]
      by_cases hkl : k = l
      · subst hkl
        have hpq : q = p := Option.some.inj (hq.symm.trans hp)
        subst hpq
        simp [hqlt]
      · have hpq : q ≠ p := fun heq => by
          subst heq
          have hk : k < (order diffs).length := (List.getElem?_eq_some_iff.mp hp).1
          exact hkl ((List.getElem?_inj hk (order_nodup diffs)).mp (hp.trans hq.symm))
        simp [hkl,List.getElem?_set_ne hpq]

/-- The places before `s.1` have their average ranks. -/
def Ranked (diffs : List ℚ) (s : ℕ × List ℚ) : Prop :=
  Boundary (absd diffs) s.1 ∧ s.2.length = diffs.length ∧
    ∀ k p x, k < s.1 → (order diffs)[k]? = some p → (absd diffs)[k]? = some x →
      s.2[p]? = some (midrank (absd diffs) x)

theorem rankGroup_ranked {diffs : List ℚ} {rounds : ℕ} {s : ℕ × List ℚ} (hranked : Ranked diffs s)
    (hi : s.1 < diffs.length) (hrounds : diffs.length < rounds) :
    ∃ s', rankGroup diffs rounds s = .ok s' ∧ Ranked diffs s' ∧ s.1 < s'.1 := by
  obtain ⟨hboundary,hlength,hranks⟩ := hranked
  obtain ⟨j,x,hend,hij,hjn,hrun,hnext⟩ := tieEnd_group (fun k x h => magnitude_eq_ok h)
    (absd_pairwise diffs) (length_absd diffs) hi hrounds
  have hrank := midrank_of_run hboundary hnext hij (by rwa [length_absd]) hrun
  obtain ⟨ranks',hfold,hlength',hplaces⟩ := assign_places diffs (((s.1+1+j+1 : ℕ) : ℚ)/2)
    (List.range' s.1 (j+1-s.1)) s.2 (fun k hk => by rw [List.mem_range'_1] at hk; omega) hlength
  refine ⟨(j+1,ranks'),?_,⟨hnext,hlength',fun k p y hk hp hy => ?_⟩,Nat.lt_succ_of_le hij⟩
  · simp only [rankGroup,hend,hfold,bind,Except.bind,pure,Except.pure]
  · rw [hplaces k p hp]
    by_cases hki : k < s.1
    · rw [if_neg fun hmem => by rw [List.mem_range'_1] at hmem; omega]
      exact hranks k p y hki hp hy
    · have hxy : x = y := Option.some.inj ((hrun k (not_lt.mp hki) hk).symm.trans hy)
      rw [if_pos (List.mem_range'_1.mpr ⟨not_lt.mp hki,by dsimp only at hk; omega⟩),← hrank,hxy]

/-- The first loop ends, and gives every difference the average rank of its absolute value. -/
theorem ranksOf_eq {diffs : List ℚ} {rounds : ℕ} (hrounds : diffs.length < rounds) :
    ranksOf diffs rounds = .ok (diffs.map fun d => midrank (absd diffs) |d|) := by
  have hround : ∀ s, Ranked diffs s →
      (Except.ok (decide (s.1 < diffs.length)) : Except Stop Bool) = .ok false ∨
      (Except.ok (decide (s.1 < diffs.length)) : Except Stop Bool) = .ok true ∧
        ∃ s', rankGroup diffs rounds s = .ok s' ∧ Ranked diffs s' ∧
          diffs.length-s'.1 < diffs.length-s.1 := by
    intro s hranked
    by_cases hi : s.1 < diffs.length
    · obtain ⟨s',hgroup,hranked',hless⟩ := rankGroup_ranked hranked hi hrounds
      exact Or.inr ⟨by rw [decide_eq_true hi],s',hgroup,hranked',by omega⟩
    · exact Or.inl (by rw [decide_eq_false hi])
  have hstart : Ranked diffs (0,List.replicate diffs.length 0) :=
    ⟨boundary_zero _,List.length_replicate,fun k p x hk => absurd hk (Nat.not_lt_zero k)⟩
  obtain ⟨s,hloop,⟨-,hlength,hranks⟩,hstop⟩ :=
    @loop_ends _ _ _ _ .unfinished (Ranked diffs) (fun s => diffs.length-s.1) hround rounds _ hstart
      (by dsimp only; omega)
  have hdone : diffs.length ≤ s.1 := by simpa using hstop
  have hall : s.2 = diffs.map fun d => midrank (absd diffs) |d| := by
    apply List.ext_getElem?
    intro p
    by_cases hp : p < diffs.length
    · obtain ⟨k,hk⟩ := List.mem_iff_getElem?.mp (mem_order.mpr hp)
      have hklt : k < (order diffs).length := (List.getElem?_eq_some_iff.mp hk).1
      rw [length_order] at hklt
      rw [hranks k p _ (by omega) hk (absd_getElem? hk)]
      simp [List.getD,List.getElem?_eq_getElem hp]
    · rw [List.getElem?_eq_none (by omega),List.getElem?_eq_none (by rw [List.length_map]; omega)]
  simp only [ranksOf,hloop,hall,bind,Except.bind,pure,Except.pure]

/-- The groups before `s.1` are in the tie term. -/
def Corrected (diffs : List ℚ) (s : ℕ × ℚ) : Prop :=
  Boundary (absd diffs) s.1 ∧
    s.2 = (((absd diffs).take s.1).map fun x => ((absd diffs).count x : ℚ)^2 - 1).sum

theorem correctGroup_corrected {diffs : List ℚ} {rounds : ℕ} {s : ℕ × ℚ}
    (hcorrected : Corrected diffs s) (hi : s.1 < diffs.length) (hrounds : diffs.length < rounds) :
    ∃ s', correctGroup diffs rounds s = .ok s' ∧ Corrected diffs s' ∧ s.1 < s'.1 := by
  obtain ⟨hboundary,hsum⟩ := hcorrected
  obtain ⟨j,x,hend,hij,hjn,hrun,hnext⟩ := tieEnd_group (fun k x h => item_eq_ok h)
    (absd_pairwise diffs) (length_absd diffs) hi hrounds
  have hgroup := sum_take_of_run hboundary hnext hij (by rwa [length_absd]) hrun
  let t := j+1-s.1
  refine ⟨(j+1,if 1 < t then s.2 + ((t : ℚ)^3 - t) else s.2),?_,⟨hnext,?_⟩,Nat.lt_succ_of_le hij⟩
  · simp only [correctGroup,hend,bind,Except.bind,pure,Except.pure,t]
  · dsimp only [t]
    rw [hgroup,← hsum]
    split_ifs with ht
    · rfl
    · -- a group of one adds nothing
      have hone : j+1-s.1 = 1 := by omega
      rw [hone]
      norm_num

/-- The second loop ends with the tie term of the absolute differences. -/
theorem tieTermOf_eq {diffs : List ℚ} {rounds : ℕ} (hrounds : diffs.length < rounds) :
    tieTermOf diffs rounds = .ok (tieTerm (absd diffs)) := by
  have hround : ∀ s, Corrected diffs s →
      (Except.ok (decide (s.1 < diffs.length)) : Except Stop Bool) = .ok false ∨
      (Except.ok (decide (s.1 < diffs.length)) : Except Stop Bool) = .ok true ∧
        ∃ s', correctGroup diffs rounds s = .ok s' ∧ Corrected diffs s' ∧
          diffs.length-s'.1 < diffs.length-s.1 := by
    intro s hcorrected
    by_cases hi : s.1 < diffs.length
    · obtain ⟨s',hgroup,hcorrected',hless⟩ := correctGroup_corrected hcorrected hi hrounds
      exact Or.inr ⟨by rw [decide_eq_true hi],s',hgroup,hcorrected',by omega⟩
    · exact Or.inl (by rw [decide_eq_false hi])
  have hstart : Corrected diffs (0,0) := ⟨boundary_zero _,by simp⟩
  obtain ⟨s,hloop,⟨-,hsum⟩,hstop⟩ :=
    @loop_ends _ _ _ _ .unfinished (Corrected diffs) (fun s => diffs.length-s.1) hround rounds _
      hstart (by dsimp only; omega)
  have hdone : diffs.length ≤ s.1 := by simpa using hstop
  rw [List.take_of_length_le (by rwa [length_absd])] at hsum
  simp only [tieTermOf,hloop,hsum,bind,Except.bind,pure,Except.pure]
  rfl

/-- What the loops compute, without them. -/
def midranked (diffs : List ℚ) : RankSums :=
  let rank : ℚ → ℚ := fun d => midrank (diffs.map abs) |d|
  { n := diffs.length
    ranks := diffs.map rank
    wPlus := ((diffs.filter fun d => 0 < d).map rank).sum
    wMinus := ((diffs.filter fun d => d < 0).map rank).sum
    tieTerm := tieTerm (diffs.map abs) }

theorem sumRanks_map (side : ℚ → Bool) (diffs : List ℚ) (rank : ℚ → ℚ) :
    sumRanks side diffs (diffs.map rank) = ((diffs.filter side).map rank).sum := by
  have hpairs : diffs.zip (diffs.map rank) = diffs.map fun d => (d,rank d) := by
    have hzip := @List.zip_map' _ _ _ id rank diffs
    rwa [List.map_id] at hzip
  rw [sumRanks,hpairs,List.filter_map,List.map_map]
  rfl

/-- Rounds above the number of differences are enough for both loops. -/
theorem rankSums_eq {diffs : List ℚ} {rounds : ℕ} (hrounds : diffs.length < rounds) :
    rankSums diffs rounds = .ok (midranked diffs) := by
  simp only [rankSums,ranksOf_eq hrounds,tieTermOf_eq hrounds,midrank_of_perm (absd_perm diffs),
    tieTerm_of_perm (absd_perm diffs),sumRanks_map,bind,Except.bind,pure,Except.pure]
  rfl

/-! ### The sums and the variance -/

theorem ne_zero_of_mem_nonZero {base ft : List ℚ} {d : ℚ} (h : d ∈ nonZero base ft) : d ≠ 0 := by
  obtain ⟨p,hp,rfl⟩ := List.mem_map.mp h
  have hne : p.2 ≠ p.1 := by simpa using (List.mem_filter.mp hp).2
  exact sub_ne_zero.mpr hne

theorem nonZero_ne_nil {base ft : List ℚ} (h : ∃ p ∈ base.zip ft, p.1 ≠ p.2) :
    0 < (nonZero base ft).length := by
  obtain ⟨p,hp,hne⟩ := h
  refine List.length_pos_of_mem (List.mem_map.mpr ⟨p,List.mem_filter.mpr ⟨hp,?_⟩,rfl⟩)
  simpa using hne.symm

/-- Every difference is on one side of zero. -/
theorem sum_sides (rank : ℚ → ℚ) {diffs : List ℚ} (h : ∀ d ∈ diffs, d ≠ 0) :
    ((diffs.filter fun d => 0 < d).map rank).sum + ((diffs.filter fun d => d < 0).map rank).sum =
      (diffs.map rank).sum := by
  induction diffs with
  | nil => simp
  | cons d diffs ih =>
    have hrest := ih fun e he => h e (List.mem_cons_of_mem _ he)
    obtain hneg | hpos := lt_or_gt_of_ne (h d List.mem_cons_self)
    · rw [List.filter_cons_of_neg (by simpa using hneg.le),List.filter_cons_of_pos (by simpa using hneg)]
      simp only [List.map_cons,List.sum_cons]
      linarith
    · rw [List.filter_cons_of_pos (by simpa using hpos),List.filter_cons_of_neg (by simpa using hpos.le)]
      simp only [List.map_cons,List.sum_cons]
      linarith

theorem wPlus_add_wMinus {diffs : List ℚ} (h : ∀ d ∈ diffs, d ≠ 0) :
    (midranked diffs).wPlus + (midranked diffs).wMinus =
      (diffs.length : ℚ) * (diffs.length+1)/2 := by
  have hsum := sum_midrank (diffs.map abs)
  rw [List.length_map,List.map_map] at hsum
  exact (sum_sides _ h).trans hsum

/-- The ties leave a positive variance. -/
theorem varW_pos {diffs : List ℚ} (h : 0 < diffs.length) : 0 < (midranked diffs).varW := by
  have hties := tieTerm_le (diffs.map abs)
  rw [List.length_map] at hties
  have hn : (1 : ℚ) ≤ diffs.length := by exact_mod_cast h
  have hgap : 0 < (diffs.length : ℚ) * (diffs.length+1) * (2*diffs.length+1)/24 -
      (diffs.length : ℚ) * ((diffs.length : ℚ)^2 - 1)/48 := by
    have hfactor : (diffs.length : ℚ) * (diffs.length+1) * (2*diffs.length+1)/24 -
        (diffs.length : ℚ) * ((diffs.length : ℚ)^2 - 1)/48 =
        (diffs.length : ℚ) * (diffs.length+1)^2/16 := by ring
    rw [hfactor]
    positivity
  simp only [RankSums.varW,midranked]
  linarith

/-! ### Swapped inputs and permuted pairs -/

theorem midranked_of_perm {diffs diffs' : List ℚ} (h : diffs.Perm diffs') :
    (midranked diffs).w = (midranked diffs').w ∧
      (midranked diffs).varW = (midranked diffs').varW := by
  have habs := h.map abs
  have hside : ∀ side : ℚ → Bool,
      ((diffs.filter side).map fun d => midrank (diffs.map abs) |d|).sum =
        ((diffs'.filter side).map fun d => midrank (diffs'.map abs) |d|).sum := by
    intro side
    rw [midrank_of_perm habs]
    exact ((h.filter side).map _).sum_eq
  constructor
  · simp only [RankSums.w,midranked,hside]
  · simp only [RankSums.varW,midranked,h.length_eq,tieTerm_of_perm habs]

/-- Negated differences trade the two sums. -/
theorem midranked_neg (diffs : List ℚ) :
    (midranked (diffs.map Neg.neg)).w = (midranked diffs).w ∧
      (midranked (diffs.map Neg.neg)).varW = (midranked diffs).varW := by
  have habs : (diffs.map Neg.neg).map abs = diffs.map abs := by
    rw [List.map_map]
    exact List.map_congr_left fun d _ => abs_neg d
  have hside : ∀ side : ℚ → Bool, ∀ rank : ℚ → ℚ,
      (((diffs.map Neg.neg).filter side).map fun d => rank |d|).sum =
        ((diffs.filter fun d => side (-d)).map fun d => rank |d|).sum := by
    intro side rank
    rw [List.filter_map,List.map_map]
    simp only [Function.comp_def,abs_neg]
  constructor
  · simp only [RankSums.w,midranked,habs,hside,Left.neg_pos_iff,Left.neg_neg_iff]
    exact min_comm _ _
  · simp only [RankSums.varW,midranked,habs,List.length_map]

theorem nonZero_swap (base ft : List ℚ) : nonZero ft base = (nonZero base ft).map Neg.neg := by
  have hkept : (base.zip ft).filter ((fun p : ℚ × ℚ => decide (p.2 ≠ p.1)) ∘ Prod.swap) =
      (base.zip ft).filter fun p => p.2 ≠ p.1 :=
    List.filter_congr fun p _ => by simp [eq_comm]
  rw [nonZero,nonZero,← List.zip_swap,List.filter_map,hkept,List.map_map,List.map_map]
  exact List.map_congr_left fun p _ => (neg_sub p.2 p.1).symm

theorem nonZero_perm {base ft base' ft' : List ℚ} (h : (base'.zip ft').Perm (base.zip ft)) :
    (nonZero base' ft').Perm (nonZero base ft) := (h.filter _).map _

/-- The test computes these sums in any rounds that are more than the differences. -/
def Computes (base ft : List ℚ) (s : RankSums) : Prop :=
  ∀ rounds, (nonZero base ft).length < rounds → rankSums (nonZero base ft) rounds = .ok s

theorem computes_midranked (base ft : List ℚ) : Computes base ft (midranked (nonZero base ft)) :=
  fun _ hrounds => rankSums_eq hrounds

/-- With some difference the p-value is computed from the statistic over the standard deviation. -/
theorem wilcoxonSignedRankP_eq {base ft : List ℚ} (hlength : base.length = ft.length)
    (hpos : 0 < (nonZero base ft).length) (m : Maths) {rounds : ℕ}
    (hrounds : (nonZero base ft).length < rounds) :
    wilcoxonSignedRankP m rounds base ft = .ok (twoSided m
      ((|(midranked (nonZero base ft)).w - (midranked (nonZero base ft)).meanW| - 1/2) /
        m.sqrt (midranked (nonZero base ft)).varW)) := by
  have hvar := varW_pos hpos
  have hsqrt := m.sqrt_pos _ hvar
  simp only [wilcoxonSignedRankP,rankSums_eq hrounds,hlength,hpos.ne',divide,hsqrt.ne',
    not_le.mpr hvar,bind,Except.bind,pure,Except.pure,ne_eq,not_true_eq_false,if_false]

/-- Two inputs of one length with some difference are ranked in an end of both loops, tied
absolute differences alike; the two sums share n(n+1)/2, the variance is positive and is divided by,
and neither the order of the inputs nor that of the pairs changes statistic or variance. -/
theorem wilcoxon_rank_sums {base ft : List ℚ} (hlength : base.length = ft.length)
    (hdiffer : ∃ p ∈ base.zip ft, p.1 ≠ p.2) :
    ∃ s, Computes base ft s ∧
      s.n = (nonZero base ft).length ∧ s.ranks.length = s.n ∧
      s.wPlus + s.wMinus = (s.n : ℚ) * (s.n+1)/2 ∧
      (∀ (i j : ℕ) (d e : ℚ), (nonZero base ft)[i]? = some d → (nonZero base ft)[j]? = some e → |d| = |e| →
        s.ranks[i]? = s.ranks[j]?) ∧
      0 < s.varW ∧
      (∀ m rounds, s.n < rounds → wilcoxonSignedRankP m rounds base ft =
        .ok (twoSided m ((|s.w-s.meanW| - 1/2)/m.sqrt s.varW))) ∧
      (∃ s', Computes ft base s' ∧ s'.w = s.w ∧ s'.varW = s.varW) ∧
      ∀ base' ft' : List ℚ, base'.length = ft'.length → (base'.zip ft').Perm (base.zip ft) →
        ∃ s', Computes base' ft' s' ∧ s'.w = s.w ∧ s'.varW = s.varW := by
  have hpos := nonZero_ne_nil hdiffer
  refine ⟨midranked (nonZero base ft),computes_midranked base ft,rfl,by simp [midranked],
    wPlus_add_wMinus fun d hd => ne_zero_of_mem_nonZero hd,?_,varW_pos hpos,?_,?_,?_⟩
  · intro i j d e hd he habs
    simp only [midranked,List.getElem?_map,hd,he,Option.map_some,habs]
  · intro m rounds hrounds
    exact wilcoxonSignedRankP_eq hlength hpos m hrounds
  · refine ⟨_,computes_midranked ft base,?_⟩
    rw [nonZero_swap]
    exact midranked_neg _
  · intro base' ft' _ hperm
    exact ⟨_,computes_midranked base' ft',midranked_of_perm (nonZero_perm hperm)⟩

theorem wilcoxon_rank_sums_ties :
    ∃ s, Computes [1,2,3,4] [2,3,1,4] s ∧ s.n = 3 ∧ s.wPlus + s.wMinus = 6 ∧ 0 < s.varW ∧
      ∃ s', Computes [2,3,1,4] [1,2,3,4] s' ∧ s'.w = s.w ∧ s'.varW = s.varW := by
  obtain ⟨s,hs,hn,-,hsum,-,hvar,-,hswap,-⟩ := @wilcoxon_rank_sums [1,2,3,4] [2,3,1,4] rfl
    ⟨(1,2),by simp,by norm_num⟩
  have hthree : s.n = 3 := hn.trans (by decide)
  refine ⟨s,hs,hthree,?_,hvar,hswap⟩
  rw [hsum,hthree]
  norm_num

end AtlasCompliance.Training
