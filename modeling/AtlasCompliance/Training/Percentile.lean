import AtlasCompliance.Infra.Metrics

/-! The percentile of the training statistics, taken of a sorted list, and its agreement with the one
of the serving benchmark. -/
namespace AtlasCompliance.Training
open Interpolation Infra
open Python (Error getItem sorted place)

/-- `_percentile`: linear interpolation at the share `q` of a sorted list. -/
def percentile (sortedVals : List ℚ) (q : ℚ) : Except Error ℚ :=
  if sortedVals = [] then .error .valueError
  else if sortedVals.length = 1 then getItem sortedVals 0
  else
    let pos : ℚ := q*(sortedVals.length-1)
    let lo := ⌊pos⌋
    let hi := ⌈pos⌉
    if lo = hi then getItem sortedVals lo
    else do
      let frac := pos - lo
      let below ← getItem sortedVals lo
      let above ← getItem sortedVals hi
      return below*(1-frac) + above*frac

section Agreement
variable {values : List ℚ} {q : ℚ}

/-- It is the interpolated value at the same rank. -/
theorem percentile_sorted_eq (hvalues : values ≠ []) (hq : q ∈ Set.Icc (0 : ℚ) 1) :
    percentile (sorted values) q = .ok (between (place (sorted values)) (rankOf values q)) := by
  have hrank := rankOf_mem hvalues hq
  have hpos := Python.length_sorted_pos hvalues
  have hfold : q*((sorted values).length-1) = rankOf values q := rfl
  unfold percentile
  simp only [hfold]
  rw [if_neg (mt Python.sorted_eq_nil.mp hvalues)]
  split_ifs with hone hwhole
  · have hfirst : (0 : ℤ) ∈ Set.Icc (0 : ℤ) ((sorted values).length-1) := ⟨le_rfl,by omega⟩
    have hzero : rankOf values q = ((0 : ℤ) : ℚ) := by simp [rankOf,hone]
    rw [Python.getItem_eq hfirst,hzero,between_intCast]
  · rw [Python.getItem_eq (floor_mem hrank),between,← hwhole,sub_self,zero_mul,add_zero]
  · rw [Python.getItem_eq (floor_mem hrank),Python.getItem_eq (ceil_mem hrank),between_eq_weights]
    rfl

theorem rankOf_le {q' : ℚ} (hvalues : values ≠ []) (hle : q ≤ q') : rankOf values q ≤ rankOf values q' := by
  have hpos : (1 : ℚ) ≤ (sorted values).length :=
    Nat.one_le_cast.mpr (Python.length_sorted_pos hvalues)
  exact mul_le_mul_of_nonneg_right hle (sub_nonneg.mpr hpos)

/-- The interpolated value at a rank rises with the share. -/
theorem between_rankOf_le {q' : ℚ} (hvalues : values ≠ []) (hlow : 0 ≤ q) (hle : q ≤ q') (hhigh : q' ≤ 1) :
    between (place (sorted values)) (rankOf values q) ≤
      between (place (sorted values)) (rankOf values q') :=
  between_monotoneOn Python.place_sorted_monotoneOn (rankOf_mem hvalues ⟨hlow,hle.trans hhigh⟩)
    (rankOf_mem hvalues ⟨hlow.trans hle,hhigh⟩) (rankOf_le hvalues hle)

/-- Both percentiles are one value between the extremes, which rises with the share and which the order
of the list has no part in. -/
theorem percentile_agrees (hvalues : values ≠ []) (hlow : 0 ≤ q) (hhigh : q ≤ 1) :
    ∃ v lo hi : ℚ, Infra.percentile values (100*q) = .ok v ∧ percentile (sorted values) q = .ok v ∧
      values.min? = some lo ∧ values.max? = some hi ∧ lo ≤ v ∧ v ≤ hi ∧
      (∀ q' w, q ≤ q' → q' ≤ 1 → Infra.percentile values (100*q') = .ok w → v ≤ w) ∧
      ∀ values', values.Perm values' →
        Infra.percentile values' (100*q) = .ok v ∧ percentile (sorted values') q = .ok v := by
  have hbench := percentile_eq hvalues ⟨hlow,hhigh⟩
  have htraining := percentile_sorted_eq hvalues ⟨hlow,hhigh⟩
  refine ⟨_,_,_,hbench,htraining,Python.min?_eq hvalues,Python.max?_eq hvalues,?_,?_,
    fun q' w hle hone hw => ?_,fun values' hperm => ⟨?_,?_⟩⟩
  · rw [← between_rankOf_zero]
    exact between_rankOf_le hvalues le_rfl hlow hhigh
  · rw [← between_rankOf_one]
    exact between_rankOf_le hvalues hlow hhigh le_rfl
  · rw [percentile_eq hvalues ⟨hlow.trans hle,hone⟩,Except.ok.injEq] at hw
    exact hw ▸ between_rankOf_le hvalues hlow hle hone
  · rw [← percentile_perm hperm,hbench]
  · rw [← Python.sorted_eq_of_perm hperm,htraining]

theorem percentile_agrees_quarter :
    ([3,1,2] : List ℚ) ≠ [] ∧ (0 : ℚ) ≤ 1/4 ∧ (1/4 : ℚ) ≤ 1 ∧
    ∃ v lo hi : ℚ, Infra.percentile [3,1,2] (100*(1/4)) = .ok v ∧
      percentile (sorted [3,1,2]) (1/4) = .ok v ∧
      ([3,1,2] : List ℚ).min? = some lo ∧ ([3,1,2] : List ℚ).max? = some hi ∧ lo ≤ v ∧ v ≤ hi ∧
      (∀ q' w, 1/4 ≤ q' → q' ≤ 1 → Infra.percentile [3,1,2] (100*q') = .ok w → v ≤ w) ∧
      ∀ values', [3,1,2].Perm values' →
        Infra.percentile values' (100*(1/4)) = .ok v ∧ percentile (sorted values') (1/4) = .ok v :=
  ⟨by decide,by norm_num,by norm_num,percentile_agrees (by decide) (by norm_num) (by norm_num)⟩

end Agreement

end AtlasCompliance.Training
