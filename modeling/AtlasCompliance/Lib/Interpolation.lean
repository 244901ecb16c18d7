import Mathlib

/-! Linear interpolation between the values at whole positions. -/
namespace AtlasCompliance.Interpolation

universe u
variable {K : Type u} [Field K] [LinearOrder K] [IsStrictOrderedRing K] [FloorRing K]
variable {f : ℤ → K} {a b n : ℤ} {r s : K}

/-- The value at a position between two whole ones, by its distance from the lower. -/
def between (f : ℤ → K) (r : K) : K := f ⌊r⌋ + (f ⌈r⌉ - f ⌊r⌋)*Int.fract r

@[simp] theorem between_intCast (f : ℤ → K) (n : ℤ) : between f n = f n := by simp [between]

/-- On a segment, its two ends inclusive, the value is the one of the line through them. -/
theorem between_eq (hlow : (n : K) ≤ r) (hhigh : r ≤ n+1) :
    between f r = f n + (f (n+1) - f n)*(r-n) := by
  obtain rfl | hlow := hlow.eq_or_lt
  · simp
  obtain rfl | hhigh := hhigh.eq_or_lt
  · have hnext : between f ((n : K)+1) = f (n+1) := by exact_mod_cast between_intCast f (n+1)
    rw [hnext]
    ring
  have hfloor : ⌊r⌋ = n := Int.floor_eq_iff.mpr ⟨hlow.le,hhigh⟩
  have hceil : ⌈r⌉ = n+1 := by
    rw [Int.ceil_eq_iff]
    push_cast
    exact ⟨by linarith,hhigh.le⟩
  rw [between,hceil,Int.fract,hfloor]

omit [IsStrictOrderedRing K] in
/-- The same value as the two ends by their weights. -/
theorem between_eq_weights (f : ℤ → K) (r : K) :
    between f r = f ⌊r⌋*(1 - Int.fract r) + f ⌈r⌉*Int.fract r := by
  rw [between]
  ring

theorem floor_mem (hr : r ∈ Set.Icc (a : K) b) : ⌊r⌋ ∈ Set.Icc a b :=
  ⟨Int.le_floor.mpr hr.1,Int.cast_le.mp ((Int.floor_le r).trans hr.2)⟩

theorem ceil_mem (hr : r ∈ Set.Icc (a : K) b) : ⌈r⌉ ∈ Set.Icc a b :=
  ⟨Int.cast_le.mp (hr.1.trans (Int.le_ceil r)),Int.ceil_le.mpr hr.2⟩

section Monotone
variable (hf : MonotoneOn f (Set.Icc a b))
include hf

theorem le_between (hr : r ∈ Set.Icc (a : K) b) : f ⌊r⌋ ≤ between f r := by
  have hends := hf (floor_mem hr) (ceil_mem hr) (Int.floor_le_ceil r)
  have hstep := mul_nonneg (sub_nonneg.mpr hends) (Int.fract_nonneg r)
  rw [between]
  linarith

theorem between_le (hr : r ∈ Set.Icc (a : K) b) : between f r ≤ f ⌈r⌉ := by
  have hends := hf (floor_mem hr) (ceil_mem hr) (Int.floor_le_ceil r)
  have hstep := mul_le_of_le_one_right (sub_nonneg.mpr hends) (Int.fract_lt_one r).le
  rw [between]
  linarith

/-- What rises at whole positions rises between them. -/
theorem between_monotoneOn : MonotoneOn (between f) (Set.Icc (a : K) b) := by
  intro r hr s hs hrs
  obtain rfl | hlt := hrs.eq_or_lt
  · exact le_rfl
  by_cases hsegment : ⌈r⌉ ≤ ⌊s⌋
  -- a whole position lies between the two
  · calc between f r ≤ f ⌈r⌉ := between_le hf hr
      _ ≤ f ⌊s⌋ := hf (ceil_mem hr) (floor_mem hs) hsegment
      _ ≤ between f s := le_between hf hs
  -- both lie on the segment from ⌊r⌋
  · have hhigh : s ≤ ⌊r⌋+1 := by
      have hceil : ⌈r⌉ ≤ ⌊r⌋+1 := Int.ceil_le_floor_add_one r
      have hlast : ⌊s⌋+1 ≤ ⌈r⌉ := by omega
      have hcast : ((⌊s⌋+1 : ℤ) : K) ≤ ((⌊r⌋+1 : ℤ) : K) := Int.cast_le.mpr (hlast.trans hceil)
      push_cast at hcast
      exact (Int.lt_floor_add_one s).le.trans hcast
    have hlow := Int.floor_le r
    have hnext : ⌊r⌋+1 ∈ Set.Icc a b := by
      refine ⟨(floor_mem hr).1.trans (by omega),?_⟩
      have hinside : (⌊r⌋ : K) < b := hlow.trans_lt (hlt.trans_le hs.2)
      exact Int.add_one_le_iff.mpr (Int.cast_lt.mp hinside)
    have hends := hf (floor_mem hr) hnext (by omega)
    rw [between_eq hlow (hlt.le.trans hhigh),between_eq (hlow.trans hlt.le) hhigh]
    have hrise := mul_le_mul_of_nonneg_left (sub_le_sub_right hlt.le (⌊r⌋ : K)) (sub_nonneg.mpr hends)
    linarith

end Monotone

end AtlasCompliance.Interpolation
