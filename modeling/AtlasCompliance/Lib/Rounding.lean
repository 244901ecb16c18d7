import Mathlib

/-! Rounding of exact numbers to the nearest whole number or decimal, ties to even. -/
namespace AtlasCompliance.Rounding

/-- The nearest whole number, the even one at a midpoint. -/
def nearest (q : ℚ) : ℤ :=
  if 1/2 < q - q.floor ∨ (q - q.floor = 1/2 ∧ q.floor % 2 = 1) then q.floor + 1 else q.floor

/-- To `n` decimals. -/
def decimals (n : ℕ) (q : ℚ) : ℚ := nearest (q * 10^n) / 10^n

@[simp] theorem nearest_intCast (k : ℤ) : nearest k = k := by
  simp [nearest]

@[simp] theorem decimals_zero (n : ℕ) : decimals n 0 = 0 := by
  have h := nearest_intCast 0
  simp only [Int.cast_zero] at h
  simp [decimals,h]

/-- The error is a half at most. -/
theorem abs_nearest_sub_le (q : ℚ) : |(nearest q : ℚ) - q| ≤ 1/2 := by
  have hlow : ((q.floor : ℤ) : ℚ) ≤ q := Rat.floor_le q
  have hhigh : q < q.floor + 1 := by exact_mod_cast Rat.lt_floor_add_one q
  unfold nearest
  split_ifs with hup
  · have hhalf : 1/2 ≤ q - q.floor := hup.elim le_of_lt fun h => h.1.ge
    push_cast
    rw [abs_le]
    constructor <;> linarith
  · have hhalf : q - q.floor ≤ 1/2 := not_lt.mp fun h => hup (Or.inl h)
    rw [abs_le]
    constructor <;> linarith

/-- The error is half a unit of the last decimal at most. -/
theorem abs_decimals_sub_le (n : ℕ) (q : ℚ) : |decimals n q - q| ≤ 1/(2*10^n) := by
  have hpos : (0 : ℚ) < 10^n := by positivity
  have herror := abs_nearest_sub_le (q * 10^n)
  have hscale : decimals n q - q = ((nearest (q * 10^n) : ℚ) - q * 10^n) / 10^n := by
    unfold decimals
    field_simp
  rw [hscale,abs_div,abs_of_pos hpos,div_le_div_iff₀ hpos (by positivity)]
  calc |(nearest (q * 10^n) : ℚ) - q * 10^n| * (2*10^n)
      ≤ 1/2 * (2*10^n) := mul_le_mul_of_nonneg_right herror (by positivity)
    _ = 1 * 10^n := by ring

end AtlasCompliance.Rounding
