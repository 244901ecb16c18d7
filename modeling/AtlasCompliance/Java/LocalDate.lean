import AtlasCompliance.Java.Instant

/-! `java.time.LocalDate` as a day counter: the UTC day of a clock reading and the text of a day. -/
namespace AtlasCompliance.Java
open Delimited Instant

namespace LocalDate

def MILLIS_PER_DAY : ℕ := 86400000

/-- `LocalDate.now(ZoneOffset.UTC)` at a reading of the millisecond clock. -/
def now (millis : ℕ) : ℕ := millis/MILLIS_PER_DAY

/-- `LocalDate.toString` of a day from 1970 on. -/
def isoText (epochDay : ℕ) : List Char :=
  let date := civil epochDay
  yearText date.1 ++ '-'::(pad 2 date.2.1.toNat ++ '-'::pad 2 date.2.2.toNat)

/-- `toString().replace("-", "")`. -/
def basicText (epochDay : ℕ) : List Char := (isoText epochDay).filter (· != '-')

theorem year_nonneg (epochDay : ℕ) : 0 ≤ (civil epochDay).1 := by
  have hspec := marchYearDay_spec (epochDay + 719468)
  have hbounds := marchYearDay_bounds (epochDay + 719468)
  have hmarch : 0 ≤ (marchYearDay (epochDay + 719468)).1 := by
    unfold marchDays at hspec
    omega
  simp only [civil]
  split_ifs <;> omega

/-- The text without its separators: a year with at least four digits, then two and two. -/
theorem basicText_eq (epochDay : ℕ) : basicText epochDay =
    yearText (civil epochDay).1 ++ (pad 2 (civil epochDay).2.1.toNat ++
      pad 2 (civil epochDay).2.2.toNat) := by
  have hpad : ∀ w n, (pad w n).filter (· != '-') = pad w n := fun w n =>
    List.filter_eq_self.mpr fun c hc => by
      simpa using fun h : c = '-' => not_mem_pad (w := w) (n := n) rfl (h ▸ hc)
  have hyear : (yearText (civil epochDay).1).filter (· != '-') = yearText (civil epochDay).1 := by
    unfold yearText
    rw [if_neg (not_lt.mpr (year_nonneg epochDay)),List.filter_append,hpad]
    split_ifs <;> rfl
  simp [basicText,isoText,hyear,hpad]

theorem basicText_injective : Function.Injective basicText := by
  intro d e h
  rw [basicText_eq,basicText_eq] at h
  have hd := civil_bounds d
  have he := civil_bounds e
  have htwo : ∀ n : ℤ, 1 ≤ n → n ≤ 31 → (pad 2 n.toNat).length = 2 := fun n h1 h2 =>
    length_pad (by omega) (by omega)
  obtain ⟨hyear,hrest⟩ := List.append_inj' h (by
    simp [htwo _ hd.1 (by omega),htwo _ hd.2.2.1 hd.2.2.2,htwo _ he.1 (by omega),
      htwo _ he.2.2.1 he.2.2.2])
  obtain ⟨hmonth,hday⟩ := List.append_inj hrest (by
    rw [htwo _ hd.1 (by omega),htwo _ he.1 (by omega)])
  have hyear : (civil d).1 = (civil e).1 :=
    (yearText_append_inj (a := []) (b := []) (by rw [hyear])).1
  have hmonth := pad_injective 2 hmonth
  have hday := pad_injective 2 hday
  have hcivil : civil d = civil e := Prod.ext hyear (Prod.ext (by omega) (by omega))
  exact_mod_cast civil_injective hcivil

/-- The text of a day has only digits and a sign. -/
theorem colon_not_mem_basicText (epochDay : ℕ) : ':' ∉ basicText epochDay := by
  have hpad : ∀ w n, ':' ∉ pad w n := fun w n => not_mem_pad rfl
  have hyear : ∀ y, ':' ∉ yearText y := by
    intro y
    unfold yearText
    split_ifs <;> simp [hpad]
  rw [basicText_eq]
  simp [hpad,hyear]

example : String.ofList (basicText (now 1782036000000)) = "20260621" := by decide

end LocalDate
end AtlasCompliance.Java
