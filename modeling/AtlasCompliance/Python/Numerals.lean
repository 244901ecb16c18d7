import AtlasCompliance.Lib.JsonText

/-! The numerals of whole numbers: what `int.__repr__` writes is a numeral and is read back. -/
namespace AtlasCompliance.Python
open JsonText

/-- `int.__repr__` -/
def intText (k : ℤ) : List Char :=
  if k < 0 then '-'::Nat.toDigits 10 k.natAbs else Nat.toDigits 10 k.natAbs

/-- The number of a numeral of digits with a sign. -/
def intValue (t : List Char) : ℤ :=
  if t.head? = some '-' then -(Nat.ofDigitChars 10 t.tail 0 : ℤ) else Nat.ofDigitChars 10 t 0

theorem isDigit_of_mem {n : ℕ} {c : Char} (h : c ∈ Nat.toDigits 10 n) : c.isDigit = true :=
  Nat.isDigit_of_mem_toDigits (by decide) (by decide) h

theorem head?_toDigits_ne {n : ℕ} : (Nat.toDigits 10 n).head? ≠ some '-' := by
  intro h
  exact absurd (isDigit_of_mem (List.mem_of_head? h)) (by decide)

theorem intValue_intText (k : ℤ) : intValue (intText k) = k := by
  unfold intText
  split_ifs with hneg
  · rw [intValue,List.head?_cons,if_pos rfl,List.tail_cons,Nat.ofDigitChars_ten_toDigits]
    omega
  · rw [intValue,if_neg head?_toDigits_ne,Nat.ofDigitChars_ten_toDigits]
    omega

/-- Only zero is written with a zero in front. -/
theorem toDigits_eq_zero_cons {n : ℕ} {rest : List Char} (h : Nat.toDigits 10 n = '0'::rest) : rest = [] := by
  induction n using Nat.strong_induction_on generalizing rest with
  | _ n ih =>
    rw [Nat.toDigits_eq_if (by decide)] at h
    split_ifs at h with hsmall
    · exact (List.cons.inj h).2.symm
    · obtain ⟨d,front,hfront⟩ := List.exists_cons_of_ne_nil (Nat.toDigits_ne_nil (n := n/10) (b := 10))
      rw [hfront,List.cons_append] at h
      obtain ⟨rfl,-⟩ := List.cons.inj h
      have hshort := ih (n/10) (by omega) hfront
      have hvalue := Nat.ofDigitChars_ten_toDigits (n := n/10)
      rw [hfront,hshort] at hvalue
      have hzero : Nat.ofDigitChars 10 ['0'] 0 = 0 := by decide
      omega

theorem numeral_toDigits (n : ℕ) : numeral (Nat.toDigits 10 n) = true := by
  obtain ⟨d,rest,hdigits⟩ := List.exists_cons_of_ne_nil (Nat.toDigits_ne_nil (n := n) (b := 10))
  have hrest : rest.dropWhile Char.isDigit = [] := by
    rw [List.dropWhile_eq_nil_iff]
    exact fun c hc => isDigit_of_mem (hdigits ▸ List.mem_cons_of_mem d hc)
  have hd : d.isDigit = true := isDigit_of_mem (hdigits ▸ List.mem_cons_self)
  rw [numeral,if_neg head?_toDigits_ne,hdigits]
  by_cases hzero : d = '0'
  · subst hzero
    rw [toDigits_eq_zero_cons hdigits]
    rfl
  · simp only [hzero,if_false,hd,hrest,Bool.true_and]
    rfl

theorem numeral_intText (k : ℤ) : numeral (intText k) = true := by
  unfold intText
  split_ifs with hneg
  · have h := numeral_toDigits k.natAbs
    rw [numeral,if_neg head?_toDigits_ne] at h
    rw [numeral,List.head?_cons,if_pos rfl,List.tail_cons]
    exact h
  · exact numeral_toDigits _

end AtlasCompliance.Python
