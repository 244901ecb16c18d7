import Mathlib

/-! Delimiter-joined texts. Joining loses exactly the difference between a delimiter and
a delimiter occurring inside a field; decimal numerals of any width lose nothing. -/
namespace AtlasCompliance.Delimited

universe u
variable {α : Type u} [DecidableEq α] (c : α)

/-- The fields cut at every delimiter they contain, in order. -/
def pieces (fields : List (List α)) : List (List α) := fields.flatMap (List.splitOn c)

theorem splitOn_join {fields : List (List α)} (h : fields ≠ []) :
    ([c].intercalate fields).splitOn c = pieces c fields := by
  induction fields with
  | nil => exact absurd rfl h
  | cons f fields ih =>
    cases fields with
    | nil => simp [pieces]
    | cons f' fields =>
      rw [List.intercalate_cons_cons,List.append_assoc,List.singleton_append,
        List.splitOn_append_cons_self,ih (List.cons_ne_nil _ _)]
      rfl

/-- Two joined texts agree exactly when their fields have the same pieces. -/
theorem join_eq_iff {fields fields' : List (List α)} (h : fields ≠ []) (h' : fields' ≠ []) :
    [c].intercalate fields = [c].intercalate fields' ↔ pieces c fields = pieces c fields' := by
  constructor
  · intro he
    rw [← splitOn_join c h,← splitOn_join c h',he]
  · intro he
    rw [← splitOn_join c h,← splitOn_join c h'] at he
    simpa using congrArg [c].intercalate he

/-- Fields without the delimiter are their own pieces, so they are recovered. -/
theorem pieces_eq_self {fields : List (List α)} (h : ∀ f ∈ fields, c ∉ f) :
    pieces c fields = fields := by
  induction fields with
  | nil => rfl
  | cons f fields ih =>
    rw [List.forall_mem_cons] at h
    change f.splitOn c ++ pieces c fields = f::fields
    rw [List.splitOn_eq_singleton h.1,ih h.2]
    rfl

theorem pieces_append (xs ys : List (List α)) : pieces c (xs ++ ys) = pieces c xs ++ pieces c ys :=
  List.flatMap_append

/-- A single field is determined by its pieces in any fixed surroundings. -/
theorem pieces_middle_inj (xs ys : List (List α)) {f f' : List α}
    (h : pieces c (xs ++ f::ys) = pieces c (xs ++ f'::ys)) : f = f' := by
  rw [pieces_append,pieces_append,List.append_cancel_left_eq] at h
  change f.splitOn c ++ pieces c ys = f'.splitOn c ++ pieces c ys at h
  rw [List.append_cancel_right_eq] at h
  simpa using congrArg [c].intercalate h

/-- The text up to the first delimiter and the text after it are both determined. -/
theorem append_cons_inj {a b x y : List α} (ha : c ∉ a) (hb : c ∉ b)
    (h : a ++ c::x = b ++ c::y) : a = b ∧ x = y := by
  have hs := congrArg (List.splitOn c) h
  rw [List.splitOn_append_cons_self_of_not_mem ha,List.splitOn_append_cons_self_of_not_mem hb] at hs
  obtain ⟨rfl,-⟩ := List.cons_eq_cons.mp hs
  exact ⟨rfl,List.tail_eq_of_cons_eq (List.append_cancel_left h)⟩

section Decimal

/-- Decimal numeral, padded with zeros on the left to at least `w` digits. -/
def pad (w n : ℕ) : List Char := (Nat.toDigits 10 n).leftpad w '0'

@[simp] theorem value_pad (w n : ℕ) : Nat.ofDigitChars 10 (pad w n) 0 = n := by
  simp [pad,List.leftpad,Nat.ofDigitChars_append,Nat.ofDigitChars_replicate_zero]

theorem pad_injective (w : ℕ) : Function.Injective (pad w) := fun m n h => by
  simpa using congrArg (fun cs => Nat.ofDigitChars 10 cs 0) h

theorem isDigit_of_mem_pad {w n : ℕ} {d : Char} (h : d ∈ pad w n) : d.isDigit := by
  rcases List.mem_append.mp h with h | h
  · rw [List.eq_of_mem_replicate h]
    rfl
  · exact Nat.isDigit_of_mem_toDigits (by omega) (by omega) h

theorem not_mem_pad {w n : ℕ} {d : Char} (h : d.isDigit = false) : d ∉ pad w n := by
  intro hm
  simp [isDigit_of_mem_pad hm] at h

theorem pad_ne_nil (w n : ℕ) : pad w n ≠ [] := by
  simp [pad,List.leftpad]

theorem length_pad {w n : ℕ} (hw : 0 < w) (h : n < 10^w) : (pad w n).length = w := by
  have hlen := (Nat.length_toDigits_le_iff (by omega : 1 < 10) hw).mpr h
  simp only [pad,List.leftpad,List.length_append,List.length_replicate]
  omega

end Decimal
end AtlasCompliance.Delimited
