import AtlasCompliance.Python.Value

/-! Texts in Python: what surrounds them, and the letters of its regular expressions. -/
namespace AtlasCompliance.Python

/-- `text.strip()`. -/
def strip (text : List Char) : List Char := (text.dropWhile isSpace).rdropWhile isSpace

/-- `\w` in ASCII. -/
def asciiWord (c : Char) : Bool :=
  (48 ≤ c.toNat && c.toNat ≤ 57) || (65 ≤ c.toNat && c.toNat ≤ 90) ||
    (97 ≤ c.toNat && c.toNat ≤ 122) || c.toNat == 95

/-- A letter of a lower-case pattern and a letter of ASCII, without regard to case. -/
def asciiSame (a c : Char) : Bool :=
  c == a || (65 ≤ c.toNat && c.toNat ≤ 90 && c.toNat + 32 == a.toNat)

/-- `\w`, and which letters of a text a lower-case pattern reads without regard to case. -/
structure Letters where
  isWord : Char → Bool
  same : Char → Char → Bool
  isWord_ascii : ∀ c, c.toNat < 128 → isWord c = asciiWord c
  isWord_space : ∀ c, isSpace c = true → isWord c = false
  same_ascii : ∀ a c, c.toNat < 128 → same a c = asciiSame a c
  same_word : ∀ a c, 97 ≤ a.toNat ∧ a.toNat ≤ 122 → same a c = true → isWord c = true

theorem asciiWord_of_space {c : Char} (h : isSpace c = true) : asciiWord c = false := by
  simp only [isSpace,Bool.or_eq_true,Bool.and_eq_true,decide_eq_true_eq,beq_iff_eq] at h
  simp only [asciiWord,Bool.or_eq_false_iff,Bool.and_eq_false_iff,decide_eq_false_iff_not,
    beq_eq_false_iff_ne]
  omega

theorem asciiWord_of_same {a c : Char} (ha : 97 ≤ a.toNat ∧ a.toNat ≤ 122)
    (h : asciiSame a c = true) : asciiWord c = true := by
  simp only [asciiSame,Bool.or_eq_true,Bool.and_eq_true,decide_eq_true_eq,beq_iff_eq] at h
  simp only [asciiWord,Bool.or_eq_true,Bool.and_eq_true,decide_eq_true_eq,beq_iff_eq]
  obtain rfl | h := h
  · omega
  · omega

/-- No letters but those of ASCII. -/
def asciiLetters : Letters where
  isWord := asciiWord
  same := asciiSame
  isWord_ascii _ _ := rfl
  isWord_space _ h := asciiWord_of_space h
  same_ascii _ _ _ := rfl
  same_word _ _ ha h := asciiWord_of_same ha h

end AtlasCompliance.Python
