import Mathlib

/-! The parts of `java.lang.String` and `Character` that the services use, on texts of Unicode
scalar values; `length` still counts UTF-16 units. -/
namespace AtlasCompliance.Java

/-- `Character.isWhitespace`: separators except the no-break ones, and the ASCII controls. -/
def isWhitespace (c : Char) : Bool :=
  (9 ≤ c.toNat && c.toNat ≤ 13) || (28 ≤ c.toNat && c.toNat ≤ 32) || c.toNat == 0x1680 ||
    (0x2000 ≤ c.toNat && c.toNat ≤ 0x200A && c.toNat != 0x2007) || c.toNat == 0x2028 ||
    c.toNat == 0x2029 || c.toNat == 0x205F || c.toNat == 0x3000

/-- `\d` in a pattern. -/
def isDigit (c : Char) : Bool := 48 ≤ c.toNat && c.toNat ≤ 57

/-- `\w` in a pattern. -/
def isWord (c : Char) : Bool :=
  isDigit c || (65 ≤ c.toNat && c.toNat ≤ 90) || (97 ≤ c.toNat && c.toNat ≤ 122) || c == '_'

/-- `\s` in a pattern. -/
def isSpace (c : Char) : Bool := (9 ≤ c.toNat && c.toNat ≤ 13) || c.toNat == 32

namespace Text

def isBlank (s : String) : Bool := s.toList.all isWhitespace

def strip (s : String) : String :=
  String.ofList ((s.toList.dropWhile isWhitespace).rdropWhile isWhitespace)

/-- `String.length`: a supplementary character is a surrogate pair. -/
def length (s : String) : ℕ := (s.toList.map fun c => if 0x10000 ≤ c.toNat then 2 else 1).sum

/-- The UTF-16 units of a text, which `length` counts and `substring` cuts. -/
def units (s : String) : List UInt16 := s.toList.flatMap fun c =>
  if 0x10000 ≤ c.toNat then
    [UInt16.ofNat (0xD800 + (c.toNat - 0x10000) / 0x400),
      UInt16.ofNat (0xDC00 + (c.toNat - 0x10000) % 0x400)]
  else [UInt16.ofNat c.toNat]

/-- `String.toUpperCase(Locale.ROOT)` as far as it yields A to Z: every other upper-case text has a
character outside A to Z, and so has the text it comes from here. -/
def toUpperCaseLatin (s : String) : String := String.ofList (s.toList.flatMap fun c =>
  match c with
  | 'ı' => ['I']
  | 'ſ' => ['S']
  | 'ß' => ['S','S']
  | 'ﬀ' => ['F','F']
  | 'ﬁ' => ['F','I']
  | 'ﬂ' => ['F','L']
  | 'ﬃ' => ['F','F','I']
  | 'ﬄ' => ['F','F','L']
  | 'ﬅ' => ['S','T']
  | 'ﬆ' => ['S','T']
  | c => [c.toUpper])

/-- The letter that `equalsIgnoreCase` compares with A to Z. -/
def foldLatin (c : Char) : Char :=
  match c with
  | 'ı' => 'I'
  | 'İ' => 'I'
  | 'ſ' => 'S'
  | '\u212a' => 'K'
  | c => c.toUpper

/-- `String.equalsIgnoreCase` with a text of ASCII letters. -/
def equalsIgnoreCase (s latin : String) : Bool :=
  s.toList.map foldLatin == latin.toList.map foldLatin

end Text

/-- The case tables of Unicode: lower-case forms, cased letters and characters that are passed over
in the search for one. -/
structure Casing where
  lower : Char → List Char
  cased : Char → Bool
  ignorable : Char → Bool
  ascii : ∀ c, c.toNat < 128 → lower c = [c.toLower] ∧ cased c = c.isAlpha ∧
    ignorable c = [0x27,0x2E,0x3A,0x5E,0x60].contains c.toNat
  punctuation : ∀ c, 0x2000 ≤ c.toNat → c.toNat ≤ 0x206F → lower c = [c]

theorem toLower_eq_or (c : Char) : c.toLower = c ∨ (65 ≤ c.toNat ∧ c.toNat ≤ 90) := by
  unfold Char.toLower
  split
  · rename_i hc
    exact Or.inr ⟨UInt32.le_iff_toNat_le.mp hc.1,UInt32.le_iff_toNat_le.mp hc.2⟩
  · exact Or.inl rfl

/-- A case table for ASCII texts. -/
def asciiCasing : Casing where
  lower c := [c.toLower]
  cased c := c.isAlpha
  ignorable c := [0x27,0x2E,0x3A,0x5E,0x60].contains c.toNat
  ascii _ _ := ⟨rfl,rfl,rfl⟩
  punctuation c hc hc' := by
    obtain h | h := toLower_eq_or c
    · rw [h]
    · omega

/-- The first letter that is not passed over is a cased one. -/
def Casing.meetsCased (casing : Casing) (text : List Char) : Bool :=
  (text.dropWhile casing.ignorable).head?.any casing.cased

/-- The lower case of one character; a capital sigma behind a cased letter and not before one is
final. -/
def Casing.lowerAt (casing : Casing) (before : List Char) (c : Char) (rest : List Char) :
    List Char :=
  if c = 'Σ' then [if casing.meetsCased before && !casing.meetsCased rest then 'ς' else 'σ']
  else casing.lower c

/-- `String.toLowerCase(Locale.ROOT)` of the text that follows `before`. -/
def Casing.lowerCase (casing : Casing) (before : List Char) : List Char → List Char
  | [] => []
  | c::rest => casing.lowerAt before c rest ++ casing.lowerCase (c::before) rest

end AtlasCompliance.Java
