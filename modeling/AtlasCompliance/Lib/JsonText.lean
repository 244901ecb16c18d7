import AtlasCompliance.Lib.Json

/-! The texts of a JSON value, and what can be told of such a text from its quotes alone. -/
namespace AtlasCompliance.JsonText

/-- White space between the tokens. -/
def blank (c : Char) : Bool := c = ' ' || c = '\t' || c = '\n' || c = '\r'

/-! ### Strings -/

/-- The character of an escape with one letter. -/
def escaped (e : Char) : Option Char :=
  if e = '"' then some '"' else if e = '\\' then some '\\' else if e = '/' then some '/'
  else if e = 'b' then some (Char.ofNat 8) else if e = 'f' then some (Char.ofNat 12)
  else if e = 'n' then some '\n' else if e = 'r' then some '\r'
  else if e = 't' then some '\t' else none

def hexDigit (c : Char) : Option ℕ :=
  if 48 ≤ c.toNat ∧ c.toNat ≤ 57 then some (c.toNat-48)
  else if 65 ≤ c.toNat ∧ c.toNat ≤ 70 then some (c.toNat-55)
  else if 97 ≤ c.toNat ∧ c.toNat ≤ 102 then some (c.toNat-87) else none

/-- The number of four hexadecimal digits. -/
def hexWord : List Char → Option ℕ
  | [a,b,c,d] => do
    let a ← hexDigit a
    let b ← hexDigit b
    let c ← hexDigit c
    let d ← hexDigit d
    return 4096*a + 256*b + 16*c + d
  | _ => none

def isHigh (n : ℕ) : Bool := 0xD800 ≤ n && n < 0xDC00

def isLow (n : ℕ) : Bool := 0xDC00 ≤ n && n < 0xE000

/-- The number of a pair of surrogates. -/
def joined (hi lo : ℕ) : ℕ := 0x10000 + 0x400*(hi-0xD800) + (lo-0xDC00)

/-- How a character can stand in a string: as itself unless it is a control character, a quote or a
backslash, by a short escape, by its number, or by its pair of surrogates. -/
inductive SpellsChar : Char → List Char → Prop where
  | raw {c : Char} (hcontrol : 32 ≤ c.toNat) (hquote : c ≠ '"') (hback : c ≠ '\\') : SpellsChar c [c]
  | short {e c : Char} (he : escaped e = some c) : SpellsChar c ['\\',e]
  | unit {w : List Char} {c : Char} (hw : hexWord w = some c.toNat) : SpellsChar c ('\\':: 'u'::w)
  | pair {v w : List Char} {hi lo : ℕ} {c : Char} (hv : hexWord v = some hi)
      (hw : hexWord w = some lo) (hhigh : isHigh hi = true) (hlow : isLow lo = true)
      (hc : c.toNat = joined hi lo) : SpellsChar c ('\\':: 'u'::(v ++ '\\':: 'u'::w))

inductive SpellsString : List Char → List Char → Prop where
  | nil : SpellsString [] []
  | cons {c : Char} {s w t : List Char} (hc : SpellsChar c w) (hs : SpellsString s t) :
      SpellsString (c::s) (w ++ t)

/-! ### Numerals -/

def numeralChar (c : Char) : Bool :=
  c.isDigit || c = '-' || c = '+' || c = '.' || c = 'e' || c = 'E'

def exponent : List Char → Bool
  | [] => true
  | e::rest =>
    let digits := if rest.head? = some '+' || rest.head? = some '-' then rest.tail else rest
    (e = 'e' || e = 'E') && !digits.isEmpty && digits.all Char.isDigit

def fraction : List Char → Bool
  | [] => true
  | p::rest =>
    if p = '.' then !(rest.takeWhile Char.isDigit).isEmpty && exponent (rest.dropWhile Char.isDigit)
    else exponent (p::rest)

/-- A sign, digits without a leading zero, a fraction and an exponent. -/
def numeral (t : List Char) : Bool :=
  match if t.head? = some '-' then t.tail else t with
  | [] => false
  | d::rest => if d = '0' then fraction rest
    else d.isDigit && fraction (rest.dropWhile Char.isDigit)

/-! ### Values -/

/-- A value between blanks. -/
structure Slot where
  before : List Char
  value : Json
  text : List Char
  after : List Char

def Slot.whole (s : Slot) : List Char := s.before ++ s.text ++ s.after

def Slot.Blank (s : Slot) : Prop := (∀ c ∈ s.before, blank c = true) ∧ ∀ c ∈ s.after, blank c = true

/-- A member of an object between blanks. -/
structure Field where
  before : List Char
  name : String
  key : List Char
  gap : List Char
  slot : Slot

def Field.whole (f : Field) : List Char :=
  f.before ++ '"'::(f.key ++ '"'::(f.gap ++ ':'::f.slot.whole))

def Field.Blank (f : Field) : Prop :=
  (∀ c ∈ f.before, blank c = true) ∧ (∀ c ∈ f.gap, blank c = true) ∧ f.slot.Blank

def Field.member (f : Field) : String × Json := (f.name,f.slot.value)

/-- The object that members in a row make: the last of two with one name counts. -/
def dict (members : List (String × Json)) : List (String × Json) :=
  members.foldl (fun d m => Json.putMember m.1 m.2 d) []

/-- The texts of a value. `number` is what a numeral is read as, `names` what is asked of the names
of an object. -/
inductive Spells (number : List Char → Option ℚ) (names : List String → Prop) :
    Json → List Char → Prop where
  | null : Spells number names .null ['n','u','l','l']
  | yes : Spells number names (.bool true) ['t','r','u','e']
  | no : Spells number names (.bool false) ['f','a','l','s','e']
  | num {q : ℚ} {t : List Char} (hnumeral : numeral t = true) (hq : number t = some q) :
      Spells number names (.num q) t
  | str {s : String} {t : List Char} (hs : SpellsString s.toList t) :
      Spells number names (.str s) ('"'::(t ++ ['"']))
  | arrEmpty {w : List Char} (hw : ∀ c ∈ w, blank c = true) :
      Spells number names (.arr []) ('['::(w ++ [']']))
  | arr {first : Slot} {more : List Slot} (hblank : ∀ s ∈ first::more, s.Blank)
      (hvalue : ∀ s ∈ first::more, Spells number names s.value s.text) :
      Spells number names (.arr ((first::more).map Slot.value))
        ('['::(first.whole ++ (more.flatMap (fun s => ','::s.whole) ++ [']'])))
  | objEmpty {w : List Char} (hw : ∀ c ∈ w, blank c = true) :
      Spells number names (.obj []) ('{'::(w ++ ['}']))
  | obj {first : Field} {more : List Field} (hblank : ∀ f ∈ first::more, f.Blank)
      (hkey : ∀ f ∈ first::more, SpellsString f.name.toList f.key)
      (hvalue : ∀ f ∈ first::more, Spells number names f.slot.value f.slot.text)
      (hnames : names ((first::more).map Field.name)) :
      Spells number names (.obj (dict ((first::more).map Field.member)))
        ('{'::(first.whole ++ (more.flatMap (fun f => ','::f.whole) ++ ['}'])))

/-- The character is in a string or a name of the value. -/
inductive Mentions (c : Char) : Json → Prop where
  | str {s : String} (h : c ∈ s.toList) : Mentions c (.str s)
  | elem {es : List Json} {e : Json} (he : e ∈ es) (h : Mentions c e) : Mentions c (.arr es)
  | name {ms : List (String × Json)} {m : String × Json} (hm : m ∈ ms) (h : c ∈ m.1.toList) :
      Mentions c (.obj ms)
  | member {ms : List (String × Json)} {m : String × Json} (hm : m ∈ ms) (h : Mentions c m.2) :
      Mentions c (.obj ms)

/-! ### Members in a row -/

theorem putMember_of_not_mem {name : String} {v : Json} {ms : List (String × Json)}
    (h : name ∉ ms.map Prod.fst) : Json.putMember name v ms = ms ++ [(name,v)] := by
  induction ms with
  | nil => rfl
  | cons x ms ih =>
    obtain ⟨k,x⟩ := x
    rw [List.map_cons,List.mem_cons,not_or] at h
    rw [Json.putMember,if_neg (Ne.symm h.1),ih h.2]
    rfl

/-- Distinct names all stay. -/
theorem dict_of_nodup {ms : List (String × Json)} (h : (ms.map Prod.fst).Nodup) : dict ms = ms := by
  have hfold : ∀ ms d : List (String × Json), ((d ++ ms).map Prod.fst).Nodup →
      ms.foldl (fun d m => Json.putMember m.1 m.2 d) d = d ++ ms := by
    intro ms
    induction ms with
    | nil => simp
    | cons x ms ih =>
      intro d hd
      have hnew : x.1 ∉ d.map Prod.fst := by
        rw [List.map_append,List.map_cons,List.nodup_append] at hd
        exact fun hmem => hd.2.2 _ hmem _ List.mem_cons_self rfl
      rw [List.foldl_cons,putMember_of_not_mem hnew,ih _ (by simpa using hd)]
      simp
  exact hfold ms [] h

/-! ### Inside and outside of strings -/

inductive Mode where
  | outside
  | inString
  | escape
  deriving DecidableEq

/-- What a character does to the mode; outside of strings only ASCII without backslash stands. -/
def step : Mode → Char → Option Mode
  | .outside,c => if c = '"' then some .inString
      else if c = '\\' ∨ 128 ≤ c.toNat then none else some .outside
  | .inString,c => if c = '"' then some .outside else if c = '\\' then some .escape
      else some .inString
  | .escape,_ => some .inString

def lex (m : Mode) (text : List Char) : Option Mode := text.foldlM step m

@[simp] theorem lex_nil (m : Mode) : lex m [] = some m := rfl

@[simp] theorem lex_cons (m : Mode) (c : Char) (text : List Char) :
    lex m (c::text) = (step m c).bind fun m => lex m text := rfl

theorem lex_append (m : Mode) (x y : List Char) : lex m (x ++ y) = (lex m x).bind fun m => lex m y := by
  simp [lex,List.foldlM_append]

/-- A character beyond ASCII is in a string, and leaves the text in it. -/
theorem lex_inString_of_wide {a b : List Char} {c : Char} {m : Mode} (hc : 128 ≤ c.toNat)
    (h : lex .outside (a ++ c::b) = some m) :
    lex .outside a ≠ some .outside ∧ lex .inString b = some m := by
  have hquote : c ≠ '"' := fun heq => by subst heq; exact absurd hc (by decide)
  have hback : c ≠ '\\' := fun heq => by subst heq; exact absurd hc (by decide)
  rw [lex_append,Option.bind_eq_some_iff] at h
  obtain ⟨mode,ha,hb⟩ := h
  rw [ha]
  cases mode with
  | outside => simp [step,hquote,hc] at hb
  | inString => exact ⟨by simp,by simpa [step,hquote,hback] using hb⟩
  | escape => exact ⟨by simp,by simpa [step] using hb⟩

/-- Characters that are no quotes and no backslashes leave the mode, but after a backslash. -/
theorem lex_plain {w : List Char} (hw : ∀ c ∈ w, c ≠ '"' ∧ c ≠ '\\') {m m' : Mode}
    (hm : m ≠ .escape) (h : lex m w = some m') : m' = m := by
  induction w with
  | nil => exact (Option.some.inj h).symm
  | cons c w ih =>
    obtain ⟨hquote,hback⟩ := hw c List.mem_cons_self
    have hrest := ih fun d hd => hw d (List.mem_cons_of_mem _ hd)
    cases m with
    | outside =>
      by_cases hwide : 128 ≤ c.toNat
      · simp [step,hquote,hwide] at h
      · exact hrest (by simpa [step,hquote,hback,hwide] using h)
    | inString => exact hrest (by simpa [step,hquote,hback] using h)
    | escape => exact absurd rfl hm

/-- In a string they are always read. -/
theorem lex_inString_plain {w : List Char} (hw : ∀ c ∈ w, c ≠ '"' ∧ c ≠ '\\') :
    lex .inString w = some .inString := by
  induction w with
  | nil => rfl
  | cons c w ih =>
    obtain ⟨hquote,hback⟩ := hw c List.mem_cons_self
    simpa [step,hquote,hback] using ih fun d hd => hw d (List.mem_cons_of_mem _ hd)

/-- Outside of strings ASCII without quotes and backslashes is read. -/
theorem lex_outside_plain {w : List Char}
    (hw : ∀ c ∈ w, c ≠ '"' ∧ c ≠ '\\' ∧ c.toNat < 128) : lex .outside w = some .outside := by
  induction w with
  | nil => rfl
  | cons c w ih =>
    obtain ⟨hquote,hback,hascii⟩ := hw c List.mem_cons_self
    simpa [step,hquote,hback,not_le.mpr hascii] using
      ih fun d hd => hw d (List.mem_cons_of_mem _ hd)

/-! ### The characters of a text -/

theorem blank_ascii {c : Char} (h : blank c = true) : c ≠ '"' ∧ c ≠ '\\' ∧ c.toNat < 128 := by
  simp only [blank,Bool.or_eq_true,decide_eq_true_eq] at h
  obtain ((rfl | rfl) | rfl) | rfl := h <;> decide

theorem numeralChar_ascii {c : Char} (h : numeralChar c = true) :
    c ≠ '"' ∧ c ≠ '\\' ∧ c.toNat < 128 ∧ 32 ≤ c.toNat := by
  simp only [numeralChar,Bool.or_eq_true,decide_eq_true_eq] at h
  obtain ((((h | rfl) | rfl) | rfl) | rfl) | rfl := h
  · have hdigit : 48 ≤ c.toNat ∧ c.toNat ≤ 57 := by
      simp only [Char.isDigit,Bool.and_eq_true,decide_eq_true_eq,ge_iff_le,UInt32.le_iff_toNat_le] at h
      exact h
    refine ⟨?_,?_,by omega,by omega⟩
    · rintro rfl
      exact absurd hdigit (by decide)
    · rintro rfl
      exact absurd hdigit (by decide)
  all_goals decide

/-- The letters of the three literals. -/
theorem literal_ascii {c : Char} (h : c ∈ ['n','u','l','t','r','e','f','a','s']) :
    c.toNat < 128 ∧ 32 ≤ c.toNat := by
  simp only [List.mem_cons,List.not_mem_nil,or_false] at h
  obtain rfl | rfl | rfl | rfl | rfl | rfl | rfl | rfl | rfl := h <;> decide

theorem hexDigit_ascii {c : Char} {n : ℕ} (h : hexDigit c = some n) :
    c ≠ '"' ∧ c ≠ '\\' ∧ c.toNat < 128 ∧ 32 ≤ c.toNat := by
  have hrange : (48 ≤ c.toNat ∧ c.toNat ≤ 57) ∨ (65 ≤ c.toNat ∧ c.toNat ≤ 70) ∨
      (97 ≤ c.toNat ∧ c.toNat ≤ 102) := by
    unfold hexDigit at h
    split_ifs at h with h1 h2 h3
    · exact Or.inl h1
    · exact Or.inr (Or.inl h2)
    · exact Or.inr (Or.inr h3)
  refine ⟨?_,?_,by omega,by omega⟩
  · rintro rfl
    exact absurd hrange (by decide)
  · rintro rfl
    exact absurd hrange (by decide)

theorem hexWord_ascii {w : List Char} {n : ℕ} (h : hexWord w = some n) :
    ∀ c ∈ w, c ≠ '"' ∧ c ≠ '\\' ∧ c.toNat < 128 ∧ 32 ≤ c.toNat := by
  unfold hexWord at h
  split at h
  · simp only [Option.bind_eq_bind,Option.bind_eq_some_iff] at h
    obtain ⟨_,ha,_,hb,_,hc,_,hd,-⟩ := h
    simp only [List.mem_cons,List.not_mem_nil,or_false]
    rintro x (rfl | rfl | rfl | rfl)
    · exact hexDigit_ascii ha
    · exact hexDigit_ascii hb
    · exact hexDigit_ascii hc
    · exact hexDigit_ascii hd
  · cases h

theorem escaped_ascii {e c : Char} (h : escaped e = some c) : e.toNat < 128 ∧ 32 ≤ e.toNat := by
  have hletters : e = '"' ∨ e = '\\' ∨ e = '/' ∨ e = 'b' ∨ e = 'f' ∨ e = 'n' ∨ e = 'r' ∨ e = 't' := by
    unfold escaped at h
    split_ifs at h <;> simp [*]
  obtain rfl | rfl | rfl | rfl | rfl | rfl | rfl | rfl := hletters <;> decide

namespace SpellsChar
variable {c : Char} {w : List Char}

theorem lex (h : SpellsChar c w) : JsonText.lex .inString w = some .inString := by
  cases h with
  | raw hcontrol hquote hback => simp [step,hquote,hback]
  | short he => simp [step]
  | unit hw =>
    have hplain := lex_inString_plain fun d hd => ⟨(hexWord_ascii hw d hd).1,(hexWord_ascii hw d hd).2.1⟩
    simp [step,hplain]
  | pair hv hw =>
    have hplain := lex_inString_plain fun d hd => ⟨(hexWord_ascii hv d hd).1,(hexWord_ascii hv d hd).2.1⟩
    have hplain' := lex_inString_plain fun d hd => ⟨(hexWord_ascii hw d hd).1,(hexWord_ascii hw d hd).2.1⟩
    simp [step,lex_append,hplain,hplain']

/-- An escape is ASCII. -/
theorem chars (h : SpellsChar c w) : ∀ d ∈ w, 32 ≤ d.toNat ∧ (128 ≤ d.toNat → d = c) := by
  have hnarrow : ∀ d : Char, d.toNat < 128 ∧ 32 ≤ d.toNat → 32 ≤ d.toNat ∧ (128 ≤ d.toNat → d = c) :=
    fun d hd => ⟨hd.2,fun hwide => absurd hd.1 (not_lt.mpr hwide)⟩
  intro d hd
  cases h with
  | raw hcontrol hquote hback =>
    rw [List.mem_singleton] at hd
    exact ⟨hd ▸ hcontrol,fun _ => hd⟩
  | short he =>
    simp only [List.mem_cons,List.not_mem_nil,or_false] at hd
    obtain rfl | rfl := hd
    · exact hnarrow _ (by decide)
    · exact hnarrow _ (escaped_ascii he)
  | unit hw =>
    simp only [List.mem_cons] at hd
    obtain rfl | rfl | hd := hd
    · exact hnarrow _ (by decide)
    · exact hnarrow _ (by decide)
    · exact hnarrow _ (hexWord_ascii hw d hd).2.2
  | pair hv hw =>
    simp only [List.mem_cons,List.mem_append] at hd
    obtain rfl | rfl | hd | rfl | rfl | hd := hd
    · exact hnarrow _ (by decide)
    · exact hnarrow _ (by decide)
    · exact hnarrow _ (hexWord_ascii hv d hd).2.2
    · exact hnarrow _ (by decide)
    · exact hnarrow _ (by decide)
    · exact hnarrow _ (hexWord_ascii hw d hd).2.2

end SpellsChar

namespace SpellsString
variable {s t : List Char}

theorem lex (h : SpellsString s t) : JsonText.lex .inString t = some .inString := by
  induction h with
  | nil => rfl
  | cons hc hs ih => simp [lex_append,hc.lex,ih]

theorem chars (h : SpellsString s t) : ∀ d ∈ t, 32 ≤ d.toNat ∧ (128 ≤ d.toNat → d ∈ s) := by
  induction h with
  | nil => simp
  | cons hc hs ih =>
    intro d hd
    obtain hd | hd := List.mem_append.mp hd
    · exact ⟨(hc.chars d hd).1,fun hwide => List.mem_cons.mpr (Or.inl ((hc.chars d hd).2 hwide))⟩
    · exact ⟨(ih d hd).1,fun hwide => List.mem_cons_of_mem _ ((ih d hd).2 hwide)⟩

end SpellsString

theorem exponent_chars {t : List Char} (h : exponent t = true) : ∀ c ∈ t, numeralChar c = true := by
  cases t with
  | nil => simp
  | cons e rest =>
    simp only [exponent,Bool.and_eq_true,Bool.or_eq_true,decide_eq_true_eq,List.all_eq_true] at h
    obtain ⟨⟨he,-⟩,hdigits⟩ := h
    have hrest : ∀ c ∈ rest, numeralChar c = true := by
      cases rest with
      | nil => simp
      | cons s ds =>
        simp only [List.head?_cons,Option.some_inj,List.tail_cons] at hdigits
        intro c hc
        split_ifs at hdigits with hsign
        · obtain rfl | hc := List.mem_cons.mp hc
          · obtain rfl | rfl := hsign <;> decide
          · simp [numeralChar,hdigits c hc]
        · simp [numeralChar,hdigits c hc]
    intro c hc
    obtain rfl | hc := List.mem_cons.mp hc
    · obtain rfl | rfl := he <;> decide
    · exact hrest c hc

theorem digits_chars {t : List Char}
    (h : ∀ c ∈ t.dropWhile Char.isDigit, numeralChar c = true) : ∀ c ∈ t, numeralChar c = true := by
  intro c hc
  rw [← List.takeWhile_append_dropWhile (p := Char.isDigit) (l := t),List.mem_append] at hc
  obtain hc | hc := hc
  · simp [numeralChar,List.mem_takeWhile_imp hc]
  · exact h c hc

theorem fraction_chars {t : List Char} (h : fraction t = true) : ∀ c ∈ t, numeralChar c = true := by
  cases t with
  | nil => simp
  | cons p rest =>
    by_cases hp : p = '.'
    · subst hp
      simp only [fraction,if_true,Bool.and_eq_true] at h
      intro c hc
      obtain rfl | hc := List.mem_cons.mp hc
      · decide
      · exact digits_chars (exponent_chars h.2) c hc
    · rw [fraction,if_neg hp] at h
      exact exponent_chars h

theorem unsigned_chars {t : List Char} (h : (match t with
    | [] => false
    | d::rest => if d = '0' then fraction rest
      else d.isDigit && fraction (rest.dropWhile Char.isDigit)) = true) :
    t ≠ [] ∧ ∀ c ∈ t, numeralChar c = true := by
  cases t with
  | nil => cases h
  | cons d rest =>
    refine ⟨List.cons_ne_nil _ _,fun c hc => ?_⟩
    dsimp only at h
    split_ifs at h with hzero
    · obtain rfl | hc := List.mem_cons.mp hc
      · rw [hzero]
        decide
      · exact fraction_chars h c hc
    · rw [Bool.and_eq_true] at h
      obtain rfl | hc := List.mem_cons.mp hc
      · simp [numeralChar,h.1]
      · exact digits_chars (fraction_chars h.2) c hc

theorem numeral_chars {t : List Char} (h : numeral t = true) :
    t ≠ [] ∧ ∀ c ∈ t, numeralChar c = true := by
  unfold numeral at h
  split_ifs at h with hsign
  · cases t with
    | nil => cases hsign
    | cons s rest =>
      obtain rfl : s = '-' := by simpa using hsign
      refine ⟨List.cons_ne_nil _ _,fun c hc => ?_⟩
      obtain rfl | hc := List.mem_cons.mp hc
      · decide
      · exact (unsigned_chars h).2 c hc
  · exact unsigned_chars h

section Enclosed
variable {σ : Type} {f : σ → List Char} {first : σ} {more : List σ} {o c : Char}

/-- What stands in the text of an array or an object. -/
theorem mem_enclosed {x : Char} :
    x ∈ o::(f first ++ (more.flatMap (fun s => ','::f s) ++ [c])) ↔
      x = o ∨ x = c ∨ (x = ',' ∧ more ≠ []) ∨ ∃ s ∈ first::more, x ∈ f s := by
  simp only [List.mem_cons,List.mem_append,List.mem_flatMap,List.not_mem_nil,or_false]
  constructor
  · rintro (h | h | ⟨s,hs,h | h⟩ | h)
    · exact Or.inl h
    · exact Or.inr (Or.inr (Or.inr ⟨first,Or.inl rfl,h⟩))
    · exact Or.inr (Or.inr (Or.inl ⟨h,List.ne_nil_of_mem hs⟩))
    · exact Or.inr (Or.inr (Or.inr ⟨s,Or.inr hs,h⟩))
    · exact Or.inr (Or.inl h)
  · rintro (h | h | ⟨h,hne⟩ | ⟨s,rfl | hs,h⟩)
    · exact Or.inl h
    · exact Or.inr (Or.inr (Or.inr h))
    · obtain ⟨s,hs⟩ := List.exists_mem_of_ne_nil more hne
      exact Or.inr (Or.inr (Or.inl ⟨s,hs,Or.inl h⟩))
    · exact Or.inr (Or.inl h)
    · exact Or.inr (Or.inr (Or.inl ⟨s,hs,Or.inr h⟩))

theorem lex_enclosed (ho : step .outside o = some .outside) (hc : step .outside c = some .outside)
    (h : ∀ s ∈ first::more, lex .outside (f s) = some .outside) :
    lex .outside (o::(f first ++ (more.flatMap (fun s => ','::f s) ++ [c]))) = some .outside := by
  have hmore : lex .outside (more.flatMap fun s => ','::f s) = some .outside := by
    induction more with
    | nil => rfl
    | cons s more ih =>
      have hrest := ih fun t ht => h t (by
        obtain rfl | ht := List.mem_cons.mp ht
        · exact List.mem_cons_self
        · exact List.mem_cons_of_mem _ (List.mem_cons_of_mem _ ht))
      have hs := h s (List.mem_cons_of_mem _ List.mem_cons_self)
      simp [lex_append,step,hs,hrest]
  simp [lex_append,ho,hc,h first List.mem_cons_self,hmore]

end Enclosed

theorem Slot.lex {s : Slot} (hblank : s.Blank) (h : lex .outside s.text = some .outside) :
    lex .outside s.whole = some .outside := by
  have hbefore := lex_outside_plain fun c hc => blank_ascii (hblank.1 c hc)
  have hafter := lex_outside_plain fun c hc => blank_ascii (hblank.2 c hc)
  simp [Slot.whole,lex_append,hbefore,hafter,h]

theorem Slot.mem_whole {s : Slot} (hblank : s.Blank) {c : Char} (h : c ∈ s.whole) :
    blank c = true ∨ c ∈ s.text := by
  simp only [Slot.whole,List.mem_append] at h
  obtain (h | h) | h := h
  · exact Or.inl (hblank.1 c h)
  · exact Or.inr h
  · exact Or.inl (hblank.2 c h)

theorem Field.lex {f : Field} (hblank : f.Blank) (hkey : SpellsString f.name.toList f.key)
    (h : lex .outside f.slot.text = some .outside) : lex .outside f.whole = some .outside := by
  have hbefore := lex_outside_plain fun c hc => blank_ascii (hblank.1 c hc)
  have hgap := lex_outside_plain fun c hc => blank_ascii (hblank.2.1 c hc)
  simp [Field.whole,lex_append,hbefore,hgap,hkey.lex,Slot.lex hblank.2.2 h,step]

theorem Field.mem_whole {f : Field} (hblank : f.Blank) {c : Char} (h : c ∈ f.whole) :
    blank c = true ∨ c = '"' ∨ c = ':' ∨ c ∈ f.key ∨ c ∈ f.slot.text := by
  simp only [Field.whole,List.mem_append,List.mem_cons] at h
  obtain h | h | h | h | h | h | h := h
  · exact Or.inl (hblank.1 c h)
  · exact Or.inr (Or.inl h)
  · exact Or.inr (Or.inr (Or.inr (Or.inl h)))
  · exact Or.inr (Or.inl h)
  · exact Or.inl (hblank.2.1 c h)
  · exact Or.inr (Or.inr (Or.inl h))
  · exact (Slot.mem_whole hblank.2.2 h).imp id fun h => Or.inr (Or.inr (Or.inr h))

namespace Spells
variable {number : List Char → Option ℚ} {names : List String → Prop} {v : Json} {t : List Char}

/-- Outside of its strings a text is ASCII without backslashes, and every string is closed. -/
theorem closed (h : Spells number names v t) : lex .outside t = some .outside := by
  induction h with
  | null | yes | no => decide
  | num hnumeral hq =>
    exact lex_outside_plain fun c hc =>
      have hascii := numeralChar_ascii ((numeral_chars hnumeral).2 c hc)
      ⟨hascii.1,hascii.2.1,hascii.2.2.1⟩
  | str hs => simp [step,lex_append,hs.lex]
  | arrEmpty hw =>
    simp [step,lex_append,lex_outside_plain fun c hc => blank_ascii (hw c hc)]
  | arr hblank hvalue ih =>
    exact lex_enclosed (by decide) (by decide) fun s hs => Slot.lex (hblank s hs) (ih s hs)
  | objEmpty hw =>
    simp [step,lex_append,lex_outside_plain fun c hc => blank_ascii (hw c hc)]
  | obj hblank hkey hvalue hnames ih =>
    exact lex_enclosed (by decide) (by decide) fun f hf => Field.lex (hblank f hf) (hkey f hf) (ih f hf)

/-- No control characters but the blanks between the tokens. -/
theorem chars (h : Spells number names v t) : ∀ c ∈ t, 32 ≤ c.toNat ∨ blank c = true := by
  induction h with
  | null | yes | no =>
    intro c hc
    refine Or.inl (@literal_ascii c ?_).2
    revert hc
    simp only [List.mem_cons,List.not_mem_nil,or_false]
    tauto
  | num hnumeral hq =>
    exact fun c hc => Or.inl (numeralChar_ascii ((numeral_chars hnumeral).2 c hc)).2.2.2
  | str hs =>
    intro c hc
    simp only [List.mem_cons,List.mem_append,List.not_mem_nil,or_false] at hc
    obtain rfl | hc | rfl := hc
    · exact Or.inl (by decide)
    · exact Or.inl (hs.chars c hc).1
    · exact Or.inl (by decide)
  | arrEmpty hw | objEmpty hw =>
    intro c hc
    simp only [List.mem_cons,List.mem_append,List.not_mem_nil,or_false] at hc
    obtain rfl | hc | rfl := hc
    · exact Or.inl (by decide)
    · exact Or.inr (hw c hc)
    · exact Or.inl (by decide)
  | arr hblank hvalue ih =>
    intro c hc
    obtain rfl | rfl | ⟨rfl,-⟩ | ⟨s,hs,hc⟩ := mem_enclosed.mp hc
    · exact Or.inl (by decide)
    · exact Or.inl (by decide)
    · exact Or.inl (by decide)
    · exact (Slot.mem_whole (hblank s hs) hc).elim Or.inr (ih s hs c)
  | obj hblank hkey hvalue hnames ih =>
    intro c hc
    obtain rfl | rfl | ⟨rfl,-⟩ | ⟨f,hf,hc⟩ := mem_enclosed.mp hc
    · exact Or.inl (by decide)
    · exact Or.inl (by decide)
    · exact Or.inl (by decide)
    · obtain hc | rfl | rfl | hc | hc := Field.mem_whole (hblank f hf) hc
      · exact Or.inr hc
      · exact Or.inl (by decide)
      · exact Or.inl (by decide)
      · exact Or.inl ((hkey f hf).chars c hc).1
      · exact ih f hf c hc

/-- With distinct names a character beyond ASCII in the text is in a string. -/
theorem mentions_of_wide (h : Spells number List.Nodup v t) {c : Char} (hmem : c ∈ t)
    (hwide : 128 ≤ c.toNat) : Mentions c v := by
  have hnarrow : ∀ d : Char, d.toNat < 128 → c = d → False := by
    rintro d hd rfl
    exact absurd hd (not_lt.mpr hwide)
  have hblankc : blank c = true → False := fun hb =>
    absurd (blank_ascii hb).2.2 (not_lt.mpr hwide)
  induction h with
  | null | yes | no =>
    refine absurd (@literal_ascii c ?_).1 (not_lt.mpr hwide)
    revert hmem
    simp only [List.mem_cons,List.not_mem_nil,or_false]
    tauto
  | num hnumeral hq =>
    exact absurd (numeralChar_ascii ((numeral_chars hnumeral).2 c hmem)).2.2.1 (not_lt.mpr hwide)
  | str hs =>
    simp only [List.mem_cons,List.mem_append,List.not_mem_nil,or_false] at hmem
    obtain hc | hc | hc := hmem
    · exact absurd hc fun hc => hnarrow _ (by decide) hc
    · exact .str ((hs.chars c hc).2 hwide)
    · exact absurd hc fun hc => hnarrow _ (by decide) hc
  | arrEmpty hw | objEmpty hw =>
    simp only [List.mem_cons,List.mem_append,List.not_mem_nil,or_false] at hmem
    obtain hc | hc | hc := hmem
    · exact absurd hc fun hc => hnarrow _ (by decide) hc
    · exact absurd (hw c hc) hblankc
    · exact absurd hc fun hc => hnarrow _ (by decide) hc
  | arr hblank hvalue ih =>
    obtain hc | hc | ⟨hc,-⟩ | ⟨s,hs,hc⟩ := mem_enclosed.mp hmem
    · exact absurd hc fun hc => hnarrow _ (by decide) hc
    · exact absurd hc fun hc => hnarrow _ (by decide) hc
    · exact absurd hc fun hc => hnarrow _ (by decide) hc
    · have htext := (Slot.mem_whole (hblank s hs) hc).resolve_left hblankc
      exact .elem (List.mem_map.mpr ⟨s,hs,rfl⟩) (ih s hs htext)
  | @obj first more hblank hkey hvalue hnames ih =>
    have hdict : dict ((first::more).map Field.member) = (first::more).map Field.member := by
      refine dict_of_nodup ?_
      rw [List.map_map]
      exact hnames
    rw [hdict]
    obtain hc | hc | ⟨hc,-⟩ | ⟨f,hf,hc⟩ := mem_enclosed.mp hmem
    · exact absurd hc fun hc => hnarrow _ (by decide) hc
    · exact absurd hc fun hc => hnarrow _ (by decide) hc
    · exact absurd hc fun hc => hnarrow _ (by decide) hc
    · obtain hc | hc | hc | hc | hc := Field.mem_whole (hblank f hf) hc
      · exact absurd hc hblankc
      · exact absurd hc fun hc => hnarrow _ (by decide) hc
      · exact absurd hc fun hc => hnarrow _ (by decide) hc
      · exact .name (List.mem_map.mpr ⟨f,hf,rfl⟩) (((hkey f hf).chars c hc).2 hwide)
      · exact .member (List.mem_map.mpr ⟨f,hf,rfl⟩) (ih f hf hc)

theorem obj_ends {members : List (String × Json)} (h : Spells number names (.obj members) t) :
    ∃ r, t = '{'::(r ++ ['}']) := by
  generalize hv : Json.obj members = v at h
  cases h with
  | objEmpty => exact ⟨_,rfl⟩
  | obj => exact ⟨_,by rw [← List.append_assoc]⟩
  | null | yes | no | num | str | arrEmpty | arr => cases hv

end Spells

end AtlasCompliance.JsonText
