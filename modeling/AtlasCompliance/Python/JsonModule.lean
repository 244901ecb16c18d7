import AtlasCompliance.Lib.JsonText
import AtlasCompliance.Python.Lines

/-! `json.loads`: it reads every text of a value as the value, and nothing else. -/
namespace AtlasCompliance.Python
open JsonText

/-! ### Reading -/

/-- `_decode_uXXXX`. -/
def decode_uXXXX (text : List Char) : Option (ℕ × List Char) :=
  (hexWord (text.take 4)).map fun n => (n,text.drop 4)

/-- The character of a `\u` escape. A surrogate that is in no pair is no character, and such a text
has no value here. -/
def scanUnit (text : List Char) : Option (Char × List Char) :=
  (decode_uXXXX text).bind fun hi =>
    if isHigh hi.1 then
      if hi.2.take 2 = ['\\','u'] then
        (decode_uXXXX (hi.2.drop 2)).bind fun lo =>
          if isLow lo.1 then some (Char.ofNat (joined hi.1 lo.1),lo.2) else none
      else none
    else if isLow hi.1 then none else some (Char.ofNat hi.1,hi.2)

/-- The next character of a string; control characters must be escaped. -/
def scanChar : List Char → Option (Char × List Char)
  | [] => none
  | c::rest =>
    if c = '\\' then match rest with
      | [] => none
      | e::rest => if e = 'u' then scanUnit rest else (escaped e).map fun x => (x,rest)
    else if c.toNat < 32 then none else some (c,rest)

/-- The string up to its closing quote, in at most a number of characters. -/
def scanstring : ℕ → List Char → Option (List Char × List Char)
  | 0,_ => none
  | _+1,[] => none
  | limit+1,c::rest =>
    if c = '"' then some ([],rest)
    else (scanChar (c::rest)).bind fun x =>
      (scanstring limit x.2).map fun r => (x.1::r.1,r.2)

/-- The text after blanks and a delimiter. -/
def expect (d : Char) (text : List Char) : Option (List Char) :=
  match text.dropWhile blank with
  | [] => none
  | c::rest => if c = d then some rest else none

section
variable (number : List Char → Option ℚ)

/-- A number. The whole run of characters that numerals are made of is read: where a numeral ends
inside of it, no text goes on. -/
def scanNumber (text : List Char) : Option (Json × List Char) :=
  let t := text.takeWhile numeralChar
  if numeral t then (number t).map fun q => (.num q,text.dropWhile numeralChar) else none

def scanLiteral (w : List Char) (v : Json) (text : List Char) : Option (Json × List Char) :=
  if w <+: text then some (v,text.drop w.length) else none

mutual

/-- The value at the front of a text, in at most a number of steps; `NaN` and the infinities are no
values here. -/
def scanOnce : ℕ → List Char → Option (Json × List Char)
  | 0,_ => none
  | _+1,[] => none
  | limit+1,c::rest =>
    if c = '"' then (scanstring rest.length rest).map fun r => (.str (String.ofList r.1),r.2)
    else if c = '{' then match expect '}' rest with
      | some rest => some (.obj [],rest)
      | none => (scanMembers limit rest).map fun r => (.obj (dict r.1),r.2)
    else if c = '[' then match expect ']' rest with
      | some rest => some (.arr [],rest)
      | none => (scanElements limit (rest.dropWhile blank)).map fun r => (.arr r.1,r.2)
    else if c = 'n' then scanLiteral ['n','u','l','l'] .null (c::rest)
    else if c = 't' then scanLiteral ['t','r','u','e'] (.bool true) (c::rest)
    else if c = 'f' then scanLiteral ['f','a','l','s','e'] (.bool false) (c::rest)
    else scanNumber number (c::rest)

def scanElements : ℕ → List Char → Option (List Json × List Char)
  | 0,_ => none
  | limit+1,text => (scanOnce limit text).bind fun v =>
    match expect ']' v.2 with
    | some rest => some ([v.1],rest)
    | none => (expect ',' v.2).bind fun rest =>
      (scanElements limit (rest.dropWhile blank)).map fun r => (v.1::r.1,r.2)

def scanMembers : ℕ → List Char → Option (List (String × Json) × List Char)
  | 0,_ => none
  | limit+1,text => (expect '"' text).bind fun rest =>
    (scanstring rest.length rest).bind fun k =>
    (expect ':' k.2).bind fun rest =>
    (scanOnce limit (rest.dropWhile blank)).bind fun v =>
    match expect '}' v.2 with
    | some rest => some ([(String.ofList k.1,v.1)],rest)
    | none => (expect ',' v.2).bind fun rest =>
      (scanMembers limit rest).map fun r => ((String.ofList k.1,v.1)::r.1,r.2)

end

/-- `json.loads`, `none` where it raises. -/
def loads (text : List Char) : Option Json :=
  if text.head? = some (Char.ofNat 0xFEFF) then none
  else (scanOnce number (text.length+1) (text.dropWhile blank)).bind fun r =>
    if r.2.dropWhile blank = [] then some r.1 else none

end

/-! ### Every text of a value is read as it -/

/-- What can follow a numeral. -/
def Stops (rest : List Char) : Prop := ∀ c ∈ rest.head?, numeralChar c = false

theorem numeralChar_of_blank {c : Char} (h : blank c = true) : numeralChar c = false := by
  simp only [blank,Bool.or_eq_true,decide_eq_true_eq] at h
  obtain ((rfl | rfl) | rfl) | rfl := h <;> decide

theorem stops_blanks {w rest : List Char} {c : Char} (hw : ∀ x ∈ w, blank x = true)
    (hc : numeralChar c = false) : Stops (w ++ c::rest) := by
  intro x hx
  cases w with
  | nil =>
    obtain rfl : c = x := by simpa using hx
    exact hc
  | cons y w =>
    obtain rfl : y = x := by simpa using hx
    exact numeralChar_of_blank (hw y List.mem_cons_self)

theorem dropWhile_blanks {w text : List Char} (hw : ∀ x ∈ w, blank x = true)
    (htext : ∀ c ∈ text.head?, blank c = false) : (w ++ text).dropWhile blank = text := by
  rw [List.dropWhile_append_of_pos hw]
  cases text with
  | nil => rfl
  | cons c text => exact List.dropWhile_cons_of_neg (by simpa using htext c rfl)

theorem expect_eq {w rest : List Char} {d : Char} (hw : ∀ x ∈ w, blank x = true)
    (hd : blank d = false) : expect d (w ++ d::rest) = some rest := by
  have hdrop : (w ++ d::rest).dropWhile blank = d::rest :=
    dropWhile_blanks hw fun c hc => by simpa [← Option.some.inj hc] using hd
  simp [expect,hdrop]

theorem expect_eq_none {w rest : List Char} {c d : Char} (hw : ∀ x ∈ w, blank x = true)
    (hc : blank c = false) (hne : c ≠ d) : expect d (w ++ c::rest) = none := by
  have hdrop : (w ++ c::rest).dropWhile blank = c::rest :=
    dropWhile_blanks hw fun x hx => by simpa [← Option.some.inj hx] using hc
  simp [expect,hdrop,hne]

theorem length_of_hexWord {w : List Char} {n : ℕ} (h : hexWord w = some n) : w.length = 4 := by
  unfold hexWord at h
  split at h
  · rfl
  · cases h

theorem decode_uXXXX_append {w : List Char} {n : ℕ} (h : hexWord w = some n) (rest : List Char) :
    decode_uXXXX (w ++ rest) = some (n,rest) := by
  have hlength := length_of_hexWord h
  simp [decode_uXXXX,← hlength,h]

theorem toNat_not_surrogate (c : Char) : isHigh c.toNat = false ∧ isLow c.toNat = false := by
  have hvalid : c.toNat < 0xD800 ∨ 0xDFFF < c.toNat ∧ c.toNat < 0x110000 := c.valid
  constructor
  · simp only [isHigh,Bool.and_eq_false_iff,decide_eq_false_iff_not]
    omega
  · simp only [isLow,Bool.and_eq_false_iff,decide_eq_false_iff_not]
    omega

theorem scanChar_append {c : Char} {w : List Char} (h : SpellsChar c w) (rest : List Char) :
    scanChar (w ++ rest) = some (c,rest) ∧ (w ++ rest).head? ≠ some '"' ∧ w ≠ [] := by
  cases h with
  | raw hcontrol hquote hback => simp [scanChar,hback,not_lt.mpr hcontrol,hquote]
  | @short e c he =>
    have hu : e ≠ 'u' := fun heq => by
      subst heq
      exact absurd he (by simp [escaped])
    simp [scanChar,hu,he]
  | unit hw =>
    obtain ⟨hhigh,hlow⟩ := toNat_not_surrogate c
    simp [scanChar,scanUnit,decode_uXXXX_append hw,hhigh,hlow]
  | pair hv hw hhigh hlow hc =>
    have hfirst := decode_uXXXX_append hv
    have hsecond := decode_uXXXX_append hw
    simp [scanChar,scanUnit,hfirst,hsecond,hhigh,hlow,← hc]

theorem scanstring_append {s t : List Char} (h : SpellsString s t) (rest : List Char) {limit : ℕ}
    (hlimit : t.length < limit) : scanstring limit (t ++ '"'::rest) = some (s,rest) := by
  induction h generalizing limit with
  | nil =>
    cases limit with
    | zero => cases hlimit
    | succ limit => rfl
  | @cons c s w t hc hs ih =>
    obtain ⟨hscan,hquote,hne⟩ := scanChar_append hc (t ++ '"'::rest)
    have hpos := List.length_pos_of_ne_nil hne
    cases limit with
    | zero => cases hlimit
    | succ limit =>
      rw [List.length_append] at hlimit
      rw [List.append_assoc]
      cases htext : w ++ (t ++ '"'::rest) with
      | nil => simp at htext
      | cons x text =>
        rw [htext] at hscan hquote
        have hx : x ≠ '"' := by simpa using hquote
        rw [scanstring,if_neg hx,hscan,Option.bind_some,ih (by omega)]
        rfl

/-- The text as a string whose reading is limited by what is left. -/
theorem scanstring_length {s t : List Char} (h : SpellsString s t) (rest : List Char) :
    scanstring (t ++ '"'::rest).length (t ++ '"'::rest) = some (s,rest) :=
  scanstring_append h rest (by simp)

theorem takeWhile_numeral {t rest : List Char} (ht : ∀ c ∈ t, numeralChar c = true)
    (hstops : Stops rest) : (t ++ rest).takeWhile numeralChar = t ∧
      (t ++ rest).dropWhile numeralChar = rest := by
  rw [List.takeWhile_append_of_pos ht,List.dropWhile_append_of_pos ht]
  cases rest with
  | nil => simp
  | cons c rest =>
    have hc := hstops c rfl
    simp [hc]

section Complete
variable {number : List Char → Option ℚ} {names : List String → Prop} {v : Json} {t : List Char}

/-- The first character of a text. -/
theorem spells_head (h : Spells number names v t) :
    ∃ c r, t = c::r ∧ blank c = false ∧ c ≠ ']' ∧ c.toNat < 128 := by
  cases h with
  | null | yes | no | str | arrEmpty | arr | objEmpty | obj =>
    exact ⟨_,_,rfl,by decide,by decide,by decide⟩
  | num hnumeral hq =>
    obtain ⟨hne,hchars⟩ := numeral_chars hnumeral
    obtain ⟨c,r,rfl⟩ := List.exists_cons_of_ne_nil hne
    have hc := hchars c List.mem_cons_self
    refine ⟨c,r,rfl,?_,?_,(numeralChar_ascii hc).2.2.1⟩
    · by_contra hblank
      rw [Bool.not_eq_false] at hblank
      exact absurd hc (by simp [numeralChar_of_blank hblank])
    · rintro rfl
      exact absurd hc (by decide)

theorem scanNumber_append {q : ℚ} (hnumeral : numeral t = true) (hq : number t = some q)
    {rest : List Char} (hstops : Stops rest) :
    scanNumber number (t ++ rest) = some (.num q,rest) := by
  obtain ⟨htake,hdrop⟩ := takeWhile_numeral (numeral_chars hnumeral).2 hstops
  simp [scanNumber,htake,hdrop,hnumeral,hq]

theorem scanOnce_num {q : ℚ} (hnumeral : numeral t = true) (hq : number t = some q)
    {rest : List Char} (hstops : Stops rest) (limit : ℕ) :
    scanOnce number (limit+1) (t ++ rest) = some (.num q,rest) := by
  have hscan := scanNumber_append hnumeral hq hstops
  obtain ⟨hne,hchars⟩ := numeral_chars hnumeral
  obtain ⟨c,r,rfl⟩ := List.exists_cons_of_ne_nil hne
  have hc := hchars c List.mem_cons_self
  have hother : ∀ d ∈ ['"','{','[','n','t','f'], c ≠ d := by
    intro d hd heq
    subst heq
    simp only [List.mem_cons,List.not_mem_nil,or_false] at hd
    obtain rfl | rfl | rfl | rfl | rfl | rfl := hd <;> exact absurd hc (by decide)
  rw [List.cons_append] at hscan ⊢
  rw [scanOnce,if_neg (hother _ (by simp)),if_neg (hother _ (by simp)),if_neg (hother _ (by simp)),
    if_neg (hother _ (by simp)),if_neg (hother _ (by simp)),if_neg (hother _ (by simp)),hscan]

/-- A value is read whatever follows it. -/
def Reads (number : List Char → Option ℚ) (v : Json) (t : List Char) : Prop :=
  ∀ (limit : ℕ) (rest : List Char), t.length ≤ limit → Stops rest →
    scanOnce number limit (t ++ rest) = some (v,rest)

theorem scanElements_append {first : Slot} {more : List Slot} (hblank : ∀ s ∈ first::more, s.Blank)
    (hhead : ∀ s ∈ first::more, ∃ c r, s.text = c::r ∧ blank c = false)
    (hreads : ∀ s ∈ first::more, Reads number s.value s.text) (rest : List Char) {limit : ℕ}
    (hlimit : (first.text ++ first.after ++ more.flatMap (fun s => ','::s.whole)).length < limit) :
    scanElements number limit
        (first.text ++ (first.after ++ (more.flatMap (fun s => ','::s.whole) ++ ']'::rest))) =
      some ((first::more).map Slot.value,rest) := by
  induction more generalizing first limit with
  | nil =>
    have hafter := (hblank first List.mem_cons_self).2
    cases limit with
    | zero => cases hlimit
    | succ limit =>
      simp only [List.flatMap_nil,List.append_nil,List.length_append] at hlimit
      have hfirst := hreads first List.mem_cons_self limit (first.after ++ ']'::rest) (by omega)
        (stops_blanks hafter (by decide))
      simp only [List.flatMap_nil,List.nil_append,scanElements,hfirst,Option.bind_some,
        expect_eq hafter (by decide : blank ']' = false)]
      rfl
  | cons next more ih =>
    have hafter := (hblank first List.mem_cons_self).2
    have hnext : next ∈ first::next::more := List.mem_cons_of_mem _ List.mem_cons_self
    obtain ⟨c,r,hc,hcblank⟩ := hhead next hnext
    cases limit with
    | zero => cases hlimit
    | succ limit =>
      have hwhole : next.whole.length = next.before.length + next.text.length + next.after.length := by
        simp only [Slot.whole,List.length_append]
      simp only [List.flatMap_cons,List.cons_append,List.length_append,List.length_cons,
        hwhole] at hlimit
      have hfirst := hreads first List.mem_cons_self limit
        (first.after ++ ','::(next.whole ++ (more.flatMap (fun s => ','::s.whole) ++ ']'::rest)))
        (by omega) (stops_blanks hafter (by decide))
      have hmore : scanElements number limit
          (next.text ++ (next.after ++ (more.flatMap (fun s => ','::s.whole) ++ ']'::rest))) =
            some ((next::more).map Slot.value,rest) := ih
        (fun s hs => hblank s (List.mem_cons_of_mem _ hs))
        (fun s hs => hhead s (List.mem_cons_of_mem _ hs))
        (fun s hs => hreads s (List.mem_cons_of_mem _ hs))
        (by simp only [List.length_append]; omega)
      have hdrop : (next.whole ++ (more.flatMap (fun s => ','::s.whole) ++ ']'::rest)).dropWhile
          blank = next.text ++ (next.after ++ (more.flatMap (fun s => ','::s.whole) ++ ']'::rest)) := by
        rw [Slot.whole,List.append_assoc,List.append_assoc]
        refine dropWhile_blanks (hblank next hnext).1 fun x hx => ?_
        rw [hc] at hx
        obtain rfl : c = x := by simpa using hx
        exact hcblank
      simp only [List.flatMap_cons,List.cons_append,List.append_assoc,scanElements]
      rw [hfirst,Option.bind_some,expect_eq_none hafter (by decide) (by decide)]
      simp only [expect_eq hafter (by decide : blank ',' = false),Option.bind_some]
      rw [hdrop,hmore]
      rfl

/-- A member is read up to the end of its value. -/
theorem scanMembers_field {f : Field} (hblank : f.Blank) (hkey : SpellsString f.name.toList f.key)
    (hhead : ∃ c r, f.slot.text = c::r ∧ blank c = false) (hreads : Reads number f.slot.value f.slot.text)
    {limit : ℕ} (hlimit : f.slot.text.length ≤ limit) {x : List Char}
    (hstops : Stops (f.slot.after ++ x)) :
    scanMembers number (limit+1) (f.whole ++ x) =
      match expect '}' (f.slot.after ++ x) with
      | some rest => some ([f.member],rest)
      | none => (expect ',' (f.slot.after ++ x)).bind fun rest =>
        (scanMembers number limit rest).map fun r => (f.member::r.1,r.2) := by
  obtain ⟨c,r,hc,hcblank⟩ := hhead
  have hvalue := hreads limit (f.slot.after ++ x) hlimit hstops
  have hdrop : (f.slot.before ++ (f.slot.text ++ (f.slot.after ++ x))).dropWhile blank =
      f.slot.text ++ (f.slot.after ++ x) := by
    refine dropWhile_blanks hblank.2.2.1 fun y hy => ?_
    rw [hc] at hy
    obtain rfl : c = y := by simpa using hy
    exact hcblank
  simp only [Field.whole,Slot.whole,List.append_assoc,List.cons_append,scanMembers]
  rw [expect_eq hblank.1 (by decide),Option.bind_some,scanstring_length hkey,Option.bind_some,
    expect_eq hblank.2.1 (by decide),Option.bind_some,hdrop,hvalue,Option.bind_some,String.ofList_toList]
  rfl

theorem scanMembers_append {first : Field} {more : List Field} (hblank : ∀ f ∈ first::more, f.Blank)
    (hkey : ∀ f ∈ first::more, SpellsString f.name.toList f.key)
    (hhead : ∀ f ∈ first::more, ∃ c r, f.slot.text = c::r ∧ blank c = false)
    (hreads : ∀ f ∈ first::more, Reads number f.slot.value f.slot.text) (rest : List Char) {limit : ℕ}
    (hlimit : (first.whole ++ more.flatMap (fun f => ','::f.whole)).length < limit) :
    scanMembers number limit
        (first.whole ++ (more.flatMap (fun f => ','::f.whole) ++ '}'::rest)) =
      some ((first::more).map Field.member,rest) := by
  have hwhole : ∀ f : Field, f.slot.text.length < f.whole.length := by
    intro f
    simp only [Field.whole,Slot.whole,List.length_append,List.length_cons]
    omega
  induction more generalizing first limit with
  | nil =>
    have hafter := (hblank first List.mem_cons_self).2.2.2
    have hless := hwhole first
    cases limit with
    | zero => cases hlimit
    | succ limit =>
      simp only [List.flatMap_nil,List.append_nil] at hlimit
      simp only [List.flatMap_nil,List.nil_append]
      rw [scanMembers_field (hblank first List.mem_cons_self) (hkey first List.mem_cons_self)
        (hhead first List.mem_cons_self) (hreads first List.mem_cons_self) (by omega)
        (stops_blanks hafter (by decide)),expect_eq hafter (by decide)]
      rfl
  | cons next more ih =>
    have hafter := (hblank first List.mem_cons_self).2.2.2
    have hless := hwhole first
    cases limit with
    | zero => cases hlimit
    | succ limit =>
      simp only [List.flatMap_cons,List.cons_append,List.length_append,List.length_cons] at hlimit
      have hmore : scanMembers number limit
          (next.whole ++ (more.flatMap (fun f => ','::f.whole) ++ '}'::rest)) =
            some ((next::more).map Field.member,rest) := ih
        (fun f hf => hblank f (List.mem_cons_of_mem _ hf))
        (fun f hf => hkey f (List.mem_cons_of_mem _ hf))
        (fun f hf => hhead f (List.mem_cons_of_mem _ hf))
        (fun f hf => hreads f (List.mem_cons_of_mem _ hf))
        (by simp only [List.length_append]; omega)
      simp only [List.flatMap_cons,List.cons_append,List.append_assoc]
      rw [scanMembers_field (hblank first List.mem_cons_self) (hkey first List.mem_cons_self)
        (hhead first List.mem_cons_self) (hreads first List.mem_cons_self) (by omega)
        (stops_blanks hafter (by decide)),expect_eq_none hafter (by decide) (by decide)]
      simp only [expect_eq hafter (by decide : blank ',' = false),Option.bind_some,hmore]
      rfl

theorem scanLiteral_append (w : List Char) (v : Json) (rest : List Char) :
    scanLiteral w v (w ++ rest) = some (v,rest) := by
  simp [scanLiteral]

/-- Every text of a value is read as the value. -/
theorem reads_of_spells (h : Spells number names v t) : Reads number v t := by
  induction h with
  | null =>
    intro limit rest hlimit _
    obtain ⟨limit,rfl⟩ := Nat.exists_eq_succ_of_ne_zero (Nat.ne_of_gt (Nat.lt_of_lt_of_le (by decide) hlimit))
    exact scanLiteral_append ['n','u','l','l'] .null rest
  | yes =>
    intro limit rest hlimit _
    obtain ⟨limit,rfl⟩ := Nat.exists_eq_succ_of_ne_zero (Nat.ne_of_gt (Nat.lt_of_lt_of_le (by decide) hlimit))
    exact scanLiteral_append ['t','r','u','e'] (.bool true) rest
  | no =>
    intro limit rest hlimit _
    obtain ⟨limit,rfl⟩ := Nat.exists_eq_succ_of_ne_zero (Nat.ne_of_gt (Nat.lt_of_lt_of_le (by decide) hlimit))
    exact scanLiteral_append ['f','a','l','s','e'] (.bool false) rest
  | num hnumeral hq =>
    intro limit rest hlimit hstops
    have hpos := List.length_pos_of_ne_nil (numeral_chars hnumeral).1
    cases limit with
    | zero => omega
    | succ limit => exact scanOnce_num hnumeral hq hstops limit
  | str hs =>
    intro limit rest hlimit _
    cases limit with
    | zero => cases hlimit
    | succ limit =>
      simp only [List.cons_append,List.append_assoc,List.nil_append,scanOnce,if_true,
        scanstring_length hs,Option.map_some,String.ofList_toList]
  | arrEmpty hw =>
    intro limit rest hlimit _
    cases limit with
    | zero => cases hlimit
    | succ limit =>
      have hexpect := @expect_eq _ rest _ hw (by decide : blank ']' = false)
      simp [scanOnce,hexpect]
  | @arr first more hblank hvalue ih =>
    intro limit rest hlimit _
    have hhead : ∀ s ∈ first::more, ∃ c r, s.text = c::r ∧ blank c = false ∧ c ≠ ']' ∧
        c.toNat < 128 := fun s hs => spells_head (hvalue s hs)
    obtain ⟨c,r,hc,hcblank,hclose,-⟩ := hhead first List.mem_cons_self
    cases limit with
    | zero => cases hlimit
    | succ limit =>
      have hbefore := (hblank first List.mem_cons_self).1
      have hopen : expect ']' (first.whole ++ (more.flatMap (fun s => ','::s.whole) ++ ']'::rest)) =
          none := by
        rw [Slot.whole,hc]
        simp only [List.append_assoc,List.cons_append]
        exact expect_eq_none hbefore hcblank hclose
      have hdrop : (first.whole ++ (more.flatMap (fun s => ','::s.whole) ++ ']'::rest)).dropWhile
          blank = first.text ++ (first.after ++ (more.flatMap (fun s => ','::s.whole) ++ ']'::rest)) := by
        rw [Slot.whole,List.append_assoc,List.append_assoc]
        refine dropWhile_blanks hbefore fun x hx => ?_
        rw [hc] at hx
        obtain rfl : c = x := by simpa using hx
        exact hcblank
      have hscan := @scanElements_append number first more hblank
        (fun s hs => (hhead s hs).imp fun c h => h.imp fun r h => ⟨h.1,h.2.1⟩) ih rest limit (by
          simp only [Slot.whole,List.length_cons,List.length_append] at hlimit ⊢
          omega)
      simp only [List.cons_append,List.append_assoc,List.nil_append,scanOnce]
      rw [if_neg (by decide),if_neg (by decide),if_pos trivial,hopen,hdrop,hscan]
      rfl
  | objEmpty hw =>
    intro limit rest hlimit _
    cases limit with
    | zero => cases hlimit
    | succ limit =>
      have hexpect := @expect_eq _ rest _ hw (by decide : blank '}' = false)
      simp [scanOnce,hexpect]
  | @obj first more hblank hkey hvalue hnames ih =>
    intro limit rest hlimit _
    cases limit with
    | zero => cases hlimit
    | succ limit =>
      have hopen : expect '}' (first.whole ++ (more.flatMap (fun f => ','::f.whole) ++ '}'::rest)) =
          none := by
        simp only [Field.whole,List.append_assoc,List.cons_append]
        exact expect_eq_none (hblank first List.mem_cons_self).1 (by decide) (by decide)
      have hscan := @scanMembers_append number first more hblank hkey
        (fun f hf => (spells_head (hvalue f hf)).imp fun c h => h.imp fun r h => ⟨h.1,h.2.1⟩) ih rest
        limit (by
          simp only [List.length_cons,List.length_append] at hlimit ⊢
          omega)
      simp only [List.cons_append,List.append_assoc,List.nil_append,scanOnce]
      rw [if_neg (by decide),if_pos trivial,hopen,hscan]
      rfl

/-- `loads` gives the value of each of its texts, with blanks around it. -/
theorem loads_of_spells (h : Spells number names v t) {w w' : List Char}
    (hw : ∀ c ∈ w, blank c = true) (hw' : ∀ c ∈ w', blank c = true) :
    loads number (w ++ (t ++ w')) = some v := by
  obtain ⟨c,r,hc,hcblank,-,hascii⟩ := spells_head h
  have hbom : (w ++ (t ++ w')).head? ≠ some (Char.ofNat 0xFEFF) := by
    cases w with
    | nil =>
      rw [List.nil_append,hc,List.cons_append,List.head?_cons,ne_eq,Option.some_inj]
      rintro rfl
      exact absurd hascii (by decide)
    | cons x w =>
      rw [List.cons_append,List.head?_cons,ne_eq,Option.some_inj]
      rintro rfl
      exact absurd (blank_ascii (hw _ List.mem_cons_self)).2.2 (by decide)
  have hdrop : (w ++ (t ++ w')).dropWhile blank = t ++ w' := by
    refine dropWhile_blanks hw fun x hx => ?_
    rw [hc] at hx
    obtain rfl : c = x := by simpa using hx
    exact hcblank
  have hstops : Stops w' := fun x hx =>
    numeralChar_of_blank (hw' x (List.mem_of_mem_head? hx))
  have hread := reads_of_spells h ((w ++ (t ++ w')).length+1) w'
    (by simp only [List.length_append]; omega) hstops
  rw [loads,if_neg hbom,hdrop,hread,Option.bind_some,if_pos (List.dropWhile_eq_nil_iff.mpr hw')]

theorem loads_text (h : Spells number names v t) : loads number t = some v := by
  have hwhole : loads number ([] ++ (t ++ [])) = some v := loads_of_spells h (by simp) (by simp)
  simpa using hwhole

end Complete

/-! ### What is read is a text of the value -/

theorem decode_uXXXX_eq_some {text rest : List Char} {n : ℕ}
    (h : decode_uXXXX text = some (n,rest)) : ∃ w, text = w ++ rest ∧ hexWord w = some n := by
  rw [decode_uXXXX,Option.map_eq_some_iff] at h
  obtain ⟨m,hm,heq⟩ := h
  obtain ⟨rfl,rfl⟩ := Prod.mk.inj heq
  exact ⟨text.take 4,(List.take_append_drop 4 text).symm,hm⟩

theorem hexDigit_lt {c : Char} {n : ℕ} (h : hexDigit c = some n) : n < 16 := by
  unfold hexDigit at h
  split_ifs at h <;> simp only [Option.some_inj] at h <;> omega

theorem hexWord_lt {w : List Char} {n : ℕ} (h : hexWord w = some n) : n < 65536 := by
  unfold hexWord at h
  split at h
  · simp only [Option.bind_eq_bind,Option.bind_eq_some_iff] at h
    obtain ⟨a,ha,b,hb,c,hc,d,hd,hn⟩ := h
    have hsum : 4096*a + 256*b + 16*c + d = n := Option.some.inj hn
    have ha := hexDigit_lt ha
    have hb := hexDigit_lt hb
    have hc := hexDigit_lt hc
    have hd := hexDigit_lt hd
    omega
  · cases h

theorem toNat_ofNat_of_valid {n : ℕ} (h : n < 0xD800 ∨ 0xDFFF < n ∧ n < 0x110000) :
    (Char.ofNat n).toNat = n := by
  rw [Char.toNat_ofNat,if_pos h]

theorem joined_valid {hi lo : ℕ} (hhigh : isHigh hi = true) (hlow : isLow lo = true) :
    0xDFFF < joined hi lo ∧ joined hi lo < 0x110000 := by
  simp only [isHigh,isLow,Bool.and_eq_true,decide_eq_true_eq] at hhigh hlow
  unfold joined
  omega

theorem scanUnit_eq_some {text rest : List Char} {c : Char} (h : scanUnit text = some (c,rest)) :
    ∃ w, '\\':: 'u'::text = w ++ rest ∧ SpellsChar c w := by
  rw [scanUnit,Option.bind_eq_some_iff] at h
  obtain ⟨⟨hi,after⟩,hfirst,h⟩ := h
  obtain ⟨v,rfl,hv⟩ := decode_uXXXX_eq_some hfirst
  dsimp only at h
  split_ifs at h with hhigh hpair hlow
  · rw [Option.bind_eq_some_iff] at h
    obtain ⟨⟨lo,rest'⟩,hsecond,h⟩ := h
    dsimp only at h
    split_ifs at h with hlow
    obtain ⟨rfl,rfl⟩ := Prod.mk.inj (Option.some.inj h)
    obtain ⟨w,hw,hlo⟩ := decode_uXXXX_eq_some hsecond
    have hafter : after = '\\':: 'u'::(w ++ rest') := by
      rw [← List.take_append_drop 2 after,hpair,hw]
      rfl
    have htext : '\\':: 'u'::(v ++ after) = ('\\':: 'u'::(v ++ '\\':: 'u'::w)) ++ rest' := by
      rw [hafter]
      simp only [List.cons_append,List.append_assoc]
    exact ⟨_,htext,.pair hv hlo hhigh hlow (toNat_ofNat_of_valid (Or.inr (joined_valid hhigh hlow)))⟩
  · obtain ⟨rfl,rfl⟩ := Prod.mk.inj (Option.some.inj h)
    have hlt := hexWord_lt hv
    refine ⟨'\\':: 'u'::v,rfl,.unit ?_⟩
    rw [toNat_ofNat_of_valid,hv]
    simp only [isHigh,isLow,Bool.and_eq_true,decide_eq_true_eq,not_and,not_lt] at hhigh hlow
    omega

theorem scanChar_eq_some {text rest : List Char} {c : Char} (h : scanChar text = some (c,rest))
    (hquote : text.head? ≠ some '"') : ∃ w, text = w ++ rest ∧ SpellsChar c w := by
  cases text with
  | nil => cases h
  | cons x text =>
    simp only [scanChar] at h
    split_ifs at h with hback hcontrol
    · subst hback
      cases text with
      | nil => cases h
      | cons e text =>
        dsimp only at h
        split_ifs at h with hu
        · subst hu
          exact scanUnit_eq_some h
        · rw [Option.map_eq_some_iff] at h
          obtain ⟨y,hy,heq⟩ := h
          obtain ⟨rfl,rfl⟩ := Prod.mk.inj heq
          exact ⟨['\\',e],rfl,.short hy⟩
    · obtain ⟨rfl,rfl⟩ := Prod.mk.inj (Option.some.inj h)
      exact ⟨[x],rfl,.raw (not_lt.mp hcontrol) (by simpa using hquote) hback⟩

theorem scanstring_eq_some {limit : ℕ} {text s rest : List Char}
    (h : scanstring limit text = some (s,rest)) :
    ∃ t, text = t ++ '"'::rest ∧ SpellsString s t := by
  induction limit generalizing text s with
  | zero => cases h
  | succ limit ih =>
    cases text with
    | nil => cases h
    | cons c text =>
      rw [scanstring] at h
      split_ifs at h with hquote
      · obtain ⟨rfl,rfl⟩ := Prod.mk.inj (Option.some.inj h)
        exact ⟨[],by rw [hquote]; rfl,.nil⟩
      · rw [Option.bind_eq_some_iff] at h
        obtain ⟨⟨x,after⟩,hchar,h⟩ := h
        rw [Option.map_eq_some_iff] at h
        obtain ⟨⟨s',rest'⟩,hrest,heq⟩ := h
        obtain ⟨rfl,rfl⟩ := Prod.mk.inj heq
        obtain ⟨w,hw,hx⟩ := scanChar_eq_some hchar (by simpa using hquote)
        obtain ⟨t,ht,hs⟩ := ih hrest
        dsimp only at ht
        exact ⟨w ++ t,by rw [hw,ht,List.append_assoc],.cons hx hs⟩

theorem expect_eq_some {d : Char} {text rest : List Char} (h : expect d text = some rest) :
    ∃ w, text = w ++ d::rest ∧ ∀ c ∈ w, blank c = true := by
  unfold expect at h
  split at h
  · cases h
  · rename_i c rest' hdrop
    split_ifs at h with hc
    obtain rfl := Option.some.inj h
    refine ⟨text.takeWhile blank,?_,fun c hc => List.mem_takeWhile_imp hc⟩
    rw [← hc,← hdrop,List.takeWhile_append_dropWhile]

theorem dropWhile_blank (text : List Char) :
    ∃ w, text = w ++ text.dropWhile blank ∧ ∀ c ∈ w, blank c = true :=
  ⟨text.takeWhile blank,(List.takeWhile_append_dropWhile).symm,fun _ hc => List.mem_takeWhile_imp hc⟩

section Sound
variable {number : List Char → Option ℚ}

theorem scanNumber_eq_some {text rest : List Char} {v : Json}
    (h : scanNumber number text = some (v,rest)) :
    ∃ t, text = t ++ rest ∧ Spells number (fun _ => True) v t := by
  simp only [scanNumber] at h
  split_ifs at h with hnumeral
  rw [Option.map_eq_some_iff] at h
  obtain ⟨q,hq,heq⟩ := h
  obtain ⟨rfl,rfl⟩ := Prod.mk.inj heq
  exact ⟨_,(List.takeWhile_append_dropWhile).symm,.num hnumeral hq⟩

theorem scanLiteral_eq_some {w text rest : List Char} {v v' : Json}
    (h : scanLiteral w v text = some (v',rest)) : v' = v ∧ text = w ++ rest := by
  unfold scanLiteral at h
  split_ifs at h with hleads
  obtain ⟨rfl,rfl⟩ := Prod.mk.inj (Option.some.inj h)
  exact ⟨rfl,(List.prefix_iff_eq_append.mp hleads).symm⟩

/-- What `scanOnce` reads is a text of the value it gives. -/
def OnceSound (number : List Char → Option ℚ) (limit : ℕ) : Prop :=
  ∀ (text rest : List Char) (v : Json), scanOnce number limit text = some (v,rest) →
    ∃ t, text = t ++ rest ∧ Spells number (fun _ => True) v t

def ElementsSound (number : List Char → Option ℚ) (limit : ℕ) : Prop :=
  ∀ (text rest : List Char) (vs : List Json), scanElements number limit text = some (vs,rest) →
    ∃ first more, vs = (first::more).map Slot.value ∧ first.before = [] ∧
      (∀ s ∈ first::more, s.Blank) ∧
      (∀ s ∈ first::more, Spells number (fun _ => True) s.value s.text) ∧
      text = first.whole ++ (more.flatMap (fun s => ','::s.whole) ++ ']'::rest)

def MembersSound (number : List Char → Option ℚ) (limit : ℕ) : Prop :=
  ∀ (text rest : List Char) (ms : List (String × Json)),
    scanMembers number limit text = some (ms,rest) →
    ∃ first more, ms = (first::more).map Field.member ∧ (∀ f ∈ first::more, f.Blank) ∧
      (∀ f ∈ first::more, SpellsString f.name.toList f.key) ∧
      (∀ f ∈ first::more, Spells number (fun _ => True) f.slot.value f.slot.text) ∧
      text = first.whole ++ (more.flatMap (fun f => ','::f.whole) ++ '}'::rest)

theorem elementsSound_succ {limit : ℕ} (honce : OnceSound number limit)
    (helements : ElementsSound number limit) : ElementsSound number (limit+1) := by
  intro text rest vs h
  rw [scanElements,Option.bind_eq_some_iff] at h
  obtain ⟨⟨v,after⟩,hvalue,h⟩ := h
  obtain ⟨t,rfl,hspells⟩ := honce _ _ _ hvalue
  dsimp only at h
  split at h
  · rename_i rest' hclose
    obtain ⟨rfl,rfl⟩ := Prod.mk.inj (Option.some.inj h)
    obtain ⟨w,rfl,hw⟩ := expect_eq_some hclose
    refine ⟨⟨[],v,t,w⟩,[],rfl,rfl,?_,?_,by simp [Slot.whole]⟩
    · simpa [Slot.Blank] using hw
    · simpa using hspells
  · rw [Option.bind_eq_some_iff] at h
    obtain ⟨rest',hcomma,h⟩ := h
    obtain ⟨w,rfl,hw⟩ := expect_eq_some hcomma
    rw [Option.map_eq_some_iff] at h
    obtain ⟨⟨vs',rest''⟩,hmore,heq⟩ := h
    obtain ⟨rfl,rfl⟩ := Prod.mk.inj heq
    obtain ⟨next,more,rfl,hbefore,hblank,hall,htext⟩ := helements _ _ _ hmore
    obtain ⟨u,hu,hublank⟩ := dropWhile_blank rest'
    have hnext := List.forall_mem_cons.mp hblank
    have hnext' := List.forall_mem_cons.mp hall
    refine ⟨⟨[],v,t,w⟩,{ next with before := u }::more,rfl,rfl,?_,?_,?_⟩
    · refine List.forall_mem_cons.mpr ⟨⟨by simp,hw⟩,List.forall_mem_cons.mpr ⟨⟨hublank,?_⟩,hnext.2⟩⟩
      exact hnext.1.2
    · exact List.forall_mem_cons.mpr ⟨hspells,List.forall_mem_cons.mpr ⟨hnext'.1,hnext'.2⟩⟩
    · rw [hu,htext]
      simp [Slot.whole,hbefore]

theorem membersSound_succ {limit : ℕ} (honce : OnceSound number limit)
    (hmembers : MembersSound number limit) : MembersSound number (limit+1) := by
  intro text rest ms h
  rw [scanMembers,Option.bind_eq_some_iff] at h
  obtain ⟨text₁,hquote,h⟩ := h
  rw [Option.bind_eq_some_iff] at h
  obtain ⟨⟨key,text₂⟩,hkey,h⟩ := h
  rw [Option.bind_eq_some_iff] at h
  obtain ⟨text₃,hcolon,h⟩ := h
  rw [Option.bind_eq_some_iff] at h
  obtain ⟨⟨v,text₄⟩,hvalue,h⟩ := h
  obtain ⟨w₁,rfl,hw₁⟩ := expect_eq_some hquote
  obtain ⟨k,rfl,hk⟩ := scanstring_eq_some hkey
  obtain ⟨w₂,rfl,hw₂⟩ := expect_eq_some hcolon
  obtain ⟨u,hu,hublank⟩ := dropWhile_blank text₃
  obtain ⟨t,ht,hspells⟩ := honce _ _ _ hvalue
  have hname : SpellsString (String.ofList key).toList k := by rwa [String.toList_ofList]
  dsimp only at h
  split at h
  · rename_i rest' hclose
    obtain ⟨rfl,rfl⟩ := Prod.mk.inj (Option.some.inj h)
    obtain ⟨w,rfl,hw⟩ := expect_eq_some hclose
    refine ⟨⟨w₁,String.ofList key,k,w₂,⟨u,v,t,w⟩⟩,[],rfl,?_,?_,?_,?_⟩
    · simpa [Field.Blank,Slot.Blank] using ⟨hw₁,hw₂,hublank,hw⟩
    · simpa using hname
    · simpa using hspells
    · rw [hu,ht]
      simp [Field.whole,Slot.whole]
  · rw [Option.bind_eq_some_iff] at h
    obtain ⟨rest',hcomma,h⟩ := h
    obtain ⟨w,rfl,hw⟩ := expect_eq_some hcomma
    rw [Option.map_eq_some_iff] at h
    obtain ⟨⟨ms',rest''⟩,hmore,heq⟩ := h
    obtain ⟨rfl,rfl⟩ := Prod.mk.inj heq
    obtain ⟨next,more,rfl,hblank,hkeys,hall,htext⟩ := hmembers _ _ _ hmore
    refine ⟨⟨w₁,String.ofList key,k,w₂,⟨u,v,t,w⟩⟩,next::more,rfl,?_,?_,?_,?_⟩
    · exact List.forall_mem_cons.mpr ⟨⟨hw₁,hw₂,hublank,hw⟩,hblank⟩
    · exact List.forall_mem_cons.mpr ⟨hname,hkeys⟩
    · exact List.forall_mem_cons.mpr ⟨hspells,hall⟩
    · rw [hu,ht,htext]
      simp [Field.whole,Slot.whole]

theorem onceSound_succ {limit : ℕ} (helements : ElementsSound number limit)
    (hmembers : MembersSound number limit) : OnceSound number (limit+1) := by
  intro text rest v h
  cases text with
  | nil => cases h
  | cons c text =>
    rw [scanOnce] at h
    split_ifs at h with hquote hbrace hbracket hn ht hf
    · rw [Option.map_eq_some_iff] at h
      obtain ⟨⟨s,rest'⟩,hs,heq⟩ := h
      obtain ⟨rfl,rfl⟩ := Prod.mk.inj heq
      obtain ⟨t,rfl,hstring⟩ := scanstring_eq_some hs
      have hspells : Spells number (fun _ => True) (.str (String.ofList s)) ('"'::(t ++ ['"'])) :=
        .str (by rwa [String.toList_ofList])
      exact ⟨_,by rw [hquote]; simp,hspells⟩
    · subst hbrace
      split at h
      · rename_i rest' hclose
        obtain ⟨rfl,rfl⟩ := Prod.mk.inj (Option.some.inj h)
        obtain ⟨w,rfl,hw⟩ := expect_eq_some hclose
        exact ⟨_,by simp,.objEmpty hw⟩
      · rw [Option.map_eq_some_iff] at h
        obtain ⟨⟨ms,rest'⟩,hms,heq⟩ := h
        obtain ⟨rfl,rfl⟩ := Prod.mk.inj heq
        obtain ⟨first,more,rfl,hblank,hkey,hall,rfl⟩ := hmembers _ _ _ hms
        exact ⟨_,by simp,.obj hblank hkey hall trivial⟩
    · subst hbracket
      split at h
      · rename_i rest' hclose
        obtain ⟨rfl,rfl⟩ := Prod.mk.inj (Option.some.inj h)
        obtain ⟨w,rfl,hw⟩ := expect_eq_some hclose
        exact ⟨_,by simp,.arrEmpty hw⟩
      · rw [Option.map_eq_some_iff] at h
        obtain ⟨⟨vs,rest'⟩,hvs,heq⟩ := h
        obtain ⟨rfl,rfl⟩ := Prod.mk.inj heq
        obtain ⟨first,more,rfl,hbefore,hblank,hall,htext⟩ := helements _ _ _ hvs
        obtain ⟨u,hu,hublank⟩ := dropWhile_blank text
        have hfirst := List.forall_mem_cons.mp hblank
        have hfirst' := List.forall_mem_cons.mp hall
        have hspells : Spells number (fun _ => True) (.arr (({ first with before := u }::more).map
            Slot.value)) _ := .arr (List.forall_mem_cons.mpr ⟨⟨hublank,hfirst.1.2⟩,hfirst.2⟩)
          (List.forall_mem_cons.mpr ⟨hfirst'.1,hfirst'.2⟩)
        refine ⟨_,?_,hspells⟩
        rw [hu,htext]
        simp [Slot.whole,hbefore]
    · obtain ⟨rfl,htext⟩ := scanLiteral_eq_some h
      exact ⟨_,htext,.null⟩
    · obtain ⟨rfl,htext⟩ := scanLiteral_eq_some h
      exact ⟨_,htext,.yes⟩
    · obtain ⟨rfl,htext⟩ := scanLiteral_eq_some h
      exact ⟨_,htext,.no⟩
    · exact scanNumber_eq_some h

theorem scan_sound (number : List Char → Option ℚ) (limit : ℕ) :
    OnceSound number limit ∧ ElementsSound number limit ∧ MembersSound number limit := by
  induction limit with
  | zero =>
    refine ⟨?_,?_,?_⟩
    · intro text rest v h
      cases h
    · intro text rest vs h
      cases h
    · intro text rest ms h
      cases h
  | succ limit ih =>
    obtain ⟨honce,helements,hmembers⟩ := ih
    exact ⟨onceSound_succ helements hmembers,elementsSound_succ honce helements,
      membersSound_succ honce hmembers⟩

/-- `loads` gives a value only of one of its texts, where a name may come twice. -/
theorem spells_of_loads {text : List Char} {v : Json} (h : loads number text = some v) :
    ∃ w t w', text = w ++ (t ++ w') ∧ Spells number (fun _ => True) v t ∧
      (∀ c ∈ w, blank c = true) ∧ ∀ c ∈ w', blank c = true := by
  unfold loads at h
  split_ifs at h
  rw [Option.bind_eq_some_iff] at h
  obtain ⟨⟨u,rest⟩,hscan,h⟩ := h
  dsimp only at h
  split_ifs at h with hrest
  obtain rfl := Option.some.inj h
  obtain ⟨t,ht,hspells⟩ := (scan_sound number _).1 _ _ _ hscan
  obtain ⟨w,hw,hblank⟩ := dropWhile_blank text
  exact ⟨w,t,rest,by rw [← ht]; exact hw,hspells,hblank,List.dropWhile_eq_nil_iff.mp hrest⟩

/-- A text that is read is outside of every string at its end. -/
theorem lex_of_loads {text : List Char} {v : Json} (h : loads number text = some v) :
    lex .outside text = some .outside := by
  obtain ⟨w,t,w',rfl,hspells,hw,hw'⟩ := spells_of_loads h
  have hbefore := lex_outside_plain fun c hc => blank_ascii (hw c hc)
  have hafter := lex_outside_plain fun c hc => blank_ascii (hw' c hc)
  simp [lex_append,hbefore,hafter,hspells.closed]

end Sound

/-! ### Stripped and cut texts -/

theorem not_quote_of_space {c : Char} (h : isSpace c = true) : c ≠ '"' ∧ c ≠ '\\' := by
  constructor
  · rintro rfl
    exact absurd h (by decide)
  · rintro rfl
    exact absurd h (by decide)

/-- Between quotes a stripped text is read as the whole is. -/
theorem lex_strip {m m' : Mode} (hm : m ≠ .escape) {text : List Char}
    (h : lex m text = some m') : ∃ m'', lex m (strip text) = some m'' ∧ (m'' ≠ .escape → m' = m'') := by
  obtain ⟨w,w',htext,hw,hw'⟩ := strip_parts text
  rw [htext,lex_append,Option.bind_eq_some_iff] at h
  obtain ⟨a,ha,h⟩ := h
  obtain rfl := lex_plain (fun c hc => not_quote_of_space (hw c hc)) hm ha
  rw [lex_append,Option.bind_eq_some_iff] at h
  obtain ⟨b,hb,h⟩ := h
  exact ⟨b,hb,fun hne => lex_plain (fun c hc => not_quote_of_space (hw' c hc)) hne h⟩

/-- A text that is cut at a character beyond ASCII raises. -/
theorem loads_strip_eq_none {number : List Char → Option ℚ} {a b : List Char} {c : Char} {m : Mode}
    (hc : 128 ≤ c.toNat) (h : lex .outside (a ++ c::b) = some m) : loads number (strip a) = none := by
  have hopen := (lex_inString_of_wide hc h).1
  rw [lex_append,Option.bind_eq_some_iff] at h
  obtain ⟨mode,hmode,-⟩ := h
  obtain ⟨mode',hstrip,hsame⟩ := lex_strip (by simp) hmode
  rw [Option.eq_none_iff_forall_not_mem]
  intro v hv
  rw [lex_of_loads hv] at hstrip
  obtain rfl := Option.some.inj hstrip
  rw [hsame (by simp)] at hmode
  exact hopen hmode

end AtlasCompliance.Python
