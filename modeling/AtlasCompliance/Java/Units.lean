import AtlasCompliance.Java.Text

/-! Texts cut at a UTF-16 unit: the characters before the cut, and what a reader makes of the units
that are left. -/
namespace AtlasCompliance.Java.Text

/-- The number of units of a character. -/
def width (c : Char) : ℕ := if 0x10000 ≤ c.toNat then 2 else 1

/-- The characters that lie before unit `n`, and the others. -/
def cutAt : ℕ → List Char → List Char × List Char
  | _,[] => ([],[])
  | n,c::rest =>
    if width c ≤ n then (c::(cutAt (n - width c) rest).1,(cutAt (n - width c) rest).2)
    else ([],c::rest)

def isHigh (u : UInt16) : Bool := 0xD800 ≤ u.toNat && u.toNat ≤ 0xDBFF

def isLow (u : UInt16) : Bool := 0xDC00 ≤ u.toNat && u.toNat ≤ 0xDFFF

/-- A unit that stands for itself; a surrogate without its other half reads as U+FFFD. -/
def single (u : UInt16) : Char :=
  if isHigh u || isLow u then '\uFFFD' else Char.ofNat u.toNat

def pair (u v : UInt16) : Char :=
  Char.ofNat (0x10000 + (u.toNat - 0xD800)*0x400 + (v.toNat - 0xDC00))

/-- The text of UTF-16 units. -/
def ofUnits : List UInt16 → List Char
  | [] => []
  | [u] => [single u]
  | u::v::rest => if isHigh u && isLow v then pair u v::ofUnits rest else single u::ofUnits (v::rest)

theorem cutAt_append (n : ℕ) (text : List Char) : (cutAt n text).1 ++ (cutAt n text).2 = text := by
  induction text generalizing n with
  | nil => rfl
  | cons c rest ih =>
    rw [cutAt]
    split_ifs
    · rw [List.cons_append,ih]
    · rfl

theorem toNat_lt_or (c : Char) : c.toNat < 0xD800 ∨ (0xDFFF < c.toNat ∧ c.toNat < 0x110000) := by
  have hvalid := c.valid
  simp only [UInt32.isValidChar,Nat.isValidChar] at hvalid
  exact hvalid

/-- The units of one character. -/
def unitsOf (c : Char) : List UInt16 :=
  if 0x10000 ≤ c.toNat then
    [UInt16.ofNat (0xD800 + (c.toNat - 0x10000) / 0x400),
      UInt16.ofNat (0xDC00 + (c.toNat - 0x10000) % 0x400)]
  else [UInt16.ofNat c.toNat]

theorem units_ofList (text : List Char) : units (String.ofList text) = text.flatMap unitsOf := by
  rw [units,String.toList_ofList]
  rfl

theorem length_unitsOf (c : Char) : (unitsOf c).length = width c := by
  unfold unitsOf width
  split_ifs <;> rfl

theorem ofUnits_cons {u : UInt16} (h : isHigh u = false) (rest : List UInt16) :
    ofUnits (u::rest) = single u::ofUnits rest := by
  cases rest with
  | nil => rfl
  | cons v rest => simp [ofUnits,h]

theorem toNat_high (c : Char) : (UInt16.ofNat (0xD800 + (c.toNat - 0x10000) / 0x400)).toNat =
    0xD800 + (c.toNat - 0x10000) / 0x400 := by
  have hc := toNat_lt_or c
  rw [UInt16.toNat_ofNat']
  omega

theorem toNat_low (c : Char) : (UInt16.ofNat (0xDC00 + (c.toNat - 0x10000) % 0x400)).toNat =
    0xDC00 + (c.toNat - 0x10000) % 0x400 := by
  rw [UInt16.toNat_ofNat']
  omega

theorem isHigh_high (c : Char) :
    isHigh (UInt16.ofNat (0xD800 + (c.toNat - 0x10000) / 0x400)) = true := by
  have hc := toNat_lt_or c
  simp only [isHigh,toNat_high,Bool.and_eq_true,decide_eq_true_eq]
  omega

theorem isLow_low (c : Char) :
    isLow (UInt16.ofNat (0xDC00 + (c.toNat - 0x10000) % 0x400)) = true := by
  simp only [isLow,toNat_low,Bool.and_eq_true,decide_eq_true_eq]
  omega

/-- The units of a character are read as that character. -/
theorem ofUnits_unitsOf (c : Char) (rest : List UInt16) :
    ofUnits (unitsOf c ++ rest) = c::ofUnits rest := by
  have hc := toNat_lt_or c
  unfold unitsOf
  split_ifs with hwide
  · have hpair : pair (UInt16.ofNat (0xD800 + (c.toNat - 0x10000) / 0x400))
        (UInt16.ofNat (0xDC00 + (c.toNat - 0x10000) % 0x400)) = c := by
      have hnat : 0x10000 + (0xD800 + (c.toNat - 0x10000) / 0x400 - 0xD800)*0x400 +
          (0xDC00 + (c.toNat - 0x10000) % 0x400 - 0xDC00) = c.toNat := by omega
      rw [pair,toNat_high,toNat_low,hnat,Char.ofNat_toNat]
    rw [List.cons_append,List.cons_append,List.nil_append,ofUnits,isHigh_high,isLow_low,hpair]
    rfl
  · have hunit : (UInt16.ofNat c.toNat).toNat = c.toNat := by
      rw [UInt16.toNat_ofNat']
      omega
    have hhigh : isHigh (UInt16.ofNat c.toNat) = false := by
      simp only [isHigh,hunit,Bool.and_eq_false_iff,decide_eq_false_iff_not]
      omega
    have hlow : isLow (UInt16.ofNat c.toNat) = false := by
      simp only [isLow,hunit,Bool.and_eq_false_iff,decide_eq_false_iff_not]
      omega
    rw [List.cons_append,List.nil_append,ofUnits_cons hhigh,single,hhigh,hlow,hunit,Char.ofNat_toNat]
    rfl

theorem ofUnits_append (text : List Char) (rest : List UInt16) :
    ofUnits (text.flatMap unitsOf ++ rest) = text ++ ofUnits rest := by
  induction text with
  | nil => rfl
  | cons c text ih => rw [List.flatMap_cons,List.append_assoc,ofUnits_unitsOf,ih,List.cons_append]

/-- A cut leaves whole characters and at most one half of another. -/
theorem take_units (n : ℕ) (text : List Char) :
    ∃ half, (text.flatMap unitsOf).take n = (cutAt n text).1.flatMap unitsOf ++ half ∧
      (half = [] ∨ ∃ u, half = [u] ∧ isHigh u = true) := by
  induction text generalizing n with
  | nil => exact ⟨[],by simp [cutAt],Or.inl rfl⟩
  | cons c rest ih =>
    rw [cutAt]
    split_ifs with hfits
    · obtain ⟨half,htake,hhalf⟩ := ih (n - width c)
      refine ⟨half,?_,hhalf⟩
      rw [List.flatMap_cons,List.take_append,length_unitsOf,htake,
        List.take_of_length_le (by rw [length_unitsOf]; exact hfits)]
      simp
    · obtain rfl | hn := Nat.eq_zero_or_pos n
      · exact ⟨[],by simp,Or.inl rfl⟩
      · have hwide : 0x10000 ≤ c.toNat := by
          by_contra hnarrow
          rw [width,if_neg hnarrow] at hfits
          omega
        obtain rfl : n = 1 := by
          rw [width,if_pos hwide] at hfits
          omega
        exact ⟨_,by simp [unitsOf,hwide],Or.inr ⟨_,rfl,isHigh_high c⟩⟩

/-- A text that is short enough is not cut. -/
theorem cutAt_of_length_le {n : ℕ} {text : List Char} (h : (text.flatMap unitsOf).length ≤ n) :
    cutAt n text = (text,[]) := by
  induction text generalizing n with
  | nil => rfl
  | cons c rest ih =>
    rw [List.flatMap_cons,List.length_append,length_unitsOf] at h
    rw [cutAt,if_pos (by omega),ih (by omega)]

theorem cutAt_append_of_length_le {n : ℕ} {text : List Char}
    (h : (text.flatMap unitsOf).length ≤ n) (rest : List Char) :
    (cutAt n (text ++ rest)).1 = text ++ (cutAt (n - (text.flatMap unitsOf).length) rest).1 := by
  induction text generalizing n with
  | nil => rfl
  | cons c text ih =>
    rw [List.flatMap_cons,List.length_append,length_unitsOf] at h ⊢
    rw [List.cons_append,cutAt,if_pos (by omega),ih (by omega),List.cons_append,Nat.sub_sub]

end AtlasCompliance.Java.Text
