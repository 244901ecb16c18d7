import AtlasCompliance.Python.Text

/-! Lines in Python: where `splitlines` cuts a text, and what `strip` leaves of one. -/
namespace AtlasCompliance.Python

/-! ### Stripped texts -/

theorem strip_parts (text : List Char) : ∃ w w', text = w ++ (strip text ++ w') ∧
    (∀ c ∈ w, isSpace c = true) ∧ ∀ c ∈ w', isSpace c = true := by
  refine ⟨text.takeWhile isSpace,(text.dropWhile isSpace).rtakeWhile isSpace,?_,
    fun c hc => List.mem_takeWhile_imp hc,fun c hc => List.mem_rtakeWhile_imp hc⟩
  rw [strip,List.rdropWhile_append_rtakeWhile,List.takeWhile_append_dropWhile]

/-- What begins and ends with no space is what `strip` leaves between spaces. -/
theorem strip_of_ends {w w' r : List Char} {a b : Char} (hw : ∀ c ∈ w, isSpace c = true)
    (hw' : ∀ c ∈ w', isSpace c = true) (ha : isSpace a = false) (hb : isSpace b = false) :
    strip (w ++ (a::(r ++ [b]) ++ w')) = a::(r ++ [b]) := by
  have hlast : (a::(r ++ [b])).rdropWhile isSpace = a::(r ++ [b]) := by
    rw [← List.cons_append,List.rdropWhile_concat_neg _ _ _ (by simp [hb])]
  rw [strip,List.dropWhile_append_of_pos hw,List.cons_append,
    List.dropWhile_cons_of_neg (by simp [ha]),← List.cons_append]
  rw [List.rdropWhile,List.reverse_append,List.dropWhile_append_of_pos
    (fun c hc => hw' c (List.mem_reverse.mp hc))]
  exact hlast

/-! ### Lines -/

/-- What ends a line: more than line feeds and carriage returns. -/
def isLineBreak (c : Char) : Bool :=
  (10 ≤ c.toNat && c.toNat ≤ 13) || (28 ≤ c.toNat && c.toNat ≤ 30) || c.toNat == 0x85 ||
    c.toNat == 0x2028 || c.toNat == 0x2029

/-- The lines of a text that goes on with `line`; `cr` where a carriage return came last, to which a
line feed belongs. -/
def linesFrom : Bool → List Char → List Char → List (List Char)
  | _,line,[] => if line = [] then [] else [line]
  | cr,line,c::rest =>
    if cr ∧ c = '\n' then linesFrom false line rest
    else if isLineBreak c then line::linesFrom (c = '\r') [] rest
    else linesFrom false (line ++ [c]) rest

/-- `text.splitlines()`. -/
def splitlines (text : List Char) : List (List Char) := linesFrom false [] text

/-- No line ends in the text. -/
def Unbroken (text : List Char) : Prop := ∀ c ∈ text, isLineBreak c = false

theorem linesFrom_unbroken {w : List Char} (hw : Unbroken w) (line rest : List Char) :
    linesFrom false line (w ++ rest) = linesFrom false (line ++ w) rest := by
  induction w generalizing line with
  | nil => simp
  | cons c w ih =>
    have hc := hw c List.mem_cons_self
    rw [List.cons_append,linesFrom,if_neg (by simp),hc,if_neg (by simp),
      ih fun d hd => hw d (List.mem_cons_of_mem _ hd)]
    simp

theorem linesFrom_break (line : List Char) {b : Char} (hb : isLineBreak b = true)
    (rest : List Char) : linesFrom false line (b::rest) = line::linesFrom (b = '\r') [] rest := by
  rw [linesFrom,if_neg (by simp),if_pos hb]

/-- An unbroken text and a break after it are a line. -/
theorem splitlines_cons {w : List Char} (hw : Unbroken w) {b : Char} (hb : isLineBreak b = true)
    (rest : List Char) : splitlines (w ++ b::rest) = w::linesFrom (b = '\r') [] rest := by
  rw [splitlines,linesFrom_unbroken hw,List.nil_append,linesFrom_break w hb]

/-- A break in an otherwise unbroken beginning, or none at all. -/
theorem unbroken_or (text : List Char) : Unbroken text ∨
    ∃ a c b, text = a ++ c::b ∧ Unbroken a ∧ isLineBreak c = true := by
  induction text with
  | nil => exact Or.inl (by simp [Unbroken])
  | cons c text ih =>
    by_cases hc : isLineBreak c = true
    · exact Or.inr ⟨[],c,text,rfl,by simp [Unbroken],hc⟩
    · rw [Bool.not_eq_true] at hc
      obtain hun | ⟨a,d,b,rfl,ha,hd⟩ := ih
      · exact Or.inl (List.forall_mem_cons.mpr ⟨hc,hun⟩)
      · exact Or.inr ⟨c::a,d,b,rfl,List.forall_mem_cons.mpr ⟨hc,ha⟩,hd⟩

/-- The breaks that are neither control characters nor ASCII. -/
def isWideBreak (c : Char) : Bool := c.toNat == 0x85 || c.toNat == 0x2028 || c.toNat == 0x2029

theorem isLineBreak_of_wide {c : Char} (h : isWideBreak c = true) : isLineBreak c = true := by
  simp only [isWideBreak,Bool.or_eq_true,beq_iff_eq] at h
  simp only [isLineBreak,Bool.or_eq_true,Bool.and_eq_true,decide_eq_true_eq,beq_iff_eq]
  omega

theorem wide_of_isLineBreak {c : Char} (h : isLineBreak c = true) (hc : 32 ≤ c.toNat) :
    isWideBreak c = true := by
  simp only [isLineBreak,Bool.or_eq_true,Bool.and_eq_true,decide_eq_true_eq,beq_iff_eq] at h
  simp only [isWideBreak,Bool.or_eq_true,beq_iff_eq]
  omega

theorem le_of_isWideBreak {c : Char} (h : isWideBreak c = true) : 128 ≤ c.toNat := by
  simp only [isWideBreak,Bool.or_eq_true,beq_iff_eq] at h
  omega

/-! ### Text files -/

/-- The line ends of a file as line feeds; `cr` where a carriage return came last. -/
def newlinesFrom : Bool → List Char → List Char
  | _,[] => []
  | cr,c::rest =>
    if cr ∧ c = '\n' then newlinesFrom false rest
    else if c = '\r' then '\n'::newlinesFrom true rest
    else c::newlinesFrom false rest

/-- What is read of a file in text mode. -/
def universalNewlines (file : List Char) : List Char := newlinesFrom false file

theorem universalNewlines_eq {file : List Char} (h : '\r' ∉ file) : universalNewlines file = file := by
  unfold universalNewlines
  induction file with
  | nil => rfl
  | cons c file ih =>
    rw [List.mem_cons,not_or] at h
    rw [newlinesFrom,if_neg (by simp),if_neg (Ne.symm h.1),ih h.2]

end AtlasCompliance.Python
