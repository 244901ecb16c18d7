import AtlasCompliance.Lib.JsonText

/-! `json.dumps` with `ensure_ascii=False`: it writes a text of the value without control characters. -/
namespace AtlasCompliance.Python
open JsonText

/-- A character in a string: only quotes, backslashes and control characters are escaped. -/
def escape (c : Char) : List Char :=
  if c = '"' then ['\\','"'] else if c = '\\' then ['\\','\\']
  else if c = '\n' then ['\\','n'] else if c = '\r' then ['\\','r'] else if c = '\t' then ['\\','t']
  else if c = Char.ofNat 12 then ['\\','f'] else if c = Char.ofNat 8 then ['\\','b']
  else if c.toNat < 32 then
    ['\\','u','0','0',Nat.digitChar (c.toNat/16),Nat.digitChar (c.toNat%16)]
  else [c]

def dumpsString (s : String) : List Char := '"'::(s.toList.flatMap escape ++ ['"'])

section
variable (write : ℚ → List Char)

mutual

/-- `json.dumps(value, ensure_ascii=False)`, with the numerals of the interpreter. -/
def dumps : Json → List Char
  | .null => ['n','u','l','l']
  | .bool true => ['t','r','u','e']
  | .bool false => ['f','a','l','s','e']
  | .num q => write q
  | .str s => dumpsString s
  | .arr [] => ['[',']']
  | .arr (e::es) => '['::(dumps e ++ (dumpsElements es ++ [']']))
  | .obj [] => ['{','}']
  | .obj ((k,v)::ms) => '{'::(dumpsString k ++ ':':: ' '::(dumps v ++ (dumpsMembers ms ++ ['}'])))

def dumpsElements : List Json → List Char
  | [] => []
  | e::es => ',':: ' '::(dumps e ++ dumpsElements es)

def dumpsMembers : List (String × Json) → List Char
  | [] => []
  | (k,v)::ms => ',':: ' '::(dumpsString k ++ ':':: ' '::(dumps v ++ dumpsMembers ms))

end

end

/-! ### What is written is a text of the value -/

theorem hexDigit_digitChar {n : ℕ} (h : n < 16) : hexDigit (Nat.digitChar n) = some n := by
  have hall : ∀ n : Fin 16, hexDigit (Nat.digitChar n) = some n.val := by decide
  exact hall ⟨n,h⟩

theorem le_digitChar {n : ℕ} (h : n < 16) : 32 ≤ (Nat.digitChar n).toNat :=
  (hexDigit_ascii (hexDigit_digitChar h)).2.2.2

theorem escape_spells (c : Char) : SpellsChar c (escape c) ∧ ∀ d ∈ escape c, 32 ≤ d.toNat := by
  have hshort : ∀ e : Char, escaped e = some c → 32 ≤ e.toNat →
      SpellsChar c ['\\',e] ∧ ∀ d ∈ ['\\',e], 32 ≤ d.toNat := by
    intro e he hle
    refine ⟨.short he,fun d hd => ?_⟩
    simp only [List.mem_cons,List.not_mem_nil,or_false] at hd
    obtain rfl | rfl := hd
    · decide
    · exact hle
  unfold escape
  split_ifs with h1 h2 h3 h4 h5 h6 h7 h8
  · exact hshort '"' (by rw [h1]; rfl) (by decide)
  · exact hshort '\\' (by rw [h2]; rfl) (by decide)
  · exact hshort 'n' (by rw [h3]; rfl) (by decide)
  · exact hshort 'r' (by rw [h4]; rfl) (by decide)
  · exact hshort 't' (by rw [h5]; rfl) (by decide)
  · exact hshort 'f' (by rw [h6]; rfl) (by decide)
  · exact hshort 'b' (by rw [h7]; rfl) (by decide)
  · have hhigh : c.toNat/16 < 16 := by omega
    have hlow : c.toNat%16 < 16 := by omega
    have hword : hexWord ['0','0',Nat.digitChar (c.toNat/16),Nat.digitChar (c.toNat%16)] =
        some c.toNat := by
      have hzero : hexDigit '0' = some 0 := by decide
      simp only [hexWord,hzero,hexDigit_digitChar hhigh,hexDigit_digitChar hlow,Option.bind_eq_bind,
        Option.bind_some,Option.pure_def,Option.some_inj]
      omega
    refine ⟨.unit hword,fun d hd => ?_⟩
    simp only [List.mem_cons,List.not_mem_nil,or_false] at hd
    obtain rfl | rfl | rfl | rfl | rfl | rfl := hd
    · decide
    · decide
    · decide
    · decide
    · exact le_digitChar hhigh
    · exact le_digitChar hlow
  · refine ⟨.raw (not_lt.mp h8) h1 h2,fun d hd => ?_⟩
    rw [List.mem_singleton.mp hd]
    exact not_lt.mp h8

theorem escapes_spell (s : List Char) :
    SpellsString s (s.flatMap escape) ∧ ∀ d ∈ s.flatMap escape, 32 ≤ d.toNat := by
  induction s with
  | nil => exact ⟨.nil,by simp⟩
  | cons c s ih =>
    obtain ⟨hc,hle⟩ := escape_spells c
    refine ⟨.cons hc ih.1,fun d hd => ?_⟩
    rw [List.flatMap_cons,List.mem_append] at hd
    exact hd.elim (hle d) (ih.2 d)

theorem le_of_mem_dumpsString {s : String} {d : Char} (h : d ∈ dumpsString s) : 32 ≤ d.toNat := by
  simp only [dumpsString,List.mem_cons,List.mem_append,List.not_mem_nil,or_false] at h
  obtain rfl | h | rfl := h
  · decide
  · exact (escapes_spell s.toList).2 d h
  · decide

section Written
variable {number : List Char → Option ℚ} {write : ℚ → List Char}

/-- The value is written as one of its texts, without control characters. -/
def Written (number : List Char → Option ℚ) (write : ℚ → List Char) (v : Json) : Prop :=
  Spells number List.Nodup v (dumps write v) ∧ ∀ c ∈ dumps write v, 32 ≤ c.toNat

theorem written_null : Written number write .null := by
  rw [Written,dumps]
  refine ⟨.null,fun c hc => (@literal_ascii c ?_).2⟩
  simp only [List.mem_cons,List.not_mem_nil,or_false] at hc ⊢
  tauto

theorem written_bool (b : Bool) : Written number write (.bool b) := by
  cases b with
  | false =>
    rw [Written,dumps]
    refine ⟨.no,fun c hc => (@literal_ascii c ?_).2⟩
    simp only [List.mem_cons,List.not_mem_nil,or_false] at hc ⊢
    tauto
  | true =>
    rw [Written,dumps]
    refine ⟨.yes,fun c hc => (@literal_ascii c ?_).2⟩
    simp only [List.mem_cons,List.not_mem_nil,or_false] at hc ⊢
    tauto

theorem written_num {q : ℚ} (hnumeral : numeral (write q) = true) (hread : number (write q) = some q) :
    Written number write (.num q) := by
  refine ⟨?_,fun c hc => ?_⟩
  · rw [dumps]
    exact .num hnumeral hread
  · rw [dumps] at hc
    exact (numeralChar_ascii ((numeral_chars hnumeral).2 c hc)).2.2.2

theorem written_str (s : String) : Written number write (.str s) := by
  refine ⟨?_,fun c hc => le_of_mem_dumpsString (by rwa [dumps] at hc)⟩
  rw [dumps]
  exact .str (escapes_spell s.toList).1

theorem dumpsElements_eq (es : List Json) :
    dumpsElements write es = es.flatMap fun e => ',':: ' '::dumps write e := by
  induction es with
  | nil => rfl
  | cons e es ih => simp [dumpsElements,ih]

theorem dumpsMembers_eq (ms : List (String × Json)) : dumpsMembers write ms =
    ms.flatMap fun m => ',':: ' '::(dumpsString m.1 ++ ':':: ' '::dumps write m.2) := by
  induction ms with
  | nil => rfl
  | cons m ms ih => simp [dumpsMembers,ih]

theorem le_of_mem_pair {a b c : Char} (h : c ∈ [a,b]) (ha : 32 ≤ a.toNat) (hb : 32 ≤ b.toNat) :
    32 ≤ c.toNat := by
  simp only [List.mem_cons,List.not_mem_nil,or_false] at h
  obtain rfl | rfl := h
  · exact ha
  · exact hb

theorem written_arr {es : List Json} (h : ∀ e ∈ es, Written number write e) :
    Written number write (.arr es) := by
  cases es with
  | nil =>
    refine ⟨?_,?_⟩
    · rw [dumps]
      exact .arrEmpty (w := []) (by simp)
    · rw [dumps]
      exact fun c hc => (le_of_mem_pair hc (by decide) (by decide))
  | cons e es =>
    constructor
    · have hspells := @Spells.arr number List.Nodup ⟨[],e,dumps write e,[]⟩
        (es.map fun e => ⟨[' '],e,dumps write e,[]⟩) ?_ ?_
      · rw [dumps,dumpsElements_eq]
        simpa [Slot.whole,List.flatMap_map,Function.comp_def] using hspells
      · simp [Slot.Blank,blank]
      · simpa using ⟨(h e List.mem_cons_self).1,fun e' he' => (h e' (List.mem_cons_of_mem _ he')).1⟩
    · rw [dumps,dumpsElements_eq]
      intro c hc
      simp only [List.mem_cons,List.mem_append,List.mem_flatMap,List.not_mem_nil,or_false] at hc
      obtain rfl | hc | ⟨e',he',rfl | rfl | hc⟩ | rfl := hc
      · decide
      · exact (h e List.mem_cons_self).2 c hc
      · decide
      · decide
      · exact (h e' (List.mem_cons_of_mem _ he')).2 c hc
      · decide

theorem written_obj {ms : List (String × Json)} (hnames : (ms.map Prod.fst).Nodup)
    (h : ∀ m ∈ ms, Written number write m.2) : Written number write (.obj ms) := by
  cases ms with
  | nil =>
    refine ⟨?_,?_⟩
    · rw [dumps]
      exact .objEmpty (w := []) (by simp)
    · rw [dumps]
      exact fun c hc => (le_of_mem_pair hc (by decide) (by decide))
  | cons m ms =>
    obtain ⟨k,v⟩ := m
    constructor
    · let field : List Char → String × Json → Field := fun w m =>
        ⟨w,m.1,m.1.toList.flatMap escape,[],⟨[' '],m.2,dumps write m.2,[]⟩⟩
      have hmembers : ((field [] (k,v))::ms.map (field [' '])).map Field.member = (k,v)::ms := by
        simp [field,Field.member,Function.comp_def]
      have hfields : ((field [] (k,v))::ms.map (field [' '])).map Field.name =
          ((k,v)::ms).map Prod.fst := by
        simp [field,Function.comp_def]
      have hall : ∀ P : Field → Prop, P (field [] (k,v)) → (∀ m ∈ ms, P (field [' '] m)) →
          ∀ f ∈ (field [] (k,v))::ms.map (field [' ']), P f := fun P hfirst hmore =>
        List.forall_mem_cons.mpr ⟨hfirst,List.forall_mem_map.mpr hmore⟩
      have hspells := @Spells.obj number List.Nodup (field [] (k,v)) (ms.map (field [' '])) ?_ ?_ ?_
        (hfields ▸ hnames)
      · rw [hmembers,dict_of_nodup hnames] at hspells
        rw [dumps,dumpsMembers_eq]
        simpa [field,Field.whole,Slot.whole,List.flatMap_map,Function.comp_def,dumpsString]
          using hspells
      · exact hall (fun f => f.Blank) (by simp [field,Field.Blank,Slot.Blank,blank])
          fun m _ => by simp [field,Field.Blank,Slot.Blank,blank]
      · exact hall (fun f => SpellsString f.name.toList f.key) (escapes_spell k.toList).1
          fun m _ => (escapes_spell m.1.toList).1
      · exact hall (fun f => Spells number List.Nodup f.slot.value f.slot.text)
          (h (k,v) List.mem_cons_self).1 fun m hm => (h m (List.mem_cons_of_mem _ hm)).1
    · rw [dumps,dumpsMembers_eq]
      intro c hc
      simp only [List.mem_cons,List.mem_append,List.mem_flatMap,List.not_mem_nil,or_false] at hc
      obtain rfl | hc | rfl | rfl | hc | ⟨m,hm,rfl | rfl | hc | rfl | rfl | hc⟩ | rfl := hc
      · decide
      · exact le_of_mem_dumpsString hc
      · decide
      · decide
      · exact (h (k,v) List.mem_cons_self).2 c hc
      · decide
      · decide
      · exact le_of_mem_dumpsString hc
      · decide
      · decide
      · exact (h m (List.mem_cons_of_mem _ hm)).2 c hc
      · decide

/-- The numbers of the value are read back as they are written, and names are distinct. -/
inductive Readable (number : List Char → Option ℚ) (write : ℚ → List Char) : Json → Prop where
  | null : Readable number write .null
  | bool (b : Bool) : Readable number write (.bool b)
  | num {q : ℚ} (hnumeral : numeral (write q) = true) (hread : number (write q) = some q) :
      Readable number write (.num q)
  | str (s : String) : Readable number write (.str s)
  | arr {es : List Json} (h : ∀ e ∈ es, Readable number write e) : Readable number write (.arr es)
  | obj {ms : List (String × Json)} (hnames : (ms.map Prod.fst).Nodup)
      (h : ∀ m ∈ ms, Readable number write m.2) : Readable number write (.obj ms)

theorem Readable.written {v : Json} (h : Readable number write v) : Written number write v := by
  induction h with
  | null => exact written_null
  | bool b => exact written_bool b
  | num hnumeral hread => exact written_num hnumeral hread
  | str s => exact written_str s
  | arr _ ih => exact written_arr ih
  | obj hnames _ ih => exact written_obj hnames ih

/-- What a string mentions beyond ASCII stands in it. -/
theorem mem_dumpsString {s : String} {c : Char} (hc : 128 ≤ c.toNat) (h : c ∈ s.toList) :
    c ∈ dumpsString s := by
  have hself : escape c = [c] := by
    have hother : ∀ d : Char, d.toNat < 128 → c ≠ d := by
      rintro d hd rfl
      exact absurd hd (not_lt.mpr hc)
    simp [escape,hother _ (by decide : ('"' : Char).toNat < 128),
      hother _ (by decide : ('\\' : Char).toNat < 128),
      hother _ (by decide : ('\n' : Char).toNat < 128),
      hother _ (by decide : ('\r' : Char).toNat < 128),
      hother _ (by decide : ('\t' : Char).toNat < 128),
      hother _ (by decide : (Char.ofNat 12).toNat < 128),
      hother _ (by decide : (Char.ofNat 8).toNat < 128),not_lt.mpr (le_trans (by decide : 32 ≤ 128) hc)]
  refine List.mem_cons_of_mem _ (List.mem_append_left _ (List.mem_flatMap.mpr ⟨c,h,?_⟩))
  rw [hself]
  exact List.mem_singleton_self c

theorem mem_dumps {v : Json} {c : Char} (hc : 128 ≤ c.toNat) (h : Mentions c v) :
    c ∈ dumps write v := by
  induction h with
  | str hs =>
    rw [dumps]
    exact mem_dumpsString hc hs
  | @elem es e he _ ih =>
    cases es with
    | nil => cases he
    | cons first es =>
      rw [dumps,dumpsElements_eq]
      obtain rfl | he := List.mem_cons.mp he
      · simp [ih]
      · simp only [List.mem_cons,List.mem_append,List.mem_flatMap]
        exact Or.inr (Or.inr (Or.inl ⟨e,he,Or.inr (Or.inr ih)⟩))
  | @name ms m hm hs =>
    have hkey := mem_dumpsString hc hs
    cases ms with
    | nil => cases hm
    | cons first ms =>
      rw [dumps,dumpsMembers_eq]
      obtain rfl | hm := List.mem_cons.mp hm
      · simp [hkey]
      · simp only [List.mem_cons,List.mem_append,List.mem_flatMap]
        exact Or.inr (Or.inr (Or.inr (Or.inr (Or.inr (Or.inl
          ⟨m,hm,Or.inr (Or.inr (Or.inl hkey))⟩)))))
  | @member ms m hm _ ih =>
    cases ms with
    | nil => cases hm
    | cons first ms =>
      rw [dumps,dumpsMembers_eq]
      obtain rfl | hm := List.mem_cons.mp hm
      · simp [ih]
      · simp only [List.mem_cons,List.mem_append,List.mem_flatMap]
        exact Or.inr (Or.inr (Or.inr (Or.inr (Or.inr (Or.inl
          ⟨m,hm,Or.inr (Or.inr (Or.inr (Or.inr (Or.inr ih))))⟩)))))

end Written

end AtlasCompliance.Python
