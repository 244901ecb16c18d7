import AtlasCompliance.Python.Dumps
import AtlasCompliance.Python.JsonModule

/-! `json.dumps` with `ensure_ascii=False` and `indent=2`: what it writes is read back. -/
namespace AtlasCompliance.Python
open JsonText

/-- A line break and the indent of a level. -/
def newline (level : ℕ) : List Char := '\n'::List.replicate (2*level) ' '

section
variable (write : ℚ → List Char)

mutual

/-- `json.dumps(value, ensure_ascii=False, indent=2)`, at a level. -/
def dumpsIndent : ℕ → Json → List Char
  | _,.null => ['n','u','l','l']
  | _,.bool true => ['t','r','u','e']
  | _,.bool false => ['f','a','l','s','e']
  | _,.num q => write q
  | _,.str s => dumpsString s
  | _,.arr [] => ['[',']']
  | level,.arr (e::es) =>
    '['::(newline (level+1) ++ (dumpsIndent (level+1) e ++
      (indentElements (level+1) es ++ (newline level ++ [']']))))
  | _,.obj [] => ['{','}']
  | level,.obj ((k,v)::ms) =>
    '{'::(newline (level+1) ++ (dumpsString k ++ ':':: ' '::(dumpsIndent (level+1) v ++
      (indentMembers (level+1) ms ++ (newline level ++ ['}'])))))

def indentElements : ℕ → List Json → List Char
  | _,[] => []
  | level,e::es => ','::(newline level ++ (dumpsIndent level e ++ indentElements level es))

def indentMembers : ℕ → List (String × Json) → List Char
  | _,[] => []
  | level,(k,v)::ms =>
    ','::(newline level ++ (dumpsString k ++ ':':: ' '::(dumpsIndent level v ++ indentMembers level ms)))

end

end

section
variable {number : List Char → Option ℚ} {write : ℚ → List Char}

theorem newline_blank (level : ℕ) : ∀ c ∈ newline level, blank c = true := by
  intro c hc
  obtain rfl | hc := List.mem_cons.mp hc
  · rfl
  · rw [List.eq_of_mem_replicate hc]
    rfl

/-- The elements of an array that is written over several lines, as slots. -/
theorem exists_slots {level : ℕ} {close : List Char} (hclose : ∀ c ∈ close, blank c = true) (e : Json)
    (es : List Json) (h : ∀ x ∈ e::es, Spells number List.Nodup x (dumpsIndent write level x)) :
    ∃ first more, (first::more).map Slot.value = e::es ∧ (∀ s ∈ first::more, s.Blank) ∧
      (∀ s ∈ first::more, Spells number List.Nodup s.value s.text) ∧
      first.whole ++ more.flatMap (fun s => ','::s.whole) =
        newline level ++ (dumpsIndent write level e ++ (indentElements write level es ++ close)) := by
  induction es generalizing e with
  | nil =>
    refine ⟨⟨newline level,e,dumpsIndent write level e,close⟩,[],rfl,?_,?_,?_⟩
    · simpa [Slot.Blank] using ⟨newline_blank level,hclose⟩
    · simpa using h e List.mem_cons_self
    · simp [Slot.whole,indentElements]
  | cons e' es ih =>
    obtain ⟨first,more,hvalues,hblank,hspells,hwhole⟩ := ih e' fun x hx => h x (List.mem_cons_of_mem _ hx)
    refine ⟨⟨newline level,e,dumpsIndent write level e,[]⟩,first::more,?_,?_,?_,?_⟩
    · rw [List.map_cons,hvalues]
    · exact List.forall_mem_cons.mpr ⟨⟨newline_blank level,by simp⟩,hblank⟩
    · exact List.forall_mem_cons.mpr ⟨h e List.mem_cons_self,hspells⟩
    · rw [List.flatMap_cons,List.cons_append,hwhole]
      simp [Slot.whole,indentElements]

theorem member_blank {level : ℕ} {name : String} {key text close : List Char} {value : Json}
    (hclose : ∀ c ∈ close, blank c = true) :
    (⟨newline level,name,key,[],⟨[' '],value,text,close⟩⟩ : Field).Blank := by
  refine ⟨newline_blank level,by simp,fun c hc => ?_,hclose⟩
  rw [List.mem_singleton.mp hc]
  rfl

/-- The members of an object, likewise. -/
theorem exists_fields {level : ℕ} {close : List Char} (hclose : ∀ c ∈ close, blank c = true)
    (m : String × Json) (ms : List (String × Json))
    (h : ∀ x ∈ m::ms, Spells number List.Nodup x.2 (dumpsIndent write level x.2)) :
    ∃ first more, (first::more).map Field.member = m::ms ∧ (∀ f ∈ first::more, f.Blank) ∧
      (∀ f ∈ first::more, SpellsString f.name.toList f.key) ∧
      (∀ f ∈ first::more, Spells number List.Nodup f.slot.value f.slot.text) ∧
      first.whole ++ more.flatMap (fun f => ','::f.whole) =
        newline level ++ (dumpsString m.1 ++ ':':: ' '::(dumpsIndent write level m.2 ++
          (indentMembers write level ms ++ close))) := by
  induction ms generalizing m with
  | nil =>
    refine ⟨⟨newline level,m.1,m.1.toList.flatMap escape,[],
      ⟨[' '],m.2,dumpsIndent write level m.2,close⟩⟩,[],rfl,?_,?_,?_,?_⟩
    · simpa using member_blank hclose
    · simpa using (escapes_spell m.1.toList).1
    · simpa using h m List.mem_cons_self
    · simp [Field.whole,Slot.whole,dumpsString,indentMembers]
  | cons m' ms ih =>
    obtain ⟨first,more,hmembers,hblank,hkeys,hspells,hwhole⟩ :=
      ih m' fun x hx => h x (List.mem_cons_of_mem _ hx)
    refine ⟨⟨newline level,m.1,m.1.toList.flatMap escape,[],
      ⟨[' '],m.2,dumpsIndent write level m.2,[]⟩⟩,first::more,?_,?_,?_,?_,?_⟩
    · rw [List.map_cons,hmembers]
      rfl
    · exact List.forall_mem_cons.mpr ⟨member_blank (by simp),hblank⟩
    · exact List.forall_mem_cons.mpr ⟨(escapes_spell m.1.toList).1,hkeys⟩
    · exact List.forall_mem_cons.mpr ⟨h m List.mem_cons_self,hspells⟩
    · rw [List.flatMap_cons,List.cons_append,hwhole]
      simp [Field.whole,Slot.whole,dumpsString,indentMembers]

/-- What is written is a text of the value. -/
theorem spells_dumpsIndent {v : Json} (h : Readable number write v) (level : ℕ) :
    Spells number List.Nodup v (dumpsIndent write level v) := by
  induction h generalizing level with
  | null =>
    rw [dumpsIndent]
    exact .null
  | bool b =>
    cases b
    · rw [dumpsIndent]
      exact .no
    · rw [dumpsIndent]
      exact .yes
  | num hnumeral hread =>
    rw [dumpsIndent]
    exact .num hnumeral hread
  | str s =>
    rw [dumpsIndent]
    exact .str (escapes_spell s.toList).1
  | @arr es _ ih =>
    cases es with
    | nil =>
      rw [dumpsIndent]
      exact .arrEmpty (w := []) (by simp)
    | cons e es =>
      obtain ⟨first,more,hvalues,hblank,hspells,hwhole⟩ :=
        exists_slots (newline_blank level) e es fun x hx => ih x hx (level+1)
      have hall := Spells.arr hblank hspells
      rw [hvalues,← List.append_assoc,hwhole] at hall
      rw [dumpsIndent]
      simpa using hall
  | @obj ms hnames _ ih =>
    cases ms with
    | nil =>
      rw [dumpsIndent]
      exact .objEmpty (w := []) (by simp)
    | cons m ms =>
      obtain ⟨first,more,hmembers,hblank,hkeys,hspells,hwhole⟩ :=
        exists_fields (newline_blank level) m ms fun x hx => ih x hx (level+1)
      have hfields : (first::more).map Field.name = (m::ms).map Prod.fst := by
        rw [← hmembers,List.map_map]
        rfl
      have hall := Spells.obj hblank hkeys hspells (hfields ▸ hnames)
      rw [hmembers,dict_of_nodup hnames,← List.append_assoc,hwhole] at hall
      obtain ⟨k,v⟩ := m
      rw [dumpsIndent]
      simpa using hall

/-- It is read back. -/
theorem loads_dumpsIndent {v : Json} (h : Readable number write v) (level : ℕ) :
    loads number (dumpsIndent write level v) = some v :=
  loads_text (spells_dumpsIndent h level)

end

end AtlasCompliance.Python
