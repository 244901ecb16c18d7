import AtlasCompliance.Lib.Replace
import AtlasCompliance.Java.Units
import AtlasCompliance.RagEngine.Citations
import AtlasCompliance.Agents.CutAmounts

/-! The amounts that the agent finds in the snippets of the engine: a snippet is cut at a fixed
length, and a number may lie across the cut. -/
namespace AtlasCompliance.Agents
open Python Java RagEngine

/-- The content on one line, before it is cut. -/
def normalised (content : String) : List Char :=
  Regex.replaceAll WHITESPACE [' '] (stripText content.toList)

/-- What the agent reads of the snippet of a content. -/
def readSnippet (content : String) : List Char := Text.ofUnits (snippet content)

/-- The same runtime with exact numbers for its floats. -/
def exactly {F : Type} (py : Runtime F) : Runtime ℚ :=
  ⟨py.digits,decimal py.digits,twoDecimals,py.urlsafeB64decode,py.decode,py.loads⟩

/-- The content before the cut, and the content behind it. -/
def kept (content : String) : List Char := (Text.cutAt SNIPPET_LEN (normalised content)).1

def lost (content : String) : List Char := (Text.cutAt SNIPPET_LEN (normalised content)).2

theorem kept_append_lost (content : String) : kept content ++ lost content = normalised content :=
  Text.cutAt_append SNIPPET_LEN (normalised content)

theorem amountsOf_exactly {F : Type} (py : Runtime F) (text : List Char) :
    amountsOf (exactly py) text = (numerals py.digits text).map (worth py.digits) := amountsOf_eq _ _

/-- A snippet is the whole content, or what is before the cut and an ellipsis, with half of the
character that lies across the cut between them. -/
theorem readSnippet_eq (content : String) :
    (lost content = [] ∧ readSnippet content = kept content) ∨
      ∃ marks, readSnippet content = kept content ++ marks ∧ (marks = ['…'] ∨ marks = ['\uFFFD','…']) := by
  have hsnippet : snippet content =
      if ((normalised content).flatMap Text.unitsOf).length ≤ SNIPPET_LEN then
        (normalised content).flatMap Text.unitsOf
      else ((normalised content).flatMap Text.unitsOf).take SNIPPET_LEN ++ [0x2026] := by
    rw [← Text.units_ofList]
    rfl
  rw [readSnippet,hsnippet,kept,lost]
  split_ifs with hshort
  · have hread := Text.ofUnits_append (normalised content) []
    rw [List.append_nil] at hread
    rw [Text.cutAt_of_length_le hshort,hread]
    exact Or.inl ⟨rfl,by simp [Text.ofUnits]⟩
  · obtain ⟨half,htake,hhalf⟩ := Text.take_units SNIPPET_LEN (normalised content)
    rw [htake,List.append_assoc,Text.ofUnits_append]
    refine Or.inr ⟨_,rfl,?_⟩
    obtain rfl | ⟨u,rfl,hu⟩ := hhalf
    · exact Or.inl rfl
    · right
      have hlow : Text.isLow 0x2026 = false := by decide
      simp [Text.ofUnits,Text.single,hu,hlow]
      decide

theorem numerals_readSnippet {d : Digits} (hd : Apart d) (content : String) :
    numerals d (readSnippet content) = numerals d (kept content) := by
  obtain ⟨-,hread⟩ | ⟨marks,hread,hmarks⟩ := readSnippet_eq content
  · rw [hread]
  · have hstop : Stops d marks := by
      obtain rfl | rfl := hmarks
      · rintro c ⟨⟩
        exact ⟨hd.ellipsis,by decide⟩
      · rintro c ⟨⟩
        exact ⟨hd.replacement,by decide⟩
    have hdollar : '$' ∉ marks := by
      obtain rfl | rfl := hmarks <;> decide
    rw [hread,numerals_append_halt hstop.halts,numerals_of_not_mem hdollar,List.append_nil]

/-- Snippets state the amounts of the content, from the first to the last that is left, unless a cut
leaves a part of a number that is worth something else. -/
theorem snippet_amounts_iff {F : Type} (py : Runtime F) (hd : Apart py.digits) (content : String) :
    ∃ found all, extractAmounts (exactly py) (.str (String.ofList (readSnippet content))) = .ok found ∧
      extractAmounts (exactly py) (.str (String.ofList (normalised content))) = .ok all ∧
      (found <+: all ↔ ∀ p q,
        CutInside py.digits (kept content) (lost content) p q → ZerosBehind py.digits p q) := by
  refine ⟨_,_,extractAmounts_ofList _ _,extractAmounts_ofList _ _,?_⟩
  rw [amountsOf_exactly,amountsOf_exactly,numerals_readSnippet hd,← kept_append_lost,
    worth_prefix_iff hd]

/-- With floats of any kind: what no cut lies across is stated as it is. -/
theorem snippet_amounts_whole {F : Type} (py : Runtime F) (hd : Apart py.digits) (content : String)
    (hcut : ∀ p q, ¬ CutInside py.digits (kept content) (lost content) p q) :
    amountsOf py (readSnippet content) <+: amountsOf py (normalised content) := by
  rw [amountsOf_eq,amountsOf_eq,numerals_readSnippet hd,← kept_append_lost]
  obtain ⟨hbegins,-⟩ | ⟨ns,m,y,q,more,-,-,-,hinside⟩ :=
    numerals_cut hd (kept content) (lost content)
  · exact hbegins.map _
  · exact absurd ((hinside _ _).mpr ⟨rfl,rfl⟩) (hcut _ _)

/-- A content without white space is on one line already. -/
theorem normalised_of_no_space {text : List Char} (hspace : ∀ c ∈ text, Java.isSpace c = false)
    (hwhite : ∀ c ∈ text, isWhitespace c = false) : normalised (String.ofList text) = text := by
  have hstrip : stripText text = text := by
    have hdrop : text.dropWhile isWhitespace = text := by
      cases text with
      | nil => rfl
      | cons c text => exact List.dropWhile_cons_of_neg (by simp [hwhite c])
    have hrdrop : text.rdropWhile isWhitespace = text := by
      rw [List.rdropWhile_eq_self_iff]
      intro hne
      simp [hwhite _ (List.getLast_mem hne)]
    rw [stripText,hdrop,hrdrop]
  rw [normalised,String.toList_ofList,hstrip]
  exact (Regex.noMatch_of_head hspace).replaceAll_eq [' ']

/-- A content with `$12,500.00` across the cut. -/
def crossing : List Char :=
  List.replicate 236 'a' ++ ['$','1','2',',','5','0','0','.','0','0']

theorem crossing_amounts :
    numerals asciiDigits (normalised (String.ofList crossing)) = [['1','2',',','5','0','0','.','0','0']] ∧
      numerals asciiDigits (kept (String.ofList crossing)) = [['1','2']] := by
  have hletters : '$' ∉ List.replicate 236 'a' := by
    intro h
    exact absurd (List.eq_of_mem_replicate h) (by decide)
  have hall : ∀ p : Char → Bool, (∀ c ∈ ['a','$','1','2',',','5','0','0','.','0','0'], p c = false) →
      ∀ c ∈ crossing, p c = false := by
    intro p hp c hc
    obtain hc | hc := List.mem_append.mp hc
    · exact hp c (by rw [List.eq_of_mem_replicate hc]; exact List.mem_cons_self)
    · exact hp c (List.mem_cons_of_mem _ hc)
  have hnormal : normalised (String.ofList crossing) = crossing :=
    normalised_of_no_space (hall _ (by simp [Java.isSpace])) (hall _ (by simp [isWhitespace]))
  have hlength : ∀ n, ((List.replicate n 'a').flatMap Text.unitsOf).length = n := by
    intro n
    have hwidth : Text.width 'a' = 1 := by decide
    induction n with
    | zero => rfl
    | succ n ih =>
      rw [List.replicate_succ,List.flatMap_cons,List.length_append,Text.length_unitsOf,hwidth,ih,
        Nat.add_comm]
  have hkept : kept (String.ofList crossing) = List.replicate 236 'a' ++ ['$','1','2',','] := by
    have hcut : (Text.cutAt 4 ['$','1','2',',','5','0','0','.','0','0']).1 = ['$','1','2',','] := by
      decide
    rw [kept,hnormal,crossing,Text.cutAt_append_of_length_le (by rw [hlength]; decide),hlength,
      SNIPPET_LEN,hcut]
  rw [hnormal,hkept,crossing,numerals_append hletters,numerals_append hletters]
  decide

theorem apart_asciiDigits : Apart asciiDigits := by
  have hascii : ∀ c, asciiDigits.isDigit c = true → 48 ≤ c.toNat ∧ c.toNat ≤ 57 := by
    intro c hc
    by_contra hnot
    simp [Digits.isDigit,asciiDigits,hnot] at hc
  refine ⟨fun c hc => Bool.eq_false_iff.mpr fun hdigit => ?_,by decide,by decide⟩
  obtain ⟨hge,hle⟩ := hascii c hdigit
  simp [Python.isSpace] at hc
  omega

theorem snippet_amounts_iff_crossing : ∃ found all,
    extractAmounts (exactly exactRuntime) (.str (String.ofList
      (readSnippet (String.ofList crossing)))) = .ok found ∧
    extractAmounts (exactly exactRuntime) (.str (String.ofList
      (normalised (String.ofList crossing)))) = .ok all ∧
    (found <+: all ↔ ∀ p q, CutInside asciiDigits (kept (String.ofList crossing))
      (lost (String.ofList crossing)) p q → ZerosBehind asciiDigits p q) :=
  snippet_amounts_iff exactRuntime apart_asciiDigits (String.ofList crossing)

/-- The snippet states $12 where the content states $12,500.00. -/
theorem snippet_states_other_amount :
    extractAmounts exactRuntime (.str (String.ofList (readSnippet (String.ofList crossing)))) =
      .ok [12] ∧
    extractAmounts exactRuntime (.str (String.ofList (normalised (String.ofList crossing)))) =
      .ok [12500] ∧ ¬ List.Sublist [(12:ℚ)] [12500] := by
  obtain ⟨hall,hkept⟩ := crossing_amounts
  have hvalue : decimal asciiDigits ['1','2'] = 12 := by
    have hnat : natOf asciiDigits ['1','2'] = 12 := by rfl
    rw [decimal_of_not_mem (by decide),hnat]
    norm_num
  have hwhole : decimal asciiDigits (['1','2','5','0','0'] ++ ['.','0','0']) = 12500 := by
    have hnat : natOf asciiDigits (['1','2','5','0','0'] ++ ['0','0']) = 1250000 := by rfl
    rw [decimal_append (by decide),hnat]
    norm_num
  refine ⟨?_,?_,by norm_num⟩
  · rw [extractAmounts_ofList,amountsOf_eq]
    change Except.ok ((numerals asciiDigits _).map _) = _
    rw [numerals_readSnippet apart_asciiDigits,hkept]
    exact congrArg (fun q => Except.ok [q]) hvalue
  · rw [extractAmounts_ofList,amountsOf_eq]
    change Except.ok ((numerals asciiDigits _).map _) = _
    rw [hall]
    exact congrArg (fun q => Except.ok [q]) hwhole

end AtlasCompliance.Agents
