import AtlasCompliance.Agents.CutAmounts
import AtlasCompliance.Agents.Proposals
import AtlasCompliance.Gateway.Stretches

/-! The amounts that the agent reads in what has gone through the gateway's filter: those that stand in
the kept stretches, and no others. -/
namespace AtlasCompliance.Agents
open Python Java Regex Gateway PiiRedactor OutputSanitizer RagEngine

variable {d : Digits}

/-! ### Stretches without amounts -/

theorem isDigit_ascii (d : Digits) {c : Char} (h : c.toNat < 128) : d.isDigit c = Java.isDigit c := by
  rw [Digits.isDigit,d.ascii c h,Java.isDigit]
  by_cases hlow : 48 ≤ c.toNat <;> by_cases hhigh : c.toNat ≤ 57 <;> simp [hlow,hhigh]

/-- Neither begins nor continues an amount. -/
structure Dull (d : Digits) (c : Char) : Prop where
  digit : d.isDigit c = false
  comma : c ≠ ','
  point : c ≠ '.'
  space : Python.isSpace c = false
  dollar : c ≠ '$'

theorem Dull.halts {c : Char} (h : Dull d c) (text : List Char) : Halts d (c::text) := by
  refine Stops.halts fun b hb => ?_
  obtain rfl : c = b := Option.some.inj hb
  exact ⟨h.digit,h.comma,h.point,h.space⟩

/-- A letter or another sign of ASCII. -/
theorem dull_ascii (d : Digits) {c : Char} (h : 57 < c.toNat) (hascii : c.toNat < 128) : Dull d c := by
  have hne : ∀ b : Char, b.toNat ≤ 57 → c ≠ b := by
    rintro b hb rfl
    omega
  refine ⟨?_,hne ',' (by decide),hne '.' (by decide),?_,hne '$' (by decide)⟩
  · rw [isDigit_ascii d hascii]
    simp [Java.isDigit,h]
  · simp [Python.isSpace]
    omega

theorem dull_mark (d : Digits) (k : Kind) : ∀ c ∈ mark k, Dull d c := by
  have hall : (mark k).all fun c => 57 < c.toNat && c.toNat < 128 := by cases k <;> decide
  intro c hc
  have hcode := List.all_eq_true.mp hall c hc
  simp only [Bool.and_eq_true,decide_eq_true_eq] at hcode
  exact dull_ascii d hcode.1 hcode.2

/-- No amount begins in the stretch or runs into it. -/
structure Quiet (d : Digits) (s : List Char) : Prop where
  dollar : '$' ∉ s
  halts : ∀ rest, Halts d (s ++ rest)

/-- The same numbers are read in both texts, and there is a `$` in both or in none. -/
structure SameMoney (d : Digits) (x y : List Char) : Prop where
  numerals : numerals d x = numerals d y
  dollar : '$' ∈ x ↔ '$' ∈ y

theorem SameMoney.symm {x y : List Char} (h : SameMoney d x y) : SameMoney d y x :=
  ⟨h.numerals.symm,h.dollar.symm⟩

theorem SameMoney.trans {x y z : List Char} (h : SameMoney d x y) (k : SameMoney d y z) :
    SameMoney d x z :=
  ⟨h.numerals.trans k.numerals,h.dollar.trans k.dollar⟩

/-- Exchanging quiet stretches changes nothing behind any text. -/
theorem sameMoney_patched {x y : List Char} (h : Patched (fun s t => Quiet d s ∧ Quiet d t) x y)
    (before : List Char) : SameMoney d (before ++ x) (before ++ y) := by
  induction h generalizing before with
  | nil => exact ⟨rfl,Iff.rfl⟩
  | @keep x y a h ih => simpa using ih (before ++ [a])
  | @swap s t x y hst h ih =>
    have hread : ∀ {s x}, Quiet d s → Agents.numerals d (before ++ (s ++ x)) =
        Agents.numerals d before ++ Agents.numerals d x := by
      intro s x hs
      rw [numerals_append_halt (hs.halts x),numerals_append hs.dollar]
    have hrest : SameMoney d x y := ih []
    refine ⟨?_,?_⟩
    · rw [hread hst.1,hread hst.2,hrest.numerals]
    · simp [hst.1.dollar,hst.2.dollar,hrest.dollar]

/-! ### What the sanitizer exchanges -/

theorem quiet_of_dull {c : Char} {s : List Char} (hc : Dull d c) (hdollar : '$' ∉ s) :
    Quiet d (c::s) :=
  ⟨by simp [hdollar,hc.dollar.symm],fun rest => hc.halts (s ++ rest)⟩

theorem quiet_spaced {c b : Char} {s : List Char} (hc : Java.isSpace c = true) (hb : d.isDigit b = false)
    (hdollar : '$' ∉ b::s) : Quiet d (c::b::s) := by
  have hcode : (9 ≤ c.toNat ∧ c.toNat ≤ 13) ∨ c.toNat = 32 := by simpa [Java.isSpace] using hc
  have hne : ∀ a : Char, 32 < a.toNat → c ≠ a := by
    rintro a ha rfl
    omega
  refine ⟨?_,?_⟩
  · rw [List.mem_cons,not_or]
    exact ⟨(hne '$' (by decide)).symm,hdollar⟩
  · rintro rest a ⟨⟩
    refine ⟨?_,hne ',' (by decide),hne '.' (by decide),?_⟩
    · rw [isDigit_ascii d (by omega)]
      simp [Java.isDigit]
      omega
    · rintro - e ⟨⟩
      exact hb

theorem dull_of_toLower {a c : Char} (h : c.toLower = a) (hword : isWord a = true)
    (hdigit : Java.isDigit a = false) : Dull d c := by
  have hc := word_of_toLower h hword
  have hno := not_digit_of_toLower h hdigit
  simp only [isWord,hno,Bool.false_or,Bool.or_eq_true,Bool.and_eq_true,decide_eq_true_eq,
    beq_iff_eq] at hc
  obtain (hc | hc) | rfl := hc
  · exact dull_ascii d (by omega) (by omega)
  · exact dull_ascii d (by omega) (by omega)
  · exact dull_ascii d (by decide) (by decide)

theorem quiet_jsUri {s : List Char} (hs : s ∈ JS_URI.language) : Quiet d s := by
  have hmap := mem_jsUri.mp hs
  have hdollar : '$' ∉ s := by
    intro h
    exact absurd (hmap ▸ List.mem_map_of_mem (f := Char.toLower) h) (by decide)
  cases s with
  | nil => cases hmap
  | cons c s =>
    exact quiet_of_dull (dull_of_toLower (List.cons.inj hmap).1 (by decide) (by decide))
      fun h => hdollar (List.mem_cons_of_mem c h)

theorem quiet_eventHandler {s : List Char} (hs : s ∈ EVENT_HANDLER.language) : Quiet d s := by
  have hdollar : '$' ∉ s :=
    not_mem_eventHandler (by decide) (by decide) (by decide) (by decide) hs
  obtain ⟨z,o,n,x,xs,ys,rfl,hz,ho,-⟩ := mem_eventHandler.mp hs
  exact quiet_spaced hz (dull_of_toLower ho (by decide) (by decide)).digit
    fun h => hdollar (List.mem_cons_of_mem z h)

theorem quiet_angle {b : Char} (hb : 57 < b.toNat ∧ b.toNat < 128) {s : List Char}
    (hs : s ∈ (OutputSanitizer.letter b).language) : Quiet d s := by
  obtain ⟨c,rfl,hc⟩ := hs
  obtain rfl : b = c := beq_iff_eq.mp hc
  exact quiet_of_dull (dull_ascii d hb.1 hb.2) List.not_mem_nil

theorem dull_amp (d : Digits) : Dull d '&' :=
  ⟨isDigit_ascii d (by decide),by decide,by decide,by decide,by decide⟩

/-- Defusing and escaping change no amount. -/
theorem sameMoney_inert (d : Digits) (text : List Char) : SameMoney d (escape (defuse text)) text := by
  have hpass : ∀ {r : Pattern Char} {mark : List Char}, r.Plain → [] ∉ r.language →
      (∀ s ∈ r.language, Quiet d s) → Quiet d mark → ∀ text,
        SameMoney d text (replaceAll r mark text) := by
    intro r mark hplain hne hs hmark text
    refine sameMoney_patched (((framed_of_plain hplain).patched hne mark text).mono ?_) []
    rintro s _ ⟨hword,rfl⟩
    exact ⟨hs s hword,hmark⟩
  have hblocked : Quiet d ['b','l','o','c','k','e','d',':'] :=
    quiet_of_dull (dull_ascii d (by decide) (by decide)) (by decide)
  have hdata : Quiet d [' ','d','a','t','a','-','b','l','o','c','k','e','d','='] :=
    quiet_spaced (by decide) (dull_ascii d (by decide) (by decide)).digit (by decide)
  have hangle : ∀ b, [] ∉ (OutputSanitizer.letter b).language := by
    rintro b ⟨a,ha,-⟩
    cases ha
  rw [escape_eq,defuse]
  refine ((hpass plain_jsUri nil_not_mem_jsUri (fun _ => quiet_jsUri) hblocked _).trans
    ((hpass plain_eventHandler nil_not_mem_eventHandler (fun _ => quiet_eventHandler) hdata _).trans
    (SameMoney.trans (hpass (r := OutputSanitizer.letter '<') trivial (hangle '<') ?_ ?_ _)
      (hpass (r := OutputSanitizer.letter '>') trivial (hangle '>') ?_ ?_ _)))).symm
  · exact fun _ => quiet_angle (by decide)
  · exact quiet_of_dull (dull_amp d) (by decide)
  · exact fun _ => quiet_angle (by decide)
  · exact quiet_of_dull (dull_amp d) (by decide)

/-! ### The stretches between the marks -/

/-- Dull letters part the amounts of a text. -/
theorem numerals_splitOnP {x : List (Char × Bool)} (hx : ∀ a ∈ x, a.2 = false → Dull d a.1) :
    numerals d (x.map Prod.fst) =
      ((x.splitOnP fun a => !a.2).map (·.map Prod.fst)).flatMap (numerals d) := by
  have hread : ∀ before : List (Char × Bool), numerals d ((before.reverse ++ x).map Prod.fst) =
      ((x.splitOnPPrepend (fun a => !a.2) before).map (·.map Prod.fst)).flatMap (numerals d) := by
    induction x with
    | nil => intro before; simp
    | cons a x ih =>
      intro before
      have hrest := ih fun b hb => hx b (List.mem_cons_of_mem a hb)
      cases ha : a.2 with
      | true =>
        rw [List.splitOnPPrepend_cons_neg (by simp [ha]),← hrest]
        simp
      | false =>
        have hdull := hx a List.mem_cons_self ha
        have hnone : '$' ∉ [a.1] := by simpa using hdull.dollar.symm
        rw [List.splitOnPPrepend_cons_pos (by simp [ha]),← List.splitOnPPrepend_nil_right,
          List.map_cons,List.flatMap_cons,← hrest,List.map_append,List.map_cons,
          numerals_append_halt (hdull.halts _),← List.singleton_append,numerals_append hnone]
        rfl
  simpa using hread []

theorem dollar_splitOnP {x : List (Char × Bool)} (hx : ∀ a ∈ x, a.2 = false → Dull d a.1) :
    '$' ∈ x.map Prod.fst ↔
      ∃ part ∈ (x.splitOnP fun a => !a.2).map (·.map Prod.fst), '$' ∈ part := by
  rw [← List.mem_flatten,← List.map_flatten,flatten_splitOnP]
  constructor
  · intro h
    obtain ⟨a,ha,hdollar⟩ := List.mem_map.mp h
    cases hput : a.2 with
    | true => exact List.mem_map.mpr ⟨a,List.mem_filter.mpr ⟨ha,hput⟩,hdollar⟩
    | false => exact absurd hdollar (hx a ha hput).dollar
  · exact fun h => (List.filter_sublist.map Prod.fst).subset h

section Relayed
variable {F : Type}

/-- What the filter puts in is dull. -/
theorem dull_noted (d : Digits) (safety : SafetyProperties) (text : List Char) :
    ∀ a ∈ safety.noted text, a.2 = false → Dull d a.1 := by
  intro a ha hput
  obtain ⟨k,hk⟩ := ofMarks_noted safety text a ha hput
  exact dull_mark d k _ hk

/-- The amounts of a cleansed text are those of its kept stretches. -/
theorem amountsOf_cleansed (py : Runtime F) (safety : SafetyProperties) (text : List Char) :
    amountsOf py (safety.cleanse text []).1 = (safety.stretches text).flatMap (amountsOf py) := by
  have hnumerals : numerals py.digits (safety.cleanse text []).1 =
      (safety.stretches text).flatMap (numerals py.digits) := by
    rw [SafetyProperties.stretches,← numerals_splitOnP (dull_noted py.digits safety text),cleanse_noted]
    split_ifs
    · exact (sameMoney_inert py.digits _).numerals
    · rfl
  rw [amountsOf_eq,hnumerals,List.map_flatMap]
  exact List.flatMap_congr fun part _ => (amountsOf_eq py part).symm

theorem dollar_cleansed (safety : SafetyProperties) (text : List Char) :
    '$' ∈ (safety.cleanse text []).1 ↔ ∃ part ∈ safety.stretches text, '$' ∈ part := by
  rw [SafetyProperties.stretches,← dollar_splitOnP (dull_noted asciiDigits safety text),
    cleanse_noted]
  split_ifs
  · exact (sameMoney_inert asciiDigits _).dollar
  · rfl

/-- The answer, if there is one, and the snippets. -/
def textsOf (r : QueryResponse) : List (List Char) :=
  (r.answer.map String.toList).toList ++ r.citations.map fun c => Text.ofUnits c.snippet

/-- The stretches of the answer and the snippets that the filter keeps. -/
def keptOf (safety : SafetyProperties) (r : QueryResponse) : List (List Char) :=
  (textsOf r).flatMap safety.stretches

theorem textOf_str {name text : String} {j : Json} (h : j.get? name = some (.str text)) :
    textOf name j = text := by
  rw [textOf,get_eq_ok.mpr ⟨Json.isObj_of_get? h,rfl⟩,h]
  rfl

theorem textOf_missing {name : String} {j : Json} (hobject : ∃ members, j = .obj members)
    (h : j.get? name = none) : textOf name j = "" := by
  rw [textOf,get_eq_ok.mpr ⟨hobject,rfl⟩,h]
  rfl

variable {J : Jackson} {safety : SafetyProperties} {m : Meta} {r : QueryResponse}

theorem textOf_snippet_cleansed (c : Citation ℚ) :
    (textOf "snippet" (cleanseMember J safety "snippet" c.toJson []).1).toList =
      (safety.cleanse (Text.ofUnits c.snippet) []).1 := by
  rw [textOf_str (get?_snippet_cleansed c),cleansed,String.toList_ofList,String.toList_ofList]

/-- The agent's evidence is what it reads in the kept stretches. -/
theorem evidence_relayed (py : Runtime F) : evidence py (textOf "answer" (relayed J safety m r))
    (relayedCitations J safety r) = (keptOf safety r).flatMap (amountsOf py) := by
  have hsnippets : (relayedCitations J safety r).flatMap
      (fun c => amountsOf py (textOf "snippet" c).toList) =
        (r.citations.map fun c => Text.ofUnits c.snippet).flatMap
          fun text => (safety.stretches text).flatMap (amountsOf py) := by
    rw [relayedCitations,List.flatMap_map,List.flatMap_map]
    refine List.flatMap_congr fun c _ => ?_
    rw [textOf_snippet_cleansed,amountsOf_cleansed]
  have hanswer : amountsOf py (textOf "answer" (relayed J safety m r)).toList =
      (r.answer.map String.toList).toList.flatMap
        fun text => (safety.stretches text).flatMap (amountsOf py) := by
    have hget : (relayed J safety m r).get? "answer" =
        r.answer.map fun answer => .str (cleansed safety answer) := get?_answer_relayed
    cases ha : r.answer with
    | none =>
      rw [ha] at hget
      rw [textOf_missing legible_relayed.object hget]
      rfl
    | some answer =>
      rw [ha] at hget
      rw [textOf_str hget,cleansed,String.toList_ofList,amountsOf_cleansed]
      simp
  rw [evidence,hsnippets,hanswer,keptOf,List.flatMap_assoc,textsOf,List.flatMap_append]

/-- The agent sees a `$` exactly if a kept stretch has one. -/
theorem showsMoney_relayed : showsMoney (textOf "answer" (relayed J safety m r))
    (relayedCitations J safety r) = true ↔ ∃ part ∈ keptOf safety r, '$' ∈ part := by
  have hsnippets : (relayedCitations J safety r).any
      (fun c => (textOf "snippet" c).toList.contains '$') = true ↔
        ∃ c ∈ r.citations, ∃ part ∈ safety.stretches (Text.ofUnits c.snippet), '$' ∈ part := by
    rw [relayedCitations,List.any_map,List.any_eq_true]
    simp only [Function.comp_apply,textOf_snippet_cleansed,List.contains_iff_mem,dollar_cleansed]
  have hanswer : (textOf "answer" (relayed J safety m r)).toList.contains '$' = true ↔
      ∃ answer ∈ r.answer, ∃ part ∈ safety.stretches answer.toList, '$' ∈ part := by
    have hget : (relayed J safety m r).get? "answer" =
        r.answer.map fun answer => .str (cleansed safety answer) := get?_answer_relayed
    cases ha : r.answer with
    | none =>
      rw [ha] at hget
      rw [textOf_missing legible_relayed.object hget]
      simp
    | some answer =>
      rw [ha] at hget
      rw [textOf_str hget,cleansed,String.toList_ofList,List.contains_iff_mem,dollar_cleansed]
      simp
  have hkept : (∃ part ∈ keptOf safety r, '$' ∈ part) ↔
      ∃ text ∈ textsOf r, ∃ part ∈ safety.stretches text, '$' ∈ part := by
    constructor
    · rintro ⟨part,hpart,hdollar⟩
      obtain ⟨text,htext,hpart⟩ := List.mem_flatMap.mp hpart
      exact ⟨text,htext,part,hpart,hdollar⟩
    · rintro ⟨text,htext,part,hpart,hdollar⟩
      exact ⟨part,List.mem_flatMap.mpr ⟨text,htext,hpart⟩,hdollar⟩
  rw [showsMoney,Bool.or_eq_true,hsnippets,hanswer,hkept,textsOf]
  simp [or_and_right,exists_or]

end Relayed

/-! ### Breaches behind the filter -/

section Routed
variable {F : Type} [LinearOrder F]

/-- `extract_amounts` finds an amount at or above the threshold in one of the texts. -/
def Finds (py : Runtime F) (threshold : F) (texts : List (List Char)) : Prop :=
  ∃ text ∈ texts, ∃ a ∈ amountsOf py text, threshold ≤ a

/-- An amount at or above the threshold is found, or there is a `$` and no amount. -/
def Alarms (py : Runtime F) (threshold : F) (texts : List (List Char)) : Prop :=
  Finds py threshold texts ∨
    (∀ text ∈ texts, amountsOf py text = []) ∧ ∃ text ∈ texts, '$' ∈ text

theorem routeOf_gated {breach ambiguous : Bool} :
    routeOf breach ambiguous = .approve ∨ routeOf breach ambiguous = .clarify ↔
      breach = true ∨ ambiguous = true := by
  cases breach <;> cases ambiguous <;> simp [routeOf]

/-- A response with a breach goes to one of the gates exactly if its kept stretches alarm. -/
theorem breach_gated_iff (py : Runtime F) (threshold : F) (J : Jackson) (safety : SafetyProperties)
    (m : Meta) (r : QueryResponse) (s : AgentState F) :
    ∃ d, decision py threshold (relayed J safety m r) s = .ok d ∧
      ((Finds py threshold (textsOf r) → d.route = .approve ∨ d.route = .clarify) ↔
        (Finds py threshold (textsOf r) → Alarms py threshold (keptOf safety r))) := by
  have hread : Legible (relayed J safety m r) (relayedCitations J safety r) := legible_relayed
  obtain ⟨d,hd⟩ := exists_decision hread py threshold s
  refine ⟨d,hd,?_⟩
  obtain ⟨cs,hcs,hbreach,hroute,-⟩ := decision_spec hd
  obtain rfl : relayedCitations J safety r = cs :=
    Except.ok.inj ((citationsOf_legible hread).symm.trans hcs)
  have hfinds : (∃ a ∈ (keptOf safety r).flatMap (amountsOf py), threshold ≤ a) ↔
      Finds py threshold (keptOf safety r) := by
    constructor
    · rintro ⟨a,ha,hle⟩
      obtain ⟨part,hpart,ha⟩ := List.mem_flatMap.mp ha
      exact ⟨part,hpart,a,ha,hle⟩
    · rintro ⟨part,hpart,a,ha,hle⟩
      exact ⟨a,List.mem_flatMap.mpr ⟨part,hpart,ha⟩,hle⟩
  have hgated : (d.route = .approve ∨ d.route = .clarify) ↔
      Alarms py threshold (keptOf safety r) := by
    rw [hroute,routeOf_gated,hbreach,breaches_iff,Bool.and_eq_true,showsMoney_relayed,
      evidence_relayed,hfinds,List.isEmpty_iff,List.flatMap_eq_nil_iff,Alarms]
  rw [hgated]

/-- A large amount that is masked, and a small one. -/
def maskedBreach : QueryResponse :=
  ⟨some "A transfer of $12500000 was flagged; the fee was $25.",[],⟨1,1,1,1,"compliance"⟩,none,none⟩

theorem decision_maskedBreach : decision exactRuntime 10000 (relayed
    (GatewayQueryController.jacksonOf "" .null) ⟨true,true,[]⟩ missSections maskedBreach) northwindRun =
      .ok quietDecision := by decide +kernel

/-- The run is finalized without a breach. -/
theorem maskedBreach_finalized : ¬ ∀ {F : Type} [LinearOrder F] (py : Runtime F) (threshold : F)
    (J : Jackson) (safety : SafetyProperties) (m : Meta) (r : QueryResponse) (s : AgentState F),
    Finds py threshold (textsOf r) → ∃ d, decision py threshold (relayed J safety m r) s = .ok d ∧
      (d.route = .approve ∨ d.route = .clarify) := by
  intro hall
  have hfound : Finds exactRuntime 10000 (textsOf maskedBreach) :=
    ⟨_,List.mem_cons_self,12500000,by decide +kernel,by decide⟩
  obtain ⟨d,hd,hroute⟩ := hall exactRuntime 10000 (GatewayQueryController.jacksonOf "" .null)
    ⟨true,true,[]⟩ missSections maskedBreach northwindRun hfound
  obtain rfl : quietDecision = d := Except.ok.inj (decision_maskedBreach.symm.trans hd)
  exact absurd hroute (by decide)

end Routed

end AtlasCompliance.Agents
