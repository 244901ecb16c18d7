import AtlasCompliance.Lib.Seams
import AtlasCompliance.Lib.Tagged
import AtlasCompliance.RagEngine.Guardrail

/-! A chunk as it is read in the prompt, each character with whether the neutraliser put it in: the
text that the scanner would see there, and where its blanks come from. -/
namespace AtlasCompliance.RagEngine
open Java Regex

/-- A character, and whether the neutraliser put it in. -/
abbrev Letter := Char × Bool

/-- Characters of the chunk itself. -/
def own (text : List Char) : List Letter := text.map fun c => (c,false)

/-- The broken token, of which the leader is put in. -/
def BROKEN_LETTERS : List Letter :=
  [('a',false),('t',false),('l',false),('a',false),('s',false),('․',true),('d',false),('o',false),
    ('c',false)]

/-- `neutralize` on a chunk, a removed comment leaving a blank that is put in. -/
def neutralLetters (content : List Char) : List Letter :=
  replaceAll (TAG_TOKEN.comap Prod.fst) BROKEN_LETTERS
    (replaceAll (HTML_COMMENT.comap Prod.fst) [(' ',true)] (own content))

/-- `unmask` on letters. -/
def unmaskLetters (text : List Letter) : List Letter :=
  replaceAll (COMMENT_CLOSE.comap Prod.fst) [(' ',false)]
    (replaceAll (COMMENT_OPEN.comap Prod.fst) [(' ',false)] text)

/-- `lowerCase` on letters. -/
def lowerLetters (casing : Casing) (before : List Char) : List Letter → List Letter
  | [] => []
  | l::rest => (casing.lowerAt before l.1 (rest.map Prod.fst)).map (fun c => (c,l.2)) ++
      lowerLetters casing (l.1::before) rest

/-- A run of blanks becomes one, put in if one of the run was. -/
def collapse (ts : List (Token Letter)) : List Letter := ts.flatMap fun
  | .keep l => [l]
  | .hit w _ => [(' ',w.any Prod.snd)]

def stripLetters (text : List Letter) : List Letter :=
  (text.dropWhile fun l => isWhitespace l.1).rdropWhile fun l => isWhitespace l.1

/-- The neutralised chunk in the form in which the scanner compares it. -/
def reading (casing : Casing) (content : List Char) : List Letter :=
  stripLetters (collapse (tokens (WHITESPACE.comap Prod.fst)
    (lowerLetters casing [] (unmaskLetters (neutralLetters content)))))

theorem own_map_fst (text : List Char) : (own text).map Prod.fst = text := by
  simp [own,Function.comp_def]

theorem lowerLetters_map_fst (casing : Casing) (before : List Char) (text : List Letter) :
    (lowerLetters casing before text).map Prod.fst =
      casing.lowerCase before (text.map Prod.fst) := by
  induction text generalizing before with
  | nil => rfl
  | cons l rest ih => simp [lowerLetters,Casing.lowerCase,ih,Function.comp_def]

theorem collapse_map_fst (text : List Letter) :
    (collapse (tokens (WHITESPACE.comap Prod.fst) text)).map Prod.fst =
      replaceAll WHITESPACE [' '] (text.map Prod.fst) := by
  rw [replaceAll,← tokens_comap,collapse,List.map_flatMap,List.flatMap_map]
  refine List.flatMap_congr fun t _ => ?_
  cases t with
  | keep l => rfl
  | hit w groups => rfl

theorem rdropWhile_map {α β : Type} (f : α → β) (p : β → Bool) (text : List α) :
    (text.map f).rdropWhile p = (text.rdropWhile (p ∘ f)).map f := by
  rw [List.rdropWhile,List.rdropWhile,← List.map_reverse,List.dropWhile_map,List.map_reverse]

theorem stripLetters_map_fst (text : List Letter) :
    (stripLetters text).map Prod.fst = stripText (text.map Prod.fst) := by
  rw [stripText,List.dropWhile_map,rdropWhile_map]
  rfl

/-- The letters without their origin are the normalised text of the neutralised chunk. -/
theorem reading_map_fst (casing : Casing) (content : List Char) :
    (reading casing content).map Prod.fst = normalize casing (neutralize content) := by
  rw [reading,stripLetters_map_fst,collapse_map_fst,lowerLetters_map_fst,unmaskLetters,
    replaceAll_comap,replaceAll_comap,neutralLetters,replaceAll_comap,replaceAll_comap,own_map_fst]
  rfl

/-- A letter in front of a collapsed text. -/
def push (l : Letter) (text : List Letter) : List Letter :=
  if isSpace l.1 then match text with
    | [] => [(' ',l.2)]
    | d::rest => if isSpace d.1 then (' ',l.2 || d.2)::rest else (' ',l.2)::d::rest
  else l::text

theorem push_run {w : List Letter} (hw : w ≠ []) (hspace : ∀ l ∈ w, isSpace l.1 = true)
    {text : List Letter} (htext : ∀ d ∈ text.head?, isSpace d.1 = false) :
    w.foldr push text = (' ',w.any Prod.snd)::text := by
  induction w with
  | nil => exact absurd rfl hw
  | cons l w ih =>
    have hl : isSpace l.1 = true := hspace l List.mem_cons_self
    by_cases hnil : w = []
    · subst hnil
      cases text with
      | nil => simp [push,hl]
      | cons d rest => simp [push,hl,htext d rfl]
    · rw [List.foldr_cons,ih hnil fun d hd => hspace d (List.mem_cons_of_mem l hd)]
      have hblank : isSpace ' ' = true := by decide
      simp [push,hl,hblank]

theorem head_foldr_push {text : List Letter} (h : ∀ l ∈ text.head?, isSpace l.1 = false) :
    ∀ d ∈ (text.foldr push []).head?, isSpace d.1 = false := by
  cases text with
  | nil => simp
  | cons l rest =>
    have hl : isSpace l.1 = false := h l rfl
    simp [push,hl]

/-- Collapsing takes the letters one by one, from the last to the first. -/
theorem collapse_eq_foldr {before after : List Letter} {ts : List (Token Letter)}
    (h : Scanned (WHITESPACE.comap Prod.fst) before after ts) : collapse ts = after.foldr push [] := by
  induction h with
  | done before => rfl
  | @keep before rest a ts hnone hrest ih =>
    have ha : isSpace a.1 = false := not_of_plus_sat_ends (fun l : Letter => isSpace l.1) hnone
    rw [List.foldr_cons,← ih]
    simp [collapse,push,ha]
  | @hit before w rest groups ts hw hsome hrest ih =>
    obtain ⟨hspace,hrun⟩ := run_of_plus_sat_ends (fun l : Letter => isSpace l.1) hsome
    rw [List.foldr_append,← ih,push_run hw hspace (ih ▸ head_foldr_push hrun)]
    rfl

end AtlasCompliance.RagEngine
