import AtlasCompliance.Python.Dumps
import AtlasCompliance.Python.JsonModule
import AtlasCompliance.Python.Lines

/-! The framing of JSON-RPC answers: which plain and which event-stream bodies `_parse_jsonrpc` reads
back as the message they carry. -/
namespace AtlasCompliance.Agents
open Python JsonText

def dataTag : List Char := ['d','a','t','a',':']

/-- `line[len("data:"):].strip()`. -/
def payload (line : List Char) : List Char := strip (line.drop dataTag.length)

/-- A text that a conforming writer gives for a value: any spelling of it, with distinct names and
blanks around it, and no line feed or carriage return. -/
structure MessageText (number : List Char → Option ℚ) (m : Json) (text : List Char) : Prop where
  parts : ∃ w t w', text = w ++ (t ++ w') ∧ Spells number List.Nodup m t ∧
    (∀ c ∈ w, blank c = true) ∧ ∀ c ∈ w', blank c = true
  lineFeed : '\n' ∉ text
  carriageReturn : '\r' ∉ text

namespace MessageText
variable {number : List Char → Option ℚ} {m : Json} {text : List Char}

/-- A character beyond ASCII is in a string of the message. -/
theorem mentions (h : MessageText number m text) {c : Char} (hc : c ∈ text) (hwide : 128 ≤ c.toNat) :
    Mentions c m := by
  have hblank : blank c = true → False := fun hblank =>
    absurd (blank_ascii hblank).2.2 (not_lt.mpr hwide)
  obtain ⟨w,t,w',rfl,hspells,hw,hw'⟩ := h.parts
  simp only [List.mem_append] at hc
  obtain hc | hc | hc := hc
  · exact (hblank (hw c hc)).elim
  · exact hspells.mentions_of_wide hc hwide
  · exact (hblank (hw' c hc)).elim

end MessageText

section Message
variable {number : List Char → Option ℚ} {members : List (String × Json)} {text : List Char}

end Message

/-! ### Event streams -/

inductive Eol where
  | lf
  | cr
  | crlf

def Eol.chars : Eol → List Char
  | .lf => ['\n']
  | .cr => ['\r']
  | .crlf => ['\r','\n']

def eventTag : List Char := ['e','v','e','n','t',':']

def idTag : List Char := ['i','d',':']

/-- A line that names the event or its id. -/
structure EventLine where
  text : List Char
  named : eventTag <+: text ∨ idTag <+: text
  lineFeed : '\n' ∉ text
  carriageReturn : '\r' ∉ text

/-- What is around the data line of an event. -/
structure SseEvent where
  before : List EventLine
  after : List EventLine
  space : Bool
  eol : Eol

def eventText (eol : Eol) (lines : List EventLine) : List Char :=
  lines.flatMap fun l => l.text ++ eol.chars

/-- A body with one event whose data line carries the text. -/
def SseEvent.body (e : SseEvent) (text : List Char) : List Char :=
  eventText e.eol e.before ++ (dataTag ++ ((if e.space then [' '] else []) ++ text) ++
    (e.eol.chars ++ (eventText e.eol e.after ++ e.eol.chars)))

def answerText (members : List (String × Json)) : List Char := dumps (fun _ => []) (.obj members)

end AtlasCompliance.Agents
