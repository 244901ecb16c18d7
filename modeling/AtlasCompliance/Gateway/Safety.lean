import AtlasCompliance.Java.Text
import AtlasCompliance.Lib.Json
import AtlasCompliance.Lib.Replace

/-! The redactor of personal data, the output sanitizer, and what the gateway does with them to the
body of an answer before it leaves. -/
namespace AtlasCompliance.Gateway
open Java Regex

/-- Letters compared under `CASE_INSENSITIVE`. -/
def sameIgnoreCase (a b : Char) : Bool := a.toLower == b.toLower

/-- `\b`: exactly one of the neighbours is a word character. -/
def wordBoundary (left right : Option Char) : Bool := left.any isWord != right.any isWord

/-- The number of events of each kind, in the order of their first occurrence. -/
abbrev Counts : Type := List (String × ℕ)

/-- `counts.merge(type, n, Integer::sum)`. -/
def mergeCount (type : String) (n : ℕ) : Counts → Counts
  | [] => [(type,n)]
  | (k,m)::counts => if k = type then (k,m+n)::counts else (k,m)::mergeCount type n counts

namespace PiiRedactor

def digit : Pattern Char := .sat isDigit

/-- One given letter. -/
def letter (c : Char) : Pattern Char := .sat fun b => c == b

def SSN_TIN : Pattern Char := .whole wordBoundary
  (.seq (.times 3 digit) (.seq (letter '-') (.seq (.times 2 digit)
    (.seq (letter '-') (.times 4 digit)))))

def DOB : Pattern Char := .whole wordBoundary (.alt
  (.seq (.times 4 digit) (.seq (letter '-') (.seq (.times 2 digit)
    (.seq (letter '-') (.times 2 digit)))))
  (.seq (.between 1 1 digit) (.seq (letter '/') (.seq (.between 1 1 digit)
    (.seq (letter '/') (.times 4 digit))))))

def PASSPORT : Pattern Char := .whole wordBoundary
  (.seq (.sat fun c => 65 ≤ c.toNat && c.toNat ≤ 90) (.times 7 digit))

def ACCOUNT : Pattern Char := .whole wordBoundary (.atLeast 8 digit)

/-- `[REDACTED:TYPE]`. -/
def marker (type : List Char) : List Char :=
  '['::(['R','E','D','A','C','T','E','D',':'] ++ type ++ [']'])

structure Redaction where
  text : List Char
  counts : Counts

/-- Mask the matches of one pattern. -/
def apply (pattern : Pattern Char) (type : List Char) (r : Redaction) : Redaction where
  text := replaceAll pattern (marker type) r.text
  counts :=
    let hits := count pattern r.text
    if 0 < hits then mergeCount (String.ofList type) hits r.counts else r.counts

/-- The terms of the denylist, one after the other; blank ones are skipped. -/
def applyDenylist : List String → Redaction → Redaction
  | [],r => r
  | term::rest,r =>
    if Text.isBlank term then applyDenylist rest r
    else applyDenylist rest (apply (.word sameIgnoreCase term.toList)
      ['D','E','N','Y','L','I','S','T','_','T','E','R','M'] r)

/-- The structured patterns, from the specific to the general. -/
def applyPatterns (r : Redaction) : Redaction :=
  apply ACCOUNT ['A','C','C','O','U','N','T','_','N','U','M','B','E','R']
    (apply PASSPORT ['P','A','S','S','P','O','R','T']
      (apply DOB ['D','O','B'] (apply SSN_TIN ['S','S','N','_','T','I','N'] r)))

def redact (nameDenylist : List String) (input : List Char) : Redaction :=
  if input.isEmpty then ⟨input,[]⟩ else applyPatterns (applyDenylist nameDenylist ⟨input,[]⟩)

end PiiRedactor

namespace OutputSanitizer

/-- `(script|style|iframe|object|embed)`. -/
def tagName : Pattern Char := .group 1 (.oneOf
  (["script","style","iframe","object","embed"].map fun t => .word sameIgnoreCase t.toList))

def letter (c : Char) : Pattern Char := .sat fun b => c == b

def blanks : Pattern Char := .star true (.sat isSpace)

/-- `<\s*(script|style|iframe|object|embed)\b`. -/
def tagOpen : Pattern Char := .seq (letter '<') (.seq blanks (.seq tagName
  (.look fun before after => wordBoundary before.head? after.head?)))

/-- `<\s*/\s*\1\s*>`. -/
def tagClose : Pattern Char := .seq (letter '<') (.seq blanks (.seq (letter '/') (.seq blanks
  (.seq (.backref sameIgnoreCase 1) (.seq blanks (letter '>'))))))

def SCRIPTISH : Pattern Char :=
  .seq tagOpen (.seq (.star false (.sat fun _ => true)) tagClose)

def DANGLING_SCRIPT_OPEN : Pattern Char :=
  .seq tagOpen (.seq (.star true (.sat fun c => c != '>')) (letter '>'))

def JS_URI : Pattern Char :=
  .word sameIgnoreCase ['j','a','v','a','s','c','r','i','p','t',':']

def EVENT_HANDLER : Pattern Char := .seq (.sat isSpace)
  (.seq (.word sameIgnoreCase ['o','n']) (.seq (.plus (.sat isWord)) (.seq blanks (letter '='))))

structure Sanitized where
  text : List Char
  removed : ℕ

/-- The text without script blocks and script tags. -/
def stripScripts (text : List Char) : List Char :=
  replaceAll DANGLING_SCRIPT_OPEN [] (replaceAll SCRIPTISH [] text)

/-- `javascript:` addresses and event handlers made inert. -/
def defuse (text : List Char) : List Char :=
  replaceAll EVENT_HANDLER [' ','d','a','t','a','-','b','l','o','c','k','e','d','=']
    (replaceAll JS_URI ['b','l','o','c','k','e','d',':'] text)

def escapeAngle (c : Char) : List Char :=
  if c = '<' then ['&','l','t',';'] else if c = '>' then ['&','g','t',';'] else [c]

/-- The angle brackets that are left, escaped. -/
def escape (text : List Char) : List Char := text.flatMap escapeAngle

def sanitize (input : List Char) : Sanitized where
  text := escape (defuse (stripScripts input))
  removed :=
    let stripped := replaceAll SCRIPTISH [] input
    let text := stripScripts input
    let blocked := replaceAll JS_URI ['b','l','o','c','k','e','d',':'] text
    count SCRIPTISH input + count DANGLING_SCRIPT_OPEN stripped + count JS_URI text +
      count EVENT_HANDLER blocked + if '<' ∈ defuse text ∨ '>' ∈ defuse text then 1 else 0

end OutputSanitizer

/-- The switches and the denylist of `SafetyProperties`. -/
structure SafetyProperties where
  piiEnabled : Bool
  sanitizeEnabled : Bool
  nameDenylist : List String

namespace SafetyProperties
variable (safety : SafetyProperties)

/-- The redaction part of `cleanse`. -/
def redacted (text : List Char) (counts : Counts) : List Char × Counts :=
  if safety.piiEnabled then
    let r := PiiRedactor.redact safety.nameDenylist text
    (r.text,r.counts.foldl (fun counts c => mergeCount c.1 c.2 counts) counts)
  else (text,counts)

/-- The sanitizer part of `cleanse`. -/
def sanitized (text : List Char) (counts : Counts) : List Char × Counts :=
  if safety.sanitizeEnabled then
    let s := OutputSanitizer.sanitize text
    (s.text,if 0 < s.removed then mergeCount "UNSAFE_OUTPUT" s.removed counts else counts)
  else (text,counts)

def cleanse (text : List Char) (counts : Counts) : List Char × Counts :=
  let r := safety.redacted text counts
  safety.sanitized r.1 r.2

end SafetyProperties

/-- What the gateway uses of its JSON library: the text and the number a value is read as, and the
writing and reading of whole texts. -/
structure Jackson where
  asText : Json → String
  asText_str : ∀ s, asText (.str s) = s
  asInt : Json → ℤ
  toString : Json → String
  readTree : String → Option Json

/-- `hasNonNull`. -/
def nonNull? (name : String) (j : Json) : Option Json := (j.get? name).filter (· ≠ .null)

section Egress
variable (J : Jackson) (safety : SafetyProperties)

/-- One member of an object is cleansed if it is there and not null. -/
def cleanseMember (name : String) (j : Json) (counts : Counts) : Json × Counts :=
  match nonNull? name j with
  | none => (j,counts)
  | some v =>
    let r := safety.cleanse (J.asText v).toList counts
    (j.put name (.str (String.ofList r.1)),r.2)

def cleanseCitations : List Json → Counts → List Json × Counts
  | [],counts => ([],counts)
  | c::rest,counts =>
    let r := cleanseMember J safety "snippet" c counts
    let s := cleanseCitations rest r.2
    (r.1::s.1,s.2)

/-- The snippets of the citations, if there is a list of them. -/
def cleanseSnippets (j : Json) (counts : Counts) : Json × Counts :=
  match j.get? "citations" with
  | some (.arr citations) =>
    let r := cleanseCitations J safety citations counts
    (j.put "citations" (.arr r.1),r.2)
  | some .null | some (.bool _) | some (.num _) | some (.str _) | some (.obj _) | none => (j,counts)

/-- A body that is no object has no members and stays as it is. -/
def applyEgressSafety (body : Json) : Json × Counts :=
  let r := cleanseMember J safety "answer" body []
  cleanseSnippets J safety r.1 r.2

end Egress

/-- What the sections of a response are built from. -/
structure Meta where
  modelTier : String
  model : Option String
  escalated : Bool
  cacheHit : Bool
  similarity : ℚ
  redactionCounts : Counts
  promptTokens : ℤ
  completionTokens : ℤ
  costUnits : ℚ
  latencyMs : ℚ

namespace Meta
variable (m : Meta)

def routing : Json := .obj [("modelTier",.str m.modelTier),
  ("model",(m.model.map Json.str).getD .null),("escalated",.bool m.escalated)]

def cache : Json :=
  .obj (("hit",.bool m.cacheHit)::if m.cacheHit then [("similarity",.num m.similarity)] else [])

def redaction : Json := .obj [("applied",.bool !m.redactionCounts.isEmpty),
  ("counts",.obj (m.redactionCounts.map fun c => (c.1,.num c.2)))]

def cost : Json := .obj [("promptTokens",.num m.promptTokens),
  ("completionTokens",.num m.completionTokens),("costUnits",.num m.costUnits),
  ("latencyMs",.num m.latencyMs)]

end Meta

/-- The sections of the envelope set on an object. -/
def withSections (body : Json) (m : Meta) : Json :=
  (((body.put "routing" m.routing).put "cache" m.cache).put "redaction" m.redaction).put "cost" m.cost

end AtlasCompliance.Gateway
