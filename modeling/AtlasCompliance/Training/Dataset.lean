import AtlasCompliance.Lib.Arranged
import AtlasCompliance.Lib.Rounding
import AtlasCompliance.Lib.Words
import AtlasCompliance.Python.Dict
import AtlasCompliance.Training.Citation

/-! The generated dataset: the pairs that a teacher and the refusal templates give for a corpus, the examples
made of them, and their split. -/
namespace AtlasCompliance.Training
open Python Regex Arranged

/-! ### The corpus -/

/-- What the generator reads of a document. -/
structure TrustedDoc where
  doc_id : String
  layer : ℤ
  text : String

/-- Documents by their ids. -/
structure Corpus where
  docs : List TrustedDoc
  distinct : (docs.map TrustedDoc.doc_id).Nodup

/-- A requested id that does not resolve. -/
inductive CorpusError
  | unknown (docId : String)
  deriving DecidableEq

def Corpus.resolve (corpus : Corpus) (docId : String) : Except CorpusError TrustedDoc :=
  match corpus.docs.find? fun doc => doc.doc_id = docId with
  | some doc => .ok doc
  | none => .error (.unknown docId)

/-! ### Pairs -/

structure SyntheticPair where
  question : String
  context : String
  answer : String
  label : String
  provenance_ref : String
  generator : String
  deriving DecidableEq

def CONTEXT_EXCERPT_CHARS : ℕ := 700

/-- `" ".join(text.split())`. -/
def squeezed (text : List Char) : List Char := List.intercalate [' '] (Words.words isSpace text)

def excerpt (text : List Char) : List Char :=
  let text := squeezed text
  if text.length ≤ CONTEXT_EXCERPT_CHARS then text
  else (text.take CONTEXT_EXCERPT_CHARS).rdropWhile isSpace ++ [' ','…']

/-- The excerpt of a document with its header. -/
def contextOf (doc : TrustedDoc) : String :=
  "[doc:" ++ doc.doc_id ++ "] " ++ String.ofList (excerpt doc.text.toList)

/-- `QA_GEN_PROMPT.format(…)`. -/
def qaGenPrompt (n : ℤ) (doc : TrustedDoc) : String :=
  "You are creating training data for Atlas, a financial/compliance assistant. Read the CONTEXT and write " ++
  toString n ++ " DIVERSE question/answer pairs.\nRules:\n" ++
  "- Each question must be answerable SOLELY from the CONTEXT.\n" ++
  "- Each answer is concise, factual, and ends with the citation [doc:" ++ doc.doc_id ++ "].\n" ++
  "- Vary the angle: specific figures, definitions, yes/no, short comparisons.\n" ++
  "Return ONLY a JSON array, no prose: [\x7b\"question\": \"...\", \"answer\": \"...\"\x7d, ...]\n\n" ++
  "CONTEXT:\n[doc:" ++ doc.doc_id ++ "] " ++ String.ofList (excerpt doc.text.toList) ++ "\n"

/-- `\[.*\]`, where `.` reads every character. -/
def JSON_ARRAY : Pattern Char :=
  .seq (.sat (· == '[')) (.seq (.star true (.sat fun _ => true)) (.sat (· == ']')))

/-- The text of the first match. -/
def firstMatch (r : Pattern Char) (text : List Char) : Option (List Char) :=
  (tokens r text).findSome? fun
    | .keep _ => none
    | .hit word _ => some word

/-- A question and an answer of the teacher. -/
structure QA where
  question : String
  answer : String

/-- What the generation leaves to others: the teacher, the decoder of its reply and the folding of
case. -/
structure Teacher where
  model_id : String
  reply : String → String
  loads : String → Option Json
  lower : String → String

section Generation
variable (T : Teacher)

/-- The question and the answer of an item that has both. -/
def qaOf (item : Json) : Option QA := do
  let question ← (item.get? "question").bind asString
  let answer ← (item.get? "answer").bind asString
  pure ⟨String.ofList (strip question.toList),String.ofList (strip answer.toList)⟩

/-- `parse_qa_array`. -/
def parseQaArray (text : String) : List QA :=
  match firstMatch JSON_ARRAY text.toList with
  | none => []
  | some array => match T.loads (String.ofList array) with
    | some (.arr items) => items.filterMap qaOf
    | some .null | some (.bool _) | some (.num _) | some (.str _) | some (.obj _) | none => []

/-- The key under which a question counts as seen. -/
def questionKey (question : String) : List Char := squeezed (T.lower question).toList

/-- The pairs of new questions with an answer that can be cited. -/
def collect (doc : TrustedDoc) (seen : List (List Char)) : List QA → List SyntheticPair
  | [] => []
  | qa::rest =>
    if qa.question = "" ∨ seen.contains (questionKey T qa.question) then collect doc seen rest
    else
      let answer := enforceCitation qa.answer.toList doc.doc_id.toList
      if answer.isEmpty then collect doc seen rest
      else ⟨qa.question,contextOf doc,String.ofList answer,"answer",doc.doc_id,T.model_id⟩::
        collect doc (questionKey T qa.question::seen) rest

/-- `xs[:n]`. -/
def sliceTo {α : Type} (n : ℤ) (xs : List α) : List α :=
  if 0 ≤ n then xs.take n.toNat else xs.take (xs.length - (-n).toNat)

def generateDocPairs (doc : TrustedDoc) (n : ℤ) : List SyntheticPair :=
  sliceTo n (collect T doc [] (parseQaArray T (T.reply (qaGenPrompt n doc))))

end Generation

/-- The templates, each as what stands before and behind the entity. -/
def OUT_OF_SCOPE : List (String × String) := [("What was ","'s net income last year?"),
  ("What is the current share price of ","?"),("Summarize ","'s litigation exposure."),
  ("What dividend did "," pay this quarter?")]

def OTHER_ENTITIES : List String := ["Tesla","Nvidia","JPMorgan","Shell","Pfizer","Boeing"]

/-- A template and an entity, as they are drawn. -/
abbrev Draw : Type := {t // t ∈ OUT_OF_SCOPE} × {e // e ∈ OTHER_ENTITIES}

def Draw.question (draw : Draw) : String := draw.1.val.1 ++ draw.2.val ++ draw.1.val.2

def refusalOf (doc : TrustedDoc) (draw : Draw) : SyntheticPair :=
  ⟨draw.question,contextOf doc,"I can't answer that from the provided sources: the context does not " ++
    "contain information about " ++ draw.2.val ++ ".","refusal",doc.doc_id,"templated"⟩

/-- The draws for a document, given its place in the corpus: those of the seeded generator follow one
another. -/
def drawsFor (draws : ℕ → Draw) (perDoc : ℤ) (place : ℕ) : List Draw :=
  (List.range perDoc.toNat).map fun j => draws (place*perDoc.toNat + j)

/-- `templated_refusals`. -/
def templatedRefusals (corpus : Corpus) (perDoc : ℤ) (draws : ℕ → Draw) : List SyntheticPair :=
  corpus.docs.zipIdx.flatMap fun doc => (drawsFor draws perDoc doc.2).map (refusalOf doc.1)

def buildGeneratedDataset (T : Teacher) (draws : ℕ → Draw) (corpus : Corpus)
    (answersPerDoc refusalsPerDoc : ℤ) : List SyntheticPair :=
  (corpus.docs.flatMap fun doc => generateDocPairs T doc answersPerDoc) ++
    templatedRefusals corpus refusalsPerDoc draws

/-! ### Examples and their split -/

structure SFTExample where
  messages : List (Dict String)
  label : String
  provenance_ref : String

/-- A label that no example has. -/
inductive BuildError
  | unknownLabel (label : String)
  deriving DecidableEq

def VALID_LABELS : List String := ["answer","refusal"]

/-- A turn of a chat. -/
def turn (role content : String) : Dict String := ⟨[("role",role),("content",content)],by simp⟩

/-- The example of a pair with a valid label. -/
def exampleOf (system : String) (pair : SyntheticPair) : SFTExample :=
  ⟨[turn "system" system,turn "user" (pair.question ++ "\n\n" ++ pair.context),
    turn "assistant" pair.answer],pair.label,pair.provenance_ref⟩

def toExample (system : String) (pair : SyntheticPair) : Except BuildError SFTExample :=
  if pair.label ∈ VALID_LABELS then .ok (exampleOf system pair) else .error (.unknownLabel pair.label)

/-- `_stable_key`, compared as a tuple. -/
def stableKey (pair : SyntheticPair) : String ×ₗ String := toLex (pair.provenance_ref,pair.question)

/-- The sizes of the two sides, first that of training. -/
def plannedSplit (n : ℕ) : ℕ × ℕ :=
  if n = 0 then (0,0)
  else
    let val := max 1 (Rounding.nearest (n/5)).toNat
    let val := if 1 < n then min val (n - 1) else 0
    (n - val,val)

def splitDataset (system : String) (shuffle : Shuffle) (pairs : List SyntheticPair) :
    Except BuildError (List SFTExample × List SFTExample) := do
  let ordered := shuffled shuffle (sortBy stableKey pairs)
  let (_,nVal) := plannedSplit ordered.length
  let train ← (ordered.drop nVal).mapM (toExample system)
  let val ← (ordered.take nVal).mapM (toExample system)
  pure (train,val)

end AtlasCompliance.Training
