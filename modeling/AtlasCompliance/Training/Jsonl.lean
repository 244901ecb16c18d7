import AtlasCompliance.Python.Dumps
import AtlasCompliance.Python.JsonModule
import AtlasCompliance.Training.Dataset

/-! The dataset files: one record a line, written by `write_jsonl` and read back by `read_jsonl`. -/
namespace AtlasCompliance.Training
open Python JsonText

/-- How reading a record can fail; `notText` where a field is no text, which the dataclass would keep. -/
inductive ReadError where
  | decode
  | typeError
  | keyError (name : String)
  | notText
  deriving DecidableEq

section Files
variable {α : Type} (number : List Char → Option ℚ) (write : ℚ → List Char)

/-- A line for each record. -/
def writeJsonl (toDict : α → Json) (records : List α) : List Char :=
  records.flatMap fun a => dumps write (toDict a) ++ ['\n']

def readLine (fromDict : Json → Except ReadError α) (line : List Char) : Except ReadError α :=
  match loads number line with
  | none => .error .decode
  | some raw => fromDict raw

/-- The records of the lines that are not blank. -/
def readJsonl (fromDict : Json → Except ReadError α) (file : List Char) : Except ReadError (List α) :=
  (((splitlines (universalNewlines file)).map strip).filter (· ≠ [])).mapM (readLine number fromDict)

end Files

/-! ### Records -/

/-- The text of a member. -/
def textMember (raw : Json) (missing : ReadError) (name : String) : Except ReadError String :=
  match raw.get? name with
  | some (.str s) => .ok s
  | some (.null) | some (.bool _) | some (.num _) | some (.arr _) | some (.obj _) => .error .notText
  | none => .error missing

namespace SyntheticPair

def fieldNames : List String :=
  ["question","context","answer","label","provenance_ref","generator"]

/-- `asdict`. -/
def toDict (p : SyntheticPair) : Json :=
  .obj [("question",.str p.question),("context",.str p.context),("answer",.str p.answer),
    ("label",.str p.label),("provenance_ref",.str p.provenance_ref),("generator",.str p.generator)]

/-- `SyntheticPair(**raw)`. -/
def ofKwargs (raw : Json) : Except ReadError SyntheticPair :=
  match raw with
  | .obj members =>
    if members.all fun m => m.1 ∈ fieldNames then do
      let question ← textMember raw .typeError "question"
      let context ← textMember raw .typeError "context"
      let answer ← textMember raw .typeError "answer"
      let label ← textMember raw .typeError "label"
      let provenance_ref ← textMember raw .typeError "provenance_ref"
      let generator ← textMember raw .typeError "generator"
      return ⟨question,context,answer,label,provenance_ref,generator⟩
    else .error .typeError
  | .null | .bool _ | .num _ | .str _ | .arr _ => .error .typeError

/-- The texts of a pair. -/
def texts (p : SyntheticPair) : List String :=
  [p.question,p.context,p.answer,p.label,p.provenance_ref,p.generator]

theorem ofKwargs_toDict (p : SyntheticPair) : ofKwargs p.toDict = .ok p := by
  simp [ofKwargs,toDict,fieldNames,textMember,Json.get?,List.lookup,bind,Except.bind,pure,Except.pure]

end SyntheticPair

/-- A turn of the messages as a dictionary. -/
def turnDict (m : Dict String) : Json := .obj (m.items.map fun item => (item.1,.str item.2))

/-- `dict(m)` for an object with texts. -/
def readTurn (raw : Json) : Except ReadError (Dict String) :=
  match raw with
  | .obj members => do
    let items ← members.mapM fun m => match m.2 with
      | .str s => .ok (m.1,s)
      | .null | .bool _ | .num _ | .arr _ | .obj _ => .error .notText
    -- the names of an object that was read are distinct
    if h : (items.map Prod.fst).Nodup then .ok ⟨items,h⟩ else .error .typeError
  | .null | .bool _ | .num _ | .str _ | .arr _ => .error .typeError

theorem readTurn_turnDict (m : Dict String) : readTurn (turnDict m) = .ok m := by
  have hitems : (m.items.map fun item => (item.1,Json.str item.2)).mapM (fun m => match m.2 with
      | .str s => (.ok (m.1,s) : Except ReadError (String × String))
      | .null | .bool _ | .num _ | .arr _ | .obj _ => .error .notText) = .ok m.items := by
    induction m.items with
    | nil => rfl
    | cons item items ih =>
      simp only [List.map_cons,List.mapM_cons,ih]
      rfl
  simp only [readTurn,turnDict,hitems,bind,Except.bind,dif_pos m.distinct]

namespace SFTExample

def toDict (e : SFTExample) : Json :=
  .obj [("messages",.arr (e.messages.map turnDict)),("label",.str e.label),
    ("provenance_ref",.str e.provenance_ref)]

def fromDict (raw : Json) : Except ReadError SFTExample :=
  match raw with
  | .obj _ => do
    let messages ← match raw.get? "messages" with
      | some (.arr turns) => turns.mapM readTurn
      | some .null | some (.bool _) | some (.num _) | some (.str _) | some (.obj _) => .error .typeError
      | none => .error (.keyError "messages")
    let label ← textMember raw (.keyError "label") "label"
    let provenance_ref ← textMember raw (.keyError "provenance_ref") "provenance_ref"
    return ⟨messages,label,provenance_ref⟩
  | .null | .bool _ | .num _ | .str _ | .arr _ => .error .typeError

/-- The texts of an example, with the names of its turns' members. -/
def texts (e : SFTExample) : List String :=
  (e.messages.flatMap fun m => m.items.flatMap fun item => [item.1,item.2]) ++
    [e.label,e.provenance_ref]

theorem fromDict_toDict (e : SFTExample) : fromDict e.toDict = .ok e := by
  have hturns : (e.messages.map turnDict).mapM readTurn = .ok e.messages := by
    induction e.messages with
    | nil => rfl
    | cons m messages ih =>
      simp only [List.map_cons,List.mapM_cons,readTurn_turnDict,ih]
      rfl
  simp [fromDict,toDict,textMember,Json.get?,List.lookup,hturns,bind,Except.bind,pure,Except.pure]

end SFTExample

/-! ### What is written -/

section Records
variable {number : List Char → Option ℚ} {write : ℚ → List Char}

theorem SyntheticPair.written (p : SyntheticPair) : Written number write p.toDict := by
  refine written_obj (by simp) fun m hm => ?_
  simp only [List.mem_cons,List.not_mem_nil,or_false] at hm
  obtain rfl | rfl | rfl | rfl | rfl | rfl := hm <;> exact written_str _

theorem written_turnDict (m : Dict String) : Written number write (turnDict m) := by
  refine written_obj (by simpa [Function.comp_def] using m.distinct) fun item hitem => ?_
  obtain ⟨item,-,rfl⟩ := List.mem_map.mp hitem
  exact written_str item.2

theorem SFTExample.written (e : SFTExample) : Written number write e.toDict := by
  refine written_obj (by simp) fun m hm => ?_
  simp only [List.mem_cons,List.not_mem_nil,or_false] at hm
  obtain rfl | rfl | rfl := hm
  · refine written_arr fun turn hturn => ?_
    obtain ⟨m,-,rfl⟩ := List.mem_map.mp hturn
    exact written_turnDict m
  · exact written_str _
  · exact written_str _

end Records

/-! ### Files that are read back -/

section RoundTrip
variable {α : Type} {number : List Char → Option ℚ} {write : ℚ → List Char} {toDict : α → Json}
  {fromDict : Json → Except ReadError α}

/-- A record with its line: an object, written without control characters and rebuilt from it. -/
structure Kept (number : List Char → Option ℚ) (write : ℚ → List Char) (toDict : α → Json)
    (fromDict : Json → Except ReadError α) (a : α) : Prop where
  written : Written number write (toDict a)
  ends : ∃ r, dumps write (toDict a) = '{'::(r ++ ['}'])
  rebuilt : fromDict (toDict a) = .ok a

theorem carriageReturn_not_mem (hwritten : ∀ a, Written number write (toDict a)) (records : List α) :
    '\r' ∉ writeJsonl write toDict records := by
  intro hmem
  obtain ⟨a,-,hmem⟩ := List.mem_flatMap.mp hmem
  obtain hmem | hmem := List.mem_append.mp hmem
  · exact absurd ((hwritten a).2 _ hmem) (by decide)
  · exact absurd (List.mem_singleton.mp hmem) (by decide)

/-- The lines of a file as `read_jsonl` goes through them. -/
def readLines (number : List Char → Option ℚ) (fromDict : Json → Except ReadError α)
    (lines : List (List Char)) : Except ReadError (List α) :=
  ((lines.map strip).filter (· ≠ [])).mapM (readLine number fromDict)

theorem readLines_cons {line : List Char} (hne : strip line ≠ []) (lines : List (List Char)) :
    readLines number fromDict (line::lines) = (do
      let a ← readLine number fromDict (strip line)
      let as ← readLines number fromDict lines
      return a::as) := by
  rw [readLines,List.map_cons,List.filter_cons_of_pos (by simpa using hne),List.mapM_cons]
  rfl

/-- What begins with a brace is no blank line. -/
theorem strip_ne_nil (r : List Char) : strip ('{'::r) ≠ [] := by
  intro hnil
  obtain ⟨w,w',htext,hw,hw'⟩ := strip_parts ('{'::r)
  rw [hnil,List.nil_append] at htext
  have hmem : '{' ∈ w ++ w' := htext ▸ List.mem_cons_self
  have hspace : isSpace '{' = true := (List.mem_append.mp hmem).elim (hw _) (hw' _)
  exact absurd hspace (by decide)

/-- A record is read back from its line exactly when no break beyond ASCII cuts it. -/
theorem readLines_record {a : α} (ha : Kept number write toDict fromDict a) (rest : List Char)
    (as : List α) :
    readLines number fromDict (splitlines (dumps write (toDict a) ++ '\n'::rest)) = .ok (a::as) ↔
      (∀ c, isWideBreak c = true → ¬Mentions c (toDict a)) ∧
        readLines number fromDict (splitlines rest) = .ok as := by
  obtain ⟨r,hr⟩ := ha.ends
  have hspells := ha.written.1
  obtain hun | ⟨x,c,y,htext,hx,hc⟩ := unbroken_or (dumps write (toDict a))
  · have hclean : ∀ c, isWideBreak c = true → ¬Mentions c (toDict a) := by
      intro c hc hmentions
      have hfree := hun c (mem_dumps (le_of_isWideBreak hc) hmentions)
      rw [isLineBreak_of_wide hc] at hfree
      cases hfree
    have hlines : splitlines (dumps write (toDict a) ++ '\n'::rest) =
        dumps write (toDict a)::splitlines rest := splitlines_cons hun (by decide) rest
    have hstrip : strip (dumps write (toDict a)) = dumps write (toDict a) := by
      have hbetween := @strip_of_ends [] [] r '{' '}' (by simp) (by simp) (by decide) (by decide)
      rwa [List.nil_append,List.append_nil,← hr] at hbetween
    have hloads := loads_text hspells
    have hread : readLine number fromDict (dumps write (toDict a)) = .ok a := by
      rw [readLine,hloads]
      exact ha.rebuilt
    have hne : strip (dumps write (toDict a)) ≠ [] := by
      rw [hr]
      exact strip_ne_nil _
    rw [hlines,readLines_cons hne,hstrip,hread]
    cases hrest : readLines number fromDict (splitlines rest) with
    | error e => simp [bind,Except.bind]
    | ok bs => simpa [bind,Except.bind,pure,Except.pure] using fun _ => hclean
  · have hmem : c ∈ dumps write (toDict a) := by simp [htext]
    have hwide := wide_of_isLineBreak hc (ha.written.2 c hmem)
    have hmentions := hspells.mentions_of_wide hmem (le_of_isWideBreak hwide)
    refine iff_of_false ?_ fun hclean => hclean.1 c hwide hmentions
    -- the line ends inside of a string, so that its reading raises
    have hline : dumps write (toDict a) ++ '\n'::rest = x ++ c::(y ++ '\n'::rest) := by
      rw [htext]
      simp
    have hclosed := hspells.closed
    rw [htext] at hclosed
    have hnone := @loads_strip_eq_none number x y c _ (le_of_isWideBreak hwide) hclosed
    have hne : strip x ≠ [] := by
      cases x with
      | nil =>
        rw [hr] at htext
        obtain rfl : '{' = c := (List.cons.inj htext).1
        exact absurd hc (by decide)
      | cons d x =>
        rw [hr] at htext
        obtain rfl : '{' = d := (List.cons.inj htext).1
        exact strip_ne_nil x
    rw [hline,splitlines_cons hx hc,readLines_cons hne,readLine,hnone]
    simp [bind,Except.bind]

/-- The records are read back exactly when none of their strings has such a break. -/
theorem readJsonl_writeJsonl_iff (hkept : ∀ a, Kept number write toDict fromDict a) (records : List α) :
    readJsonl number fromDict (writeJsonl write toDict records) = .ok records ↔
      ∀ a ∈ records, ∀ c, isWideBreak c = true → ¬Mentions c (toDict a) := by
  have hfile := universalNewlines_eq
    (carriageReturn_not_mem (fun a => (hkept a).written) records)
  have hlines : readJsonl number fromDict (writeJsonl write toDict records) =
      readLines number fromDict (splitlines (writeJsonl write toDict records)) := by
    rw [readJsonl,hfile]
    rfl
  rw [hlines]
  clear hfile hlines
  induction records with
  | nil => exact iff_of_true rfl (by simp)
  | cons a as ih =>
    have hparts : writeJsonl write toDict (a::as) =
        dumps write (toDict a) ++ '\n'::writeJsonl write toDict as := by
      simp [writeJsonl]
    rw [hparts,readLines_record (hkept a)]
    refine (and_congr_right fun _ => ih).trans ?_
    simp only [List.forall_mem_cons]

end RoundTrip

/-! ### The two files -/

section Datasets
variable (number : List Char → Option ℚ) (write : ℚ → List Char)

def SyntheticPair.writeJsonl (pairs : List SyntheticPair) : List Char :=
  Training.writeJsonl write SyntheticPair.toDict pairs

def SyntheticPair.readJsonl (file : List Char) : Except ReadError (List SyntheticPair) :=
  Training.readJsonl number SyntheticPair.ofKwargs file

def SFTExample.writeJsonl (examples : List SFTExample) : List Char :=
  Training.writeJsonl write SFTExample.toDict examples

def SFTExample.readJsonl (file : List Char) : Except ReadError (List SFTExample) :=
  Training.readJsonl number SFTExample.fromDict file

end Datasets

/-- None of the breaks U+0085, U+2028 and U+2029. -/
def NoWideBreak (s : String) : Prop := ∀ c ∈ s.toList, isWideBreak c = false

theorem noWideBreak_iff {s : String} :
    NoWideBreak s ↔ ∀ c, isWideBreak c = true → c ∉ s.toList := by
  constructor
  · intro h c hc hmem
    rw [h c hmem] at hc
    cases hc
  · intro h c hmem
    rw [Bool.eq_false_iff]
    exact fun hc => h c hc hmem

theorem mentions_str_iff {c : Char} {s : String} : Mentions c (.str s) ↔ c ∈ s.toList := by
  constructor
  · rintro (h | _ | _ | _)
    exact h
  · exact .str

theorem mentions_obj_iff {c : Char} {ms : List (String × Json)} :
    Mentions c (.obj ms) ↔ ∃ m ∈ ms, c ∈ m.1.toList ∨ Mentions c m.2 := by
  constructor
  · intro h
    cases h with
    | name hm h => exact ⟨_,hm,Or.inl h⟩
    | member hm h => exact ⟨_,hm,Or.inr h⟩
  · rintro ⟨m,hm,h | h⟩
    · exact .name hm h
    · exact .member hm h

theorem mentions_arr_iff {c : Char} {es : List Json} :
    Mentions c (.arr es) ↔ ∃ e ∈ es, Mentions c e := by
  constructor
  · intro h
    cases h with
    | elem he h => exact ⟨_,he,h⟩
  · rintro ⟨e,he,h⟩
    exact .elem he h

/-- The names of the members are ASCII. -/
theorem not_mem_fieldName {c : Char} (hc : isWideBreak c = true) {name : String}
    (hname : name ∈ "messages"::SyntheticPair.fieldNames) : c ∉ name.toList := by
  have hascii : ∀ name ∈ "messages"::SyntheticPair.fieldNames,
      name.toList.all (fun c => !isWideBreak c) = true := by decide +kernel
  intro hmem
  have hnarrow := List.all_eq_true.mp (hascii name hname) c hmem
  simp [hc] at hnarrow

theorem SyntheticPair.clean_iff (p : SyntheticPair) :
    (∀ c, isWideBreak c = true → ¬Mentions c p.toDict) ↔ ∀ s ∈ p.texts, NoWideBreak s := by
  simp only [noWideBreak_iff]
  constructor
  · intro h s hs c hc hmem
    refine h c hc (mentions_obj_iff.mpr ?_)
    simp only [SyntheticPair.texts,List.mem_cons,List.not_mem_nil,or_false] at hs
    have hvalue := mentions_str_iff.mpr hmem
    obtain rfl | rfl | rfl | rfl | rfl | rfl := hs
    · exact ⟨("question",.str p.question),by simp,Or.inr hvalue⟩
    · exact ⟨("context",.str p.context),by simp,Or.inr hvalue⟩
    · exact ⟨("answer",.str p.answer),by simp,Or.inr hvalue⟩
    · exact ⟨("label",.str p.label),by simp,Or.inr hvalue⟩
    · exact ⟨("provenance_ref",.str p.provenance_ref),by simp,Or.inr hvalue⟩
    · exact ⟨("generator",.str p.generator),by simp,Or.inr hvalue⟩
  · intro h c hc hmentions
    obtain ⟨m,hm,hname | hvalue⟩ := mentions_obj_iff.mp hmentions
    · refine not_mem_fieldName hc ?_ hname
      simp only [List.mem_cons,List.not_mem_nil,or_false] at hm
      obtain rfl | rfl | rfl | rfl | rfl | rfl := hm <;> simp [SyntheticPair.fieldNames]
    · simp only [List.mem_cons,List.not_mem_nil,or_false] at hm
      obtain rfl | rfl | rfl | rfl | rfl | rfl := hm <;>
        exact h _ (by simp [SyntheticPair.texts]) c hc (mentions_str_iff.mp hvalue)

theorem mentions_turnDict_iff {c : Char} {m : Dict String} :
    Mentions c (turnDict m) ↔ ∃ s ∈ m.items.flatMap fun item => [item.1,item.2], c ∈ s.toList := by
  rw [turnDict,mentions_obj_iff]
  constructor
  · rintro ⟨_,hmem,h⟩
    obtain ⟨item,hitem,rfl⟩ := List.mem_map.mp hmem
    obtain h | h := h
    · exact ⟨item.1,List.mem_flatMap.mpr ⟨item,hitem,by simp⟩,h⟩
    · exact ⟨item.2,List.mem_flatMap.mpr ⟨item,hitem,by simp⟩,mentions_str_iff.mp h⟩
  · rintro ⟨s,hs,hc⟩
    obtain ⟨item,hitem,hs⟩ := List.mem_flatMap.mp hs
    simp only [List.mem_cons,List.not_mem_nil,or_false] at hs
    refine ⟨_,List.mem_map.mpr ⟨item,hitem,rfl⟩,?_⟩
    obtain rfl | rfl := hs
    · exact Or.inl hc
    · exact Or.inr (mentions_str_iff.mpr hc)

theorem SFTExample.clean_iff (e : SFTExample) :
    (∀ c, isWideBreak c = true → ¬Mentions c e.toDict) ↔ ∀ s ∈ e.texts, NoWideBreak s := by
  simp only [noWideBreak_iff]
  constructor
  · intro h s hs c hc hmem
    refine h c hc (mentions_obj_iff.mpr ?_)
    simp only [SFTExample.texts,List.mem_append,List.mem_cons,List.not_mem_nil,or_false] at hs
    obtain hs | rfl | rfl := hs
    · obtain ⟨m,hm,hs⟩ := List.mem_flatMap.mp hs
      refine ⟨("messages",.arr (e.messages.map turnDict)),by simp,Or.inr (mentions_arr_iff.mpr ?_)⟩
      exact ⟨turnDict m,List.mem_map.mpr ⟨m,hm,rfl⟩,mentions_turnDict_iff.mpr ⟨s,hs,hmem⟩⟩
    · exact ⟨("label",.str e.label),by simp,Or.inr (mentions_str_iff.mpr hmem)⟩
    · exact ⟨("provenance_ref",.str e.provenance_ref),by simp,Or.inr (mentions_str_iff.mpr hmem)⟩
  · intro h c hc hmentions
    obtain ⟨m,hm,hname | hvalue⟩ := mentions_obj_iff.mp hmentions
    · refine not_mem_fieldName hc ?_ hname
      simp only [List.mem_cons,List.not_mem_nil,or_false] at hm
      obtain rfl | rfl | rfl := hm <;> simp [SyntheticPair.fieldNames]
    · simp only [List.mem_cons,List.not_mem_nil,or_false] at hm
      obtain rfl | rfl | rfl := hm
      · obtain ⟨raw,hraw,hvalue⟩ := mentions_arr_iff.mp hvalue
        obtain ⟨turn,hturn,rfl⟩ := List.mem_map.mp hraw
        obtain ⟨s,hs,hmem⟩ := mentions_turnDict_iff.mp hvalue
        refine h s ?_ c hc hmem
        exact List.mem_append_left _ (List.mem_flatMap.mpr ⟨turn,hturn,hs⟩)
      · exact h _ (by simp [SFTExample.texts]) c hc (mentions_str_iff.mp hvalue)
      · exact h _ (by simp [SFTExample.texts]) c hc (mentions_str_iff.mp hvalue)

section RoundTrips
variable (number : List Char → Option ℚ) (write : ℚ → List Char)

theorem SyntheticPair.kept (p : SyntheticPair) :
    Kept number write SyntheticPair.toDict SyntheticPair.ofKwargs p := by
  have hwritten : Written number write p.toDict := p.written
  exact ⟨hwritten,hwritten.1.obj_ends,p.ofKwargs_toDict⟩

theorem SFTExample.kept (e : SFTExample) :
    Kept number write SFTExample.toDict SFTExample.fromDict e := by
  have hwritten : Written number write e.toDict := e.written
  exact ⟨hwritten,hwritten.1.obj_ends,e.fromDict_toDict⟩

/-- Both files are read back as the records that were written exactly when no text of a record has one
of the breaks U+0085, U+2028 and U+2029. -/
theorem jsonl_round_trip_iff (pairs : List SyntheticPair) (examples : List SFTExample) :
    (SyntheticPair.readJsonl number (SyntheticPair.writeJsonl write pairs) = .ok pairs ↔
      ∀ p ∈ pairs, ∀ s ∈ p.texts, NoWideBreak s) ∧
    (SFTExample.readJsonl number (SFTExample.writeJsonl write examples) = .ok examples ↔
      ∀ e ∈ examples, ∀ s ∈ e.texts, NoWideBreak s) := by
  constructor
  · refine (readJsonl_writeJsonl_iff (fun p => p.kept number write) pairs).trans ?_
    exact forall_congr' fun p => forall_congr' fun _ => p.clean_iff
  · refine (readJsonl_writeJsonl_iff (fun e => e.kept number write) examples).trans ?_
    exact forall_congr' fun e => forall_congr' fun _ => e.clean_iff

end RoundTrips

/-- A pair whose answer holds a line separator. -/
def separatedPair : SyntheticPair :=
  ⟨"Which filing?","[doc:a] Two filings.","The first.\u2028[doc:a]","answer","a","hand-authored"⟩

theorem jsonl_no_round_trip : ¬∀ (number : List Char → Option ℚ) (write : ℚ → List Char)
    (pairs : List SyntheticPair),
    SyntheticPair.readJsonl number (SyntheticPair.writeJsonl write pairs) = .ok pairs := by
  intro hall
  have hclean := (readJsonl_writeJsonl_iff (fun p => p.kept (fun _ => none) fun _ => [])
    [separatedPair]).mp (hall (fun _ => none) (fun _ => []) [separatedPair])
  have htexts := separatedPair.clean_iff.mp (hclean separatedPair (List.mem_singleton_self _))
  have hanswer := htexts separatedPair.answer (by simp [SyntheticPair.texts])
  have hbreak := hanswer (Char.ofNat 0x2028) (by decide +kernel)
  exact absurd hbreak (by decide)

end AtlasCompliance.Training
