import AtlasCompliance.Lib.Recording
import AtlasCompliance.Python.Indented
import AtlasCompliance.Python.Numerals

/-! Cassettes: the answers to the harness's queries, kept in files under a hash of the inputs and
replayed from there. The hash leaves out the user of a query. -/
namespace AtlasCompliance.Evals
open Python JsonText Recording

/-- The policy of a store. -/
inductive CassetteMode where
  | OFF
  | RECORD
  | REPLAY
  | FILL
  deriving DecidableEq

/-- What a call can raise. -/
inductive CassetteError where
  | miss (message : String)
  | decode
  | keyError
  | typeError
  deriving DecidableEq

/-- The parameters of a query. -/
structure Query where
  question : String
  clearance : String
  user : Option String
  top_k : Option ℤ
  include_contexts : Bool
  deriving DecidableEq

/-- What a call meets: the files of the directory by their names, and the calls that went to the
backend. -/
structure World where
  files : String → Option (List Char)
  live : List Query

/-- A client with its store; the backend, the digest and how floats are read and written are others'. -/
structure CassettingClient where
  directory : String
  fingerprint : String
  /-- The first 32 hexadecimal digits of the SHA-256 of a text. -/
  digest : List Char → String
  float : ℚ → List Char
  number : List Char → Option ℚ
  backend : Query → Json

namespace CassettingClient
variable (C : CassettingClient)

/-- The numeral of a number: a whole one is an `int`. -/
def write (q : ℚ) : List Char := if q.den = 1 then intText q.num else C.float q

def cassetteKey (parts : List Json) : String := C.digest (dumps C.write (.arr parts))

/-- What the key of a query is made of. -/
def keyParts (c : Query) : List Json :=
  [.str "v1/query",.str C.fingerprint,.str c.question,.str c.clearance,
    match c.top_k with
    | some k => .num k
    | none => .null,
    .bool c.include_contexts]

/-- `_path`, within the directory. -/
def path (key : String) : String := key ++ ".json"

def missText (key : String) : String :=
  "cassette miss for key " ++ key ++ " in " ++ C.directory ++
    " — re-record cassettes (prompt/model/corpus changed?)"

def get (w : World) (key : String) : Except CassetteError Json :=
  match w.files (path key) with
  | none => .error (.miss (C.missText key))
  | some text => match loads C.number text with
    | none => .error .decode
    | some (.obj members) => match members.lookup "response" with
      | some response => .ok response
      | none => .error .keyError
    | some .null | some (.bool _) | some (.num _) | some (.str _) | some (.arr _) => .error .typeError

/-- The document of a cassette; no metadata counts as an empty dictionary. -/
def cassette (response : Json) (info : List (String × Json)) : Json :=
  .obj [("meta",.obj info),("response",response)]

def put (w : World) (key : String) (response : Json) (info : List (String × Json)) : World :=
  let text := dumpsIndent C.write 0 (cassette response info)
  {w with files := Function.update w.files (path key) (some text)}

/-- `record_or_replay`, with a `produce` that may change what it meets. -/
def recordOrReplay (mode : CassetteMode) (key : String) (produce : World → Json × World)
    (info : List (String × Json)) (w : World) : Except CassetteError Json × World :=
  let record : Except CassetteError Json × World :=
    let (response,w) := produce w
    (.ok response,C.put w key response info)
  match mode with
  | .REPLAY => (C.get w key,w)
  | .OFF =>
    let (response,w) := produce w
    (.ok response,w)
  | .FILL => if (w.files (path key)).isSome then (C.get w key,w) else record
  | .RECORD => record

/-- The backend answers, which is noted. -/
def live (c : Query) (w : World) : Json × World := (C.backend c,{w with live := w.live ++ [c]})

def infoOf (c : Query) : List (String × Json) :=
  [("question",.str c.question),("clearance",.str c.clearance)]

def query (mode : CassetteMode) (c : Query) (w : World) : Except CassetteError Json × World :=
  C.recordOrReplay mode (C.cassetteKey (C.keyParts c)) (C.live c) (infoOf c) w

/-- What is left after calls in a row, from an empty directory. -/
def afterwards (calls : List (CassetteMode × Query)) : World :=
  calls.foldl (fun w call => (C.query call.1 call.2 w).2) ⟨fun _ => none,[]⟩

/-! ### The keys -/

variable {C : CassettingClient}

theorem write_int (k : ℤ) : C.write k = intText k := by simp [write]

/-- The parts of a key are read back from its text. -/
theorem loads_keyParts (c : Query) :
    loads (fun t => some (intValue t)) (dumps C.write (.arr (C.keyParts c))) = some (.arr (C.keyParts c)) := by
  have hwritten : Written (fun t => some (intValue t)) C.write (.arr (C.keyParts c)) := by
    refine written_arr fun e he => ?_
    simp only [keyParts,List.mem_cons,List.not_mem_nil,or_false] at he
    obtain rfl | rfl | rfl | rfl | rfl | rfl := he
    · exact written_str _
    · exact written_str _
    · exact written_str _
    · exact written_str _
    · cases c.top_k with
      | none => exact written_null
      | some k =>
        refine written_num ?_ ?_
        · rw [write_int]
          exact numeral_intText k
        · rw [write_int,intValue_intText]
    · exact written_bool _
  exact loads_text hwritten.1

/-- The key a query is recorded under. -/
def keyOf (C : CassettingClient) (c : Query) : String := C.cassetteKey (C.keyParts c)

/-- Two queries have one key exactly where they differ in their user at most. -/
theorem keyOf_eq_iff (hdigest : Function.Injective C.digest) {c c' : Query} :
    C.keyOf c = C.keyOf c' ↔ {c with user := none} = {c' with user := none} := by
  constructor
  · intro h
    have htext : dumps C.write (.arr (C.keyParts c)) = dumps C.write (.arr (C.keyParts c')) := hdigest h
    have hread := loads_keyParts (C := C) c
    rw [htext,loads_keyParts,Option.some_inj,Json.arr.injEq] at hread
    obtain ⟨question,clearance,user,top_k,include_contexts⟩ := c
    obtain ⟨question',clearance',user',top_k',include_contexts'⟩ := c'
    cases top_k <;> cases top_k' <;> simp_all [keyParts]
  · intro h
    obtain ⟨question,clearance,user,top_k,include_contexts⟩ := c
    obtain ⟨question',clearance',user',top_k',include_contexts'⟩ := c'
    cases h
    rfl

/-! ### What the files hold -/

/-- The text of the cassette of a query. -/
def textOf (C : CassettingClient) (c : Query) : List Char :=
  dumpsIndent C.write 0 (cassette (C.backend c) (infoOf c))

theorem path_injective : Function.Injective path := by
  intro k k' h
  simpa [path] using h

/-- A cassette is read back. -/
theorem get_of_file {w : World} {key : String} {c : Query} (hc : Readable C.number C.write (C.backend c))
    (hfile : w.files (path key) = some (C.textOf c)) : C.get w key = .ok (C.backend c) := by
  have hinfo : Readable C.number C.write (.obj (infoOf c)) := by
    refine .obj (by simp [infoOf]) fun m hm => ?_
    simp only [infoOf,List.mem_cons,List.not_mem_nil,or_false] at hm
    obtain rfl | rfl := hm
    · exact .str _
    · exact .str _
  have hcassette : Readable C.number C.write (cassette (C.backend c) (infoOf c)) := by
    refine .obj (by simp) fun m hm => ?_
    simp only [List.mem_cons,List.not_mem_nil,or_false] at hm
    obtain rfl | rfl := hm
    · exact hinfo
    · exact hc
  rw [get,hfile]
  simp only [textOf,loads_dumpsIndent hcassette]
  rfl

theorem get_of_missing {w : World} {key : String} (hfile : w.files (path key) = none) :
    C.get w key = .error (.miss (C.missText key)) := by rw [get,hfile]

/-- A call leaves the cassette of its query, unless it fills and there is one. -/
theorem query_files {mode : CassetteMode} (hmode : mode = .RECORD ∨ mode = .FILL) (c : Query) (w : World)
    (key : String) : (C.query mode c w).2.files (path key) =
      if C.keyOf c = key then
        if mode = .RECORD then some (C.textOf c) else (w.files (path key)).or (some (C.textOf c))
      else w.files (path key) := by
  have hput : (C.put (C.live c w).2 (C.keyOf c) (C.live c w).1 (infoOf c)).files (path key) =
      if C.keyOf c = key then some (C.textOf c) else w.files (path key) := by
    by_cases hkey : C.keyOf c = key
    · subst hkey
      simp [put,live,textOf]
    · have hpath : path key ≠ path (C.keyOf c) := fun h => hkey (path_injective h).symm
      simp [put,live,hkey,hpath]
  obtain rfl | rfl := hmode
  · exact hput
  · by_cases hfile : (w.files (path (C.keyOf c))).isSome
    · have hquery : (C.query .FILL c w).2 = w := by
        simp only [query,recordOrReplay]
        rw [← keyOf,if_pos hfile]
      rw [hquery]
      by_cases hkey : C.keyOf c = key
      · subst hkey
        obtain ⟨text,htext⟩ := Option.isSome_iff_exists.mp hfile
        simp [htext]
      · simp [hkey]
    · have hquery : (C.query .FILL c w).2 =
          C.put (C.live c w).2 (C.keyOf c) (C.live c w).1 (infoOf c) := by
        simp only [query,recordOrReplay]
        rw [← keyOf,if_neg hfile]
      rw [hquery,hput]
      by_cases hkey : C.keyOf c = key
      · subst hkey
        simp [Option.not_isSome_iff_eq_none.mp hfile]
      · simp [hkey]

/-- The recorded queries with whether they overwrite. -/
def recordings (calls : List (CassetteMode × Query)) : List (Bool × Query) :=
  calls.map fun call => (decide (call.1 = .RECORD),call.2)

theorem map_snd_recordings (calls : List (CassetteMode × Query)) :
    (recordings calls).map Prod.snd = calls.map Prod.snd := by
  simp [recordings,Function.comp_def]

/-- After the calls a key has the cassette of the query that is kept under it. -/
theorem files_afterwards {calls : List (CassetteMode × Query)}
    (hmodes : ∀ call ∈ calls, call.1 = .RECORD ∨ call.1 = .FILL) (key : String) :
    (C.afterwards calls).files (path key) = (kept C.keyOf key (recordings calls)).map C.textOf := by
  induction calls using List.reverseRecOn with
  | nil => rfl
  | append_singleton calls call ih =>
    have hcalls := ih fun c hc => hmodes c (List.mem_append_left _ hc)
    have hmode := hmodes call (List.mem_append_right _ (List.mem_singleton_self _))
    have hrecordings : recordings (calls ++ [call]) =
        recordings calls ++ [(decide (call.1 = .RECORD),call.2)] := List.map_append
    have hlast : C.afterwards (calls ++ [call]) = (C.query call.1 call.2 (C.afterwards calls)).2 := by
      simp [afterwards]
    rw [hlast,query_files hmode,hcalls,hrecordings,kept_append]
    split_ifs with hkey hrecord
    · simp [keep,hrecord]
    · cases hkept : kept C.keyOf key (recordings calls) with
      | none => simp [keep,hrecord]
      | some c => simp [keep,hrecord]
    · rfl

/-- A replay gives the answer to the query that is kept under its key, and leaves everything as it is. -/
theorem replay_afterwards (hbackend : ∀ c, Readable C.number C.write (C.backend c))
    {calls : List (CassetteMode × Query)} (hmodes : ∀ call ∈ calls, call.1 = .RECORD ∨ call.1 = .FILL)
    (c : Query) : (∀ c', kept C.keyOf (C.keyOf c) (recordings calls) = some c' →
        C.query .REPLAY c (C.afterwards calls) = (.ok (C.backend c'),C.afterwards calls)) ∧
      (kept C.keyOf (C.keyOf c) (recordings calls) = none →
        C.query .REPLAY c (C.afterwards calls) =
          (.error (.miss (C.missText (C.keyOf c))),C.afterwards calls)) := by
  have hfiles := files_afterwards (C := C) hmodes (C.keyOf c)
  refine ⟨fun c' hc' => ?_,fun hnone => ?_⟩
  · rw [hc',Option.map_some] at hfiles
    have hget := get_of_file (hbackend c') hfiles
    rw [query,recordOrReplay,← keyOf,hget]
  · rw [hnone,Option.map_none] at hfiles
    rw [query,recordOrReplay,← keyOf,get_of_missing hfiles]

/-- Recorded calls are all replayed as the backend answers them exactly where it gives one answer to those
that differ in their user alone; a call that was never recorded misses exactly where none that differs
from it in its user alone was; no replay calls the backend. -/
theorem replay_live_iff (hdigest : Function.Injective C.digest)
    (hbackend : ∀ c, Readable C.number C.write (C.backend c)) {calls : List (CassetteMode × Query)}
    (hmodes : ∀ call ∈ calls, call.1 = .RECORD ∨ call.1 = .FILL) :
    ((∀ c ∈ calls.map Prod.snd, (C.query .REPLAY c (C.afterwards calls)).1 = .ok (C.backend c)) ↔
      ∀ c ∈ calls.map Prod.snd, ∀ c' ∈ calls.map Prod.snd,
        {c with user := none} = {c' with user := none} → C.backend c = C.backend c') ∧
    (∀ c ∉ calls.map Prod.snd,
      (∃ message, (C.query .REPLAY c (C.afterwards calls)).1 = .error (.miss message)) ↔
        ∀ c' ∈ calls.map Prod.snd, {c' with user := none} ≠ {c with user := none}) ∧
    ∀ c, (C.query .REPLAY c (C.afterwards calls)).2 = C.afterwards calls := by
  have hreplay := fun c => replay_afterwards hbackend hmodes c
  refine ⟨?_,fun c hc => ?_,fun c => ?_⟩
  · have hanswers := @answers_iff _ _ _ _ C.keyOf C.backend (recordings calls)
    simp only [map_snd_recordings,keyOf_eq_iff hdigest] at hanswers
    rw [← hanswers]
    refine forall₂_congr fun c hc => ?_
    cases hkept : kept C.keyOf (C.keyOf c) (recordings calls) with
    | none => simp [(hreplay c).2 hkept]
    | some c' => simp [(hreplay c).1 c' hkept]
  · have hnone := @kept_eq_none _ _ _ C.keyOf (C.keyOf c) (recordings calls)
    simp only [map_snd_recordings,ne_eq,keyOf_eq_iff hdigest] at hnone
    rw [← hnone]
    cases hkept : kept C.keyOf (C.keyOf c) (recordings calls) with
    | none => simp [(hreplay c).2 hkept]
    | some c' => simp [(hreplay c).1 c' hkept]
  · cases hkept : kept C.keyOf (C.keyOf c) (recordings calls) with
    | none => rw [(hreplay c).2 hkept]
    | some c' => rw [(hreplay c).1 c' hkept]

/-! ### Two users with one question -/

def askedBy (user : Option String) : Query := ⟨"What is the CTR threshold?","analyst",user,some 6,true⟩

def keyText : List Char :=
  "[\"v1/query\", \"corpus-1\", \"What is the CTR threshold?\", \"analyst\", 6, true]".toList

/-- The digest of one text, completed injectively by values longer than any digest. -/
def sampleDigest (text : List Char) : String :=
  if text = keyText then "1f086bce2fc4fa23e3bdcf5dd8005933"
  else String.ofList (List.replicate 33 '0' ++ text)

/-- A backend that answers with the user's name. -/
def sampleClient : CassettingClient where
  directory := "cassettes"
  fingerprint := "corpus-1"
  digest := sampleDigest
  float _ := []
  number _ := none
  backend c := .obj [("answer",.str (c.user.getD "anonymous"))]

example : dumps sampleClient.write (.arr (sampleClient.keyParts (askedBy none))) = keyText := by
  decide +kernel

theorem sampleDigest_injective : Function.Injective sampleDigest := by
  have hlong : ∀ text, "1f086bce2fc4fa23e3bdcf5dd8005933" ≠ String.ofList (List.replicate 33 '0' ++ text) := by
    intro text h
    have hlength := congrArg (fun s => s.toList.length) h
    simp at hlength
  intro a b h
  unfold sampleDigest at h
  split_ifs at h with ha hb hb
  · rw [ha,hb]
  · exact absurd h (hlong b)
  · exact absurd h.symm (hlong a)
  · exact List.append_cancel_left (String.ofList_injective h)

theorem sampleClient_readable (c : Query) :
    Readable sampleClient.number sampleClient.write (sampleClient.backend c) := by
  refine .obj (by simp) fun m hm => ?_
  obtain rfl := List.mem_singleton.mp hm
  exact .str _

/-- Both users' questions are recorded, in either mode. -/
def askers (mode : CassetteMode) : List (CassetteMode × Query) :=
  [(mode,askedBy (some "priya")),(mode,askedBy (some "analyst-bob"))]

theorem kept_askers (user : Option String) :
    kept sampleClient.keyOf (sampleClient.keyOf (askedBy user)) (recordings (askers .RECORD)) =
        some (askedBy (some "analyst-bob")) ∧
      kept sampleClient.keyOf (sampleClient.keyOf (askedBy user)) (recordings (askers .FILL)) =
        some (askedBy (some "priya")) := by
  have hkey : ∀ u v, sampleClient.keyOf (askedBy u) = sampleClient.keyOf (askedBy v) := fun u v => rfl
  simp [kept,recordings,askers,keep,hkey _ user]

theorem modes_askers {mode : CassetteMode} (hmode : mode = .RECORD ∨ mode = .FILL) :
    ∀ call ∈ askers mode, call.1 = .RECORD ∨ call.1 = .FILL := by
  simpa [askers] using hmode

/-- The first user gets the second's answer where the mode overwrites, the second the first's where it
fills, and a user who never asked gets an answer. -/
theorem replay_other_user :
    Function.Injective sampleClient.digest ∧
    (∀ c, Readable sampleClient.number sampleClient.write (sampleClient.backend c)) ∧
    (sampleClient.query .REPLAY (askedBy (some "priya")) (sampleClient.afterwards (askers .RECORD))).1 =
      .ok (.obj [("answer",.str "analyst-bob")]) ∧
    sampleClient.backend (askedBy (some "priya")) = .obj [("answer",.str "priya")] ∧
    (sampleClient.query .REPLAY (askedBy (some "analyst-bob")) (sampleClient.afterwards (askers .FILL))).1 =
      .ok (.obj [("answer",.str "priya")]) ∧
    askedBy (some "bsa-admin") ∉ (askers .RECORD).map Prod.snd ∧
    (sampleClient.query .REPLAY (askedBy (some "bsa-admin")) (sampleClient.afterwards (askers .RECORD))).1 =
      .ok (.obj [("answer",.str "analyst-bob")]) := by
  have hrecord := fun user => (replay_afterwards sampleClient_readable
    (modes_askers (Or.inl rfl)) (askedBy user)).1 _ (kept_askers user).1
  have hfill := fun user => (replay_afterwards sampleClient_readable
    (modes_askers (Or.inr rfl)) (askedBy user)).1 _ (kept_askers user).2
  refine ⟨sampleDigest_injective,sampleClient_readable,?_,rfl,?_,by decide,?_⟩
  · rw [hrecord]
    rfl
  · rw [hfill]
    rfl
  · rw [hrecord]
    rfl

theorem replay_live_iff_askers : Function.Injective sampleClient.digest ∧
    (∀ c, Readable sampleClient.number sampleClient.write (sampleClient.backend c)) ∧
    (∀ call ∈ askers .RECORD, call.1 = .RECORD ∨ call.1 = .FILL) ∧
    ¬ ∀ c ∈ (askers .RECORD).map Prod.snd,
      (sampleClient.query .REPLAY c (sampleClient.afterwards (askers .RECORD))).1 =
        .ok (sampleClient.backend c) := by
  have hmodes : ∀ call ∈ askers .RECORD, call.1 = .RECORD ∨ call.1 = .FILL := modes_askers (Or.inl rfl)
  refine ⟨sampleDigest_injective,sampleClient_readable,hmodes,fun hall => ?_⟩
  have hsame := (replay_live_iff sampleDigest_injective sampleClient_readable hmodes).1.mp hall
    (askedBy (some "priya")) (by decide) (askedBy (some "analyst-bob")) (by decide) rfl
  exact absurd hsame (by decide)

end CassettingClient

end AtlasCompliance.Evals
