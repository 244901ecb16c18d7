import AtlasCompliance.Lib.Delimited
import AtlasCompliance.Lib.Words
import AtlasCompliance.RagEngine.DocumentChunker

/-! Front matter: the reader of `key: value` blocks, on texts that were written as such a block. -/
namespace AtlasCompliance.RagEngine
open Java
open DocumentChunker (strip)

/-- `FrontMatter`: a value is null when the file says so. -/
structure FrontMatter where
  values : List Char → Option (Option (List Char))
  body : List Char

namespace FrontMatter

/-- `---`. -/
def fence : List Char := ['-','-','-']

@[simp] theorem fence_length : fence.length = 3 := rfl

/-- `null`. -/
def nullText : List Char := ['n','u','l','l']

/-- `replace("\r\n", "\n")`. -/
def normalize : List Char → List Char
  | [] => []
  | c::rest => if c = '\r' ∧ rest.head? = some '\n' then normalize rest else c::normalize rest

/-- The first index from `i` on at which `sub` stands, `-1` if there is none. -/
def indexOfFrom (sub : List Char) (i : ℕ) : List Char → ℤ
  | [] => if sub.isEmpty then i else -1
  | c::rest => if sub.isPrefixOf (c::rest) then i else indexOfFrom sub (i+1) rest

/-- `text.indexOf(sub, start)`. -/
def indexOf (text sub : List Char) (start : ℕ) : ℤ := indexOfFrom sub start (text.drop start)

/-- `String.trim`: what is up to a space goes. -/
def trim (text : List Char) : List Char :=
  (text.dropWhile (· ≤ ' ')).rdropWhile (· ≤ ' ')

/-- `split("\n")`. -/
def splitLines (block : List Char) : List (List Char) :=
  match block.splitOn '\n' with
  | [line] => [line]
  | lines => lines.rdropWhile List.isEmpty

/-- Two quotes stand around the value. -/
def Enclosed (value : List Char) : Prop :=
  2 ≤ value.length ∧ value.head? = some '"' ∧ value.getLast? = some '"'

instance (value : List Char) : Decidable (Enclosed value) :=
  inferInstanceAs (Decidable (_ ∧ _ ∧ _))

def unquote (value : List Char) : List Char :=
  if Enclosed value then (value.take (value.length - 1)).drop 1 else value

/-- The body of the loop over the lines. -/
def readLine (values : List Char → Option (Option (List Char))) (line : List Char) :
    List Char → Option (Option (List Char)) :=
  let colon := indexOf line [':'] 0
  if colon ≤ 0 then values
  else
    let key := trim (line.take colon.toNat)
    let value := unquote (trim (line.drop (colon.toNat + 1)))
    Function.update values key (some (if value = nullText then none else some value))

def parse (raw : List Char) : FrontMatter :=
  let normalized := normalize raw
  if !fence.isPrefixOf normalized then ⟨fun _ => none,normalized⟩
  else
    let close := indexOf normalized ('\n'::fence) 3
    if close < 0 then ⟨fun _ => none,normalized⟩
    else
      let block := (normalized.take close.toNat).drop 3
      let body := strip (normalized.drop (indexOf normalized ['\n'] (close.toNat + 1) + 1).toNat)
      ⟨(splitLines block).foldl readLine fun _ => none,body⟩

/-! ### Texts that hold a block -/

/-- One entry to be written: a key, and a value in quotes or bare. -/
structure Entry where
  key : List Char
  value : List Char
  quoted : Bool
  key_ne_nil : key ≠ []
  colon_not_mem : ':' ∉ key
  key_trimmed : trim key = key
  key_no_dash : key.head? ≠ some '-'
  value_line : '\n' ∉ value ∧ '\r' ∉ value
  bare : quoted = false → trim value = value ∧ ¬ Enclosed value

namespace Entry

/-- The value as it is written. -/
def written (e : Entry) : List Char := if e.quoted then '"'::(e.value ++ ['"']) else e.value

def line (e : Entry) : List Char := e.key ++ ':' :: ' ' :: e.written

/-- The value that the line stands for. -/
def meaning (e : Entry) : Option (List Char) :=
  if e.quoted = false ∧ e.value = nullText then none else some e.value

end Entry

/-- The lines of the entries. -/
def blockOf (entries : List Entry) : List Char := entries.flatMap fun e => '\n' :: e.line

/-- The opening line, the entries, the closing line, and perhaps a further line end and a body. -/
def document (entries : List Entry) (body : Option (List Char)) : List Char :=
  fence ++ (blockOf entries ++ (('\n'::fence) ++ body.elim [] (List.cons '\n')))

/-- The parsed document has the entries and the stripped body. -/
def RoundTrips (entries : List Entry) (body : Option (List Char)) : Prop :=
  (∀ key, (parse (document entries body)).values key =
    (entries.find? fun e => e.key = key).map Entry.meaning) ∧
    (parse (document entries body)).body = strip (body.getD [])

/-! ### The parts of the reader -/

theorem normalize_append {u : List Char} (v : List Char) (hu : '\r' ∉ u) :
    normalize (u ++ v) = u ++ normalize v := by
  induction u with
  | nil => rfl
  | cons c u ih =>
    obtain ⟨hc,hrest⟩ := not_or.mp (mt List.mem_cons.mpr hu)
    rw [List.cons_append,normalize,if_neg (fun h => hc h.1.symm),ih hrest,List.cons_append]

theorem normalize_append_of_ne {u v : List Char} (hu : '\n' ∉ u) (hv : v.head? ≠ some '\n') :
    normalize (u ++ v) = u ++ normalize v := by
  induction u with
  | nil => rfl
  | cons c u ih =>
    obtain ⟨-,hrest⟩ := not_or.mp (mt List.mem_cons.mpr hu)
    have hnext : (u ++ v).head? ≠ some '\n' := by
      cases u with
      | nil => exact hv
      | cons b u =>
        intro h
        exact hrest (Option.some.inj h ▸ List.mem_cons_self)
    rw [List.cons_append,normalize,if_neg (fun h => hnext h.2),ih hrest,List.cons_append]

/-- The search goes past a text at whose places nothing is found. -/
theorem indexOfFrom_append {sub u v : List Char} (i : ℕ)
    (h : ∀ a b, u = a ++ b → b ≠ [] → ¬ sub <+: b ++ v) :
    indexOfFrom sub i (u ++ v) = indexOfFrom sub (i + u.length) v := by
  induction u generalizing i with
  | nil => rfl
  | cons c u ih =>
    have hno : ¬ sub.isPrefixOf (c::(u ++ v)) = true := by
      rw [List.isPrefixOf_iff_prefix]
      exact h [] (c::u) rfl (List.cons_ne_nil c u)
    rw [List.cons_append,indexOfFrom,if_neg hno,ih (i+1) fun a b hab hb =>
      h (c::a) b (by rw [hab,List.cons_append]) hb,List.length_cons]
    congr 1
    omega

theorem indexOfFrom_prefix {sub v : List Char} (hsub : sub ≠ []) (i : ℕ) (h : sub <+: v) :
    indexOfFrom sub i v = i := by
  cases v with
  | nil => exact absurd (List.prefix_nil.mp h) hsub
  | cons c v => exact if_pos (List.isPrefixOf_iff_prefix.mpr h)

theorem not_prefix_of_notMem {c : Char} {a b u v : List Char} (hc : c ∉ u) (hu : u = a ++ b)
    (hb : b ≠ []) : ¬ [c] <+: b ++ v := by
  obtain ⟨d,b,rfl⟩ := List.exists_cons_of_ne_nil hb
  rintro ⟨w,hw⟩
  obtain ⟨rfl,-⟩ := List.cons.inj hw
  exact hc (hu ▸ by simp)

theorem indexOfFrom_char {c : Char} {u : List Char} (hc : c ∉ u) (i : ℕ) (v : List Char) :
    indexOfFrom [c] i (u ++ c::v) = (i + u.length : ℕ) := by
  rw [indexOfFrom_append i fun a b hab hb => not_prefix_of_notMem hc hab hb]
  exact indexOfFrom_prefix (List.cons_ne_nil c []) _ ⟨v,rfl⟩

theorem infix_of_trim (text : List Char) : trim text <:+: text :=
  (List.rdropWhile_prefix _ _).isInfix.trans (List.dropWhile_suffix _).isInfix

theorem trim_cons_space (text : List Char) : trim (' '::text) = trim text := by
  rw [trim,List.dropWhile_cons_of_pos (by decide)]
  rfl

theorem trim_enclosed (value : List Char) : trim ('"'::(value ++ ['"'])) = '"'::(value ++ ['"']) := by
  rw [trim,List.dropWhile_cons_of_neg (by decide),← List.cons_append,
    List.rdropWhile_concat_neg _ _ _ (by decide)]

theorem unquote_enclosed (value : List Char) : unquote ('"'::(value ++ ['"'])) = value := by
  have hlast : ('"'::value ++ ['"']).getLast? = some '"' := List.getLast?_concat
  have h : Enclosed ('"'::(value ++ ['"'])) := ⟨by simp,rfl,hlast⟩
  rw [unquote,if_pos h]
  simp

theorem Entry.unquote_written (e : Entry) : unquote (trim (' '::e.written)) = e.value := by
  rw [trim_cons_space,written]
  cases hq : e.quoted with
  | true => rw [if_pos rfl,trim_enclosed,unquote_enclosed]
  | false =>
    obtain ⟨htrim,hbare⟩ := e.bare hq
    rw [if_neg Bool.false_ne_true,htrim,unquote,if_neg hbare]

/-- The line of an entry is read as its key and its value. -/
theorem readLine_line (e : Entry) (values : List Char → Option (Option (List Char))) :
    readLine values e.line = Function.update values e.key
      (some (if e.value = nullText then none else some e.value)) := by
  have hcolon : indexOf e.line [':'] 0 = (e.key.length : ℕ) := by
    have h := indexOfFrom_char e.colon_not_mem 0 (' '::e.written)
    rw [Nat.zero_add] at h
    exact h
  have hpos : 0 < e.key.length := List.length_pos_iff.mpr e.key_ne_nil
  have hkey : e.line.take e.key.length = e.key := List.take_left
  have hvalue : e.line.drop (e.key.length + 1) = ' '::e.written := by
    have hline : e.line = (e.key ++ [':']) ++ ' '::e.written := by simp [Entry.line]
    rw [hline]
    exact List.drop_left' (by simp)
  rw [readLine,hcolon]
  simp only [Int.toNat_natCast,hkey,hvalue,e.unquote_written,e.key_trimmed]
  rw [if_neg (by omega)]

/-! ### Reading a written block -/

/-- The key is one line. -/
def Entry.OneLine (e : Entry) : Prop := '\n' ∉ e.key

theorem Entry.line_no_break {e : Entry} (h : e.OneLine) : '\n' ∉ e.line := by
  have hvalue := e.value_line.1
  have hkey : '\n' ∉ e.key := h
  cases hq : e.quoted <;> simp [line,written,hq,hkey,hvalue]

theorem Entry.line_head (e : Entry) : e.line.head? = e.key.head? := by
  obtain ⟨c,key,hkey⟩ := List.exists_cons_of_ne_nil e.key_ne_nil
  rw [line,hkey]
  rfl

theorem normalize_line {e : Entry} (h : e.OneLine) (v : List Char) :
    normalize (e.line ++ v) = e.line ++ normalize v := by
  have hwritten : '\r' ∉ ':' :: ' ' :: e.written := by
    have hvalue := e.value_line.2
    cases hq : e.quoted <;> simp [Entry.written,hq,hvalue]
  have hsplit : e.line ++ v = e.key ++ (':' :: ' ' :: e.written ++ v) := by
    rw [Entry.line,List.append_assoc]
  rw [hsplit,normalize_append_of_ne h (by simp),normalize_append v hwritten,Entry.line,List.append_assoc]

theorem normalize_blockOf {entries : List Entry} (h : ∀ e ∈ entries, e.OneLine) (v : List Char) :
    normalize (blockOf entries ++ v) = blockOf entries ++ normalize v := by
  induction entries with
  | nil => rfl
  | cons e entries ih =>
    have hrest := ih fun f hf => h f (List.mem_cons_of_mem e hf)
    have hcons : blockOf (e::entries) = '\n' :: (e.line ++ blockOf entries) := rfl
    rw [hcons,List.cons_append,normalize,if_neg (fun hcr => absurd hcr.1 (by decide)),List.append_assoc,
      normalize_line (h e List.mem_cons_self),hrest,List.cons_append,List.append_assoc]

theorem normalize_document {entries : List Entry} (h : ∀ e ∈ entries, e.OneLine)
    {body : Option (List Char)} (hbody : ∀ b ∈ body, '\r' ∉ b) :
    normalize (document entries body) = document entries body := by
  have htail : '\r' ∉ ('\n'::fence) ++ body.elim [] (List.cons '\n') := by
    cases body with
    | none => decide
    | some b =>
      have hb := hbody b rfl
      simp [hb,fence]
  have hself := normalize_append [] htail
  rw [normalize,List.append_nil] at hself
  rw [document,normalize_append _ (by decide),normalize_blockOf h,hself]

/-- No line of the block looks like the closing line. -/
theorem indexOfFrom_blockOf {entries : List Entry} (h : ∀ e ∈ entries, e.OneLine) (i : ℕ)
    (v : List Char) : indexOfFrom ('\n'::fence) i (blockOf entries ++ (('\n'::fence) ++ v)) =
      (i + (blockOf entries).length : ℕ) := by
  induction entries generalizing i with
  | nil => exact indexOfFrom_prefix (by decide) i (List.prefix_append _ _)
  | cons e entries ih =>
    have hcons : blockOf (e::entries) ++ (('\n'::fence) ++ v) =
        '\n' :: e.line ++ (blockOf entries ++ (('\n'::fence) ++ v)) := by
      rw [blockOf,List.flatMap_cons,List.append_assoc]
      rfl
    rw [hcons,indexOfFrom_append,ih fun f hf => h f (List.mem_cons_of_mem e hf)]
    · rw [blockOf,blockOf,List.flatMap_cons,List.length_append]
      congr 1
      omega
    · intro a b hab hb hpre
      have hbreak := Entry.line_no_break (h e List.mem_cons_self)
      obtain ⟨c,b,rfl⟩ := List.exists_cons_of_ne_nil hb
      obtain ⟨w,hw⟩ := hpre
      obtain ⟨rfl,htail⟩ := List.cons.inj hw
      cases a with
      | nil =>
        obtain ⟨-,rfl⟩ := List.cons.inj hab
        obtain ⟨c,key,hkey⟩ := List.exists_cons_of_ne_nil e.key_ne_nil
        have hline := e.line_head
        have hdash := e.key_no_dash
        rw [hkey] at hline hdash
        obtain ⟨line,hl⟩ : ∃ line, e.line = c::line := by
          cases hcase : e.line with
          | nil => rw [hcase] at hline; cases hline
          | cons d line =>
            rw [hcase] at hline
            exact ⟨line,by rw [Option.some.inj hline]⟩
        change fence ++ w = e.line ++ (blockOf entries ++ ('\n'::fence ++ v)) at htail
        rw [hl] at htail
        obtain ⟨rfl,-⟩ := List.cons.inj htail
        exact hdash rfl
      | cons a₀ a =>
        obtain ⟨-,hline⟩ := List.cons.inj hab
        exact hbreak (hline ▸ List.mem_append_right a List.mem_cons_self)

theorem splitLines_blockOf {entries : List Entry} (h : ∀ e ∈ entries, e.OneLine) :
    splitLines (blockOf entries) = []::entries.map Entry.line := by
  have hjoin : ∀ es : List Entry,
      ['\n'].intercalate ([]::es.map Entry.line) = blockOf es := by
    intro es
    have hfrom : ∀ (first : List Char) (es : List Entry),
        ['\n'].intercalate (first::es.map Entry.line) = first ++ blockOf es := by
      intro first es
      induction es generalizing first with
      | nil => simp [blockOf]
      | cons e es ih =>
        rw [List.map_cons,List.intercalate_cons_cons,ih]
        simp [blockOf]
    exact hfrom [] es
  have hlines : ∀ l ∈ []::entries.map Entry.line, '\n' ∉ l := by
    intro l hl
    obtain rfl | hl := List.mem_cons.mp hl
    · exact List.not_mem_nil
    · obtain ⟨e,he,rfl⟩ := List.mem_map.mp hl
      exact Entry.line_no_break (h e he)
  have hsplit : (blockOf entries).splitOn '\n' = []::entries.map Entry.line := by
    rw [← hjoin,Delimited.splitOn_join '\n' (List.cons_ne_nil _ _),Delimited.pieces_eq_self '\n' hlines]
  rw [splitLines,hsplit]
  split
  · rename_i line heq
    exact heq.symm
  · rename_i hmany
    refine List.rdropWhile_eq_self_iff.mpr fun hne => ?_
    cases entries with
    | nil => exact absurd rfl (hmany [])
    | cons e es =>
      have hmem : ([]::(e::es).map Entry.line).getLast hne ∈ (e::es).map Entry.line := by
        rw [List.getLast_cons (by simp)]
        exact List.getLast_mem _
      obtain ⟨f,-,hf⟩ := List.mem_map.mp hmem
      rw [← hf]
      simp [Entry.line]

/-- The map of the block, as the reader fills it. -/
theorem foldl_readLine {entries : List Entry} (hkeys : (entries.map Entry.key).Nodup)
    (values : List Char → Option (Option (List Char))) (key : List Char) :
    (entries.map Entry.line).foldl readLine values key =
      ((entries.find? fun e => e.key = key).map fun e =>
        if e.value = nullText then none else some e.value).or (values key) := by
  induction entries generalizing values with
  | nil => rfl
  | cons e entries ih =>
    obtain ⟨he,hrest⟩ := List.nodup_cons.mp hkeys
    rw [List.map_cons,List.foldl_cons,ih hrest,readLine_line,Function.update_apply]
    by_cases hkey : e.key = key
    · have hnone : (entries.find? fun f => decide (f.key = key)) = none := by
        refine List.find?_eq_none.mpr fun f hf hfk => he ?_
        rw [hkey,← of_decide_eq_true hfk]
        exact List.mem_map_of_mem hf
      rw [hnone,if_pos hkey.symm,List.find?_cons_of_pos (by simpa using hkey)]
      rfl
    · rw [if_neg (Ne.symm hkey),List.find?_cons_of_neg (by simpa using hkey)]

/-- What the reader makes of a written block. -/
theorem parse_document {entries : List Entry} (h : ∀ e ∈ entries, e.OneLine)
    (hkeys : (entries.map Entry.key).Nodup) {body : Option (List Char)} (hbody : ∀ b ∈ body, '\r' ∉ b) :
    (∀ key, (parse (document entries body)).values key = (entries.find? fun e => e.key = key).map fun e =>
      if e.value = nullText then none else some e.value) ∧
      (parse (document entries body)).body = strip (body.getD (document entries body)) := by
  have hclose : indexOf (document entries body) ('\n'::fence) 3 = (3 + (blockOf entries).length : ℕ) :=
    indexOfFrom_blockOf h 3 _
  have hblock : ((document entries body).take (3 + (blockOf entries).length)).drop 3 =
      blockOf entries := by
    have hdoc : document entries body = (fence ++ blockOf entries) ++
        (('\n'::fence) ++ body.elim [] (List.cons '\n')) := by rw [document,List.append_assoc]
    have htake : (document entries body).take (3 + (blockOf entries).length) =
        fence ++ blockOf entries := by
      rw [hdoc]
      exact List.take_left' (by simp)
    rw [htake]
    rfl
  have hbehind : (document entries body).drop (3 + (blockOf entries).length + 1) =
      fence ++ body.elim [] (List.cons '\n') := by
    have hdoc : document entries body = (fence ++ blockOf entries ++ ['\n']) ++
        (fence ++ body.elim [] (List.cons '\n')) := by simp [document]
    rw [hdoc]
    exact List.drop_left' (by simp; omega)
  have hrest : (document entries body).drop (indexOf (document entries body) ['\n']
      (3 + (blockOf entries).length + 1) + 1).toNat = body.getD (document entries body) := by
    rw [indexOf,hbehind]
    cases body with
    | none => rfl
    | some b =>
      have hfound := @indexOfFrom_char '\n' fence (by decide)
        (3 + (blockOf entries).length + 1) b
      have hdoc : document entries (some b) =
          (fence ++ blockOf entries ++ '\n'::fence ++ ['\n']) ++ b := by simp [document]
      change (document entries (some b)).drop (indexOfFrom ['\n'] _ (fence ++ '\n'::b) + 1).toNat = b
      rw [hfound,hdoc]
      exact List.drop_left' (by simp; omega)
  have hstart : (!fence.isPrefixOf (document entries body)) = false := by
    rw [Bool.not_eq_false',List.isPrefixOf_iff_prefix]
    exact List.prefix_append _ _
  have hparse : parse (document entries body) =
      ⟨(splitLines (blockOf entries)).foldl readLine fun _ => none,
        strip (body.getD (document entries body))⟩ := by
    rw [parse]
    simp only [normalize_document h hbody,hstart,hclose,Int.toNat_natCast,hblock,hrest,
      Bool.false_eq_true,if_false]
    rw [if_neg (by omega)]
  rw [hparse]
  refine ⟨fun key => ?_,rfl⟩
  have hfirst : readLine (fun _ => none) [] = fun _ => none := rfl
  change (splitLines (blockOf entries)).foldl readLine (fun _ => none) key = _
  rw [splitLines_blockOf h,List.foldl_cons,hfirst,foldl_readLine hkeys,Option.or_none]

/-! ### When a block is read back -/

theorem no_break_of_mem_splitLines {block line : List Char} (h : line ∈ splitLines block) :
    '\n' ∉ line := by
  have hmem : line ∈ block.splitOn '\n' := by
    rw [splitLines] at h
    split at h
    · rename_i l heq
      rwa [heq]
    · exact (List.rdropWhile_prefix _ _).subset h
  by_cases hnil : line = []
  · rw [hnil]
    exact List.not_mem_nil
  · have hword : line ∈ Words.words (· == '\n') block :=
      List.mem_filter.mpr ⟨hmem,by simpa using hnil⟩
    intro hbreak
    exact absurd (Words.free_of_mem_words hword _ hbreak) (by decide)

theorem readLine_keys {values : List Char → Option (Option (List Char))} {line key : List Char}
    (hline : '\n' ∉ line) (hvalues : ∀ k, values k ≠ none → '\n' ∉ k)
    (h : readLine values line key ≠ none) : '\n' ∉ key := by
  rw [readLine] at h
  dsimp only at h
  split at h
  · exact hvalues key h
  · rw [Function.update_apply] at h
    split at h
    · rename_i hkey
      rw [hkey]
      exact fun hbreak => hline (List.mem_of_mem_take ((infix_of_trim _).subset hbreak))
    · exact hvalues key h

/-- The reader never makes a key that has a line break. -/
theorem parse_keys {raw key : List Char} (h : (parse raw).values key ≠ none) : '\n' ∉ key := by
  have hfold : ∀ (lines : List (List Char)) (values : List Char → Option (Option (List Char))),
      (∀ l ∈ lines, '\n' ∉ l) → (∀ k, values k ≠ none → '\n' ∉ k) →
        ∀ k, lines.foldl readLine values k ≠ none → '\n' ∉ k := by
    intro lines
    induction lines with
    | nil => exact fun values _ hvalues => hvalues
    | cons line lines ih =>
      intro values hlines hvalues
      exact ih _ (fun l hl => hlines l (List.mem_cons_of_mem line hl))
        fun k hk => readLine_keys (hlines line List.mem_cons_self) hvalues hk
  rw [parse] at h
  dsimp only at h
  split at h
  · exact absurd rfl h
  · split at h
    · exact absurd rfl h
    · exact hfold _ _ (fun l hl => no_break_of_mem_splitLines hl) (fun k hk => absurd rfl hk) key h

/-- A block is read back exactly when a line end follows the closing line, no quoted value is `null`,
and every key is one line. -/
theorem roundTrips_iff {entries : List Entry} (hkeys : (entries.map Entry.key).Nodup)
    {body : Option (List Char)} (hbody : ∀ b ∈ body, '\r' ∉ b) :
    RoundTrips entries body ↔ body ≠ none ∧
      (∀ e ∈ entries, e.quoted = true → e.value ≠ nullText) ∧ ∀ e ∈ entries, e.OneLine := by
  have hfind : ∀ e ∈ entries, (entries.find? fun f => f.key = e.key) = some e := by
    intro e he
    cases hf : entries.find? fun f => f.key = e.key with
    | none => simpa using List.find?_eq_none.mp hf e he
    | some f =>
      have hsame : f.key = e.key := by simpa using List.find?_some hf
      exact congrArg some (List.inj_on_of_nodup_map hkeys (List.mem_of_find?_eq_some hf) he hsame)
  constructor
  · rintro ⟨hvalues,hread⟩
    have hlines : ∀ e ∈ entries, e.OneLine := by
      intro e he
      refine @parse_keys (document entries body) e.key ?_
      rw [hvalues,hfind e he]
      exact Option.some_ne_none _
    obtain ⟨hmap,hstrip⟩ := parse_document hlines hkeys hbody
    refine ⟨?_,fun e he hquoted hnull => ?_,hlines⟩
    · rintro rfl
      have hdash : isWhitespace '-' = false := by decide
      have hdoc : document entries none = '-'::(['-','-'] ++ (blockOf entries ++ ('\n'::fence))) := by
        simp [document,fence]
      rw [hstrip,Option.getD_none,Option.getD_none,hdoc,strip,strip,
        List.dropWhile_cons_of_neg (by rw [hdash]; decide),List.dropWhile_nil,List.rdropWhile_nil,
        List.rdropWhile_eq_nil_iff] at hread
      have hall := hread '-' List.mem_cons_self
      rw [hdash] at hall
      cases hall
    · have hvalue := hvalues e.key
      rw [hmap,hfind e he,Option.map_some,Option.map_some,if_pos hnull,Entry.meaning,
        if_neg (by simp [hquoted])] at hvalue
      cases hvalue
  · rintro ⟨hsome,hquoted,hlines⟩
    obtain ⟨hmap,hstrip⟩ := parse_document hlines hkeys hbody
    obtain ⟨b,rfl⟩ := Option.ne_none_iff_exists'.mp hsome
    refine ⟨fun key => ?_,hstrip⟩
    rw [hmap]
    cases hf : entries.find? fun e => e.key = key with
    | none => rfl
    | some e =>
      have hq := hquoted e (List.mem_of_find?_eq_some hf)
      rw [Option.map_some,Option.map_some,Entry.meaning]
      cases hcase : e.quoted with
      | false => simp
      | true => simp [hq hcase]

/-- The entry `doc: A-1`. -/
def docEntry : Entry where
  key := ['d','o','c']
  value := ['A','-','1']
  quoted := false
  key_ne_nil := by decide
  colon_not_mem := by decide
  key_trimmed := by decide
  key_no_dash := by decide
  value_line := by decide
  bare := by decide

/-- A file that ends with its closing line is read as its own body. -/
theorem closing_line_at_end_is_body : ¬ ∀ entries : List Entry, (entries.map Entry.key).Nodup →
    ∀ body : Option (List Char), (∀ b ∈ body, '\r' ∉ b) → (∀ e ∈ entries, e.OneLine) →
      RoundTrips entries body := by
  intro h
  have hread := (h [docEntry] (by decide) none (by simp) (by
    intro e he
    rw [List.mem_singleton.mp he]
    exact (by decide : '\n' ∉ ['d','o','c']))).2
  exact absurd hread (by decide +kernel)

/-- With a line end behind the closing line the same entry is read back. -/
theorem roundTrips_docEntry : RoundTrips [docEntry] (some ['T','e','x','t','\n']) :=
  (roundTrips_iff (by decide) (by decide)).mpr ⟨by decide,by decide,by
    intro e he
    rw [List.mem_singleton.mp he]
    exact (by decide : '\n' ∉ ['d','o','c'])⟩

end FrontMatter
end AtlasCompliance.RagEngine
