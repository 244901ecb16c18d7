import AtlasCompliance.Java.Text
import AtlasCompliance.Lib.Regex

/-! The structural chunker: paragraphs packed into windows, larger ones split at sentences and then at
words, and the end of each window carried into the next. -/
namespace AtlasCompliance.RagEngine
open Java Regex

/-- `DocumentChunker`, which refuses an overlap as large as its window. -/
structure DocumentChunker where
  chunkSize : ℤ
  overlap : ℤ
  tokenCounter : List Char → ℤ
  valid : overlap < chunkSize

namespace DocumentChunker

/-- One chunk of a document. -/
structure Chunk where
  index : ℕ
  text : List Char
  deriving DecidableEq, Repr

/-- `Math.max(1, (int) Math.ceil(text.length() / 4.0))`. -/
def estimateTokens (text : List Char) : ℤ := max 1 ((Text.length (String.ofList text) + 3) / 4)

/-- `String.strip`. -/
def strip (text : List Char) : List Char := (text.dropWhile isWhitespace).rdropWhile isWhitespace

/-- `\s+`. -/
def spaces : Pattern Char := .plus (.sat isSpace)

/-- `(?<=[.!?])\s+`. -/
def sentenceEnd : Pattern Char :=
  .seq (.look fun before _ => before.head?.any fun c => c = '.' || c = '!' || c = '?') spaces

/-- `\n\s*\n`. -/
def paragraphEnd : Pattern Char :=
  .seq (.sat fun c => c = '\n') (.seq (.star true (.sat isSpace)) (.sat fun c => c = '\n'))

/-- `"\n\n"` between two texts. -/
def joined (first second : List Char) : List Char := first ++ '\n' :: '\n' :: second

/-- Sentences, else words, of a text bigger than one window. -/
def splitSmaller (text : List Char) : List (List Char) :=
  let sentences := split sentenceEnd text
  if 1 < sentences.length then sentences else split spaces text

def splitParagraphs (content : List Char) : List (List Char) :=
  let out := ((split paragraphEnd (strip content)).map strip).filter fun p => !p.isEmpty
  if out.isEmpty then [strip content] else out

/-- What is not empty is put out. -/
def flush (current : List Char) : List (List Char) := if current.isEmpty then [] else [current]

variable (chunker : DocumentChunker)

/-- More tokens than a window holds. -/
def oversized (text : List Char) : Bool := chunker.chunkSize < chunker.tokenCounter text

/-- A window with one more unit. -/
def candidate (current unit : List Char) : List Char :=
  if current.isEmpty then unit else joined current unit

/-- The loop of `pack` from the window `current`; `smaller` packs the parts of an oversized unit. -/
def packFrom (smaller : List (List Char) → Option (List (List Char))) :
    List Char → List (List Char) → Option (List (List Char))
  | current,[] => some (flush current)
  | current,unit::units =>
    if chunker.oversized unit then do
      let inner ← smaller (splitSmaller unit)
      let rest ← packFrom smaller [] units
      return flush current ++ inner ++ rest
    else if chunker.oversized (candidate current unit) && !current.isEmpty then do
      let rest ← packFrom smaller unit units
      return flush current ++ rest
    else packFrom smaller (candidate current unit) units

/-- `pack`, with room for `depth` calls on the stack; there is no result when they do not suffice. -/
def pack : ℕ → List (List Char) → Option (List (List Char))
  | 0,_ => none
  | depth+1,units => packFrom chunker (pack depth) [] units

/-- The loop of `trailingTokens` over the words, the last first. -/
def trailing (tokens : ℤ) : List Char → List (List Char) → List Char
  | acc,[] => acc
  | acc,word::words =>
    let longer := if acc.isEmpty then word else word ++ ' '::acc
    if tokens < chunker.tokenCounter longer ∧ ¬ acc.isEmpty then acc
    else trailing tokens longer words

def trailingTokens (text : List Char) (tokens : ℤ) : List Char :=
  chunker.trailing tokens [] (split spaces text).reverse

/-- Every chunk behind the first one begins with the end of the one before. -/
def overlapped : List (List Char) → List (List Char)
  | first::second::rest =>
    let tail := chunker.trailingTokens first chunker.overlap
    (if tail.isEmpty then second else joined tail second)::overlapped (second::rest)
  | [_] | [] => []

def applyOverlap (chunks : List (List Char)) : List (List Char) :=
  if chunker.overlap ≤ 0 then chunks
  else match chunks with
    | [] => []
    | first::rest => first::chunker.overlapped (first::rest)

def chunk (depth : ℕ) (content : List Char) : Option (List Chunk) :=
  (chunker.pack depth (splitParagraphs content)).map fun packed =>
    (chunker.applyOverlap packed).zipIdx.map fun p => ⟨p.2,p.1⟩

variable {chunker}

/-- Chunks are numbered from 0 on. -/
theorem chunk_indices {depth : ℕ} {content : List Char} {chunks : List Chunk}
    (h : chunker.chunk depth content = some chunks) :
    chunks.map Chunk.index = List.range chunks.length := by
  obtain ⟨packed,-,rfl⟩ := Option.map_eq_some_iff.mp h
  simp [List.zipIdx_map_snd,List.range_eq_range',Function.comp_def]

/-- A larger supply for oversized units changes no result. -/
theorem packFrom_mono {smaller larger : List (List Char) → Option (List (List Char))}
    (hmono : ∀ units out, smaller units = some out → larger units = some out)
    {current : List Char} {units out : List (List Char)}
    (h : packFrom chunker smaller current units = some out) :
    packFrom chunker larger current units = some out := by
  induction units generalizing current out with
  | nil => exact h
  | cons unit units ih =>
    rw [packFrom] at h ⊢
    cases hbig : chunker.oversized unit with
    | true =>
      simp only [hbig,if_true,Option.bind_eq_bind,Option.bind_eq_some_iff,Option.pure_def] at h ⊢
      obtain ⟨inner,hinner,rest,hrest,hout⟩ := h
      exact ⟨inner,hmono _ _ hinner,rest,ih hrest,hout⟩
    | false =>
      cases hfull : chunker.oversized (candidate current unit) && !current.isEmpty with
      | true =>
        simp only [hbig,hfull,Bool.false_eq_true,if_false,if_true,Option.bind_eq_bind,
          Option.bind_eq_some_iff,Option.pure_def] at h ⊢
        obtain ⟨rest,hrest,hout⟩ := h
        exact ⟨rest,ih hrest,hout⟩
      | false =>
        simp only [hbig,hfull,Bool.false_eq_true,if_false] at h ⊢
        exact ih h

theorem pack_mono {depth depth' : ℕ} (hle : depth ≤ depth') {units out : List (List Char)}
    (h : chunker.pack depth units = some out) : chunker.pack depth' units = some out := by
  induction depth generalizing depth' units out with
  | zero => cases h
  | succ depth ih =>
    obtain ⟨depth',rfl⟩ : ∃ k, depth' = k + 1 := ⟨depth' - 1,by omega⟩
    exact packFrom_mono (fun units out hout => ih (by omega) hout) h

/-- A deeper stack changes no chunk. -/
theorem chunk_unique {depth depth' : ℕ} {content : List Char} {chunks chunks' : List Chunk}
    (h : chunker.chunk depth content = some chunks)
    (h' : chunker.chunk depth' content = some chunks') : chunks = chunks' := by
  obtain ⟨packed,hpacked,rfl⟩ := Option.map_eq_some_iff.mp h
  obtain ⟨packed',hpacked',rfl⟩ := Option.map_eq_some_iff.mp h'
  have hmax := pack_mono (le_max_left depth depth') hpacked
  rw [pack_mono (le_max_right depth depth') hpacked'] at hmax
  obtain rfl := Option.some.inj hmax
  rfl

end DocumentChunker
end AtlasCompliance.RagEngine
