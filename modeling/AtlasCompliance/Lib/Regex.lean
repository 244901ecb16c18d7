import Mathlib

/-! Backtracking regular expressions over any alphabet: the ends of a match in the order in which a
backtracking engine tries them, the scan for non-overlapping matches, and what both say about the
words a pattern matches. -/
namespace AtlasCompliance.Regex

universe u
variable {α : Type u}

/-- A place in a text, with what was read (the last first), what is left, and the groups captured
so far (the last first). -/
structure Cursor (α : Type u) where
  before : List α
  after : List α
  groups : List (ℕ × List α)

/-- Patterns. `look` is a condition on the place alone; `backref` reads a captured group again. -/
inductive Pattern (α : Type u) where
  | empty
  | sat (p : α → Bool)
  | look (p : List α → List α → Bool)
  | seq (r s : Pattern α)
  | alt (r s : Pattern α)
  | star (greedy : Bool) (r : Pattern α)
  | group (n : ℕ) (r : Pattern α)
  | backref (same : α → α → Bool) (n : ℕ)

namespace Pattern

/-- `r?`. -/
def opt (r : Pattern α) : Pattern α := .alt r .empty

/-- `r+`. -/
def plus (r : Pattern α) : Pattern α := .seq r (.star true r)

/-- `r{n}`. -/
def times : ℕ → Pattern α → Pattern α
  | 0,_ => .empty
  | n+1,r => .seq r (times n r)

/-- At most `n` repetitions, as many as possible first. -/
def upTo : ℕ → Pattern α → Pattern α
  | 0,_ => .empty
  | n+1,r => opt (.seq r (upTo n r))

/-- `r{m,m+n}`. -/
def between (m n : ℕ) (r : Pattern α) : Pattern α := .seq (times m r) (upTo n r)

/-- `r{n,}`. -/
def atLeast (n : ℕ) (r : Pattern α) : Pattern α := .seq (times n r) (.star true r)

/-- The word `w`, letters compared by `same`. -/
def word (same : α → α → Bool) : List α → Pattern α
  | [] => .empty
  | a::w => .seq (.sat (same a)) (word same w)

/-- The first of several patterns that matches. -/
def oneOf : List (Pattern α) → Pattern α
  | [] => .sat fun _ => false
  | [r] => r
  | r::rs => .alt r (oneOf rs)

end Pattern

/-- Read the letters of `w`, each compared by `same`. -/
def readWord (same : α → α → Bool) : List α → Cursor α → List (Cursor α)
  | [],c => [c]
  | a::w,⟨before,after,groups⟩ => match after with
    | [] => []
    | b::rest => if same a b then readWord same w ⟨b::before,rest,groups⟩ else []

/-- Repetition: every round has to consume something; `fuel` bounds the number of rounds. -/
def starEnds (greedy : Bool) (f : Cursor α → List (Cursor α)) : ℕ → Cursor α → List (Cursor α)
  | 0,c => [c]
  | fuel+1,c =>
    let more := ((f c).filter fun d => d.after.length < c.after.length).flatMap
      (starEnds greedy f fuel)
    if greedy then more ++ [c] else c::more

/-- The places where a match from `c` can end, the preferred ones first. -/
def Pattern.ends : Pattern α → Cursor α → List (Cursor α)
  | .empty,c => [c]
  | .sat p,⟨before,after,groups⟩ => match after with
    | [] => []
    | a::rest => if p a then [⟨a::before,rest,groups⟩] else []
  | .look p,c => if p c.before c.after then [c] else []
  | .seq r s,c => (r.ends c).flatMap s.ends
  | .alt r s,c => r.ends c ++ s.ends c
  | .star greedy r,c => starEnds greedy r.ends c.after.length c
  | .group n r,c => (r.ends c).map fun d =>
      {d with groups := (n,c.after.take (c.after.length - d.after.length))::d.groups}
  | .backref same n,c => match c.groups.lookup n with
    | none => []
    | some w => readWord same w c

/-- A piece of a scanned text: a letter in no match, or a match with its groups. -/
inductive Token (α : Type u) where
  | keep (a : α)
  | hit (word : List α) (groups : List (ℕ × List α))

/-- The text a token covers. -/
def Token.text : Token α → List α
  | .keep a => [a]
  | .hit word _ => word

/-- Search for non-overlapping matches, left to right, the preferred match at each place. -/
def scan (r : Pattern α) : ℕ → List α → List α → List (Token α)
  | 0,_,_ => []
  | fuel+1,before,after =>
    match (r.ends ⟨before,after,[]⟩).head? with
    | some d =>
      if d.after.length < after.length then
        .hit (after.take (after.length - d.after.length)) d.groups::scan r fuel d.before d.after
      else match after with
        | [] => [.hit [] d.groups]
        | a::rest => .hit [] d.groups::.keep a::scan r fuel (a::before) rest
    | none => match after with
      | [] => []
      | a::rest => .keep a::scan r fuel (a::before) rest

/-- The text cut into matches and the letters between them. -/
def tokens (r : Pattern α) (text : List α) : List (Token α) := scan r (text.length + 1) [] text

/-- The text with every match replaced by a fixed word. -/
def replaceAll (r : Pattern α) (by_ : List α) (text : List α) : List α :=
  (tokens r text).flatMap fun
    | .keep a => [a]
    | .hit _ _ => by_

/-- The number of matches. -/
def count (r : Pattern α) (text : List α) : ℕ :=
  ((tokens r text).filter fun
    | .keep _ => false
    | .hit _ _ => true).length

/-- What group `n` captured in each match that captured it. -/
def findall (r : Pattern α) (n : ℕ) (text : List α) : List (List α) :=
  (tokens r text).filterMap fun
    | .keep _ => none
    | .hit _ groups => groups.lookup n

/-- The texts between the matches. -/
def parts : List (Token α) → List (List α)
  | [] => [[]]
  | .keep a::ts => match parts ts with
    | [] => [[a]]
    | p::ps => (a::p)::ps
  | .hit _ _::ts => []::parts ts

/-- The text split at its matches, without the empty parts at the end; a text with no match is the
only part. -/
def split (r : Pattern α) (text : List α) : List (List α) :=
  match parts (tokens r text) with
  | [p] => [p]
  | ps => ps.rdropWhile List.isEmpty

end AtlasCompliance.Regex
