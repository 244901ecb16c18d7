import AtlasCompliance.Lib.Words
import AtlasCompliance.RagEngine.Citations

/-! The model as a reranker: whatever it answers, the caller gets the first of the fused candidates in
some order, and in the fused order when the answer orders nothing. -/
namespace AtlasCompliance.RagEngine
open Java Regex Words

/-! ### Runs of one kind of letter -/

/-- The texts of the matches. -/
def hitWords {α : Type} (ts : List (Token α)) : List (List α) := ts.filterMap fun
  | .keep _ => none
  | .hit word _ => some word

/-- The matches of `p+` are the maximal runs of `p`. -/
theorem hitWords_plus {α : Type} {p q : α → Bool} (hq : ∀ a, q a = !p a) {before after : List α}
    {ts : List (Token α)} (h : Scanned (.plus (.sat p)) before after ts) :
    hitWords ts = words q after := by
  induction h with
  | done before => rfl
  | @keep before rest a ts hnone hrest ih =>
    have ha : q a = true := by rw [hq,not_of_plus_sat_ends p hnone]; rfl
    rw [words_cons_of_sep rest ha]
    exact ih
  | @hit before w rest groups ts hw hsome hrest ih =>
    obtain ⟨hrun,hstop⟩ := run_of_plus_sat_ends p hsome
    have hfree : ∀ a ∈ w, q a = false := fun a ha => by rw [hq,hrun a ha]; rfl
    have hself : words q w = [w] := by rw [words_of_free hfree,if_neg (by simpa using hw)]
    have hsplit : words q (w ++ rest) = w::words q rest := by
      cases rest with
      | nil => rw [List.append_nil,hself,words_nil]
      | cons a rest =>
        have ha : q a = true := by rw [hq,hstop a rfl]; rfl
        rw [words_append_cons _ _ ha,hself,words_cons_of_sep rest ha]
        rfl
    rw [hsplit,← ih]
    rfl

/-! ### The rerankers -/

/-- `Reranker`. -/
class Reranker (S : Type) where
  rerank {D : Type} : S → String → List (RetrievedChunk D) → ℤ → List (RetrievedChunk D)

/-- The fused order, cut to `topK`. -/
structure RrfPassThroughReranker where

instance : Reranker RrfPassThroughReranker where
  rerank _ _ fused topK :=
    if topK ≤ 0 ∨ fused.length ≤ topK then fused else fused.take topK.toNat

/-- The model behind the reranker: to a prompt it gives a text or null, or it throws. -/
structure LlmReranker where
  chatModel : List UInt16 → Except String (Option (List Char))

namespace LlmReranker

/-- `\d+`. -/
def INT : Pattern Char := .plus (.sat isDigit)

def SNIPPET : ℕ := 280

variable {D : Type}

/-- The line of the candidate with the index `i`. -/
def candidateLine (chunk : RetrievedChunk D) (i : ℕ) : List UInt16 :=
  Text.units "[" ++ Text.units (i + 1).repr ++ Text.units "] " ++
    ((Text.units chunk.content).take SNIPPET).map (fun u => if u = 10 then 32 else u) ++ Text.units "\n"

def prompt (query : String) (fused : List (RetrievedChunk D)) : List UInt16 :=
  Text.units ("Rank the candidate passages by how well they help answer the question. " ++
    "Return ONLY a JSON array of passage numbers, most relevant first, e.g. [3,1,2]. " ++
    "Include every number exactly once.\n\nQuestion: ") ++ Text.units query ++ Text.units "\n\n" ++
    fused.zipIdx.flatMap fun p => candidateLine p.1 p.2

/-- `Integer.parseInt` of digits; a number above the largest int is refused. -/
def parseInt? (digits : List Char) : Option ℤ :=
  if parseInt digits ≤ 2147483647 then some (parseInt digits) else none

/-- `LinkedHashSet.add`. -/
def insert (order : List ℕ) (i : ℕ) : List ℕ := if i ∈ order then order else order ++ [i]

/-- The body of the loop over the matches. -/
def mention (n : ℕ) (order : List ℕ) (digits : List Char) : Option (List ℕ) := do
  let v ← parseInt? digits
  let v := v - 1
  pure (if 0 ≤ v ∧ v < n then insert order v.toNat else order)

/-- `parseOrder`; there is no result when a number is refused. -/
def parseOrder (answer : Option (List Char)) (n : ℕ) : Option (List ℕ) := do
  let order ← (hitWords (tokens INT (answer.getD []))).foldlM (mention n) []
  pure (if order.isEmpty then [] else (List.range n).foldl insert order)

def fallback (fused : List (RetrievedChunk D)) (limit : ℕ) : List (RetrievedChunk D) :=
  fused.take (min limit fused.length)

/-- `topK` as a number of candidates. -/
def limit (fused : List (RetrievedChunk D)) (topK : ℤ) : ℕ :=
  if topK ≤ 0 then fused.length else min topK.toNat fused.length

/-- The candidates in the order of the answer; what is thrown on the way is caught by `rerank`. -/
def reordered (answer : Option (List Char)) (fused : List (RetrievedChunk D)) (limit : ℕ) :
    Option (List (RetrievedChunk D)) := do
  let order ← parseOrder answer fused.length
  if order.isEmpty then pure (fallback fused limit)
  else do
    let candidates ← order.mapM fun idx => fused[idx]?
    pure (candidates.take (min limit candidates.length))

instance : Reranker LlmReranker where
  rerank reranker query fused topK :=
    if fused.length ≤ 1 then fused.take (min (limit fused topK) fused.length)
    else match reranker.chatModel (prompt query fused) with
      | .error _ => fallback fused (limit fused topK)
      | .ok answer =>
        (reordered answer fused (limit fused topK)).getD (fallback fused (limit fused topK))

/-! ### The order that an answer gives -/

/-- The numbers that an answer writes: its runs of digits. -/
def numbers (answer : List Char) : List ℕ := (words (fun c => !isDigit c) answer).map parseInt

/-- The indices of the numbers that name a candidate. -/
def inRange (answer : List Char) (n : ℕ) : List ℕ :=
  ((numbers answer).filter fun v => 1 ≤ v ∧ v ≤ n).map (· - 1)

/-- The indices that the answer mentions, each at its first place. -/
def mentioned (answer : List Char) (n : ℕ) : List ℕ := (inRange answer n).eraseDups

/-- First the indices mentioned, then the others as they were. -/
def completed (answer : List Char) (n : ℕ) : List ℕ :=
  mentioned answer n ++ (List.range n).filter fun i => i ∉ mentioned answer n

theorem hitWords_INT (answer : List Char) :
    hitWords (tokens INT answer) = words (fun c => !isDigit c) answer := by
  refine hitWords_plus (p := isDigit) (fun _ => rfl) (scanned_tokens ?_ answer)
  refine (framed_of_plain (r := INT) ⟨trivial,trivial⟩).proper ?_
  rintro ⟨u,⟨a,rfl,-⟩,v,-,h⟩
  cases h

/-- Filling a set that keeps its order. -/
theorem foldl_insert (xs ys : List ℕ) :
    ys.foldl insert xs.eraseDups = (xs ++ ys).eraseDups := by
  induction ys generalizing xs with
  | nil => rw [List.append_nil]; rfl
  | cons y ys ih =>
    have hinsert : insert xs.eraseDups y = (xs ++ [y]).eraseDups := by
      have hmem : y ∈ xs.eraseDups ↔ y ∈ xs := List.mem_eraseDups
      rw [insert,List.eraseDups_append]
      by_cases hy : y ∈ xs
      · rw [if_pos (hmem.mpr hy)]
        simp [List.removeAll,hy]
      · rw [if_neg (mt hmem.mp hy)]
        simp only [List.removeAll,List.elem_eq_mem,hy,decide_false,Bool.not_false,List.filter_cons_of_pos,
          List.filter_nil]
        rfl
    rw [List.foldl_cons,hinsert,ih,List.append_assoc,List.singleton_append]

theorem nodup_eraseDups (xs : List ℕ) : xs.eraseDups.Nodup :=
  (pairwise_eraseDups xs).imp fun h => h.1

theorem eraseDups_eq_self {xs : List ℕ} (h : xs.Nodup) : xs.eraseDups = xs := by
  induction xs with
  | nil => rfl
  | cons x xs ih =>
    obtain ⟨hx,hxs⟩ := List.nodup_cons.mp h
    have hfilter : xs.filter (fun b => !b == x) = xs := by
      refine List.filter_eq_self.mpr fun b hb => ?_
      have hne : b ≠ x := fun heq => hx (heq ▸ hb)
      simpa using hne
    rw [List.eraseDups_cons,hfilter,ih hxs]

/-- The loop over runs of digits that all fit collects the indices in range. -/
theorem foldlM_mention {n : ℕ} {runs : List (List Char)} (hfits : ∀ run ∈ runs, parseInt run ≤ 2147483647)
    (xs : List ℕ) : runs.foldlM (mention n) xs.eraseDups = some
      (xs ++ ((runs.map parseInt).filter fun v => 1 ≤ v ∧ v ≤ n).map (· - 1)).eraseDups := by
  induction runs generalizing xs with
  | nil => rw [List.foldlM_nil,List.map_nil,List.filter_nil,List.map_nil,List.append_nil]; rfl
  | cons run runs ih =>
    have hrest := ih fun r hr => hfits r (List.mem_cons_of_mem run hr)
    have hrun : parseInt? run = some (parseInt run : ℤ) := if_pos (hfits run List.mem_cons_self)
    rw [List.foldlM_cons,mention,hrun,List.map_cons]
    simp only [Option.bind_eq_bind,Option.bind_some,Option.pure_def]
    by_cases hrange : 1 ≤ parseInt run ∧ parseInt run ≤ n
    · have hstep : insert xs.eraseDups ((parseInt run : ℤ) - 1).toNat =
          (xs ++ [parseInt run - 1]).eraseDups := by
        rw [show ((parseInt run : ℤ) - 1).toNat = parseInt run - 1 by omega,← foldl_insert]
        rfl
      rw [if_pos (by omega),hstep,hrest,List.filter_cons_of_pos (by simpa using hrange),List.map_cons,
        List.append_assoc,List.singleton_append]
    · rw [if_neg (by omega),hrest,List.filter_cons_of_neg (by simpa using hrange)]

/-- A run of digits above the largest int ends the loop. -/
theorem foldlM_mention_overflow {n : ℕ} {runs : List (List Char)} {run : List Char} (hrun : run ∈ runs)
    (hbig : 2147483647 < parseInt run) (order : List ℕ) : runs.foldlM (mention n) order = none := by
  induction runs generalizing order with
  | nil => cases hrun
  | cons r runs ih =>
    rw [List.foldlM_cons]
    obtain rfl | hrun := List.mem_cons.mp hrun
    · have hnone : parseInt? run = none := if_neg (by omega)
      rw [mention,hnone]
      rfl
    · cases hstep : mention n order r with
      | none => rfl
      | some order' => exact ih hrun order'

/-- Every run of digits of the answer is an int. -/
def Fits (answer : List Char) : Prop := ∀ v ∈ numbers answer, v ≤ 2147483647

theorem parseOrder_eq {answer : Option (List Char)} (hfits : Fits (answer.getD [])) (n : ℕ) :
    parseOrder answer n =
      some (if mentioned (answer.getD []) n = [] then [] else completed (answer.getD []) n) := by
  have hloop : (words (fun c => !isDigit c) (answer.getD [])).foldlM (mention n) [] =
      some (mentioned (answer.getD []) n) :=
    foldlM_mention (fun run hrun => hfits _ (List.mem_map_of_mem hrun)) []
  have hcompleted : (List.range n).foldl insert (mentioned (answer.getD []) n) =
      completed (answer.getD []) n := by
    have hrest : (List.range n).removeAll (inRange (answer.getD []) n) =
        (List.range n).filter fun i => i ∉ mentioned (answer.getD []) n :=
      List.filter_congr fun i _ => by simp [mentioned,List.mem_eraseDups]
    rw [mentioned,foldl_insert,List.eraseDups_append,hrest,
      eraseDups_eq_self (List.nodup_range.filter _),completed,mentioned]
  rw [parseOrder,hitWords_INT,hloop]
  simp only [Option.bind_eq_bind,Option.bind_some,Option.pure_def,List.isEmpty_iff,hcompleted]

theorem parseOrder_overflow {answer : Option (List Char)} {v : ℕ} (hv : v ∈ numbers (answer.getD []))
    (hbig : 2147483647 < v) (n : ℕ) : parseOrder answer n = none := by
  obtain ⟨run,hrun,rfl⟩ := List.mem_map.mp hv
  rw [parseOrder,hitWords_INT,foldlM_mention_overflow hrun hbig]
  rfl

theorem lt_of_mem_mentioned {answer : List Char} {n i : ℕ} (h : i ∈ mentioned answer n) : i < n := by
  obtain ⟨v,hv,rfl⟩ := List.mem_map.mp (List.mem_eraseDups.mp h)
  have hrange : 1 ≤ v ∧ v ≤ n := by simpa using (List.mem_filter.mp hv).2
  omega

/-- The completed order lists every index once. -/
theorem completed_perm (answer : List Char) (n : ℕ) : (completed answer n).Perm (List.range n) := by
  have hnodup : (completed answer n).Nodup := by
    refine List.nodup_append'.mpr ⟨nodup_eraseDups _,List.nodup_range.filter _,?_⟩
    intro i hi hrest
    have hnot : i ∉ mentioned answer n := by simpa using (List.mem_filter.mp hrest).2
    exact hnot hi
  refine (List.perm_ext_iff_of_nodup hnodup List.nodup_range).mpr fun i => ?_
  rw [completed,List.mem_append,List.mem_filter,List.mem_range,decide_eq_true_eq]
  constructor
  · rintro (h | h)
    · exact lt_of_mem_mentioned h
    · exact h.1
  · intro h
    by_cases hi : i ∈ mentioned answer n
    · exact Or.inl hi
    · exact Or.inr ⟨h,hi⟩

theorem completed_of_mentioned_nil {answer : List Char} {n : ℕ} (h : mentioned answer n = []) :
    completed answer n = List.range n := by
  rw [completed,h,List.nil_append]
  exact List.filter_eq_self.mpr fun i _ => by simp

/-- The candidates with these indices. -/
def picked (fused : List (RetrievedChunk D)) (order : List ℕ) : List (RetrievedChunk D) :=
  order.filterMap fun i => fused[i]?

theorem picked_range (fused : List (RetrievedChunk D)) :
    picked fused (List.range fused.length) = fused := by
  induction fused with
  | nil => rfl
  | cons c fused ih =>
    rw [List.length_cons,List.range_succ_eq_map,picked,List.filterMap_cons_some List.getElem?_cons_zero,
      List.filterMap_map]
    exact congrArg (List.cons c) ih

theorem picked_perm (fused : List (RetrievedChunk D)) {order : List ℕ}
    (h : order.Perm (List.range fused.length)) : (picked fused order).Perm fused := by
  have hperm := h.filterMap fun i => fused[i]?
  rw [← picked,← picked,picked_range] at hperm
  exact hperm

theorem mapM_getElem? (fused : List (RetrievedChunk D)) {order : List ℕ}
    (h : ∀ i ∈ order, i < fused.length) :
    (order.mapM fun i => fused[i]?) = some (picked fused order) := by
  induction order with
  | nil => rfl
  | cons i order ih =>
    have hi : fused[i]? = some (fused.get ⟨i,h i List.mem_cons_self⟩) := List.getElem?_eq_getElem _
    have hpicked : picked fused (i::order) = fused.get ⟨i,h i List.mem_cons_self⟩::picked fused order :=
      List.filterMap_cons_some hi
    rw [List.mapM_cons,ih fun j hj => h j (List.mem_cons_of_mem i hj),hi,hpicked]
    rfl

/-! ### What the reranker returns -/

theorem limit_le (fused : List (RetrievedChunk D)) (topK : ℤ) : limit fused topK ≤ fused.length := by
  rw [limit]
  split
  · exact le_rfl
  · exact min_le_right _ _

theorem fallback_eq (fused : List (RetrievedChunk D)) (topK : ℤ) :
    fallback fused (limit fused topK) = fused.take (limit fused topK) := by
  rw [fallback,min_eq_left (limit_le fused topK)]

theorem passThrough_eq (query : String) (fused : List (RetrievedChunk D)) (topK : ℤ) :
    Reranker.rerank RrfPassThroughReranker.mk query fused topK = fused.take (limit fused topK) := by
  change (if topK ≤ 0 ∨ (fused.length : ℤ) ≤ topK then fused else fused.take topK.toNat) = _
  rw [limit]
  by_cases hall : topK ≤ 0
  · rw [if_pos (Or.inl hall),if_pos hall,List.take_length]
  · rw [if_neg hall]
    by_cases hmore : (fused.length : ℤ) ≤ topK
    · rw [if_pos (Or.inr hmore),min_eq_right (by omega),List.take_length]
    · rw [if_neg (by omega),min_eq_left (by omega)]

/-- An answer whose numbers are ints gives the completed order. -/
theorem reordered_eq {answer : Option (List Char)} (hfits : Fits (answer.getD []))
    (fused : List (RetrievedChunk D)) (topK : ℤ) : reordered answer fused (limit fused topK) =
      some ((picked fused (completed (answer.getD []) fused.length)).take (limit fused topK)) := by
  rw [reordered,parseOrder_eq hfits]
  simp only [Option.bind_eq_bind,Option.bind_some,Option.pure_def]
  by_cases hnil : mentioned (answer.getD []) fused.length = []
  · rw [if_pos hnil,completed_of_mentioned_nil hnil,picked_range,← fallback_eq]
    rfl
  · have hperm := completed_perm (answer.getD []) fused.length
    have hne : (completed (answer.getD []) fused.length).isEmpty = false := by
      rw [List.isEmpty_eq_false_iff,completed]
      exact List.append_ne_nil_of_left_ne_nil hnil _
    have hpicked := mapM_getElem? fused fun i hi => List.mem_range.mp (hperm.mem_iff.mp hi)
    have hlength := (picked_perm fused hperm).length_eq
    rw [if_neg hnil,hne,hpicked]
    simp only [Bool.false_eq_true,if_false,Option.bind_some,hlength,min_eq_left (limit_le fused topK)]

theorem reordered_overflow {answer : Option (List Char)} {v : ℕ} (hv : v ∈ numbers (answer.getD []))
    (hbig : 2147483647 < v) (fused : List (RetrievedChunk D)) (n : ℕ) :
    reordered answer fused n = none := by
  rw [reordered,parseOrder_overflow hv hbig]
  rfl

/-- One candidate or none is not reranked. -/
theorem rerank_of_le_one (reranker : LlmReranker) (query : String) {fused : List (RetrievedChunk D)}
    (h : fused.length ≤ 1) (topK : ℤ) :
    Reranker.rerank reranker query fused topK = fused.take (limit fused topK) := by
  refine Eq.trans (if_pos h) ?_
  rw [min_eq_left (limit_le fused topK)]

theorem rerank_error (reranker : LlmReranker) {query : String} {fused : List (RetrievedChunk D)}
    {e : String} (h : reranker.chatModel (prompt query fused) = .error e) (topK : ℤ) :
    Reranker.rerank reranker query fused topK = fused.take (limit fused topK) := by
  by_cases hone : fused.length ≤ 1
  · exact rerank_of_le_one reranker query hone topK
  · refine Eq.trans (if_neg hone) ?_
    rw [h]
    exact fallback_eq fused topK

theorem rerank_ok (reranker : LlmReranker) {query : String} {fused : List (RetrievedChunk D)}
    (hmany : 1 < fused.length) {answer : Option (List Char)}
    (h : reranker.chatModel (prompt query fused) = .ok answer) (topK : ℤ) :
    Reranker.rerank reranker query fused topK =
      (reordered answer fused (limit fused topK)).getD (fused.take (limit fused topK)) := by
  refine Eq.trans (if_neg (by omega)) ?_
  rw [h,← fallback_eq]

/-- The answer of the model orders nothing: it is missing, a number of it is no int, or no number of it
names a candidate. -/
def OrdersNothing (answer : Except String (Option (List Char))) (n : ℕ) : Prop :=
  match answer with
  | .error _ => True
  | .ok none => True
  | .ok (some text) => (∃ v ∈ numbers text, 2147483647 < v) ∨ ∀ v ∈ numbers text, ¬ (1 ≤ v ∧ v ≤ n)

theorem rerank_of_ordersNothing (reranker : LlmReranker) (query : String)
    (fused : List (RetrievedChunk D)) (topK : ℤ)
    (h : OrdersNothing (reranker.chatModel (prompt query fused)) fused.length) :
    Reranker.rerank reranker query fused topK = fused.take (limit fused topK) := by
  obtain hone | hmany := Nat.lt_or_ge 1 fused.length |>.symm
  · exact rerank_of_le_one reranker query hone topK
  · have hnone : ∀ answer : Option (List Char), Fits (answer.getD []) →
        (∀ v ∈ numbers (answer.getD []), ¬ (1 ≤ v ∧ v ≤ fused.length)) →
          reordered answer fused (limit fused topK) = some (fused.take (limit fused topK)) := by
      intro answer hfits hout
      have hnil : mentioned (answer.getD []) fused.length = [] := by
        have hempty : inRange (answer.getD []) fused.length = [] := by
          rw [inRange,List.map_eq_nil_iff,List.filter_eq_nil_iff]
          exact fun v hv => by simpa using hout v hv
        rw [mentioned,hempty]
        rfl
      rw [reordered_eq hfits,completed_of_mentioned_nil hnil,picked_range]
    cases hanswer : reranker.chatModel (prompt query fused) with
    | error e => exact rerank_error reranker hanswer topK
    | ok answer =>
      rw [hanswer] at h
      rw [rerank_ok reranker hmany hanswer]
      cases answer with
      | none =>
        rw [hnone none (by simp [Fits,numbers]) (by simp [numbers])]
        rfl
      | some text =>
        by_cases hover : ∃ v ∈ numbers text, 2147483647 < v
        · obtain ⟨v,hv,hbig⟩ := hover
          rw [@reordered_overflow _ (some text) v hv hbig]
          rfl
        · obtain hbig | hout := h
          · exact absurd hbig hover
          · push Not at hover
            rw [hnone (some text) hover hout]
            rfl

/-- Reranking by the model permutes the candidates and cuts: mentioned candidates first, then the
others in the fused order; an answer that orders nothing leaves what the pass-through reranker gives. -/
theorem rerank_permutes_and_cuts (reranker : LlmReranker) (query : String)
    (fused : List (RetrievedChunk D)) (topK : ℤ) :
    (∃ candidates : List (RetrievedChunk D), candidates.Perm fused ∧
        Reranker.rerank reranker query fused topK =
          candidates.take (if topK ≤ 0 then fused.length else min topK.toNat fused.length)) ∧
      (∀ text, 1 < fused.length → reranker.chatModel (prompt query fused) = .ok (some text) →
        (∀ v ∈ numbers text, v ≤ 2147483647) → Reranker.rerank reranker query fused topK =
          (picked fused (mentioned text fused.length ++ (List.range fused.length).filter
            fun i => i ∉ mentioned text fused.length)).take
              (if topK ≤ 0 then fused.length else min topK.toNat fused.length)) ∧
      (OrdersNothing (reranker.chatModel (prompt query fused)) fused.length →
        Reranker.rerank reranker query fused topK =
          Reranker.rerank RrfPassThroughReranker.mk query fused topK) := by
  have hlisted : ∀ text, 1 < fused.length → reranker.chatModel (prompt query fused) = .ok (some text) →
      Fits text → Reranker.rerank reranker query fused topK =
        (picked fused (completed text fused.length)).take (limit fused topK) := by
    intro text hmany hanswer hfits
    rw [rerank_ok reranker hmany hanswer,@reordered_eq _ (some text) hfits]
    rfl
  refine ⟨?_,hlisted,fun h => ?_⟩
  · by_cases hnothing : OrdersNothing (reranker.chatModel (prompt query fused)) fused.length
    · exact ⟨fused,.rfl,rerank_of_ordersNothing reranker query fused topK hnothing⟩
    · cases hanswer : reranker.chatModel (prompt query fused) with
      | error e => exact ⟨fused,.rfl,rerank_error reranker hanswer topK⟩
      | ok answer =>
        rw [hanswer] at hnothing
        cases answer with
        | none => exact absurd trivial hnothing
        | some text =>
          obtain ⟨hfits,-⟩ := not_or.mp hnothing
          push Not at hfits
          obtain hone | hmany := Nat.lt_or_ge 1 fused.length |>.symm
          · exact ⟨fused,.rfl,rerank_of_le_one reranker query hone topK⟩
          · exact ⟨_,picked_perm fused (completed_perm text fused.length),hlisted text hmany hanswer hfits⟩
  · rw [passThrough_eq]
    exact rerank_of_ordersNothing reranker query fused topK h

end LlmReranker
end AtlasCompliance.RagEngine
