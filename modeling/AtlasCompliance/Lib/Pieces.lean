import AtlasCompliance.Lib.Replace

/-! A text after several replacements as pieces: letters that are kept and words that a mark stands
for. Marks between brackets that no replaced word has are never touched again. -/
namespace AtlasCompliance.Regex

universe u v
variable {α : Type u} {τ : Type v}

/-- A letter of the original text, or a word of it under the mark of some kind. -/
inductive Piece (τ : Type v) (α : Type u) where
  | keep (a : α)
  | mask (kind : τ) (word : List α)

namespace Piece

/-- The text that was edited. -/
def original (ps : List (Piece τ α)) : List α := ps.flatMap fun
  | .keep a => [a]
  | .mask _ word => word

/-- The text that came of it. -/
def rendered (mark : τ → List α) (ps : List (Piece τ α)) : List α := ps.flatMap fun
  | .keep a => [a]
  | .mask kind _ => mark kind

/-- The number of marks of one kind. -/
def masks [DecidableEq τ] (kind : τ) : List (Piece τ α) → ℕ
  | [] => 0
  | .keep _::ps => masks kind ps
  | .mask k _::ps => masks kind ps + if k = kind then 1 else 0

@[simp] theorem original_nil : original ([] : List (Piece τ α)) = [] := rfl

@[simp] theorem rendered_nil (mark : τ → List α) : rendered mark [] = [] := rfl

@[simp] theorem original_keeps (w : List α) (ps : List (Piece τ α)) :
    original (w.map .keep ++ ps) = w ++ original ps := by
  rw [original,List.flatMap_append,List.flatMap_map]
  exact congrArg (· ++ original ps) (List.flatMap_singleton' w)

@[simp] theorem rendered_keeps (mark : τ → List α) (w : List α) (ps : List (Piece τ α)) :
    rendered mark (w.map .keep ++ ps) = w ++ rendered mark ps := by
  rw [rendered,List.flatMap_append,List.flatMap_map]
  exact congrArg (· ++ rendered mark ps) (List.flatMap_singleton' w)

@[simp] theorem masks_keeps [DecidableEq τ] (kind : τ) (w : List α) (ps : List (Piece τ α)) :
    masks kind (w.map .keep ++ ps) = masks kind ps := by
  induction w with
  | nil => rfl
  | cons a w ih => exact ih

end Piece

open Piece

/-- The number of matches among the tokens. -/
def hits : List (Token α) → ℕ
  | [] => 0
  | .keep _::ts => hits ts
  | .hit _ _::ts => hits ts + 1

theorem count_eq_hits (r : Pattern α) (text : List α) : count r text = hits (tokens r text) := by
  rw [count]
  induction tokens r text with
  | nil => rfl
  | cons t ts ih =>
    cases t with
    | keep a => exact ih
    | hit w groups => simpa [hits] using ih

theorem hits_keeps (w : List α) (ts : List (Token α)) : hits (w.map .keep ++ ts) = hits ts := by
  induction w with
  | nil => rfl
  | cons a w ih => exact ih

section Bracketed
variable {mark : τ → List α} {a b : α}

/-- Every mark stands between the same two letters. -/
def Bracketed (mark : τ → List α) (a b : α) : Prop := ∀ k, ∃ m, mark k = a::(m ++ [b])

/-- A word that is not empty, has neither bracket and lies inside no mark. -/
structure Outside (mark : τ → List α) (a b : α) (w : List α) : Prop where
  nonempty : w ≠ []
  opening : a ∉ w
  closing : b ∉ w
  inside : ∀ k, ¬ w <:+: mark k

/-- A word without the opening bracket at the beginning of the text is made of kept letters. -/
theorem keeps_of_rendered (hmark : Bracketed mark a b) {w rest : List α} (ha : a ∉ w)
    {ps : List (Piece τ α)} (h : rendered mark ps = w ++ rest) :
    ∃ qs, ps = w.map .keep ++ qs ∧ rendered mark qs = rest := by
  induction w generalizing ps with
  | nil => exact ⟨ps,rfl,h⟩
  | cons c w ih =>
    cases ps with
    | nil => cases h
    | cons p ps =>
      cases p with
      | keep d =>
        obtain ⟨rfl,htail⟩ : d = c ∧ rendered mark ps = w ++ rest := List.cons.inj h
        obtain ⟨qs,rfl,hqs⟩ := ih (fun hmem => ha (List.mem_cons_of_mem d hmem)) htail
        exact ⟨qs,rfl,hqs⟩
      | mask k u =>
        obtain ⟨m,hm⟩ := hmark k
        have h' : mark k ++ rendered mark ps = c::(w ++ rest) := h
        rw [hm] at h'
        exact absurd ((List.cons.inj h').1 ▸ List.mem_cons_self) ha

/-- The tokens at a mark keep its letters. -/
theorem keeps_of_tokens (hmark : Bracketed mark a b) (k : τ) {m rest : List α}
    (hm : m <:+ mark k) {ts : List (Token α)} (h : ts.flatMap Token.text = m ++ rest)
    (hout : ∀ w groups, .hit w groups ∈ ts → Outside mark a b w) :
    ∃ ts', ts = m.map .keep ++ ts' ∧ ts'.flatMap Token.text = rest := by
  induction m generalizing ts with
  | nil => exact ⟨ts,rfl,h⟩
  | cons c m ih =>
    cases ts with
    | nil => cases h
    | cons t ts =>
      cases t with
      | keep d =>
        obtain ⟨rfl,htail⟩ : d = c ∧ ts.flatMap Token.text = m ++ rest := List.cons.inj h
        obtain ⟨ts',rfl,hts'⟩ := ih ((List.suffix_cons d m).trans hm) htail
          fun w groups hw => hout w groups (List.mem_cons_of_mem _ hw)
        exact ⟨ts',rfl,hts'⟩
      | hit w groups =>
        exfalso
        have hw := hout w groups List.mem_cons_self
        have h' : w ++ ts.flatMap Token.text = c::m ++ rest := h
        obtain hle | hle := List.prefix_or_prefix_of_prefix (List.prefix_append w _)
          (h' ▸ List.prefix_append (c::m) rest)
        · exact hw.inside k (hle.isInfix.trans hm.isInfix)
        · obtain ⟨x,hx⟩ := hmark k
          have hlast : (c::m).getLast (by simp) = b := by
            rw [hm.getLast (by simp)]
            simp [hx]
          exact hw.closing (hle.subset (hlast ▸ List.getLast_mem (by simp)))

/-- The pieces after the hits of one more pass, each under the mark of its kind. -/
theorem exists_pieces [DecidableEq τ] (hmark : Bracketed mark a b) (kind : τ)
    {ts : List (Token α)} {ps : List (Piece τ α)}
    (h : ts.flatMap Token.text = rendered mark ps)
    (hout : ∀ w groups, .hit w groups ∈ ts → Outside mark a b w) :
    ∃ qs, original qs = original ps ∧ rendered mark qs = marked (mark kind) ts ∧
      ∀ k, masks k qs = masks k ps + if k = kind then hits ts else 0 := by
  induction hn : ts.length using Nat.strong_induction_on generalizing ts ps with
  | _ n ih =>
    cases ps with
    | nil =>
      cases ts with
      | nil => exact ⟨[],rfl,rfl,fun k => by simp [masks,hits]⟩
      | cons t ts =>
        cases t with
        | keep d => cases h
        | hit w groups =>
          exact absurd (List.append_eq_nil_iff.mp h).1 (hout w groups List.mem_cons_self).nonempty
    | cons p ps =>
      cases p with
      | mask k u =>
        have hk : ts.flatMap Token.text = mark k ++ rendered mark ps := h
        obtain ⟨ts',rfl,hts'⟩ := keeps_of_tokens hmark k List.suffix_rfl hk hout
        have hpos : 0 < (mark k).length := by
          obtain ⟨m,hm⟩ := hmark k
          simp [hm]
        obtain ⟨qs,horiginal,hrendered,hmasks⟩ := ih ts'.length
          (by rw [← hn,List.length_append,List.length_map]; omega) hts'
          (fun w groups hw => hout w groups (List.mem_append_right _ hw)) rfl
        refine ⟨.mask k u::qs,congrArg (u ++ ·) horiginal,?_,fun k' => ?_⟩
        · change mark k ++ rendered mark qs = _
          rw [hrendered,marked,marked,List.flatMap_append,List.flatMap_map]
          exact congrArg (· ++ _) (List.flatMap_singleton' (mark k)).symm
        · simp only [masks,hmasks,hits_keeps]
          omega
      | keep d =>
        have hd : ts.flatMap Token.text = d::rendered mark ps := h
        cases ts with
        | nil => cases hd
        | cons t ts =>
          cases t with
          | keep c =>
            obtain ⟨rfl,hrest⟩ := List.cons.inj hd
            obtain ⟨qs,horiginal,hrendered,hmasks⟩ := ih ts.length (by simp [← hn]) hrest
              (fun w groups hw => hout w groups (List.mem_cons_of_mem _ hw)) rfl
            exact ⟨.keep c::qs,congrArg (c::·) horiginal,congrArg (c::·) hrendered,hmasks⟩
          | hit w groups =>
            have hw := hout w groups List.mem_cons_self
            have hstart : rendered mark (.keep d::ps) = w ++ ts.flatMap Token.text := h ▸ rfl
            obtain ⟨rs,hps,hrest⟩ := keeps_of_rendered hmark hw.opening hstart
            obtain ⟨qs,horiginal,hrendered,hmasks⟩ := ih ts.length (by simp [← hn]) hrest.symm
              (fun w groups hw => hout w groups (List.mem_cons_of_mem _ hw)) rfl
            refine ⟨.mask kind w::qs,?_,congrArg (mark kind ++ ·) hrendered,fun k => ?_⟩
            · rw [hps,original_keeps,← horiginal]
              rfl
            · rw [hps,masks_keeps]
              simp only [masks,hmasks,hits,eq_comm (a := kind)]
              split_ifs <;> omega

/-- One more replacement of words that lie outside the marks. -/
theorem exists_pieces_replaceAll [DecidableEq τ] (hmark : Bracketed mark a b)
    {edge : Option α → Option α → Bool} {K : Language α} {r : Pattern α} (hr : Framed edge K r)
    (hK : ∀ w ∈ K, Outside mark a b w) (kind : τ) (ps : List (Piece τ α)) :
    ∃ qs, original qs = original ps ∧
      rendered mark qs = replaceAll r (mark kind) (rendered mark ps) ∧
      ∀ k, masks k qs = masks k ps + if k = kind then count r (rendered mark ps) else 0 := by
  have hscanned := scanned_tokens (hr.proper fun hnil => (hK [] hnil).nonempty rfl)
    (rendered mark ps)
  have hout : ∀ {before after ts}, Scanned r before after ts →
      ∀ w groups, Token.hit w groups ∈ ts → Outside mark a b w := by
    intro before after ts h
    induction h with
    | done before => intro w groups hw; cases hw
    | keep hnone hrest ih =>
      intro w groups hw
      obtain hw | hw := List.mem_cons.mp hw
      · cases hw
      · exact ih w groups hw
    | hit hw hsome hrest ih =>
      intro v groups hv
      obtain hv | hv := List.mem_cons.mp hv
      · obtain ⟨rfl,-⟩ := Token.hit.inj hv
        obtain ⟨u,hu,hafter,-⟩ := ((hr _ _).mp (List.mem_of_mem_head? hsome)).1
        exact hK _ (List.append_cancel_right hafter ▸ hu)
      · exact ih v groups hv
  rw [count_eq_hits]
  exact exists_pieces hmark kind hscanned.text (hout hscanned)

end Bracketed

end AtlasCompliance.Regex
