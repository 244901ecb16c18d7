import Mathlib

/-! Properties of a growing record that say of each entry what came before it. -/
namespace AtlasCompliance.History

universe u
variable {ε : Type u} {P Q : List ε → ε → Prop}

/-- Every entry of the record stands in the relation to the entries before it. -/
def Follows (P : List ε → ε → Prop) (log : List ε) : Prop :=
  ∀ pre e post, log = pre ++ e::post → P pre e

theorem follows_nil : Follows P [] := by
  intro pre e post h
  simp at h

/-- A record extended by entries that look back on all of it. -/
theorem Follows.append {log es : List ε} (h : Follows P log)
    (hes : ∀ pre e post, es = pre ++ e::post → P (log ++ pre) e) : Follows P (log ++ es) := by
  intro pre e post he
  rcases List.append_eq_append_iff.mp he with ⟨mid,rfl,hm⟩ | ⟨mid,hl,hm⟩
  · exact hes mid e post hm
  · cases mid with
    | nil =>
      obtain rfl : log = pre := by simpa using hl
      simpa using hes [] e post hm.symm
    | cons x mid =>
      obtain ⟨rfl,-⟩ := List.cons.inj hm
      exact h pre e mid hl

/-- One more entry. -/
theorem Follows.concat {log : List ε} {e : ε} (h : Follows P log) (he : P log e) :
    Follows P (log ++ [e]) := by
  refine h.append fun pre x post hx => ?_
  cases pre with
  | nil =>
    obtain ⟨rfl,-⟩ := List.cons.inj hx
    rwa [List.append_nil]
  | cons y pre => simp at hx

theorem Follows.mono {log : List ε} (h : Follows P log)
    (hPQ : ∀ pre e, P pre e → Q pre e) : Follows Q log :=
  fun pre e post he => hPQ pre e (h pre e post he)

/-- The image of a record. -/
theorem Follows.map {ι : Type*} {R : List ι → ι → Prop} {log : List ι} {f : ι → ε}
    (h : Follows R log) (hf : ∀ pre e, R pre e → P (pre.map f) (f e)) : Follows P (log.map f) := by
  intro pre e post he
  obtain ⟨pre',rest,rfl,rfl,hrest⟩ := List.map_eq_append_iff.mp he
  obtain ⟨e',post',rfl,rfl,-⟩ := List.map_eq_cons_iff.mp hrest
  exact hf pre' e' (h pre' e' post' rfl)

/-- Entries that are fine after any record. -/
theorem Follows.of_forall {log : List ε} (h : ∀ e ∈ log, ∀ pre, P pre e) : Follows P log :=
  fun pre e _ he => h e (he ▸ List.mem_append_right pre List.mem_cons_self) pre

end AtlasCompliance.History
