import Mathlib

/-! Reading a list page by page: pages of a list that stays as it is give it back, and pages of a list
that grows at its front pass over nothing. -/
namespace AtlasCompliance.Pages

universe u
variable {α : Type u}

/-- The page with the number `k`, of `size` items at most. -/
def page (size k : ℕ) (l : List α) : List α := (l.drop (k*size)).take size

/-- What is in front of a page's end and not in front of its beginning. -/
theorem take_append_page (size k : ℕ) (l : List α) :
    l.take (k*size) ++ page size k l = l.take ((k+1)*size) := by
  rw [page,Nat.add_mul,Nat.one_mul,List.take_add]

/-- The first pages, one behind the other. -/
theorem flatMap_page (size n : ℕ) (l : List α) :
    (List.range n).flatMap (fun k => page size k l) = l.take (n*size) := by
  induction n with
  | zero => simp
  | succ n ih =>
    rw [List.range_succ,List.flatMap_append,ih,List.flatMap_singleton]
    exact take_append_page size n l

theorem drop_suffix_append (n : ℕ) (new l : List α) : l.drop n <:+ (new ++ l).drop n := by
  rw [List.drop_append]
  have hsub : l.drop n <:+ l.drop (n - new.length) := by
    have h := List.drop_suffix (n - (n - new.length)) (l.drop (n - new.length))
    rwa [List.drop_drop,Nat.add_sub_cancel' (Nat.sub_le _ _)] at h
  exact hsub.trans (List.suffix_append _ _)

/-- What is not in front of a page is on it or behind it. -/
theorem mem_page_or_mem_drop {size k : ℕ} {l : List α} {a : α} (h : a ∈ l.drop (k*size)) :
    a ∈ page size k l ∨ a ∈ l.drop ((k+1)*size) := by
  rw [← List.take_append_drop size (l.drop (k*size)),List.mem_append,List.drop_drop] at h
  rwa [page,Nat.add_mul,Nat.one_mul]

/-- When the list grows at its front between the reads, every item of the first list has been read or is
still to come. -/
theorem read_or_ahead {size : ℕ} {ls : ℕ → List α} (hgrow : ∀ k, ∃ new, ls (k+1) = new ++ ls k) {a : α}
    (ha : a ∈ ls 0) (m : ℕ) :
    (∃ k ≤ m, a ∈ page size k (ls k)) ∨ a ∈ (ls m).drop ((m+1)*size) := by
  induction m with
  | zero =>
    obtain hpage | hahead := @mem_page_or_mem_drop α size 0 (ls 0) a (by simpa using ha)
    · exact Or.inl ⟨0,le_rfl,hpage⟩
    · exact Or.inr hahead
  | succ m ih =>
    obtain ⟨k,hk,hpage⟩ | hahead := ih
    · exact Or.inl ⟨k,Nat.le_succ_of_le hk,hpage⟩
    · obtain ⟨new,hnew⟩ := hgrow m
      have hstill : a ∈ (ls (m+1)).drop ((m+1)*size) := by
        rw [hnew]
        exact (drop_suffix_append _ new (ls m)).subset hahead
      obtain hpage | hahead := mem_page_or_mem_drop hstill
      · exact Or.inl ⟨m+1,le_rfl,hpage⟩
      · exact Or.inr hahead

/-- A page that is not full is the last one. -/
theorem drop_eq_nil_of_length_lt {size k : ℕ} {l : List α} (h : (page size k l).length < size) :
    l.drop ((k+1)*size) = [] := by
  rw [page,List.length_take,List.length_drop] at h
  rw [List.drop_eq_nil_iff,Nat.add_mul,Nat.one_mul]
  omega

end AtlasCompliance.Pages
