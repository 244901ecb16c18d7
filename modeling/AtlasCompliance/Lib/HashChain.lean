import Mathlib

/-! Hash-linked logs over an arbitrary record type: the checker, its first-fault report,
the binding of a whole log by its head hash, and the absence of forks. -/
namespace AtlasCompliance

universe u v w

/-- What a checker reads of one record: the stored link to the predecessor, the stored
hash, and the hash recomputed from the record's contents. -/
structure HashChain (α : Type u) (β : Type v) where
  prev : α → β
  hash : α → β
  digest : α → β

namespace HashChain
variable {α : Type u} {β : Type v} (C : HashChain α β)

inductive Fault
  | link
  | digest
  deriving DecidableEq, Repr

/-- The hash the next record has to link to; the genesis value for an empty log. -/
def head : β → List α → β
  | g, [] => g
  | _, r::rs => head (C.hash r) rs

@[simp] theorem head_nil (g : β) : C.head g [] = g := rfl
@[simp] theorem head_concat (g : β) (rows : List α) (r : α) :
    C.head g (rows ++ [r]) = C.hash r := by
  induction rows generalizing g with
  | nil => rfl
  | cons x rows ih => exact ih (C.hash x)

variable [DecidableEq β]

/-- Walk the log with the expected link, stopping at the first record that fails. -/
def check : β → List α → Option (α × Fault)
  | _, [] => none
  | e, r::rs =>
    if C.prev r ≠ e then some (r,.link)
    else if C.digest r ≠ C.hash r then some (r,.digest)
    else check (C.hash r) rs

def Valid (g : β) (rows : List α) : Prop := C.check g rows = none

@[simp] theorem valid_nil (g : β) : C.Valid g [] := rfl

theorem valid_cons (g : β) (r : α) (rows : List α) :
    C.Valid g (r::rows) ↔ C.prev r = g ∧ C.digest r = C.hash r ∧ C.Valid (C.hash r) rows := by
  by_cases hp : C.prev r = g <;> by_cases hd : C.digest r = C.hash r <;>
    simp [Valid,check,hp,hd]

/-- Checking a concatenation is checking the first part, then the second from its head. -/
theorem check_append (g : β) (xs ys : List α) :
    C.check g (xs ++ ys) = (C.check g xs).or (C.check (C.head g xs) ys) := by
  induction xs generalizing g with
  | nil => rfl
  | cons x xs ih =>
    by_cases hp : C.prev x = g <;> by_cases hd : C.digest x = C.hash x <;>
      simp [check,head,hp,hd,ih]

theorem valid_append (g : β) (xs ys : List α) :
    C.Valid g (xs ++ ys) ↔ C.Valid g xs ∧ C.Valid (C.head g xs) ys := by
  simp [Valid,check_append]

theorem valid_concat (g : β) (rows : List α) (r : α) :
    C.Valid g (rows ++ [r]) ↔
      C.Valid g rows ∧ C.prev r = C.head g rows ∧ C.digest r = C.hash r := by
  rw [valid_append,valid_cons]
  simp

/-- The exact meaning of a report: everything before the reported record is accepted and
that record is the one whose link, or whose recomputed hash, is wrong. -/
theorem check_eq_some_iff (g : β) (rows : List α) (r : α) (f : Fault) :
    C.check g rows = some (r,f) ↔ ∃ pre post, rows = pre ++ r::post ∧ C.Valid g pre ∧
      match f with
      | .link => C.prev r ≠ C.head g pre
      | .digest => C.prev r = C.head g pre ∧ C.digest r ≠ C.hash r := by
  constructor
  · intro h
    induction rows generalizing g with
    | nil => simp [check] at h
    | cons x rows ih =>
      by_cases hp : C.prev x = g
      · by_cases hd : C.digest x = C.hash x
        · obtain ⟨pre,post,rfl,hv,hf⟩ := ih (C.hash x) (by simpa [check,hp,hd] using h)
          exact ⟨x::pre,post,rfl,(C.valid_cons g x pre).mpr ⟨hp,hd,hv⟩,hf⟩
        · obtain ⟨rfl,rfl⟩ : x = r ∧ Fault.digest = f := by simpa [check,hp,hd] using h
          exact ⟨[],rows,rfl,rfl,hp,hd⟩
      · obtain ⟨rfl,rfl⟩ : x = r ∧ Fault.link = f := by simpa [check,hp] using h
        exact ⟨[],rows,rfl,rfl,hp⟩
  · rintro ⟨pre,post,rfl,hv,hf⟩
    rw [check_append,show C.check g pre = none from hv]
    cases f with
    | link => simp [check,show C.prev r ≠ C.head g pre from hf]
    | digest => simp [check,hf.1,hf.2]

/-- In an accepted log the head is the genesis value or the recomputed hash of a record. -/
theorem head_eq_or_digest {g : β} {rows : List α} (h : C.Valid g rows) :
    C.head g rows = g ∨ ∃ r, C.head g rows = C.digest r := by
  rcases rows.eq_nil_or_concat with rfl | ⟨xs,r,rfl⟩
  · exact Or.inl rfl
  · rw [List.concat_eq_append] at h ⊢
    refine Or.inr ⟨r,?_⟩
    rw [head_concat,((C.valid_concat g xs r).mp h).2.2]

section Binding
variable {γ : Type w} (content : α → γ) (g : β)

/-- Backward induction along two accepted logs: equal heads force equal last records,
and the genesis anchor rules out one log being a proper suffix of the other. -/
theorem valid_binding (P : α → Prop)
    (hinj : ∀ a b, P a → P b → C.digest a = C.digest b → C.prev a = C.prev b ∧ content a = content b)
    (hgen : ∀ a, C.digest a ≠ g) {xs ys : List α}
    (hx : C.Valid g xs) (hy : C.Valid g ys) (hxP : ∀ r ∈ xs, P r) (hyP : ∀ r ∈ ys, P r)
    (hhead : C.head g xs = C.head g ys) : xs.map content = ys.map content := by
  induction xs using List.reverseRecOn generalizing ys with
  | nil =>
    rcases ys.eq_nil_or_concat with rfl | ⟨ys,y,rfl⟩
    · rfl
    · rw [List.concat_eq_append] at hy hhead
      rw [head_nil,head_concat,← ((C.valid_concat g ys y).mp hy).2.2] at hhead
      exact absurd hhead.symm (hgen y)
  | append_singleton xs x ih =>
    obtain ⟨hxs,hxp,hxd⟩ := (C.valid_concat g xs x).mp hx
    rcases ys.eq_nil_or_concat with rfl | ⟨ys,y,rfl⟩
    · rw [head_concat,head_nil,← hxd] at hhead
      exact absurd hhead (hgen x)
    · rw [List.concat_eq_append] at hy hhead hyP ⊢
      obtain ⟨hys,hyp,hyd⟩ := (C.valid_concat g ys y).mp hy
      rw [head_concat,head_concat,← hxd,← hyd] at hhead
      obtain ⟨hp,hc⟩ := hinj x y (hxP x (by simp)) (hyP y (by simp)) hhead
      rw [hxp,hyp] at hp
      have hrest := ih hxs hys (fun r hr => hxP r (by simp [hr])) (fun r hr => hyP r (by simp [hr])) hp
      simp [hrest,hc]

/-- Accepted logs with the same head have the same length, whatever they contain. -/
theorem valid_length_eq (P : α → Prop)
    (hinj : ∀ a b, P a → P b → C.digest a = C.digest b → C.prev a = C.prev b)
    (hgen : ∀ a, C.digest a ≠ g) {xs ys : List α} (hx : C.Valid g xs) (hy : C.Valid g ys)
    (hxP : ∀ r ∈ xs, P r) (hyP : ∀ r ∈ ys, P r)
    (hhead : C.head g xs = C.head g ys) : xs.length = ys.length := by
  have h := C.valid_binding (fun _ => ()) g P
    (fun a b ha hb hab => ⟨hinj a b ha hb hab,rfl⟩) hgen hx hy hxP hyP hhead
  simpa using congrArg List.length h

/-- No record of an accepted log links to the head: that would repeat an earlier head. -/
theorem head_not_mem_prevs (P : α → Prop)
    (hinj : ∀ a b, P a → P b → C.digest a = C.digest b → C.prev a = C.prev b)
    (hgen : ∀ a, C.digest a ≠ g) {rows : List α} (h : C.Valid g rows) (hP : ∀ r ∈ rows, P r) :
    C.head g rows ∉ rows.map C.prev := by
  intro hmem
  obtain ⟨r,hr,hprev⟩ := List.mem_map.mp hmem
  obtain ⟨pre,post,rfl⟩ := List.append_of_mem hr
  obtain ⟨hpre,hrest⟩ := (C.valid_append g pre (r::post)).mp h
  have hlink := ((C.valid_cons _ r post).mp hrest).1
  have hlen := C.valid_length_eq g P hinj hgen hpre h (fun x hx => hP x (by simp [hx])) hP
    (hlink.symm.trans hprev)
  simp at hlen

/-- No fork: the links of an accepted log are pairwise distinct. -/
theorem prevs_nodup (P : α → Prop)
    (hinj : ∀ a b, P a → P b → C.digest a = C.digest b → C.prev a = C.prev b)
    (hgen : ∀ a, C.digest a ≠ g) {rows : List α} (h : C.Valid g rows) (hP : ∀ r ∈ rows, P r) :
    (rows.map C.prev).Nodup := by
  induction rows using List.reverseRecOn with
  | nil => simp
  | append_singleton rows r ih =>
    obtain ⟨hv,hp,_⟩ := (C.valid_concat g rows r).mp h
    have hrest : ∀ x ∈ rows, P x := fun x hx => hP x (by simp [hx])
    rw [List.map_append,List.nodup_append]
    refine ⟨ih hv hrest,by simp,?_⟩
    rintro p hmem q hq rfl
    obtain rfl : p = C.prev r := by simpa using hq
    rw [hp] at hmem
    exact C.head_not_mem_prevs g P hinj hgen hv hrest hmem

end Binding
end HashChain
end AtlasCompliance
