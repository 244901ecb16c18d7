import Mathlib

/-! Recorded calls under keys: a call overwrites what its key has, or is kept only where the key has
nothing yet. What is replayed is right exactly where the keys tell the answers apart. -/
namespace AtlasCompliance.Recording

universe u v w
variable {α : Type u} {κ : Type v} {ρ : Type w} [DecidableEq κ] {key : α → κ}

/-- What is kept after a call: the call itself, unless it may not overwrite and something is there. -/
def keep (overwrite : Bool) (kept : Option α) (a : α) : Option α :=
  if overwrite then some a else kept.or (some a)

/-- The call whose answer a key has. -/
def kept (key : α → κ) (k : κ) (calls : List (Bool × α)) : Option α :=
  calls.foldl (fun kept call => if key call.2 = k then keep call.1 kept call.2 else kept) none

@[simp] theorem kept_nil (k : κ) : kept key k [] = none := rfl

theorem kept_append (k : κ) (calls : List (Bool × α)) (call : Bool × α) :
    kept key k (calls ++ [call]) =
      if key call.2 = k then keep call.1 (kept key k calls) call.2 else kept key k calls := by
  simp [kept]

theorem keep_eq_some {overwrite : Bool} {kept : Option α} {a b : α} (h : keep overwrite kept a = some b) :
    b = a ∨ kept = some b := by
  unfold keep at h
  split_ifs at h
  · exact Or.inl (Option.some.inj h).symm
  · cases kept with
    | none => exact Or.inl (Option.some.inj h).symm
    | some c => exact Or.inr h

/-- What is kept was called under its key. -/
theorem mem_of_kept {k : κ} {calls : List (Bool × α)} {a : α} (h : kept key k calls = some a) :
    key a = k ∧ a ∈ calls.map Prod.snd := by
  induction calls using List.reverseRecOn with
  | nil => cases h
  | append_singleton calls call ih =>
    rw [kept_append] at h
    rw [List.map_append,List.mem_append]
    split_ifs at h with hkey
    · obtain rfl | hold := keep_eq_some h
      · exact ⟨hkey,Or.inr (List.mem_singleton_self _)⟩
      · exact ⟨(ih hold).1,Or.inl (ih hold).2⟩
    · exact ⟨(ih h).1,Or.inl (ih h).2⟩

/-- Nothing is kept under a key that no call had. -/
theorem kept_eq_none {k : κ} {calls : List (Bool × α)} :
    kept key k calls = none ↔ ∀ a ∈ calls.map Prod.snd, key a ≠ k := by
  constructor
  · intro h
    induction calls using List.reverseRecOn with
    | nil => simp
    | append_singleton calls call ih =>
      rw [kept_append] at h
      split_ifs at h with hkey
      · unfold keep at h
        split_ifs at h
        simp at h
      · intro a ha
        rw [List.map_append,List.mem_append] at ha
        obtain ha | ha := ha
        · exact ih h a ha
        · rw [List.map_singleton,List.mem_singleton] at ha
          exact ha ▸ hkey
  · intro h
    cases hkept : kept key k calls with
    | none => rfl
    | some a =>
      obtain ⟨hkey,hmem⟩ := mem_of_kept hkept
      exact absurd hkey (h a hmem)

/-- Every call is answered as it was, exactly where calls of one key have one answer. -/
theorem answers_iff (answer : α → ρ) (calls : List (Bool × α)) :
    (∀ a ∈ calls.map Prod.snd, (kept key (key a) calls).map answer = some (answer a)) ↔
      ∀ a ∈ calls.map Prod.snd, ∀ b ∈ calls.map Prod.snd, key a = key b → answer a = answer b := by
  constructor
  · intro h a ha b hb hkey
    have hsame := h a ha
    rw [hkey,h b hb] at hsame
    exact (Option.some.inj hsame).symm
  · intro h a ha
    cases hkept : kept key (key a) calls with
    | none => exact absurd rfl (kept_eq_none.mp hkept a ha)
    | some b =>
      obtain ⟨hkey,hb⟩ := mem_of_kept hkept
      rw [Option.map_some,h b hb a ha hkey]

end AtlasCompliance.Recording
