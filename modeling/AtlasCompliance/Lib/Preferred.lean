import AtlasCompliance.Lib.Scan

/-! Backtracking by what follows a pattern: its ends are tried in order until the rest of the match
succeeds. A rest that cannot fail takes the first end; one that needs another letter than the
repeated one takes the whole run. -/
namespace AtlasCompliance.Regex

universe u v
variable {α : Type u} {β : Type v}

/-- What the rest `k` of a match makes of the first end that it can go on from. -/
def Pattern.prefer (r : Pattern α) (k : Cursor α → Option β) (c : Cursor α) : Option β :=
  (r.ends c).findSome? k

theorem findSome?_flatMap {γ : Type*} (xs : List γ) (f : γ → List α) (k : α → Option β) :
    (xs.flatMap f).findSome? k = xs.findSome? fun x => (f x).findSome? k := by
  induction xs with
  | nil => rfl
  | cons x xs ih =>
    rw [List.flatMap_cons,List.findSome?_append,ih,List.findSome?_cons]
    cases (f x).findSome? k <;> rfl

section Rules
variable (k : Cursor α → Option β)

@[simp] theorem prefer_empty (c : Cursor α) : Pattern.empty.prefer k c = k c := by
  simp [Pattern.prefer,Pattern.ends,List.findSome?_cons]
  cases k c <;> rfl

theorem prefer_sat_nil (p : α → Bool) (before : List α) (groups : List (ℕ × List α)) :
    (Pattern.sat p).prefer k ⟨before,[],groups⟩ = none := rfl

theorem prefer_sat (p : α → Bool) (before rest : List α) (a : α) (groups : List (ℕ × List α)) :
    (Pattern.sat p).prefer k ⟨before,a::rest,groups⟩ =
      if p a = true then k ⟨a::before,rest,groups⟩ else none := by
  rw [Pattern.prefer,sat_ends]
  split_ifs with ha
  · rw [List.findSome?_cons]
    cases k ⟨a::before,rest,groups⟩ <;> rfl
  · rfl

theorem prefer_seq (r s : Pattern α) (c : Cursor α) :
    (Pattern.seq r s).prefer k c = r.prefer (s.prefer k) c :=
  findSome?_flatMap (r.ends c) s.ends k

theorem prefer_alt (r s : Pattern α) (c : Cursor α) :
    (Pattern.alt r s).prefer k c = (r.prefer k c).or (s.prefer k c) := List.findSome?_append

theorem prefer_opt (r : Pattern α) (c : Cursor α) :
    r.opt.prefer k c = (r.prefer k c).or (k c) := by
  rw [Pattern.opt,prefer_alt,prefer_empty]

theorem prefer_group (n : ℕ) (r : Pattern α) (c : Cursor α) :
    (Pattern.group n r).prefer k c = r.prefer (fun d => k {d with groups :=
      (n,c.after.take (c.after.length - d.after.length))::d.groups}) c := List.findSome?_map

end Rules

/-- The match of a whole pattern is its first end. -/
theorem head?_bind_eq_prefer {r : Pattern α} {k : Cursor α → Option β}
    (hk : ∀ c, ∀ d ∈ r.ends c, (k d).isSome) (c : Cursor α) :
    (r.ends c).head?.bind k = r.prefer k c := by
  rw [Pattern.prefer]
  cases hends : r.ends c with
  | nil => rfl
  | cons d ends =>
    have hd := hk c d (hends ▸ List.mem_cons_self)
    rw [List.findSome?_cons_of_isSome hd]
    rfl

/-- A rest that cannot fail. -/
def Total (k : Cursor α → Option β) : Prop := ∀ c, (k c).isSome

theorem Total.prefer {k : Cursor α → Option β} (hk : Total k) (r : Pattern α) (c : Cursor α) :
    r.prefer k c = (r.ends c).head?.bind k := (head?_bind_eq_prefer (fun _ d _ => hk d) c).symm

theorem Total.prefer_opt {k : Cursor α → Option β} (hk : Total k) (r : Pattern α) :
    Total (r.opt.prefer k) := by
  intro c
  rw [Regex.prefer_opt,Option.isSome_or,hk c,Bool.or_true]

/-- The place behind the run of a repeated letter. -/
def Cursor.past (p : α → Bool) (c : Cursor α) : Cursor α :=
  ⟨(c.after.takeWhile p).reverse ++ c.before,c.after.dropWhile p,c.groups⟩

theorem Total.prefer_plus_sat {k : Cursor α → Option β} (hk : Total k) (p : α → Bool)
    (c : Cursor α) : (Pattern.plus (.sat p)).prefer k c =
      if c.after.takeWhile p = [] then none else k (c.past p) := by
  obtain ⟨before,after,groups⟩ := c
  rw [hk.prefer,plus_sat_head]
  split_ifs <;> rfl

/-- A pattern that is read in one way at most. -/
def Pattern.Single (r : Pattern α) (next : Cursor α → Option (Cursor α)) : Prop :=
  ∀ c, r.ends c = (next c).toList

/-- Round after round, as long as there is one. -/
inductive Rounds (next : Cursor α → Option (Cursor α)) : Cursor α → Cursor α → Prop
  | stop {c : Cursor α} (h : next c = none) : Rounds next c c
  | step {c d e : Cursor α} (h : next c = some d) (hrest : Rounds next d e) : Rounds next c e

/-- A greedy repetition makes all the rounds first. -/
theorem Rounds.star_head {r : Pattern α} {next : Cursor α → Option (Cursor α)} (hr : r.Single next)
    (hproper : r.Proper) {c e : Cursor α} (h : Rounds next c e) :
    ((Pattern.star true r).ends c).head? = some e := by
  suffices hfuel : ∀ fuel, c.after.length ≤ fuel →
      (starEnds true r.ends fuel c).head? = some e from hfuel _ le_rfl
  induction h with
  | @stop c hnone =>
    intro fuel _
    cases fuel with
    | zero => rfl
    | succ fuel => simp [starEnds,hr c,hnone]
  | @step c d e hsome hrest ih =>
    intro fuel hfuel
    have hlt : d.after.length < c.after.length := hproper c d (by simp [hr c,hsome])
    cases fuel with
    | zero => omega
    | succ fuel => simp [starEnds,hr c,hsome,hlt,ih fuel (by omega)]

theorem Pattern.Single.prefer {r : Pattern α} {next : Cursor α → Option (Cursor α)}
    (hr : r.Single next) (k : Cursor α → Option β) (c : Cursor α) :
    r.prefer k c = (next c).bind k := by
  rw [Pattern.prefer,hr c]
  cases next c with
  | none => rfl
  | some d =>
    rw [Option.toList_some,List.findSome?_cons]
    cases h : k d <;> simp [h]

/-- A rest that cannot begin with a letter of the run. -/
def Strict (p : α → Bool) (k : Cursor α → Option β) : Prop :=
  ∀ before a rest groups, p a = true → k ⟨before,a::rest,groups⟩ = none

/-- Some letters of a run are not enough: the whole run is taken, or there is no match. -/
theorem Strict.prefer_upTo {p : α → Bool} {k : Cursor α → Option β} (hk : Strict p k) (n : ℕ)
    (c : Cursor α) : (Pattern.upTo n (.sat p)).prefer k c =
      if (c.after.takeWhile p).length ≤ n then k (c.past p) else none := by
  induction n generalizing c with
  | zero =>
    obtain ⟨before,after,groups⟩ := c
    rw [Pattern.upTo,prefer_empty]
    cases after with
    | nil => rfl
    | cons a rest =>
      by_cases ha : p a = true
      · simp [ha,hk before a rest groups ha]
      · simp [ha,Cursor.past]
  | succ n ih =>
    obtain ⟨before,after,groups⟩ := c
    rw [Pattern.upTo,prefer_opt,prefer_seq]
    cases after with
    | nil => rfl
    | cons a rest =>
      rw [prefer_sat]
      by_cases ha : p a = true
      · rw [if_pos ha,ih,hk before a rest groups ha,Option.or_none]
        simp [ha,Cursor.past]
      · simp [ha,Cursor.past]

/-- At least one letter and at most `n` more. -/
theorem Strict.prefer_between {p : α → Bool} {k : Cursor α → Option β} (hk : Strict p k) (n : ℕ)
    (c : Cursor α) : (Pattern.between 1 n (.sat p)).prefer k c =
      if c.after.takeWhile p ≠ [] ∧ (c.after.takeWhile p).length ≤ n + 1 then k (c.past p)
      else none := by
  obtain ⟨before,after,groups⟩ := c
  rw [Pattern.between,Pattern.times,Pattern.times,prefer_seq,prefer_seq]
  cases after with
  | nil => rfl
  | cons a rest =>
    rw [prefer_sat]
    by_cases ha : p a = true
    · rw [if_pos ha,prefer_empty,hk.prefer_upTo]
      simp [ha,Cursor.past]
    · simp [ha]

end AtlasCompliance.Regex
