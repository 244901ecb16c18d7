import AtlasCompliance.Lib.RegexLanguage

/-! What a scan does to a text when no match is empty: the text cut at the first match of each place
that is reached, as a derivation to be followed by induction instead of the scan's fuel. -/
namespace AtlasCompliance.Regex

universe u
variable {α : Type u}

/-- One place is reached from another by reading on. -/
def Moves (c d : Cursor α) : Prop :=
  ∃ w, c.after = w ++ d.after ∧ d.before = w.reverse ++ c.before

theorem Moves.refl (c : Cursor α) : Moves c c := ⟨[],rfl,rfl⟩

theorem Moves.trans {c d e : Cursor α} (h : Moves c d) (k : Moves d e) : Moves c e := by
  obtain ⟨v,hafter,hbefore⟩ := h
  obtain ⟨w,hafter',hbefore'⟩ := k
  exact ⟨v ++ w,by simp [hafter,hafter'],by simp [hbefore,hbefore']⟩

theorem readWord_moves {same : α → α → Bool} {w : List α} {c d : Cursor α}
    (h : d ∈ readWord same w c) : Moves c d := by
  induction w generalizing c with
  | nil =>
    obtain rfl := List.mem_singleton.mp h
    exact Moves.refl d
  | cons a w ih =>
    obtain ⟨before,after,groups⟩ := c
    cases after with
    | nil => simp [readWord] at h
    | cons b rest =>
      by_cases hab : same a b = true
      · rw [readWord,if_pos hab] at h
        exact Moves.trans ⟨[b],rfl,rfl⟩ (ih h)
      · simp [readWord,hab] at h

theorem starEnds_moves {greedy : Bool} {f : Cursor α → List (Cursor α)}
    (hf : ∀ c d, d ∈ f c → Moves c d) {fuel : ℕ} {c d : Cursor α}
    (h : d ∈ starEnds greedy f fuel c) : Moves c d := by
  induction fuel generalizing c with
  | zero =>
    obtain rfl := List.mem_singleton.mp h
    exact Moves.refl d
  | succ fuel ih =>
    have hmem : d = c ∨ ∃ e ∈ f c, d ∈ starEnds greedy f fuel e := by
      cases greedy <;> simp [starEnds] at h <;> grind
    obtain rfl | ⟨e,he,hd⟩ := hmem
    · exact Moves.refl d
    · exact (hf c e he).trans (ih hd)

/-- A match only reads on. -/
theorem ends_moves {r : Pattern α} {c d : Cursor α} (h : d ∈ r.ends c) : Moves c d := by
  induction r generalizing c d with
  | empty =>
    obtain rfl := List.mem_singleton.mp h
    exact Moves.refl d
  | sat p =>
    obtain ⟨before,after,groups⟩ := c
    cases after with
    | nil => simp [Pattern.ends] at h
    | cons a rest =>
      by_cases ha : p a = true
      · obtain rfl : d = _ := by simpa [Pattern.ends,ha] using h
        exact ⟨[a],rfl,rfl⟩
      · simp [Pattern.ends,ha] at h
  | look p =>
    by_cases hp : p c.before c.after = true
    · obtain rfl : d = c := by simpa [Pattern.ends,hp] using h
      exact Moves.refl d
    · simp [Pattern.ends,hp] at h
  | seq r s ihr ihs =>
    obtain ⟨e,he,hd⟩ := List.mem_flatMap.mp h
    exact (ihr he).trans (ihs hd)
  | alt r s ihr ihs =>
    obtain h | h := List.mem_append.mp h
    · exact ihr h
    · exact ihs h
  | star greedy r ih => exact starEnds_moves (fun c d => ih) h
  | group n r ih =>
    obtain ⟨e,he,rfl⟩ := List.mem_map.mp h
    exact (ih he : Moves c e)
  | backref same n =>
    rw [Pattern.ends] at h
    cases hg : c.groups.lookup n with
    | none => simp [hg] at h
    | some w =>
      rw [hg] at h
      exact readWord_moves h

/-- No match is empty. -/
def Pattern.Proper (r : Pattern α) : Prop :=
  ∀ c d, d ∈ r.ends c → d.after.length < c.after.length

/-- The scan of `after`, with `before` behind it: the first match where there is one, else a letter
that is kept. -/
inductive Scanned (r : Pattern α) : List α → List α → List (Token α) → Prop
  | done (before : List α) : Scanned r before [] []
  | keep {before rest : List α} {a : α} {ts : List (Token α)}
      (hnone : r.ends ⟨before,a::rest,[]⟩ = []) (hrest : Scanned r (a::before) rest ts) :
      Scanned r before (a::rest) (.keep a::ts)
  | hit {before w rest : List α} {groups : List (ℕ × List α)} {ts : List (Token α)}
      (hw : w ≠ [])
      (hsome : (r.ends ⟨before,w ++ rest,[]⟩).head? = some ⟨w.reverse ++ before,rest,groups⟩)
      (hrest : Scanned r (w.reverse ++ before) rest ts) :
      Scanned r before (w ++ rest) (.hit w groups::ts)

theorem scanned_scan {r : Pattern α} (hr : r.Proper) {fuel : ℕ} {before after : List α}
    (hfuel : after.length < fuel) : Scanned r before after (scan r fuel before after) := by
  induction fuel generalizing before after with
  | zero => omega
  | succ fuel ih =>
    simp only [scan]
    cases hd : (r.ends ⟨before,after,[]⟩).head? with
    | none =>
      cases after with
      | nil => exact .done before
      | cons a rest =>
        exact .keep (List.head?_eq_none_iff.mp hd) (ih (by simpa using hfuel))
    | some d =>
      have hmem : d ∈ r.ends ⟨before,after,[]⟩ := List.mem_of_mem_head? hd
      have hlt : d.after.length < after.length := hr _ _ hmem
      obtain ⟨w,hafter,hbefore⟩ := ends_moves hmem
      obtain ⟨before',rest,groups⟩ := d
      dsimp only at hafter hbefore hlt ⊢
      subst hafter hbefore
      have htake : (w ++ rest).take ((w ++ rest).length - rest.length) = w := by
        rw [List.length_append,Nat.add_sub_cancel,List.take_left]
      rw [if_pos hlt,htake]
      refine .hit ?_ hd (ih ?_)
      · rintro rfl
        exact lt_irrefl _ hlt
      · omega

theorem scanned_tokens {r : Pattern α} (hr : r.Proper) (text : List α) :
    Scanned r [] text (tokens r text) := scanned_scan hr (Nat.lt_succ_self _)

/-- The tokens cover the text. -/
theorem Scanned.text {r : Pattern α} {before after : List α} {ts : List (Token α)}
    (h : Scanned r before after ts) : ts.flatMap Token.text = after := by
  induction h with
  | done before => rfl
  | keep hnone hrest ih => simp [Token.text,ih]
  | hit hw hsome hrest ih => simp [Token.text,ih]

/-- A pattern that looks at nothing behind a place, and no match of which has a place strictly inside
where it matches too: the scan meets every place that matches. -/
theorem Scanned.findall {r : Pattern α} {n : ℕ} {f : List α → Option (List α)}
    (hf : ∀ before after, f after =
      (r.ends ⟨before,after,[]⟩).head?.bind fun d => d.groups.lookup n)
    (hinside : ∀ before v w rest d, d ∈ r.ends ⟨before,v ++ w ++ rest,[]⟩ → d.after = rest →
      v ≠ [] → w ≠ [] → f (w ++ rest) = none) {before after : List α} {ts : List (Token α)}
    (h : Scanned r before after ts) (hend : f [] = none) :
    (ts.filterMap fun
      | .keep _ => none
      | .hit _ groups => groups.lookup n) = after.tails.filterMap f := by
  induction h with
  | done before => simp [hend]
  | @keep before rest a ts hnone hrest ih =>
    have ha : f (a::rest) = none := by simp [hf before,hnone]
    rw [List.tails_cons,List.filterMap_cons_none rfl,List.filterMap_cons_none ha,ih]
  | @hit before w rest groups ts hw hsome hrest ih =>
    have hskip : ∀ v w', v ≠ [] → v ++ w' = w → (w' ++ rest).tails.filterMap f =
        rest.tails.filterMap f := by
      intro v w'
      induction w' generalizing v with
      | nil => intros; rfl
      | cons b w' ihw =>
        intro hv hvw
        have hb : f (b::w' ++ rest) = none := by
          refine hinside before v (b::w') rest ⟨w.reverse ++ before,rest,groups⟩ ?_ rfl hv (by simp)
          rw [hvw]
          exact List.mem_of_mem_head? hsome
        rw [List.cons_append] at hb ⊢
        rw [List.tails_cons,List.filterMap_cons_none hb]
        exact ihw (v ++ [b]) (by simp) (by simpa using hvw)
    obtain ⟨a,w,rfl⟩ := List.exists_cons_of_ne_nil hw
    have hfirst : f (a::(w ++ rest)) = groups.lookup n := by
      rw [hf before]
      simp only [List.cons_append] at hsome
      rw [hsome]
      rfl
    rw [List.cons_append,List.tails_cons,List.filterMap_cons,List.filterMap_cons,hfirst,
      hskip [a] w (by simp) rfl,ih]

theorem sat_ends (p : α → Bool) {before rest : List α} {a : α} {groups : List (ℕ × List α)} :
    (Pattern.sat p).ends ⟨before,a::rest,groups⟩ =
      if p a = true then [⟨a::before,rest,groups⟩] else [] := rfl

/-- A greedy repetition of a letter takes the whole run first. -/
theorem starEnds_sat_head (p : α → Bool) {fuel : ℕ} {before after : List α}
    {groups : List (ℕ × List α)} (hfuel : after.length ≤ fuel) :
    (starEnds true (Pattern.sat p).ends fuel ⟨before,after,groups⟩).head? =
      some ⟨(after.takeWhile p).reverse ++ before,after.dropWhile p,groups⟩ := by
  induction fuel generalizing before after with
  | zero =>
    obtain rfl := List.length_eq_zero_iff.mp (Nat.le_zero.mp hfuel)
    rfl
  | succ fuel ih =>
    cases after with
    | nil => rfl
    | cons a rest =>
      rw [starEnds,sat_ends]
      by_cases ha : p a = true
      · have hrest := @ih (a::before) rest (by simpa using hfuel)
        simp [ha,hrest]
      · simp [ha]

theorem plus_sat_head (p : α → Bool) {before after : List α} {groups : List (ℕ × List α)} :
    ((Pattern.plus (.sat p)).ends ⟨before,after,groups⟩).head? =
      if after.takeWhile p = [] then none
      else some ⟨(after.takeWhile p).reverse ++ before,after.dropWhile p,groups⟩ := by
  cases after with
  | nil => rfl
  | cons a rest =>
    rw [Pattern.plus,Pattern.ends,sat_ends]
    by_cases ha : p a = true
    · rw [if_pos ha,List.flatMap_singleton,Pattern.ends,starEnds_sat_head p le_rfl]
      simp [ha]
    · simp [ha]

theorem not_of_plus_sat_ends (p : α → Bool) {before rest : List α} {a : α}
    (h : (Pattern.plus (.sat p)).ends ⟨before,a::rest,[]⟩ = []) : p a = false := by
  have hhead := @plus_sat_head _ p before (a::rest) []
  rw [h] at hhead
  by_contra ha
  rw [Bool.not_eq_false] at ha
  simp [ha] at hhead

/-- A hit of a repeated letter is a whole run of it. -/
theorem run_of_plus_sat_ends (p : α → Bool) {before w rest : List α} {groups : List (ℕ × List α)}
    (h : ((Pattern.plus (.sat p)).ends ⟨before,w ++ rest,[]⟩).head? =
      some ⟨w.reverse ++ before,rest,groups⟩) :
    (∀ a ∈ w, p a = true) ∧ ∀ a ∈ rest.head?, p a = false := by
  rw [plus_sat_head] at h
  split_ifs at h
  injection h with h
  injection h with hbefore hafter hgroups
  have hw : (w ++ rest).takeWhile p = w :=
    List.reverse_injective (List.append_cancel_right hbefore)
  constructor
  · intro a ha
    exact List.mem_takeWhile_imp (hw ▸ ha)
  · intro a ha
    have hnot := List.head?_dropWhile_not p (w ++ rest)
    rw [hafter,Option.mem_def.mp ha] at hnot
    simpa using hnot

end AtlasCompliance.Regex
