import AtlasCompliance.Lib.Replace

/-! The places of a text at which a pattern matches. A letter that no word has parts the places of
what stands before it from the places of what follows. -/
namespace AtlasCompliance.Regex

universe u
variable {α : Type u}

/-- A match begins with the text. -/
def matchesAt (r : Pattern α) (text : List α) : Bool := !(r.ends ⟨[],text,[]⟩).isEmpty

/-- The places of the matches, the text's first letter counted as `n`. -/
def placesFrom (r : Pattern α) : ℕ → List α → List ℕ
  | _,[] => []
  | n,a::rest =>
    if matchesAt r (a::rest) then n::placesFrom r (n+1) rest else placesFrom r (n+1) rest

/-- All the places of a text at which the pattern matches, in order. -/
def places (r : Pattern α) (text : List α) : List ℕ := placesFrom r 0 text

variable {r : Pattern α}

theorem matchesAt_iff (h : r.Plain) {text : List α} :
    matchesAt r text = true ↔ ∃ w ∈ r.language, w <+: text := by
  have hne : matchesAt r text = true ↔ r.ends ⟨[],text,[]⟩ ≠ [] := by
    simp [matchesAt]
  rw [hne,(framed_of_plain h).ends_ne_nil]
  constructor
  · rintro ⟨w,hw,rest,hrest,-⟩
    exact ⟨w,hw,rest,hrest.symm⟩
  · rintro ⟨w,hw,rest,hrest⟩
    exact ⟨w,hw,rest,hrest.symm,rfl,rfl⟩

theorem placesFrom_eq_map (r : Pattern α) (n : ℕ) (text : List α) :
    placesFrom r n text = (places r text).map (n + ·) := by
  have hgen : ∀ m, placesFrom r (n+m) text = (placesFrom r m text).map (n + ·) := by
    induction text with
    | nil => intro m; rfl
    | cons a rest ih =>
      intro m
      have hrest : placesFrom r (n+m+1) rest = (placesFrom r (m+1) rest).map (n + ·) := by
        rw [Nat.add_assoc]
        exact ih (m+1)
      simp only [placesFrom]
      split_ifs <;> simp [hrest]
  exact hgen 0

/-- No place matches exactly when no word stands in the text. -/
theorem places_eq_nil (h : r.Plain) (hne : [] ∉ r.language) {text : List α} :
    places r text = [] ↔ ∀ w ∈ r.language, ¬ w <:+: text := by
  have hgen : ∀ n, placesFrom r n text = [] ↔ ∀ w ∈ r.language, ¬ w <:+: text := by
    induction text with
    | nil =>
      intro n
      refine ⟨fun _ w hw hin => ?_,fun _ => rfl⟩
      exact hne (List.infix_nil.mp hin ▸ hw)
    | cons a rest ih =>
      intro n
      simp only [placesFrom]
      by_cases hm : matchesAt r (a::rest) = true
      · obtain ⟨w,hw,hpre⟩ := (matchesAt_iff h).mp hm
        simp only [hm,if_true,List.cons_ne_nil,false_iff]
        exact fun hall => hall w hw hpre.isInfix
      · simp only [hm,if_false,ih,Bool.false_eq_true]
        constructor
        · intro hall w hw hin
          obtain hpre | hin := List.infix_cons_iff.mp hin
          · exact hm ((matchesAt_iff h).mpr ⟨w,hw,hpre⟩)
          · exact hall w hw hin
        · intro hall w hw hin
          exact hall w hw (List.infix_cons hin)
  exact hgen 0

/-- No word runs from one text into the other: a letter that no word has stands at the seam. -/
def Parted (r : Pattern α) (u v : List α) : Prop :=
  ∃ x, (u.getLast? = some x ∨ v.head? = some x) ∧ ∀ w ∈ r.language, x ∉ w

theorem Parted.prefix_left {u v w : List α} (h : Parted r u v)
    (hw : w ∈ r.language) (hpre : w <+: u ++ v) : w <+: u := by
  obtain ⟨x,hx,havoid⟩ := h
  obtain hle | ⟨y,rfl⟩ := List.prefix_or_prefix_of_prefix hpre (List.prefix_append u v)
  · exact hle
  · -- a word that goes on behind the seam has the letter that stands there
    cases y with
    | nil => simp
    | cons b y =>
      exfalso
      obtain hx | hx := hx
      · exact havoid _ hw (List.mem_append_left _ (List.mem_of_getLast? hx))
      · have hb : b::y <+: v := (List.prefix_append_right_inj u).mp hpre
        obtain ⟨z,rfl⟩ := hb
        obtain rfl : b = x := by simpa using hx
        exact havoid _ hw (by simp)

theorem placesFrom_append (h : r.Plain) {u v : List α} (hparted : Parted r u v) (n : ℕ) :
    placesFrom r n (u ++ v) = placesFrom r n u ++ placesFrom r (n + u.length) v := by
  induction u generalizing n with
  | nil => rfl
  | cons a u ih =>
    have hsame : matchesAt r (a::(u ++ v)) = matchesAt r (a::u) := by
      rw [Bool.eq_iff_iff,matchesAt_iff h,matchesAt_iff h,← List.cons_append]
      constructor
      · rintro ⟨w,hw,hpre⟩
        exact ⟨w,hw,hparted.prefix_left hw hpre⟩
      · rintro ⟨w,hw,hpre⟩
        exact ⟨w,hw,hpre.trans (List.prefix_append _ _)⟩
    have hrest : placesFrom r (n+1) (u ++ v) =
        placesFrom r (n+1) u ++ placesFrom r (n + (a::u).length) v := by
      rw [List.length_cons,Nat.add_comm u.length,← Nat.add_assoc]
      cases u with
      | nil => rfl
      | cons b u =>
        refine ih ?_ (n+1)
        obtain ⟨x,hx,havoid⟩ := hparted
        exact ⟨x,by simpa using hx,havoid⟩
    simp only [List.cons_append,placesFrom,hsame,hrest]
    split_ifs <;> rfl

theorem places_append (h : r.Plain) {u v : List α} (hparted : Parted r u v) :
    places r (u ++ v) = places r u ++ (places r v).map (u.length + ·) := by
  rw [places,placesFrom_append h hparted,Nat.zero_add,placesFrom_eq_map r u.length]
  rfl

end AtlasCompliance.Regex
