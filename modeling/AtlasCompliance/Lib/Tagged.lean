import AtlasCompliance.Lib.Seams

/-! Patterns on letters that carry more than the pattern looks at: replacing there and forgetting the
rest is replacing in the text without it. -/
namespace AtlasCompliance.Regex

universe u v
variable {α : Type u} {β : Type v}

/-- The pattern on letters of which it sees the image. -/
def Pattern.comap (f : β → α) : Pattern α → Pattern β
  | .empty => .empty
  | .sat p => .sat fun b => p (f b)
  | .look p => .look fun before after => p (before.map f) (after.map f)
  | .seq r s => .seq (r.comap f) (s.comap f)
  | .alt r s => .alt (r.comap f) (s.comap f)
  | .star greedy r => .star greedy (r.comap f)
  | .group n r => .group n (r.comap f)
  | .backref same n => .backref (fun a b => same (f a) (f b)) n

def Cursor.map (f : β → α) (c : Cursor β) : Cursor α :=
  ⟨c.before.map f,c.after.map f,c.groups.map fun g => (g.1,g.2.map f)⟩

def Token.map (f : β → α) : Token β → Token α
  | .keep b => .keep (f b)
  | .hit word groups => .hit (word.map f) (groups.map fun g => (g.1,g.2.map f))

theorem readWord_map (f : β → α) (same : α → α → Bool) (w : List β) (c : Cursor β) :
    (readWord (fun a b => same (f a) (f b)) w c).map (Cursor.map f) =
      readWord same (w.map f) (c.map f) := by
  induction w generalizing c with
  | nil => rfl
  | cons a w ih =>
    obtain ⟨before,after,groups⟩ := c
    cases after with
    | nil => rfl
    | cons b rest =>
      simp only [readWord,Cursor.map,List.map_cons]
      split_ifs
      · exact ih _
      · rfl

theorem starEnds_map (f : β → α) (greedy : Bool) {g : Cursor β → List (Cursor β)}
    {h : Cursor α → List (Cursor α)} (hg : ∀ c, (g c).map (Cursor.map f) = h (c.map f)) (fuel : ℕ)
    (c : Cursor β) : (starEnds greedy g fuel c).map (Cursor.map f) =
      starEnds greedy h fuel (c.map f) := by
  induction fuel generalizing c with
  | zero => rfl
  | succ fuel ih =>
    have hlength : ∀ d : Cursor β, (d.map f).after.length = d.after.length := fun d => by
      simp [Cursor.map]
    have hmore : (((g c).filter fun d => d.after.length < c.after.length).flatMap
        (starEnds greedy g fuel)).map (Cursor.map f) =
        ((h (c.map f)).filter fun d => d.after.length < (c.map f).after.length).flatMap
          (starEnds greedy h fuel) := by
      rw [← hg,List.filter_map,List.flatMap_map,List.map_flatMap]
      simp only [ih,Function.comp_def,hlength]
    cases greedy with
    | true =>
      simp only [starEnds,if_true,List.map_append,List.map_cons,List.map_nil]
      rw [hmore]
    | false =>
      simp only [starEnds,Bool.false_eq_true,if_false,List.map_cons]
      rw [hmore]

theorem ends_comap (f : β → α) (r : Pattern α) (c : Cursor β) :
    ((r.comap f).ends c).map (Cursor.map f) = r.ends (c.map f) := by
  induction r generalizing c with
  | empty => rfl
  | sat p =>
    obtain ⟨before,after,groups⟩ := c
    cases after with
    | nil => rfl
    | cons b rest =>
      simp only [Pattern.comap,Pattern.ends,Cursor.map,List.map_cons]
      split_ifs <;> rfl
  | look p =>
    simp only [Pattern.comap,Pattern.ends]
    split_ifs with h h' h'
    · rfl
    · exact absurd h h'
    · exact absurd h' h
    · rfl
  | seq r s ihr ihs =>
    simp only [Pattern.comap,Pattern.ends,← ihr,List.map_flatMap,List.flatMap_map,ihs]
  | alt r s ihr ihs =>
    simp only [Pattern.comap,Pattern.ends,List.map_append,ihr,ihs]
  | star greedy r ih =>
    simp only [Pattern.comap,Pattern.ends]
    rw [starEnds_map f greedy ih]
    simp [Cursor.map]
  | group n r ih =>
    simp only [Pattern.comap,Pattern.ends,← ih,List.map_map]
    refine List.map_congr_left fun d _ => ?_
    simp [Cursor.map]
  | backref same n =>
    have hlookup : (c.map f).groups.lookup n = (c.groups.lookup n).map (List.map f) := by
      simp only [Cursor.map]
      induction c.groups with
      | nil => rfl
      | cons g gs ih =>
        obtain ⟨m,w⟩ := g
        by_cases h : n = m
        · simp [h]
        · simp [List.lookup_cons,beq_eq_false_iff_ne.mpr h,ih]
    simp only [Pattern.comap,Pattern.ends,hlookup]
    cases c.groups.lookup n with
    | none => rfl
    | some w => exact readWord_map f same w c

theorem scan_comap (f : β → α) (r : Pattern α) (fuel : ℕ) (before after : List β) :
    (scan (r.comap f) fuel before after).map (Token.map f) =
      scan r fuel (before.map f) (after.map f) := by
  induction fuel generalizing before after with
  | zero => rfl
  | succ fuel ih =>
    have hends := ends_comap f r ⟨before,after,[]⟩
    have hhead : ((r.comap f).ends ⟨before,after,[]⟩).head?.map (Cursor.map f) =
        (r.ends ⟨before.map f,after.map f,[]⟩).head? := by
      rw [← List.head?_map,hends]
      rfl
    simp only [scan,← hhead]
    cases ((r.comap f).ends ⟨before,after,[]⟩).head? with
    | none =>
      cases after with
      | nil => rfl
      | cons b rest => simp [Token.map,ih]
    | some d =>
      simp only [Option.map_some,Cursor.map,List.length_map]
      split_ifs with hlt
      · simp [Token.map,ih,List.map_take]
      · cases after with
        | nil => rfl
        | cons b rest => simp [Token.map,ih]

theorem tokens_comap (f : β → α) (r : Pattern α) (text : List β) :
    (tokens (r.comap f) text).map (Token.map f) = tokens r (text.map f) := by
  rw [tokens,scan_comap,tokens,List.length_map]
  rfl

theorem replaceAll_comap (f : β → α) (r : Pattern α) (mark text : List β) :
    (replaceAll (r.comap f) mark text).map f = replaceAll r (mark.map f) (text.map f) := by
  rw [replaceAll,replaceAll,← tokens_comap,List.map_flatMap,List.flatMap_map]
  refine List.flatMap_congr fun t _ => ?_
  cases t with
  | keep b => rfl
  | hit w groups => rfl

theorem plain_comap (f : β → α) {r : Pattern α} (h : r.Plain) : (r.comap f).Plain := by
  induction r with
  | empty | sat p => trivial
  | seq r s ihr ihs | alt r s ihr ihs => exact ⟨ihr h.1,ihs h.2⟩
  | star greedy r ih => exact ih h
  | look p | group n r ih | backref same n => cases h

theorem mem_language_iff_ends {r : Pattern α} (h : r.Plain) {w : List α} :
    w ∈ r.language ↔ ∃ d ∈ r.ends ⟨[],w,[]⟩, d.after = [] := by
  constructor
  · intro hw
    exact ⟨⟨w.reverse ++ [],[],[]⟩,(mem_ends h).mpr ⟨w,hw,by simp,rfl,rfl⟩,rfl⟩
  · rintro ⟨d,hd,hafter⟩
    obtain ⟨v,hv,hw,-⟩ := (mem_ends h).mp hd
    rw [hafter,List.append_nil] at hw
    obtain rfl : w = v := hw
    exact hv

/-- The words of a pattern on richer letters are those whose image is a word. -/
theorem mem_language_comap (f : β → α) {r : Pattern α} (h : r.Plain) {w : List β} :
    w ∈ (r.comap f).language ↔ w.map f ∈ r.language := by
  have hends := ends_comap f r ⟨[],w,[]⟩
  rw [mem_language_iff_ends (plain_comap f h),mem_language_iff_ends h]
  change List.map _ _ = r.ends ⟨[],w.map f,[]⟩ at hends
  rw [← hends]
  constructor
  · rintro ⟨d,hd,hafter⟩
    exact ⟨d.map f,List.mem_map_of_mem hd,by simp [Cursor.map,hafter]⟩
  · rintro ⟨_,hmem,hafter⟩
    obtain ⟨d,hd,rfl⟩ := List.mem_map.mp hmem
    exact ⟨d,hd,by simpa [Cursor.map] using hafter⟩

theorem Fixed.comap {r : Pattern α} {n : ℕ} (h : Fixed r n) (f : β → α) :
    Fixed (r.comap f) n where
  plain := plain_comap f h.plain
  length w hw := by
    rw [← h.length _ ((mem_language_comap f h.plain).mp hw),List.length_map]

theorem not_mem_comap {f : β → α} {r : Pattern α} (h : r.Plain) {b : β}
    (hb : ∀ w ∈ r.language, f b ∉ w) : ∀ w ∈ (r.comap f).language, b ∉ w := by
  intro w hw hbw
  exact hb _ ((mem_language_comap f h).mp hw) (List.mem_map_of_mem hbw)

end AtlasCompliance.Regex
