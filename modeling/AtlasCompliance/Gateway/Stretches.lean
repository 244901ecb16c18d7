import AtlasCompliance.Gateway.Egress

/-! What the egress filter keeps of a text: the passes that mask and remove run over letters with a
note of where they come from, and the kept letters lie in stretches between the marks. -/
namespace AtlasCompliance.Gateway
open Java Regex PiiRedactor OutputSanitizer

/-- Letters of a text, with the note that they come from it. -/
def fromText (text : List Char) : List (Char × Bool) := text.map fun c => (c,true)

/-- Letters that the filter puts in. -/
def putIn (mark : List Char) : List (Char × Bool) := mark.map fun c => (c,false)

/-- The passes of the redactor over noted letters. -/
def redactNoted (nameDenylist : List String) (x : List (Char × Bool)) : List (Char × Bool) :=
  if x.isEmpty then x
  else (denied nameDenylist ++ structured).foldl
    (fun x p => replaceAll (p.2.comap Prod.fst) (putIn (mark p.1)) x) x

/-- The removal of script blocks and tags from noted letters. -/
def stripNoted (x : List (Char × Bool)) : List (Char × Bool) :=
  replaceAll (DANGLING_SCRIPT_OPEN.comap Prod.fst) [] (replaceAll (SCRIPTISH.comap Prod.fst) [] x)

namespace SafetyProperties
variable (safety : SafetyProperties)

/-- The letters of a text and of the marks in it, when it has been masked. -/
def masked (text : List Char) : List (Char × Bool) :=
  if safety.piiEnabled then redactNoted safety.nameDenylist (fromText text) else fromText text

/-- What is left of them when script blocks and tags have been removed. -/
def noted (text : List Char) : List (Char × Bool) :=
  if safety.sanitizeEnabled then stripNoted (safety.masked text) else safety.masked text

/-- The stretches of kept letters: a mark parts its neighbours, what is removed does not. -/
def stretches (text : List Char) : List (List Char) :=
  ((safety.noted text).splitOnP fun a => !a.2).map (·.map Prod.fst)

end SafetyProperties

/-! ### The text that goes out -/

theorem putIn_map_fst (mark : List Char) : (putIn mark).map Prod.fst = mark := by
  rw [putIn,List.map_map]
  exact List.map_id mark

theorem fromText_map_fst (text : List Char) : (fromText text).map Prod.fst = text := by
  rw [fromText,List.map_map]
  exact List.map_id text

theorem redactNoted_map_fst (nameDenylist : List String) (x : List (Char × Bool)) :
    (redactNoted nameDenylist x).map Prod.fst = (redact nameDenylist (x.map Prod.fst)).text := by
  have hpasses : ∀ (ps : List (Kind × Pattern Char)) (x : List (Char × Bool)),
      (ps.foldl (fun x p => replaceAll (p.2.comap Prod.fst) (putIn (mark p.1)) x) x).map Prod.fst =
        ps.foldl (fun text p => replaceAll p.2 (mark p.1) text) (x.map Prod.fst) := by
    intro ps
    induction ps with
    | nil => exact fun x => rfl
    | cons p ps ih =>
      intro x
      rw [List.foldl_cons,List.foldl_cons,ih,replaceAll_comap,putIn_map_fst]
  unfold redactNoted
  cases x with
  | nil => rfl
  | cons a x =>
    rw [redact_of_ne_nil (by simp),text_applyAll]
    exact hpasses _ (a::x)

theorem stripNoted_map_fst (x : List (Char × Bool)) :
    (stripNoted x).map Prod.fst = stripScripts (x.map Prod.fst) := by
  rw [stripNoted,replaceAll_comap,replaceAll_comap]
  rfl

theorem masked_map_fst (safety : SafetyProperties) (text : List Char) :
    (safety.masked text).map Prod.fst = (safety.redacted text []).1 := by
  unfold SafetyProperties.masked SafetyProperties.redacted
  split_ifs
  · rw [redactNoted_map_fst,fromText_map_fst]
  · rw [fromText_map_fst]

/-- A cleansed text is what is left, made inert if it is sanitized. -/
theorem cleanse_noted (safety : SafetyProperties) (text : List Char) :
    (safety.cleanse text []).1 =
      if safety.sanitizeEnabled then escape (defuse ((safety.noted text).map Prod.fst))
      else (safety.noted text).map Prod.fst := by
  by_cases hsanitize : safety.sanitizeEnabled = true
  · simp only [SafetyProperties.cleanse,SafetyProperties.sanitized,SafetyProperties.noted,hsanitize,
      if_true,sanitize_text,stripNoted_map_fst,masked_map_fst]
  · simp only [SafetyProperties.cleanse,SafetyProperties.sanitized,SafetyProperties.noted,hsanitize,
      if_false,Bool.false_eq_true,masked_map_fst]

/-! ### The letters that are put in -/

/-- What does not come from the text is of a marker. -/
def OfMarks (x : List (Char × Bool)) : Prop := ∀ a ∈ x, a.2 = false → ∃ k, a.1 ∈ mark k

theorem ofMarks_fromText (text : List Char) : OfMarks (fromText text) := by
  intro a ha hput
  obtain ⟨c,-,rfl⟩ := List.mem_map.mp ha
  cases hput

theorem ofMarks_putIn (k : Kind) : OfMarks (putIn (mark k)) := by
  intro a ha _
  obtain ⟨c,hc,rfl⟩ := List.mem_map.mp ha
  exact ⟨k,hc⟩

theorem OfMarks.replaceAll {x m : List (Char × Bool)} (hx : OfMarks x) (hm : OfMarks m)
    (r : Pattern (Char × Bool)) : OfMarks (replaceAll r m x) := by
  intro a ha hput
  obtain ha | ha := of_mem_replaceAll ha
  · exact hx a ha hput
  · exact hm a ha hput

theorem OfMarks.redactNoted {x : List (Char × Bool)} (hx : OfMarks x) (nameDenylist : List String) :
    OfMarks (redactNoted nameDenylist x) := by
  unfold Gateway.redactNoted
  split_ifs with hempty
  · exact hx
  · clear hempty
    induction denied nameDenylist ++ structured generalizing x with
    | nil => exact hx
    | cons p ps ih => exact ih (hx.replaceAll (ofMarks_putIn p.1) _)

theorem OfMarks.stripNoted {x : List (Char × Bool)} (hx : OfMarks x) : OfMarks (stripNoted x) := by
  have hnil : OfMarks [] := fun _ ha => absurd ha List.not_mem_nil
  exact (hx.replaceAll hnil _).replaceAll hnil _

theorem ofMarks_noted (safety : SafetyProperties) (text : List Char) :
    OfMarks (safety.noted text) := by
  have hmasked : OfMarks (safety.masked text) := by
    unfold SafetyProperties.masked
    split_ifs
    · exact (ofMarks_fromText text).redactNoted _
    · exact ofMarks_fromText text
  unfold SafetyProperties.noted
  split_ifs
  · exact hmasked.stripNoted
  · exact hmasked

/-! ### The letters that are kept -/

/-- What is left of the letters of the text in `y` stands in `x`, in their order. -/
def Within (x y : List (Char × Bool)) : Prop := (x.filter Prod.snd).Sublist (y.filter Prod.snd)

theorem within_replaceAll (r : Pattern (Char × Bool)) {m : List (Char × Bool)}
    (hm : ∀ a ∈ m, a.2 = false) (x : List (Char × Bool)) : Within (replaceAll r m x) x :=
  filter_replaceAll_sublist r hm x

theorem within_redactNoted (nameDenylist : List String) (x : List (Char × Bool)) :
    Within (redactNoted nameDenylist x) x := by
  have hput : ∀ k, ∀ a ∈ putIn (mark k), a.2 = false := by
    intro k a ha
    obtain ⟨c,-,rfl⟩ := List.mem_map.mp ha
    rfl
  unfold redactNoted
  split_ifs with hempty
  · exact List.Sublist.refl _
  · clear hempty
    induction denied nameDenylist ++ structured generalizing x with
    | nil => exact List.Sublist.refl _
    | cons p ps ih => exact (ih _).trans (within_replaceAll _ (hput p.1) x)

theorem within_noted (safety : SafetyProperties) (text : List Char) :
    Within (safety.noted text) (fromText text) := by
  have hmasked : Within (safety.masked text) (fromText text) := by
    unfold SafetyProperties.masked
    split_ifs
    · exact within_redactNoted _ _
    · exact List.Sublist.refl _
  have hnone : ∀ a ∈ ([] : List (Char × Bool)), a.2 = false := fun _ ha => absurd ha List.not_mem_nil
  unfold SafetyProperties.noted
  split_ifs
  · exact ((within_replaceAll _ hnone _).trans (within_replaceAll _ hnone _)).trans hmasked
  · exact hmasked

theorem flatten_splitOnP (x : List (Char × Bool)) :
    (x.splitOnP fun a => !a.2).flatten = x.filter Prod.snd := by
  have hread : ∀ before : List (Char × Bool),
      (x.splitOnPPrepend (fun a => !a.2) before).flatten = before.reverse ++ x.filter Prod.snd := by
    induction x with
    | nil => simp
    | cons a x ih =>
      intro before
      cases ha : a.2 with
      | true => rw [List.splitOnPPrepend_cons_neg (by simp [ha]),ih,List.filter_cons_of_pos ha]; simp
      | false =>
        rw [List.splitOnPPrepend_cons_pos (by simp [ha]),← List.splitOnPPrepend_nil_right,
          List.flatten_cons,ih,List.filter_cons_of_neg (by simp [ha])]
        rfl
  exact hread []

/-- The stretches are letters of the text, in its order. -/
theorem stretches_sublist (safety : SafetyProperties) (text : List Char) :
    (safety.stretches text).flatten.Sublist text := by
  have hfrom : ((fromText text).filter Prod.snd).map Prod.fst = text := by
    have hall : ∀ a ∈ fromText text, a.2 = true := by
      intro a ha
      obtain ⟨c,-,rfl⟩ := List.mem_map.mp ha
      rfl
    rw [List.filter_eq_self.mpr hall,fromText_map_fst]
  have hkept := (within_noted safety text).map Prod.fst
  rw [hfrom] at hkept
  rw [SafetyProperties.stretches,← List.map_flatten,flatten_splitOnP]
  exact hkept

end AtlasCompliance.Gateway
