import AtlasCompliance.Lib.Replace

/-! Searching a text for one match: where a word may stand whose two ends are looked at, and what
separators and letters at the ends of the text have to do with it. -/
namespace AtlasCompliance.Regex

universe u
variable {α : Type u}

/-- Some match is found. -/
def search (r : Pattern α) (text : List α) : Bool := decide (0 < count r text)

/-- `r` with one condition where it begins and another where it ends. -/
def Pattern.inside (start fin : Option α → Option α → Bool) (r : Pattern α) : Pattern α :=
  .seq (.look fun before after => start before.head? after.head?)
    (.seq r (.look fun before after => fin before.head? after.head?))

/-- One of the two letters is of a word and the other is not. -/
def boundary (isWord : α → Bool) (x y : Option α) : Bool := x.any isWord != y.any isWord

/-- A word of `L` in the text, with what is asked of its two ends. -/
def Found (start fin : Option α → Option α → Bool) (L : Language α) (text : List α) : Prop :=
  ∃ u w v, text = u ++ (w ++ v) ∧ w ∈ L ∧ start u.getLast? (w ++ v).head? = true ∧
    fin (u ++ w).getLast? v.head? = true

/-! ### Search and standing words -/

theorem mem_findall {r : Pattern α} {n : ℕ} {text w : List α} : w ∈ findall r n text ↔
    ∃ u groups, Token.hit u groups ∈ tokens r text ∧ groups.lookup n = some w := by
  rw [findall,List.mem_filterMap]
  constructor
  · rintro ⟨t,ht,hw⟩
    cases t with
    | keep a => cases hw
    | hit u groups => exact ⟨u,groups,ht,hw⟩
  · rintro ⟨u,groups,ht,hw⟩
    exact ⟨_,ht,hw⟩

/-- A scan without a hit has met no match. -/
theorem Scanned.none_of_keeps {r : Pattern α} {before after : List α} {ts : List (Token α)}
    (h : Scanned r before after ts) (hkeeps : ∀ w groups, Token.hit w groups ∉ ts) {u v : List α}
    (huv : after = u ++ v) (hv : v ≠ []) : r.ends ⟨u.reverse ++ before,v,[]⟩ = [] := by
  induction h generalizing u with
  | done before => exact absurd (List.append_eq_nil_iff.mp huv.symm).2 hv
  | @keep before rest a ts hnone hrest ih =>
    cases u with
    | nil =>
      obtain rfl : a::rest = v := huv
      exact hnone
    | cons b u =>
      obtain ⟨rfl,hrest'⟩ := List.cons.inj huv
      have hend := ih (fun w groups hmem => hkeeps w groups (List.mem_cons_of_mem _ hmem)) hrest'
      simpa using hend
  | @hit before w rest groups ts hw hsome hrest ih =>
    exact absurd List.mem_cons_self (hkeeps w groups)

theorem search_eq_true {r : Pattern α} (hr : r.Proper) {text : List α} :
    search r text = true ↔ ¬ NoMatch r text := by
  rw [search,decide_eq_true_eq]
  constructor
  · intro hpos hno
    rw [hno.count_eq] at hpos
    exact lt_irrefl 0 hpos
  · contrapose!
    intro hzero u v huv
    by_cases hv : v = []
    · refine List.eq_nil_iff_forall_not_mem.mpr fun d hd => ?_
      have hlt := hr _ _ hd
      simp [hv] at hlt
    · have hnone := (scanned_tokens hr text).none_of_keeps (fun w groups hmem => ?_) huv hv
      · simpa using hnone
      · have hpos : 0 < count r text := List.length_pos_of_mem (List.mem_filter.mpr ⟨hmem,rfl⟩)
        omega

/-- A search looks for a word of the language that stands between its two conditions. -/
theorem search_inside {start fin : Option α → Option α → Bool} {r : Pattern α} (hplain : r.Plain)
    (hne : [] ∉ r.language) {text : List α} :
    search (r.inside start fin) text = true ↔ Found start fin r.language text := by
  have hends : ∀ {c d : Cursor α}, d ∈ (r.inside start fin).ends c ↔ Reads r.language c d ∧
      start c.before.head? c.after.head? = true ∧ fin d.before.head? d.after.head? = true := by
    intro c d
    by_cases hstart : start c.before.head? c.after.head? = true
    · simp [Pattern.inside,Pattern.ends,hstart,← mem_ends hplain,and_comm]
    · simp [Pattern.inside,Pattern.ends,hstart]
  have hproper : (r.inside start fin).Proper := by
    intro c d hd
    obtain ⟨⟨w,hw,hafter,-⟩,-⟩ := hends.mp hd
    have hpos : 0 < w.length := List.length_pos_iff.mpr fun hnil => hne (hnil ▸ hw)
    simp [hafter,hpos]
  rw [search_eq_true hproper]
  constructor
  · intro hmatch
    unfold NoMatch at hmatch
    push Not at hmatch
    obtain ⟨u,v,rfl,hmatch⟩ := hmatch
    obtain ⟨d,hd⟩ := List.exists_mem_of_ne_nil _ hmatch
    obtain ⟨⟨w,hw,hafter,hbefore,-⟩,hstart,hfin⟩ := hends.mp hd
    refine ⟨u,w,d.after,congrArg (u ++ ·) hafter,hw,?_,?_⟩
    · rw [← hafter,← List.head?_reverse]
      exact hstart
    · rw [← List.head?_reverse,List.reverse_append,← hbefore]
      exact hfin
  · rintro ⟨u,w,v,rfl,hw,hstart,hfin⟩ hno
    have hreads : Reads r.language ⟨u.reverse,w ++ v,[]⟩ ⟨w.reverse ++ u.reverse,v,[]⟩ :=
      ⟨w,hw,rfl,rfl,rfl⟩
    refine List.ne_nil_of_mem (hends.mpr ⟨hreads,?_,?_⟩) (hno u (w ++ v) rfl)
    · rw [← List.head?_reverse] at hstart
      exact hstart
    · rw [← List.head?_reverse,List.reverse_append] at hfin
      exact hfin

/-- A letter of no match stays when matches are replaced. -/
theorem mem_replaceAll {r : Pattern α} (hr : r.Proper) {a : α}
    (ha : ∀ c d w, d ∈ r.ends c → c.after = w ++ d.after → a ∉ w) (mark : List α) {text : List α}
    (h : a ∈ text) : a ∈ replaceAll r mark text := by
  have hmarked : ∀ {before after ts}, Scanned r before after ts → a ∈ after → a ∈ marked mark ts := by
    intro before after ts hscanned h
    induction hscanned with
    | done before => exact absurd h List.not_mem_nil
    | @keep before rest b ts hnone hrest ih =>
      obtain rfl | h := List.mem_cons.mp h
      · exact List.mem_cons_self
      · exact List.mem_cons_of_mem b (ih h)
    | @hit before w rest groups ts hw hsome hrest ih =>
      obtain h | h := List.mem_append.mp h
      · exact absurd h (ha _ _ w (List.mem_of_mem_head? hsome) rfl)
      · exact List.mem_append_right mark (ih h)
  exact hmarked (scanned_tokens hr text) h

/-! ### Separators and letters at the ends -/

/-- The condition sees only which letters are of a word. -/
def Sees (isWord : α → Bool) (edge : Option α → Option α → Bool) : Prop :=
  ∀ x x' y y', Option.any isWord x = Option.any isWord x' →
    Option.any isWord y = Option.any isWord y' → edge x y = edge x' y'

theorem sees_boundary (isWord : α → Bool) : Sees isWord (boundary isWord) := by
  intro x x' y y' hx hy
  rw [boundary,boundary,hx,hy]

theorem sees_anywhere (isWord : α → Bool) : Sees isWord anywhere := fun _ _ _ _ _ _ => rfl

section Found
variable {isWord : α → Bool} {start fin : Option α → Option α → Bool} {L : Language α} {a : α}

theorem any_getLast?_append_cons (ha : isWord a = false) (x t : List α) :
    (x ++ a::t).getLast?.any isWord = t.getLast?.any isWord := by
  cases t using List.reverseRecOn with
  | nil => simp [ha]
  | append_singleton t b =>
    rw [List.getLast?_append_cons,← List.cons_append,List.getLast?_concat,List.getLast?_concat]

theorem any_head?_append_cons (ha : isWord a = false) (v y : List α) :
    (v ++ a::y).head?.any isWord = v.head?.any isWord := by
  cases v <;> simp [ha]

/-- A letter of no word at the beginning, where words begin with a letter. -/
theorem found_cons (hstart : Sees isWord start) (hfin : Sees isWord fin) (ha : isWord a = false)
    (hL : ∀ w ∈ L, w.head?.any isWord = true) {x : List α} :
    Found start fin L (a::x) ↔ Found start fin L x := by
  constructor
  · rintro ⟨u,w,v,htext,hw,hs,hf⟩
    obtain ⟨b,w,rfl⟩ := List.exists_cons_of_ne_nil fun hnil : w = [] => by simpa [hnil] using hL w hw
    cases u with
    | nil =>
      obtain rfl : a = b := (List.cons.inj htext).1
      simpa [ha] using hL _ hw
    | cons c u =>
      obtain ⟨rfl,rfl⟩ := List.cons.inj htext
      refine ⟨u,b::w,v,rfl,hw,?_,?_⟩
      · rw [← hs]
        exact hstart _ _ _ _ (any_getLast?_append_cons ha [] u).symm rfl
      · rw [← hf]
        exact hfin _ _ _ _ (any_getLast?_append_cons ha [] (u ++ b::w)).symm rfl
  · rintro ⟨u,w,v,rfl,hw,hs,hf⟩
    refine ⟨a::u,w,v,rfl,hw,?_,?_⟩
    · rw [← hs]
      exact hstart _ _ _ _ (any_getLast?_append_cons ha [] u) rfl
    · rw [← hf]
      exact hfin _ _ _ _ (any_getLast?_append_cons ha [] (u ++ w)) rfl

/-- A letter of no word at the end, where words end with a letter. -/
theorem found_concat (hstart : Sees isWord start) (hfin : Sees isWord fin) (ha : isWord a = false)
    (hL : ∀ w ∈ L, w.getLast?.any isWord = true) {x : List α} :
    Found start fin L (x ++ [a]) ↔ Found start fin L x := by
  have hne : ∀ w ∈ L, w ≠ [] := fun w hw hnil => by simpa [hnil] using hL w hw
  constructor
  · rintro ⟨u,w,v,htext,hw,hs,hf⟩
    cases v using List.reverseRecOn with
    | nil =>
      have hlast := congrArg (fun t => t.getLast?.any isWord) htext
      simp only [List.append_nil,List.getLast?_append_of_ne_nil _ (hne w hw),hL w hw] at hlast
      simp [ha] at hlast
    | append_singleton v b =>
      rw [← List.append_assoc,← List.append_assoc] at htext
      obtain ⟨rfl,hab⟩ := List.append_inj' htext rfl
      obtain rfl := List.singleton_inj.mp hab
      refine ⟨u,w,v,by simp,hw,?_,?_⟩
      · rw [← hs]
        refine hstart _ _ _ _ rfl ?_
        rw [← List.append_assoc]
        exact (any_head?_append_cons ha (w ++ v) []).symm
      · rw [← hf]
        exact hfin _ _ _ _ rfl (any_head?_append_cons ha v []).symm
  · rintro ⟨u,w,v,rfl,hw,hs,hf⟩
    refine ⟨u,w,v ++ [a],by simp,hw,?_,?_⟩
    · rw [← hs]
      refine hstart _ _ _ _ rfl ?_
      rw [← List.append_assoc]
      exact any_head?_append_cons ha (w ++ v) []
    · rw [← hf]
      exact hfin _ _ _ _ rfl (any_head?_append_cons ha v [])

/-- A letter of no word separates a text where no word contains it. -/
theorem found_append_cons (hstart : Sees isWord start) (hfin : Sees isWord fin) (hne : [] ∉ L)
    (ha : isWord a = false) (hL : ∀ w ∈ L, a ∉ w) {x y : List α} :
    Found start fin L (x ++ a::y) ↔ Found start fin L x ∨ Found start fin L y := by
  constructor
  · rintro ⟨u,w,v,htext,hw,hs,hf⟩
    have hwne : w ≠ [] := fun hnil => hne (hnil ▸ hw)
    obtain ⟨t,rfl,hy⟩ | ⟨t,rfl,hwv⟩ := List.append_eq_append_iff.mp htext
    · -- the word begins behind the text before the separator
      cases t with
      | nil =>
        obtain ⟨b,w,rfl⟩ := List.exists_cons_of_ne_nil hwne
        obtain rfl : a = b := (List.cons.inj hy).1
        exact absurd List.mem_cons_self (hL _ hw)
      | cons b t =>
        obtain ⟨rfl,rfl⟩ := List.cons.inj hy
        refine Or.inr ⟨t,w,v,rfl,hw,?_,?_⟩
        · rw [← hs]
          exact hstart _ _ _ _ (any_getLast?_append_cons ha x t).symm rfl
        · rw [← hf,List.append_assoc,List.cons_append]
          exact hfin _ _ _ _ (any_getLast?_append_cons ha x (t ++ w)).symm rfl
    · -- it ends before the separator, which is not in it
      obtain ⟨s,rfl,rfl⟩ | ⟨s,rfl,hv⟩ := List.append_eq_append_iff.mp hwv
      · refine Or.inl ⟨u,w,s,rfl,hw,?_,?_⟩
        · rw [← hs]
          refine hstart _ _ _ _ rfl ?_
          rw [← List.append_assoc]
          exact (any_head?_append_cons ha (w ++ s) y).symm
        · rw [← hf]
          exact hfin _ _ _ _ rfl (any_head?_append_cons ha s y).symm
      · cases s with
        | nil =>
          obtain rfl : a::y = v := hv
          rw [List.append_nil] at hs hf hw
          refine Or.inl ⟨u,t,[],by simp,hw,?_,?_⟩
          · rw [← hs]
            refine hstart _ _ _ _ rfl ?_
            rw [List.append_nil]
            exact (any_head?_append_cons ha t y).symm
          · rw [← hf]
            exact hfin _ _ _ _ rfl (any_head?_append_cons ha [] y).symm
        | cons b s =>
          obtain ⟨rfl,-⟩ := List.cons.inj hv
          exact absurd (List.mem_append_right t List.mem_cons_self) (hL _ hw)
  · rintro (⟨u,w,v,rfl,hw,hs,hf⟩ | ⟨u,w,v,rfl,hw,hs,hf⟩)
    · refine ⟨u,w,v ++ a::y,by simp,hw,?_,?_⟩
      · rw [← hs]
        refine hstart _ _ _ _ rfl ?_
        rw [← List.append_assoc]
        exact any_head?_append_cons ha (w ++ v) y
      · rw [← hf]
        exact hfin _ _ _ _ rfl (any_head?_append_cons ha v y)
    · refine ⟨x ++ a::u,w,v,by simp,hw,?_,?_⟩
      · rw [← hs]
        exact hstart _ _ _ _ (any_getLast?_append_cons ha x u) rfl
      · rw [← hf,List.append_assoc,List.cons_append]
        exact hfin _ _ _ _ (any_getLast?_append_cons ha x (u ++ w)) rfl

theorem found_anywhere {text : List α} :
    Found anywhere anywhere L text ↔ ∃ w ∈ L, w <:+: text := by
  constructor
  · rintro ⟨u,w,v,rfl,hw,-⟩
    exact ⟨w,hw,u,v,List.append_assoc u w v⟩
  · rintro ⟨w,hw,u,v,rfl⟩
    exact ⟨u,w,v,List.append_assoc u w v,hw,rfl,rfl⟩

/-- Letters of no word at the ends can go. -/
theorem found_dropWhile (hstart : Sees isWord start) (hfin : Sees isWord fin) {p : α → Bool}
    (hp : ∀ b, p b = true → isWord b = false) (hL : ∀ w ∈ L, w.head?.any isWord = true) (x : List α) :
    Found start fin L (x.dropWhile p) ↔ Found start fin L x := by
  induction x with
  | nil => rfl
  | cons b x ih =>
    by_cases hb : p b = true
    · rw [List.dropWhile_cons_of_pos hb,ih,found_cons hstart hfin (hp b hb) hL]
    · rw [List.dropWhile_cons_of_neg hb]

theorem found_rdropWhile (hstart : Sees isWord start) (hfin : Sees isWord fin) {p : α → Bool}
    (hp : ∀ b, p b = true → isWord b = false) (hL : ∀ w ∈ L, w.getLast?.any isWord = true) (x : List α) :
    Found start fin L (x.rdropWhile p) ↔ Found start fin L x := by
  induction x using List.reverseRecOn with
  | nil => rfl
  | append_singleton x b ih =>
    by_cases hb : p b = true
    · rw [List.rdropWhile_concat_pos p x b hb,ih,found_concat hstart hfin (hp b hb) hL]
    · rw [List.rdropWhile_concat_neg p x b hb]

end Found

/-! ### The ends of words -/

/-- Every word that is not empty begins with a letter of `q`. -/
def Pattern.Opens (q : α → Prop) : Pattern α → Prop
  | .empty => True
  | .sat p => ∀ a, p a = true → q a
  | .seq r s => r.Opens q ∧ (r.Has (fun _ => True) ∨ s.Opens q)
  | .alt r s => r.Opens q ∧ s.Opens q
  | .star _ _ | .look _ | .group _ _ | .backref _ _ => False

/-- Every word that is not empty ends with a letter of `q`. -/
def Pattern.Closes (q : α → Prop) : Pattern α → Prop
  | .empty => True
  | .sat p => ∀ a, p a = true → q a
  | .seq r s => s.Closes q ∧ (s.Has (fun _ => True) ∨ r.Closes q)
  | .alt r s => r.Closes q ∧ s.Closes q
  | .star _ _ | .look _ | .group _ _ | .backref _ _ => False

theorem Pattern.Has.ne_nil {q : α → Prop} {r : Pattern α} (h : r.Has q) {w : List α}
    (hw : w ∈ r.language) : w ≠ [] := by
  obtain ⟨a,ha,-⟩ := h.letter hw
  exact List.ne_nil_of_mem ha

theorem Pattern.Opens.head {q : α → Prop} {r : Pattern α} (h : r.Opens q) {w : List α}
    (hw : w ∈ r.language) : ∀ a ∈ w.head?, q a := by
  induction r generalizing w with
  | empty =>
    obtain rfl := (Language.mem_one w).mp hw
    simp
  | sat p =>
    obtain ⟨a,rfl,ha⟩ := hw
    simpa using h a ha
  | seq r s ihr ihs =>
    obtain ⟨u,hu,v,hv,rfl⟩ := Language.mem_mul.mp hw
    cases u with
    | nil => exact ihs (h.2.resolve_left fun hhas => hhas.ne_nil hu rfl) hv
    | cons a u =>
      intro b hb
      exact ihr h.1 hu b hb
  | alt r s ihr ihs =>
    obtain hw | hw := hw
    · exact ihr h.1 hw
    · exact ihs h.2 hw
  | star greedy r | look p | group n r | backref same n => cases h

theorem Pattern.Closes.last {q : α → Prop} {r : Pattern α} (h : r.Closes q) {w : List α}
    (hw : w ∈ r.language) : ∀ a ∈ w.getLast?, q a := by
  induction r generalizing w with
  | empty =>
    obtain rfl := (Language.mem_one w).mp hw
    simp
  | sat p =>
    obtain ⟨a,rfl,ha⟩ := hw
    simpa using h a ha
  | seq r s ihr ihs =>
    obtain ⟨u,hu,v,hv,rfl⟩ := Language.mem_mul.mp hw
    by_cases hnil : v = []
    · subst hnil
      rw [List.append_nil]
      exact ihr (h.2.resolve_left fun hhas => hhas.ne_nil hv rfl) hu
    · rw [List.getLast?_append_of_ne_nil u hnil]
      exact ihs h.1 hv
  | alt r s ihr ihs =>
    obtain hw | hw := hw
    · exact ihr h.1 hw
    · exact ihs h.2 hw
  | star greedy r | look p | group n r | backref same n => cases h

end AtlasCompliance.Regex
