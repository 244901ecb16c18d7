import AtlasCompliance.Lib.Scan

/-! Replacing the matches of a pattern by a mark. A pattern is its words under a condition on the
letters next to a match; where no word can overlap the mark, replacing brings no word about. -/
namespace AtlasCompliance.Regex

universe u
variable {α : Type u}

/-- A match reads a word of `L` between two places where `edge` holds of the letters next to it. -/
def Framed (edge : Option α → Option α → Bool) (L : Language α) (r : Pattern α) : Prop :=
  ∀ c d, d ∈ r.ends c ↔ Reads L c d ∧ edge c.before.head? c.after.head? = true ∧
    edge d.before.head? d.after.head? = true

/-- No condition on the neighbours. -/
def anywhere (_ _ : Option α) : Bool := true

theorem framed_of_plain {r : Pattern α} (h : r.Plain) : Framed anywhere r.language r :=
  fun c d => by simp [mem_ends h,anywhere]

/-- `r` between two places that satisfy a condition. -/
def Pattern.whole (edge : Option α → Option α → Bool) (r : Pattern α) : Pattern α :=
  .seq (.look fun before after => edge before.head? after.head?)
    (.seq r (.look fun before after => edge before.head? after.head?))

theorem framed_whole (edge : Option α → Option α → Bool) {r : Pattern α} (h : r.Plain) :
    Framed edge r.language (r.whole edge) := by
  intro c d
  simp only [Pattern.whole,Pattern.ends,List.mem_flatMap]
  constructor
  · rintro ⟨e,he,f,hf,hd⟩
    obtain ⟨hstart,rfl⟩ : edge c.before.head? c.after.head? = true ∧ e = c := by
      split_ifs at he with hstart
      · exact ⟨hstart,List.mem_singleton.mp he⟩
      · cases he
    obtain ⟨hend,rfl⟩ : edge f.before.head? f.after.head? = true ∧ d = f := by
      split_ifs at hd with hend
      · exact ⟨hend,List.mem_singleton.mp hd⟩
      · cases hd
    exact ⟨(mem_ends h).mp hf,hstart,hend⟩
  · rintro ⟨hreads,hstart,hend⟩
    exact ⟨c,by simp [hstart],d,(mem_ends h).mpr hreads,by simp [hend]⟩

/-- A word of `L` stands at a place, between two places that satisfy `edge`. -/
def Stands (edge : Option α → Option α → Bool) (L : Language α) (before after : List α) : Prop :=
  ∃ w ∈ L, ∃ rest, after = w ++ rest ∧ edge before.head? after.head? = true ∧
    edge (w.reverse ++ before).head? rest.head? = true

theorem Framed.ends_ne_nil {edge : Option α → Option α → Bool} {L : Language α} {r : Pattern α}
    (h : Framed edge L r) {before after : List α} {groups : List (ℕ × List α)} :
    r.ends ⟨before,after,groups⟩ ≠ [] ↔ Stands edge L before after := by
  constructor
  · intro hne
    obtain ⟨d,ds,hd⟩ := List.exists_cons_of_ne_nil hne
    obtain ⟨⟨w,hw,hafter,hbefore,-⟩,hstart,hend⟩ :=
      (h ⟨before,after,groups⟩ d).mp (by rw [hd]; exact List.mem_cons_self)
    exact ⟨w,hw,d.after,hafter,hstart,hbefore ▸ hend⟩
  · rintro ⟨w,hw,rest,hafter,hstart,hend⟩
    exact List.ne_nil_of_mem ((h ⟨before,after,groups⟩ ⟨w.reverse ++ before,rest,groups⟩).mpr
      ⟨⟨w,hw,hafter,rfl,rfl⟩,hstart,hend⟩)

theorem Framed.proper {edge : Option α → Option α → Bool} {L : Language α} {r : Pattern α}
    (h : Framed edge L r) (hne : [] ∉ L) : r.Proper := by
  intro c d hd
  obtain ⟨⟨w,hw,hafter,-⟩,-⟩ := (h c d).mp hd
  have hpos : 0 < w.length := List.length_pos_iff.mpr fun hnil => hne (hnil ▸ hw)
  simp [hafter,hpos]

/-- No word of `L` can overlap the mark: neither begins in it nor runs into it. -/
def Inert (L : Language α) (mark : List α) : Prop :=
  ∀ w ∈ L, ∀ x m, x ≠ [] → m ≠ [] → x <:+ w → m <:+ mark → (x = w ∨ m = mark) →
    ¬ x <+: m ∧ ¬ m <+: x

/-- A mark between two letters that no word has is inert if no word lies inside the mark. -/
theorem inert_of_infix {L : Language α} {a b : α} {mark : List α} (ha : ∀ w ∈ L, a ∉ w)
    (hb : ∀ w ∈ L, b ∉ w) (hmark : ∀ w ∈ L, ¬ w <:+: a::(mark ++ [b])) :
    Inert L (a::(mark ++ [b])) := by
  intro w hw x m hx hm hxw hmm hor
  obtain rfl | rfl := hor
  · constructor
    · exact fun hxm => hmark x hw (hxm.isInfix.trans hmm.isInfix)
    · intro hmx
      have hlast : m.getLast hm = b := by
        rw [hmm.getLast hm,List.getLast_cons (by simp),List.getLast_concat]
      exact hb x hw (hmx.subset (hlast ▸ List.getLast_mem hm))
  · obtain ⟨c,x,rfl⟩ := List.exists_cons_of_ne_nil hx
    have hca : c ≠ a := fun h => ha w hw (hxw.subset (h ▸ List.mem_cons_self))
    exact ⟨fun h => hca (List.cons_prefix_cons.mp h).1,
      fun h => hca (List.cons_prefix_cons.mp h).1.symm⟩

/-- A mark is inert if its first letter is in no word, and the first letter of no word in it. -/
theorem inert_of_heads {L : Language α} {mark : List α} (hmark : ∀ w ∈ L, ∀ a ∈ mark.head?, a ∉ w)
    (hL : ∀ w ∈ L, ∀ a ∈ w.head?, a ∉ mark) : Inert L mark := by
  intro w hw x m hx hm hxw hmm hor
  obtain ⟨a,x,rfl⟩ := List.exists_cons_of_ne_nil hx
  obtain ⟨b,m,rfl⟩ := List.exists_cons_of_ne_nil hm
  have hne : a ≠ b := by
    rintro rfl
    obtain rfl | rfl := hor
    · exact hL _ hw a rfl (hmm.subset List.mem_cons_self)
    · exact hmark w hw a rfl (hxw.subset List.mem_cons_self)
  exact ⟨fun h => hne (List.cons_prefix_cons.mp h).1,fun h => hne (List.cons_prefix_cons.mp h).1.symm⟩

/-- Words and mark compared letter by letter through a map. -/
theorem inert_of_map {β : Type*} {L : Language α} {mark : List α} (f : α → β) {t : List β}
    (hL : ∀ w ∈ L, w.map f = t)
    (h : ∀ x ∈ t.tails, ∀ m ∈ (mark.map f).tails, x ≠ [] → m ≠ [] → (x = t ∨ m = mark.map f) →
      ¬ x <+: m ∧ ¬ m <+: x) : Inert L mark := by
  intro w hw x m hx hm hxw hmm hor
  have hor' : x.map f = t ∨ m.map f = mark.map f := by
    obtain rfl | rfl := hor
    · exact Or.inl (hL x hw)
    · exact Or.inr rfl
  have hmap := h (x.map f) ((List.mem_tails _ _).mpr (hL w hw ▸ hxw.map f)) (m.map f)
    ((List.mem_tails _ _).mpr (hmm.map f)) (by simpa using hx) (by simpa using hm) hor'
  exact ⟨fun hxm => hmap.1 (hxm.map f),fun hmx => hmap.2 (hmx.map f)⟩

/-- The text of the tokens, with the mark for every match. -/
def marked (mark : List α) (ts : List (Token α)) : List α :=
  ts.flatMap fun
    | .keep a => [a]
    | .hit _ _ => mark

section Replaced
variable {near edge : Option α → Option α → Bool} {K L : Language α} {r : Pattern α}
  {mark : List α}

/-- The end of a word that is read where the scan has got to has been read in the text itself. -/
theorem read_of_marked (hr : Framed near K r) (hnear : ∀ x y, near x y = true → edge x y = true)
    (hmark : mark ≠ []) (hinert : Inert L mark)
    {before after o x rest w : List α} {ts : List (Token α)} (h : Scanned r before after ts)
    (hplace : o.head? = before.head? ∨ edge before.head? after.head? = true)
    (hw : w ∈ L) (hx : x <:+ w) (hout : marked mark ts = x ++ rest)
    (hend : edge (x.reverse ++ o).head? rest.head? = true) :
    ∃ rest', after = x ++ rest' ∧ edge (x.reverse ++ before).head? rest'.head? = true := by
  induction h generalizing o x with
  | done before =>
    obtain ⟨rfl,rfl⟩ := List.append_eq_nil_iff.mp hout.symm
    refine ⟨[],rfl,?_⟩
    obtain hplace | hplace := hplace
    · rw [List.reverse_nil,List.nil_append,← hplace]
      exact hend
    · exact hplace
  | @keep before rest' a ts hnone hrest ih =>
    have hcons : a::marked mark ts = x ++ rest := hout
    cases x with
    | nil =>
      refine ⟨a::rest',rfl,?_⟩
      obtain hplace | hplace := hplace
      · rw [List.nil_append] at hcons
        rw [List.reverse_nil,List.nil_append,← hplace]
        rw [← hcons] at hend
        exact hend
      · exact hplace
    | cons b x =>
      obtain ⟨rfl,htail⟩ := List.cons.inj hcons
      obtain ⟨rest'',hafter,hedge⟩ := ih (Or.inl rfl) ((List.suffix_cons a x).trans hx) htail
        (by simpa using hend)
      exact ⟨rest'',by rw [hafter,List.cons_append],by simpa using hedge⟩
  | @hit before w' rest' groups ts hw' hsome hrest ih =>
    have hcons : mark ++ marked mark ts = x ++ rest := hout
    have hstart := hnear _ _ ((hr _ _).mp (List.mem_of_mem_head? hsome)).2.1
    by_cases hnil : x = []
    · subst hnil
      exact ⟨w' ++ rest',rfl,hstart⟩
    · exfalso
      obtain hle | hle := List.prefix_or_prefix_of_prefix (List.prefix_append x rest)
        (hcons ▸ List.prefix_append mark (marked mark ts))
      · exact (hinert w hw x mark hnil hmark hx List.suffix_rfl (Or.inr rfl)).1 hle
      · exact (hinert w hw x mark hnil hmark hx List.suffix_rfl (Or.inr rfl)).2 hle

/-- A word that stands in the replaced text stands in the text itself, at a place where the pattern
does not match. -/
theorem stands_of_marked (hr : Framed near K r)
    (hnear : ∀ x y, near x y = true → edge x y = true) (hmark : mark ≠ [])
    (hinert : Inert L mark) (hne : [] ∉ L) {before after o u v : List α} {ts : List (Token α)}
    (h : Scanned r before after ts)
    (hplace : o.head? = before.head? ∨ edge before.head? after.head? = true)
    (hout : marked mark ts = u ++ v) (hstands : Stands edge L (u.reverse ++ o) v) :
    ∃ p q, after = p ++ q ∧ r.ends ⟨p.reverse ++ before,q,[]⟩ = [] ∧
      Stands edge L (p.reverse ++ before) q := by
  obtain ⟨w,hw,rest,rfl,hstart,hend⟩ := hstands
  have hwne : w ≠ [] := fun hnil => hne (hnil ▸ hw)
  induction h generalizing o u with
  | done before =>
    obtain ⟨-,hv⟩ := List.append_eq_nil_iff.mp hout.symm
    exact absurd (List.append_eq_nil_iff.mp hv).1 hwne
  | @keep before rest' a ts hnone hrest ih =>
    have hcons : a::marked mark ts = u ++ (w ++ rest) := hout
    cases u with
    | nil =>
      obtain ⟨b,x,rfl⟩ := List.exists_cons_of_ne_nil hwne
      obtain ⟨rfl,htail⟩ := List.cons.inj hcons
      obtain ⟨rest'',hafter,hedge⟩ := read_of_marked hr hnear hmark hinert hrest (Or.inl rfl) hw
        (List.suffix_cons a x) htail (by simpa using hend)
      refine ⟨[],a::rest',rfl,hnone,a::x,hw,rest'',by rw [hafter,List.cons_append],?_,
        by simpa using hedge⟩
      obtain hplace | hplace := hplace
      · rw [List.reverse_nil,List.nil_append,← hplace]
        exact hstart
      · exact hplace
    | cons b u =>
      obtain ⟨rfl,htail⟩ := List.cons.inj hcons
      obtain ⟨p,q,hafter,hends,hstands⟩ := ih (Or.inl rfl) htail (by simpa using hstart)
        (by simpa using hend)
      exact ⟨a::p,q,by rw [hafter,List.cons_append],by simpa using hends,by simpa using hstands⟩
  | @hit before w' rest' groups ts hw' hsome hrest ih =>
    have hcons : mark ++ marked mark ts = u ++ (w ++ rest) := hout
    have hplace' := hnear _ _ ((hr _ _).mp (List.mem_of_mem_head? hsome)).2.2
    obtain ⟨u',rfl,htail⟩ : ∃ u', u = mark ++ u' ∧ marked mark ts = u' ++ (w ++ rest) := by
      obtain h | ⟨m,rfl,hcut⟩ := List.append_eq_append_iff.mp hcons
      · exact h
      · by_cases hm : m = []
        · subst hm
          exact ⟨[],by simp,by simpa using hcut.symm⟩
        · exfalso
          obtain hle | hle := List.prefix_or_prefix_of_prefix (List.prefix_append w rest)
            (hcut ▸ List.prefix_append m (marked (u ++ m) ts))
          · exact (hinert w hw w m hwne hm List.suffix_rfl (List.suffix_append u m)
              (Or.inl rfl)).1 hle
          · exact (hinert w hw w m hwne hm List.suffix_rfl (List.suffix_append u m)
              (Or.inl rfl)).2 hle
    obtain ⟨p,q,hafter,hends,hstands⟩ := ih (o := mark.reverse ++ o) (Or.inr hplace') htail
      (by simpa using hstart) (by simpa using hend)
    exact ⟨w' ++ p,q,by rw [hafter,List.append_assoc],by simpa using hends,
      by simpa using hstands⟩

/-- No word of `L` stands anywhere in the text. -/
def Free (edge : Option α → Option α → Bool) (L : Language α) (text : List α) : Prop :=
  ∀ u v, text = u ++ v → ¬ Stands edge L u.reverse v

theorem free_anywhere_iff {L : Language α} {text : List α} :
    Free anywhere L text ↔ ∀ w ∈ L, ¬ w <:+: text := by
  constructor
  · rintro h w hw ⟨u,v,huv⟩
    exact h u (w ++ v) (by rw [← huv,List.append_assoc]) ⟨w,hw,v,rfl,rfl,rfl⟩
  · rintro h u v rfl ⟨w,hw,rest,rfl,-⟩
    exact h w hw ⟨u,rest,List.append_assoc u w rest⟩

theorem replaceAll_eq_marked (r : Pattern α) (mark text : List α) :
    replaceAll r mark text = marked mark (tokens r text) := rfl

/-- Replacing brings no word about, where the condition next to a match is at least the one next to a
word. -/
theorem Free.replaceAll_near (hr : Framed near K r)
    (hnear : ∀ x y, near x y = true → edge x y = true) (hK : [] ∉ K) (hmark : mark ≠ [])
    (hinert : Inert L mark) (hL : [] ∉ L) {text : List α} (h : Free edge L text) :
    Free edge L (replaceAll r mark text) := by
  intro u v huv hstands
  obtain ⟨p,q,hpq,-,hstands⟩ := stands_of_marked hr hnear hmark hinert hL (o := [])
    (scanned_tokens (hr.proper hK) text) (Or.inl rfl) huv (by simpa using hstands)
  exact h p q hpq (by simpa using hstands)

/-- Replacing brings no word about. -/
theorem Free.replaceAll (hr : Framed edge K r) (hK : [] ∉ K) (hmark : mark ≠ [])
    (hinert : Inert L mark) (hL : [] ∉ L) {text : List α} (h : Free edge L text) :
    Free edge L (replaceAll r mark text) :=
  h.replaceAll_near hr (fun _ _ hedge => hedge) hK hmark hinert hL

/-- Nothing that the pattern matches is left. -/
theorem free_replaceAll_self (hr : Framed edge L r) (hmark : mark ≠ []) (hinert : Inert L mark)
    (hL : [] ∉ L) (text : List α) : Free edge L (replaceAll r mark text) := by
  intro u v huv hstands
  obtain ⟨p,q,-,hends,hstands⟩ := stands_of_marked hr (fun _ _ hedge => hedge) hmark hinert hL
    (o := [])
    (scanned_tokens (hr.proper hL) text) (Or.inl rfl) huv (by simpa using hstands)
  exact hr.ends_ne_nil.mpr hstands hends

end Replaced

/-! ### Texts without a match -/

/-- The pattern matches nowhere in the text. -/
def NoMatch (r : Pattern α) (text : List α) : Prop :=
  ∀ u v, text = u ++ v → r.ends ⟨u.reverse,v,[]⟩ = []

theorem Framed.noMatch_iff {edge : Option α → Option α → Bool} {L : Language α} {r : Pattern α}
    (h : Framed edge L r) {text : List α} : NoMatch r text ↔ Free edge L text := by
  constructor
  · exact fun hno u v huv hstands => h.ends_ne_nil.mpr hstands (hno u v huv)
  · intro hfree u v huv
    by_contra hne
    exact hfree u v huv (h.ends_ne_nil.mp hne)

theorem NoMatch.scan_eq {r : Pattern α} {fuel : ℕ} {before after : List α}
    (hfuel : after.length < fuel) (h : ∀ u v, after = u ++ v →
      r.ends ⟨u.reverse ++ before,v,[]⟩ = []) : scan r fuel before after = after.map .keep := by
  induction after generalizing fuel before with
  | nil =>
    obtain ⟨fuel,rfl⟩ := Nat.exists_eq_succ_of_ne_zero (Nat.ne_of_gt hfuel)
    have hnil : r.ends ⟨before,[],[]⟩ = [] := h [] [] rfl
    simp [scan,hnil]
  | cons a rest ih =>
    obtain ⟨fuel,rfl⟩ := Nat.exists_eq_succ_of_ne_zero (Nat.ne_of_gt (Nat.zero_lt_of_lt hfuel))
    have hnil : r.ends ⟨before,a::rest,[]⟩ = [] := h [] (a::rest) rfl
    have hrest : scan r fuel (a::before) rest = rest.map .keep := by
      refine ih (by simpa using hfuel) fun u v huv => ?_
      simpa using h (a::u) v (by rw [huv,List.cons_append])
    simp [scan,hnil,hrest]

theorem NoMatch.tokens_eq {r : Pattern α} {text : List α} (h : NoMatch r text) :
    tokens r text = text.map .keep :=
  NoMatch.scan_eq (Nat.lt_succ_self _) fun u v huv => by simpa using h u v huv

theorem NoMatch.replaceAll_eq {r : Pattern α} {text : List α} (h : NoMatch r text)
    (mark : List α) : replaceAll r mark text = text := by
  rw [replaceAll,h.tokens_eq,List.flatMap_map]
  exact List.flatMap_singleton' text

theorem NoMatch.count_eq {r : Pattern α} {text : List α} (h : NoMatch r text) :
    count r text = 0 := by
  rw [count,h.tokens_eq,List.filter_map]
  simp [Function.comp_def]

/-- A pattern that begins with a letter matches nowhere without that letter. -/
theorem noMatch_of_head {p : α → Bool} {r : Pattern α} {text : List α}
    (h : ∀ a ∈ text, p a = false) : NoMatch (.seq (.sat p) r) text := by
  intro u v huv
  cases v with
  | nil => rfl
  | cons a rest => simp [Pattern.ends,h a (by simp [huv])]

/-- The letters in no match. -/
def unmatched (ts : List (Token α)) : List α :=
  ts.filterMap fun
    | .keep a => some a
    | .hit _ _ => none

theorem unmatched_scan_sublist (r : Pattern α) (fuel : ℕ) (before after : List α) :
    (unmatched (scan r fuel before after)).Sublist after := by
  induction fuel generalizing before after with
  | zero => exact List.nil_sublist after
  | succ fuel ih =>
    unfold scan
    cases hd : (r.ends ⟨before,after,[]⟩).head? with
    | none =>
      cases after with
      | nil => exact List.nil_sublist []
      | cons a rest => exact (ih (a::before) rest).cons_cons a
    | some d =>
      dsimp only
      split_ifs
      · obtain ⟨w,hafter,-⟩ := ends_moves (List.mem_of_mem_head? hd)
        obtain rfl : after = w ++ d.after := hafter
        exact (ih d.before d.after).trans (List.sublist_append_right w d.after)
      · cases after with
        | nil => exact List.nil_sublist []
        | cons a rest => exact (ih (a::before) rest).cons_cons a

/-- Without the letters of the mark, the replaced text is in order of the text. -/
theorem filter_replaceAll_sublist (r : Pattern α) {mark : List α} {p : α → Bool}
    (hmark : ∀ a ∈ mark, p a = false) (text : List α) :
    ((replaceAll r mark text).filter p).Sublist (text.filter p) := by
  have hnone : mark.filter p = [] := List.filter_eq_nil_iff.mpr fun a ha => by simp [hmark a ha]
  have hunmatched : ∀ ts : List (Token α), (marked mark ts).filter p = (unmatched ts).filter p := by
    intro ts
    induction ts with
    | nil => rfl
    | cons t ts ih =>
      cases t with
      | keep a =>
        change ([a] ++ marked mark ts).filter p = ([a] ++ unmatched ts).filter p
        rw [List.filter_append,List.filter_append,ih]
      | hit w groups =>
        change (mark ++ marked mark ts).filter p = (unmatched ts).filter p
        rw [List.filter_append,hnone,ih,List.nil_append]
  rw [replaceAll_eq_marked,hunmatched]
  exact (unmatched_scan_sublist r _ [] text).filter p

/-- Replacing brings no other letters than those of the mark. -/
theorem of_mem_replaceAll {r : Pattern α} {mark text : List α} {a : α}
    (h : a ∈ replaceAll r mark text) : a ∈ text ∨ a ∈ mark := by
  obtain ⟨t,ht,ha⟩ := List.mem_flatMap.mp h
  cases t with
  | keep b =>
    obtain rfl := List.mem_singleton.mp ha
    exact Or.inl ((unmatched_scan_sublist r _ [] text).subset (List.mem_filterMap.mpr ⟨_,ht,rfl⟩))
  | hit w groups => exact Or.inr ha

/-- Replacing single letters. -/
theorem replaceAll_sat (p : α → Bool) (mark text : List α) :
    replaceAll (.sat p) mark text = text.flatMap fun a => if p a then mark else [a] := by
  have hproper : (Pattern.sat p).Proper := (framed_of_plain (r := .sat p) trivial).proper (by
    rintro ⟨a,ha,-⟩
    cases ha)
  have hscan : ∀ {before after ts}, Scanned (.sat p) before after ts →
      marked mark ts = after.flatMap fun a => if p a then mark else [a] := by
    intro before after ts h
    induction h with
    | done before => rfl
    | @keep before rest a ts hnone hrest ih =>
      have hp : p a = false := by
        by_contra hp
        rw [Bool.not_eq_false] at hp
        simp [sat_ends,hp] at hnone
      rw [List.flatMap_cons,if_neg (by simp [hp])]
      exact congrArg ([a] ++ ·) ih
    | @hit before w rest groups ts hw hsome hrest ih =>
      obtain ⟨a,w,rfl⟩ := List.exists_cons_of_ne_nil hw
      rw [List.cons_append,sat_ends] at hsome
      split_ifs at hsome with hp
      · obtain ⟨hbefore,hrest',-⟩ := Cursor.mk.inj (Option.some.inj hsome)
        obtain rfl : w = [] := List.append_left_eq_self.mp hrest'
        rw [List.singleton_append,List.flatMap_cons,if_pos hp]
        exact congrArg (mark ++ ·) ih
      · cases hsome
  rw [replaceAll_eq_marked]
  exact hscan (scanned_tokens hproper text)

end AtlasCompliance.Regex
