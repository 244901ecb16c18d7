import AtlasCompliance.Lib.Regex

/-! The words of patterns without look-arounds and groups as a language: a match reads a word of it,
and every word of it that stands there can be read. -/
namespace AtlasCompliance.Regex

universe u
variable {α : Type u}

/-- No condition on the surroundings and no group. -/
def Pattern.Plain : Pattern α → Prop
  | .empty | .sat _ => True
  | .seq r s | .alt r s => r.Plain ∧ s.Plain
  | .star _ r => r.Plain
  | .look _ | .group _ _ | .backref _ _ => False

/-- The words of a plain pattern. -/
def Pattern.language : Pattern α → Language α
  | .empty => 1
  | .sat p => {w | ∃ a, w = [a] ∧ p a = true}
  | .seq r s => r.language*s.language
  | .alt r s => r.language + s.language
  | .star _ r => KStar.kstar r.language
  | .look _ | .group _ _ | .backref _ _ => 0

/-- Reading a word of the language leads from one place to the other. -/
def Reads (L : Language α) (c d : Cursor α) : Prop :=
  ∃ w ∈ L, c.after = w ++ d.after ∧ d.before = w.reverse ++ c.before ∧ d.groups = c.groups

theorem Reads.length_le {L : Language α} {c d : Cursor α} (h : Reads L c d) :
    d.after.length ≤ c.after.length := by
  obtain ⟨w,-,hafter,-⟩ := h
  simp [hafter]

theorem reads_one {c d : Cursor α} : Reads 1 c d ↔ d = c := by
  constructor
  · rintro ⟨w,hw,hafter,hbefore,hgroups⟩
    obtain rfl := (Language.mem_one w).mp hw
    cases c
    cases d
    simp_all
  · rintro rfl
    exact ⟨[],Language.nil_mem_one,by simp⟩

theorem reads_mul {L M : Language α} {c d : Cursor α} :
    Reads (L*M) c d ↔ ∃ e, Reads L c e ∧ Reads M e d := by
  constructor
  · rintro ⟨vw,hvw,hafter,hbefore,hgroups⟩
    obtain ⟨v,hv,w,hw,rfl⟩ := Language.mem_mul.mp hvw
    refine ⟨⟨v.reverse ++ c.before,w ++ d.after,c.groups⟩,⟨v,hv,?_,rfl,rfl⟩,w,hw,rfl,?_,hgroups⟩
    · rw [hafter,List.append_assoc]
    · rw [hbefore,List.reverse_append,List.append_assoc]
  · rintro ⟨e,⟨v,hv,hafter,hbefore,hgroups⟩,w,hw,hafter',hbefore',hgroups'⟩
    refine ⟨v ++ w,Language.append_mem_mul hv hw,?_,?_,hgroups'.trans hgroups⟩
    · rw [hafter,hafter',List.append_assoc]
    · rw [hbefore',hbefore,List.reverse_append,List.append_assoc]

theorem reads_add {L M : Language α} {c d : Cursor α} :
    Reads (L + M) c d ↔ Reads L c d ∨ Reads M c d := by
  simp only [Reads,Language.mem_add,or_and_right,exists_or]

theorem reads_kstar_refl (L : Language α) (c : Cursor α) : Reads (KStar.kstar L) c c :=
  ⟨[],Language.nil_mem_kstar L,by simp⟩

theorem Reads.kstar_step {L : Language α} {c d e : Cursor α} (h : Reads L c d)
    (hrest : Reads (KStar.kstar L) d e) : Reads (KStar.kstar L) c e := by
  obtain ⟨w,hw,hafter,hbefore,hgroups⟩ := reads_mul.mpr ⟨d,h,hrest⟩
  refine ⟨w,?_,hafter,hbefore,hgroups⟩
  rw [← Language.one_add_self_mul_kstar_eq_kstar L]
  exact Or.inr hw

/-- A repetition is empty or begins with a word that consumes something. -/
theorem Reads.kstar_cases {L : Language α} {c e : Cursor α} (h : Reads (KStar.kstar L) c e) :
    e = c ∨ ∃ d, Reads L c d ∧ d.after.length < c.after.length ∧ Reads (KStar.kstar L) d e := by
  obtain ⟨w,hw,hafter,hbefore,hgroups⟩ := h
  rw [Language.kstar_def_nonempty] at hw
  obtain ⟨ws,rfl,hws⟩ := hw
  cases ws with
  | nil => exact Or.inl (reads_one.mp ⟨[],Language.nil_mem_one,hafter,hbefore,hgroups⟩)
  | cons v ws =>
    obtain ⟨hv,hne⟩ := hws v List.mem_cons_self
    have hpos : 0 < v.length := List.length_pos_iff.mpr hne
    refine Or.inr ⟨⟨v.reverse ++ c.before,ws.flatten ++ e.after,c.groups⟩,
      ⟨v,hv,by simpa using hafter,rfl,rfl⟩,?_,ws.flatten,?_,rfl,?_,hgroups⟩
    · simp [hafter,hpos]
    · exact Language.join_mem_kstar fun y hy => (hws y (List.mem_cons_of_mem v hy)).1
    · simpa using hbefore

/-- Rounds that consume something, as many as there are letters, reach every repetition. -/
theorem mem_starEnds {L : Language α} {greedy : Bool} {f : Cursor α → List (Cursor α)}
    (hf : ∀ c d, d ∈ f c ↔ Reads L c d) {fuel : ℕ} {c d : Cursor α}
    (hfuel : c.after.length ≤ fuel) : d ∈ starEnds greedy f fuel c ↔ Reads (KStar.kstar L) c d := by
  induction fuel generalizing c with
  | zero =>
    have hnil : c.after.length = 0 := Nat.le_zero.mp hfuel
    constructor
    · intro h
      obtain rfl := List.mem_singleton.mp h
      exact reads_kstar_refl L d
    · intro h
      obtain rfl | ⟨e,-,hlt,-⟩ := h.kstar_cases
      · exact List.mem_singleton_self d
      · omega
  | succ fuel ih =>
    have hmem : d ∈ starEnds greedy f (fuel + 1) c ↔
        d = c ∨ ∃ e ∈ f c, e.after.length < c.after.length ∧ d ∈ starEnds greedy f fuel e := by
      cases greedy <;> simp [starEnds,or_comm,and_assoc]
    rw [hmem]
    constructor
    · rintro (rfl | ⟨e,he,hlt,hd⟩)
      · exact reads_kstar_refl L d
      · exact ((hf c e).mp he).kstar_step ((ih (by omega)).mp hd)
    · intro h
      obtain rfl | ⟨e,he,hlt,hrest⟩ := h.kstar_cases
      · exact Or.inl rfl
      · exact Or.inr ⟨e,(hf c e).mpr he,hlt,(ih (by omega)).mpr hrest⟩

theorem reads_sat {p : α → Bool} {c d : Cursor α} :
    Reads {w | ∃ a, w = [a] ∧ p a = true} c d ↔ ∃ a, p a = true ∧ c.after = a::d.after ∧
      d = ⟨a::c.before,d.after,c.groups⟩ := by
  constructor
  · rintro ⟨_,⟨a,rfl,ha⟩,hafter,hbefore,hgroups⟩
    refine ⟨a,ha,hafter,?_⟩
    cases d
    simp_all
  · rintro ⟨a,ha,hafter,hd⟩
    rw [hd]
    exact ⟨[a],⟨a,rfl,ha⟩,hafter,rfl,rfl⟩

/-- A plain pattern ends exactly where a word of its language ends. -/
theorem mem_ends {r : Pattern α} (h : r.Plain) {c d : Cursor α} :
    d ∈ r.ends c ↔ Reads r.language c d := by
  induction r generalizing c d with
  | empty => simp [Pattern.ends,Pattern.language,reads_one]
  | sat p =>
    obtain ⟨before,after,groups⟩ := c
    rw [Pattern.language,reads_sat]
    cases after with
    | nil => simp [Pattern.ends]
    | cons a rest =>
      by_cases ha : p a = true
      · simp only [Pattern.ends,ha,if_true,List.mem_singleton]
        constructor
        · rintro rfl
          exact ⟨a,ha,rfl,rfl⟩
        · rintro ⟨_,-,h,hd⟩
          obtain ⟨rfl,rfl⟩ := List.cons.inj h
          exact hd
      · simp only [Pattern.ends,ha,Bool.false_eq_true,if_false,List.not_mem_nil,false_iff]
        rintro ⟨b,hb,h,-⟩
        exact ha ((List.cons.inj h).1 ▸ hb)
  | look p => cases h
  | seq r s ihr ihs =>
    simp only [Pattern.ends,Pattern.language,List.mem_flatMap,reads_mul,ihr h.1,ihs h.2]
  | alt r s ihr ihs =>
    simp only [Pattern.ends,Pattern.language,List.mem_append,reads_add,ihr h.1,ihs h.2]
  | star greedy r ih => exact mem_starEnds (fun c d => ih h) le_rfl
  | group n r ih => cases h
  | backref same n => cases h

theorem plain_times {r : Pattern α} (h : r.Plain) (n : ℕ) : (Pattern.times n r).Plain := by
  induction n with
  | zero => trivial
  | succ n ih => exact ⟨h,ih⟩

theorem plain_upTo {r : Pattern α} (h : r.Plain) (n : ℕ) : (Pattern.upTo n r).Plain := by
  induction n with
  | zero => trivial
  | succ n ih => exact ⟨⟨h,ih⟩,trivial⟩

theorem plain_between {r : Pattern α} (h : r.Plain) (m n : ℕ) : (Pattern.between m n r).Plain :=
  ⟨plain_times h m,plain_upTo h n⟩

theorem plain_word (same : α → α → Bool) (w : List α) : (Pattern.word same w).Plain := by
  induction w with
  | nil => trivial
  | cons a w ih => exact ⟨trivial,ih⟩

theorem mem_language_seq_sat {p : α → Bool} {s : Pattern α} {w : List α} :
    w ∈ (Pattern.seq (.sat p) s).language ↔ ∃ a v, w = a::v ∧ p a = true ∧ v ∈ s.language := by
  rw [Pattern.language,Language.mem_mul]
  constructor
  · rintro ⟨_,⟨a,rfl,ha⟩,v,hv,rfl⟩
    exact ⟨a,v,rfl,ha,hv⟩
  · rintro ⟨a,v,rfl,ha,hv⟩
    exact ⟨[a],⟨a,rfl,ha⟩,v,hv,rfl⟩

theorem mem_language_times {p : α → Bool} {n : ℕ} {w : List α} :
    w ∈ (Pattern.times n (.sat p)).language ↔ w.length = n ∧ ∀ a ∈ w, p a = true := by
  induction n generalizing w with
  | zero =>
    rw [Pattern.times,Pattern.language,Language.mem_one,List.length_eq_zero_iff]
    constructor
    · rintro rfl
      exact ⟨rfl,by simp⟩
    · exact fun h => h.1
  | succ n ih =>
    rw [Pattern.times,mem_language_seq_sat]
    cases w with
    | nil => simp
    | cons b w => simp [ih,and_left_comm]

theorem mem_language_upTo {p : α → Bool} {n : ℕ} {w : List α} :
    w ∈ (Pattern.upTo n (.sat p)).language ↔ w.length ≤ n ∧ ∀ a ∈ w, p a = true := by
  induction n generalizing w with
  | zero =>
    rw [Pattern.upTo,Pattern.language,Language.mem_one,Nat.le_zero,List.length_eq_zero_iff]
    constructor
    · rintro rfl
      exact ⟨rfl,by simp⟩
    · exact fun h => h.1
  | succ n ih =>
    rw [Pattern.upTo,Pattern.opt,Pattern.language,Language.mem_add,mem_language_seq_sat]
    cases w with
    | nil => simp [Pattern.language]
    | cons b w => simp [ih,Pattern.language,and_left_comm]

theorem mem_language_between {p : α → Bool} {m n : ℕ} {w : List α} :
    w ∈ (Pattern.between m n (.sat p)).language ↔
      m ≤ w.length ∧ w.length ≤ m + n ∧ ∀ a ∈ w, p a = true := by
  rw [Pattern.between,Pattern.language,Language.mem_mul]
  constructor
  · rintro ⟨u,hu,v,hv,rfl⟩
    obtain ⟨hu,hup⟩ := mem_language_times.mp hu
    obtain ⟨hv,hvp⟩ := mem_language_upTo.mp hv
    refine ⟨by simp [hu],by simp [hu,hv],?_⟩
    intro a ha
    obtain ha | ha := List.mem_append.mp ha
    · exact hup a ha
    · exact hvp a ha
  · rintro ⟨hm,hn,hp⟩
    refine ⟨w.take m,mem_language_times.mpr ⟨by simpa using hm,?_⟩,w.drop m,
      mem_language_upTo.mpr ⟨by rw [List.length_drop]; omega,?_⟩,List.take_append_drop m w⟩
    · exact fun a ha => hp a (List.mem_of_mem_take ha)
    · exact fun a ha => hp a (List.mem_of_mem_drop ha)

theorem mem_language_star {greedy : Bool} {p : α → Bool} {w : List α} :
    w ∈ (Pattern.star greedy (.sat p)).language ↔ ∀ a ∈ w, p a = true := by
  rw [Pattern.language,Language.mem_kstar]
  constructor
  · rintro ⟨ws,rfl,hws⟩ a ha
    obtain ⟨v,hv,hav⟩ := List.mem_flatten.mp ha
    obtain ⟨b,rfl,hb⟩ := hws v hv
    exact List.mem_singleton.mp hav ▸ hb
  · intro h
    refine ⟨w.map fun a => [a],by rw [← List.flatMap_def,List.flatMap_singleton'],?_⟩
    intro v hv
    obtain ⟨a,ha,rfl⟩ := List.mem_map.mp hv
    exact ⟨a,rfl,h a ha⟩

theorem mem_language_word {same : α → α → Bool} {w v : List α} :
    v ∈ (Pattern.word same w).language ↔ List.Forall₂ (fun a b => same a b = true) w v := by
  induction w generalizing v with
  | nil => simp [Pattern.word,Pattern.language,Language.mem_one]
  | cons a w ih =>
    rw [Pattern.word,mem_language_seq_sat]
    cases v with
    | nil => simp
    | cons b v => simp [ih]

/-- Letters compared by their images. -/
theorem mem_language_word_map {β : Type*} [BEq β] [LawfulBEq β] {f : α → β} {w v : List α} :
    v ∈ (Pattern.word (fun a b => f a == f b) w).language ↔ v.map f = w.map f := by
  rw [mem_language_word,eq_comm,← List.forall₂_eq_eq_eq,List.forall₂_map_left_iff,
    List.forall₂_map_right_iff]
  simp only [beq_iff_eq]

/-! ### The letters of words -/

/-- Every letter that the pattern reads satisfies `q`. -/
def Pattern.Only (q : α → Prop) : Pattern α → Prop
  | .empty => True
  | .sat p => ∀ a, p a = true → q a
  | .seq r s | .alt r s => r.Only q ∧ s.Only q
  | .star _ r => r.Only q
  | .look _ | .group _ _ | .backref _ _ => False

/-- Some letter that the pattern has to read satisfies `q`. -/
def Pattern.Has (q : α → Prop) : Pattern α → Prop
  | .sat p => ∀ a, p a = true → q a
  | .seq r s => r.Has q ∨ s.Has q
  | .alt r s => r.Has q ∧ s.Has q
  | .empty | .star _ _ | .look _ | .group _ _ | .backref _ _ => False

theorem Pattern.Only.letters {q : α → Prop} {r : Pattern α} (h : r.Only q) {w : List α}
    (hw : w ∈ r.language) : ∀ a ∈ w, q a := by
  induction r generalizing w with
  | empty =>
    obtain rfl := (Language.mem_one w).mp hw
    simp
  | sat p =>
    obtain ⟨a,rfl,ha⟩ := hw
    simpa using h a ha
  | seq r s ihr ihs =>
    obtain ⟨u,hu,v,hv,rfl⟩ := Language.mem_mul.mp hw
    intro a ha
    obtain ha | ha := List.mem_append.mp ha
    · exact ihr h.1 hu a ha
    · exact ihs h.2 hv a ha
  | alt r s ihr ihs =>
    obtain hw | hw := hw
    · exact ihr h.1 hw
    · exact ihs h.2 hw
  | star greedy r ih =>
    obtain ⟨ws,rfl,hws⟩ := Language.mem_kstar.mp hw
    intro a ha
    obtain ⟨v,hv,hav⟩ := List.mem_flatten.mp ha
    exact ih h (hws v hv) a hav
  | look p | group n r ih | backref same n => cases h

theorem Pattern.Has.letter {q : α → Prop} {r : Pattern α} (h : r.Has q) {w : List α}
    (hw : w ∈ r.language) : ∃ a ∈ w, q a := by
  induction r generalizing w with
  | sat p =>
    obtain ⟨a,rfl,ha⟩ := hw
    exact ⟨a,List.mem_singleton_self a,h a ha⟩
  | seq r s ihr ihs =>
    obtain ⟨u,hu,v,hv,rfl⟩ := Language.mem_mul.mp hw
    obtain h | h := h
    · obtain ⟨a,ha,hq⟩ := ihr h hu
      exact ⟨a,List.mem_append_left v ha,hq⟩
    · obtain ⟨a,ha,hq⟩ := ihs h hv
      exact ⟨a,List.mem_append_right u ha,hq⟩
  | alt r s ihr ihs =>
    obtain hw | hw := hw
    · exact ihr h.1 hw
    · exact ihs h.2 hw
  | empty | star greedy r ih | look p | group n r ih | backref same n => cases h

end AtlasCompliance.Regex
