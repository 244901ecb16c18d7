import AtlasCompliance.Agents.Amounts

/-! Amounts in a text that is cut off: what is read of a number that lies across the cut, and when
that is still the same amount. -/
namespace AtlasCompliance.Agents
open Python

variable {d : Digits}

/-! ### The worth of a longer number -/

/-- The amount that a number with commas stands for. -/
def worth (d : Digits) (n : List Char) : ℚ := decimal d (n.filter (· != ','))

/-- No digit but zero. -/
def Zeros (d : Digits) (text : List Char) : Prop := ∀ c ∈ text, digitValue d c = 0

theorem natOf_append (x y : List Char) :
    natOf d (x ++ y) = natOf d x*10^y.length + natOf d y := by
  have hfrom : ∀ n, y.foldl (fun n c => 10*n + digitValue d c) n =
      n*10^y.length + natOf d y := by
    induction y with
    | nil => simp [natOf]
    | cons c y ih =>
      intro n
      have hc : natOf d (c::y) = digitValue d c*10^y.length + natOf d y := by
        rw [natOf,List.foldl_cons,ih]
        simp
      rw [List.foldl_cons,ih,hc,List.length_cons,pow_succ]
      ring
  rw [natOf,List.foldl_append,hfrom]
  rfl

theorem natOf_eq_zero {x : List Char} : natOf d x = 0 ↔ Zeros d x := by
  induction x with
  | nil => simp [natOf,Zeros]
  | cons c x ih =>
    have hc : natOf d (c::x) = digitValue d c*10^x.length + natOf d x := by
      rw [← List.singleton_append,natOf_append]
      simp [natOf]
    rw [hc,Nat.add_eq_zero_iff,ih,Nat.mul_eq_zero]
    simp [Zeros]

theorem zeros_append {x y : List Char} : Zeros d (x ++ y) ↔ Zeros d x ∧ Zeros d y :=
  List.forall_mem_append

theorem digitValue_comma (d : Digits) : digitValue d ',' = 0 := by
  rw [digitValue,d.ascii _ (by decide)]
  rfl

theorem digitValue_point (d : Digits) : digitValue d '.' = 0 := by
  rw [digitValue,d.ascii _ (by decide)]
  rfl

theorem zeros_point {text : List Char} : Zeros d ('.'::text) ↔ Zeros d text :=
  List.forall_mem_cons.trans (and_iff_right (digitValue_point d))

theorem zeros_filter {x : List Char} : Zeros d (x.filter (· != ',')) ↔ Zeros d x := by
  constructor
  · intro h c hc
    by_cases hcomma : c = ','
    · rw [hcomma]
      exact digitValue_comma d
    · exact h c (List.mem_filter.mpr ⟨hc,by simpa using hcomma⟩)
  · exact fun h c hc => h c (List.mem_filter.mp hc).1

theorem decimal_of_not_mem {x : List Char} (h : '.' ∉ x) : decimal d x = natOf d x := by
  have hall : ∀ c ∈ x, decide (c ≠ '.') = true := fun c hc => decide_eq_true (ne_of_mem_of_not_mem hc h)
  have htake : x.takeWhile (fun c => decide (c ≠ '.')) = x := List.takeWhile_eq_self_iff.mpr hall
  have hdrop : x.dropWhile (fun c => decide (c ≠ '.')) = [] := List.dropWhile_eq_nil_iff.mpr hall
  rw [decimal_eq,htake,hdrop]
  simp

/-- A number that is moved to the left and added to stays itself only if nothing is added, and it
is not moved or was zero. -/
theorem shift_eq_iff {m a b p q : ℕ} (hp : 0 < p) (hq : 0 < q) :
    (m*p + a)*q + b = m*q ↔ (a = 0 ∧ b = 0) ∧ (p = 1 ∨ m = 0) := by
  constructor
  · intro h
    have hle : m*q ≤ m*p*q := Nat.mul_le_mul_right q (Nat.le_mul_of_pos_right m hp)
    have hsum : m*p*q + a*q + b = m*q := by rw [← h,Nat.add_mul]
    have ha : a*q = 0 := by omega
    have hmove : m*p*q = m*q := by omega
    refine ⟨⟨(Nat.mul_eq_zero.mp ha).resolve_right hq.ne',by omega⟩,?_⟩
    obtain hm | hm := Nat.eq_zero_or_pos m
    · exact Or.inr hm
    · have hmp : m*p = m*1 := by rw [Nat.mul_one,Nat.eq_of_mul_eq_mul_right hq hmove]
      exact Or.inl (Nat.eq_of_mul_eq_mul_left hm hmp)
  · rintro ⟨⟨rfl,rfl⟩,rfl | rfl⟩ <;> simp

/-- A number keeps its worth when nothing but zeros is added behind its point, or to nothing but
zeros. -/
theorem decimal_append_eq_iff {m e : List Char} : decimal d (m ++ e) = decimal d m ↔
    Zeros d e ∧ ('.' ∈ m ∨ e.takeWhile (fun c => decide (c ≠ '.')) = [] ∨ Zeros d m) := by
  have hten : ∀ n : ℕ, 0 < 10^n := fun n => by positivity
  by_cases hm : '.' ∈ m
  · obtain ⟨x,y,rfl,hx⟩ := List.eq_append_cons_of_mem hm
    rw [List.append_assoc,List.cons_append,decimal_append hx,decimal_append hx,← List.append_assoc,
      natOf_append (x ++ y) e,List.length_append,pow_add,div_eq_div_iff (by positivity) (by positivity)]
    have hcancel : ((natOf d (x ++ y)*10^e.length + natOf d e : ℕ) : ℚ)*10^y.length =
        natOf d (x ++ y)*(10^y.length*10^e.length) ↔ natOf d e = 0 := by
      have hy : (10:ℚ)^y.length ≠ 0 := by positivity
      push_cast
      constructor
      · intro h
        have hzero : (natOf d e : ℚ)*10^y.length = 0 := by linear_combination h
        exact_mod_cast (mul_eq_zero.mp hzero).resolve_right hy
      · intro h
        rw [h]
        push_cast
        ring
    rw [hcancel,natOf_eq_zero,and_iff_left (Or.inl (by simp))]
  · have hworth : natOf d m = 0 ↔ Zeros d m := natOf_eq_zero
    rw [decimal_of_not_mem hm,or_iff_right hm]
    by_cases he : '.' ∈ e
    · obtain ⟨x,y,rfl,hx⟩ := List.eq_append_cons_of_mem he
      have hmx : '.' ∉ m ++ x := by simp [hm,hx]
      have hsplit : Zeros d (x ++ '.'::y) ↔ natOf d x = 0 ∧ natOf d y = 0 := by
        rw [zeros_append,zeros_point,natOf_eq_zero,natOf_eq_zero]
      rw [← List.append_assoc,decimal_append hmx,natOf_append,natOf_append,hsplit,(takeWhile_point hx).1,
        div_eq_iff (by positivity),← hworth]
      have hnat := shift_eq_iff (m := natOf d m) (a := natOf d x) (b := natOf d y) (hten x.length)
        (hten y.length)
      have hlength : 10^x.length = 1 ↔ x = [] := by simp
      rw [hlength] at hnat
      rw [← hnat]
      exact_mod_cast Iff.rfl
    · have hme : '.' ∉ m ++ e := by simp [hm,he]
      have hnat := shift_eq_iff (m := natOf d m) (a := natOf d e) (b := 0) (hten e.length) one_pos
      have hlength : 10^e.length = 1 ↔ e = [] := by simp
      have htake : e.takeWhile (fun c => decide (c ≠ '.')) = e := List.takeWhile_eq_self_iff.mpr
        fun c hc => decide_eq_true (ne_of_mem_of_not_mem hc he)
      rw [decimal_of_not_mem hme,natOf_append,htake,← hworth,← natOf_eq_zero (x := e),← hlength]
      rw [Nat.mul_one,Nat.mul_one,Nat.add_zero,and_iff_left rfl] at hnat
      rw [← hnat]
      exact_mod_cast Iff.rfl

theorem worth_append_eq_iff {m e : List Char} : worth d (m ++ e) = worth d m ↔ Zeros d e ∧
    ('.' ∈ m ∨ (e.filter (· != ',')).takeWhile (fun c => decide (c ≠ '.')) = [] ∨ Zeros d m) := by
  rw [worth,worth,List.filter_append,decimal_append_eq_iff,zeros_filter,zeros_filter]
  simp [List.mem_filter]

/-! ### A number across a cut -/

/-- The part `p` of a number that lies before a cut has the worth of the whole number: behind the
cut are only zeros, and the point stands before them, or only zeros before the cut as well. -/
def ZerosBehind (d : Digits) (p q : List Char) : Prop :=
  Zeros d q ∧ ('.' ∈ p ∨ q.head? = some '.' ∨ Zeros d p)

/-- How a number `m` that is read before a cut goes on: the text `y` before the cut, which is read
only with the text `q` behind it. -/
inductive GoesOn (d : Digits) (m : List Char) : List Char → List Char → Prop
  | next {c : Char} {q : List Char} (hc : c = '.' ∨ d.isDigit c = true) : GoesOn d m [] (c::q)
  | group {x : Char} {q : List Char} (hx : d.isDigit x = true) : GoesOn d m [] (','::x::q)
  | point {c : Char} {q : List Char} (hc : d.isDigit c = true) : GoesOn d m ['.'] (c::q)
  | unfinished {x c : Char} {ys q rest : List Char} (hm : '.' ∉ m) (hys : '.' ∉ ys)
      (hc : d.isDigit c = true) (hx : d.isDigit x = true) (hnext : ys ++ c::q = x::rest) :
      GoesOn d m (','::ys) (c::q)

theorem not_comma_of_isDigit {c : Char} (h : d.isDigit c = true) : (c != ',') = true := by
  rw [bne_iff_ne]
  rintro rfl
  exact absurd h (by simp [comma_not_digit d])

theorem not_point_of_isDigit {c : Char} (h : d.isDigit c = true) : c ≠ '.' := by
  rintro rfl
  exact absurd h (by simp [point_not_digit d])

/-- The number before the cut has the worth of the whole number in one case only. -/
theorem GoesOn.worth_eq_iff {m y q : List Char} (h : GoesOn d m y q) :
    worth d (m ++ (y ++ q)) = worth d m ↔ ZerosBehind d (m ++ y) q := by
  rw [worth_append_eq_iff,ZerosBehind]
  cases h with
  | @next c q hc =>
    rw [List.nil_append,List.append_nil]
    obtain rfl | hc := hc
    · simp
    · simp [not_comma_of_isDigit hc,not_point_of_isDigit hc]
  | @group x q hx => simp [not_comma_of_isDigit hx,not_point_of_isDigit hx]
  | @point c q hc => simp [zeros_point]
  | @unfinished x c ys q rest hm hys hc hx hnext =>
    have hfirst : ((','::ys ++ c::q).filter (· != ',')).takeWhile (fun c => decide (c ≠ '.')) ≠ [] := by
      rw [List.cons_append,hnext]
      simp [not_comma_of_isDigit hx,not_point_of_isDigit hx]
    have hopen : '.' ∉ m ++ ','::ys := by simp [hm,hys]
    have hhead : (c::q).head? ≠ some '.' := by simpa using not_point_of_isDigit hc
    rw [or_iff_right hm,or_iff_right hfirst,or_iff_right hopen,or_iff_right hhead,zeros_append,
      zeros_append]
    exact ⟨fun h => ⟨h.1.2,h.2,h.1.1⟩,fun h => ⟨⟨h.2.2,h.1⟩,h.2.1⟩⟩

theorem groupsOf_ne_nil {text : List Char} (h : groupsOf d text ≠ []) :
    ∃ x y z rest, text = ','::x::y::z::rest ∧ d.isDigit x = true ∧ d.isDigit y = true ∧
      d.isDigit z = true ∧ groupsOf d text = ','::x::y::z::groupsOf d rest := by
  revert h
  fun_cases groupsOf d text with
  | case1 a x y z rest h =>
    obtain ⟨rfl,hx,hy,hz⟩ := h
    exact fun _ => ⟨x,y,z,rest,rfl,hx,hy,hz,rfl⟩
  | case2 | case3 => exact fun h => absurd rfl h

theorem point_not_mem_groupsOf (text : List Char) : '.' ∉ groupsOf d text := by
  fun_induction groupsOf d text with
  | case1 a x y z rest h ih =>
    have hdigit : ∀ c, d.isDigit c = true → '.' ≠ c := fun c hc => (not_point_of_isDigit hc).symm
    simp [h.1,ih,hdigit x h.2.1,hdigit y h.2.2.1,hdigit z h.2.2.2]
  | case2 | case3 => exact List.not_mem_nil

/-- Groups that a cut changes go on across it. -/
theorem groupsOf_cut (text more : List Char) : groupsOf d (text ++ more) = groupsOf d text ∨
    ∃ y q, text = groupsOf d text ++ y ∧ groupsOf d (text ++ more) = text ++ q ∧
      ∀ m, '.' ∉ m → ∀ rest, GoesOn d m y (q ++ rest) := by
  fun_induction groupsOf d text with
  | case1 a x y z rest h ih =>
    have hcons : groupsOf d (a::x::y::z::rest ++ more) = a::x::y::z::groupsOf d (rest ++ more) := by
      simp [groupsOf,h]
    rw [hcons]
    obtain hsame | ⟨y',q,hsplit,hmore,hon⟩ := ih
    · exact Or.inl (by rw [hsame])
    · refine Or.inr ⟨y',q,?_,?_,hon⟩
      · rw [List.cons_append,List.cons_append,List.cons_append,List.cons_append,← hsplit]
      · rw [hmore]
        rfl
  | case2 a x y z rest h => exact Or.inl (by simp [groupsOf,h])
  | case3 short h =>
    by_cases hnone : groupsOf d (short ++ more) = []
    · exact Or.inl hnone
    · obtain ⟨x,y,z,rest,htext,hx,hy,hz,hgroups⟩ := groupsOf_ne_nil hnone
      rw [hgroups]
      have hdot : ∀ c, d.isDigit c = true → '.' ≠ c := fun c hc => (not_point_of_isDigit hc).symm
      right
      obtain _ | ⟨a,_ | ⟨b,_ | ⟨c,_ | ⟨e,t⟩⟩⟩⟩ := short
      · exact ⟨[],_,rfl,rfl,fun m _ _ => .group hx⟩
      · obtain ⟨rfl,-⟩ := List.cons.inj htext
        exact ⟨[','],x::y::z::groupsOf d rest,rfl,rfl,fun m hm _ =>
          .unfinished hm List.not_mem_nil hx hx rfl⟩
      · obtain ⟨rfl,hmore⟩ := List.cons.inj htext
        obtain ⟨rfl,-⟩ := List.cons.inj hmore
        exact ⟨[',',b],y::z::groupsOf d rest,rfl,rfl,fun m hm _ =>
          .unfinished hm (by simp [hdot b hx]) hy hx rfl⟩
      · obtain ⟨rfl,hmore⟩ := List.cons.inj htext
        obtain ⟨rfl,hlast⟩ := List.cons.inj hmore
        obtain ⟨rfl,-⟩ := List.cons.inj hlast
        exact ⟨[',',b,c],z::groupsOf d rest,rfl,rfl,fun m hm _ =>
          .unfinished hm (by simp [hdot b hx,hdot c hy]) hz hx rfl⟩
      · exact absurd rfl (h a b c e t)

/-- A fraction that a cut changes goes on across it. -/
theorem fractionOf_cut (text more : List Char) : fractionOf d (text ++ more) = fractionOf d text ∨
    ∃ y q, text = fractionOf d text ++ y ∧ fractionOf d (text ++ more) = text ++ q ∧
      ∀ m, GoesOn d m y q := by
  match text with
  | [] =>
    by_cases hmore : fractionOf d more = []
    · exact Or.inl hmore
    · refine Or.inr ⟨[],fractionOf d more,rfl,rfl,fun m => ?_⟩
      revert hmore
      fun_cases fractionOf d more with
      | case1 | case3 => exact fun h => absurd rfl h
      | case2 rest h => exact fun _ => .next (Or.inl rfl)
  | a::text =>
    by_cases ha : a = '.'
    · subst ha
      have hpoint : ∀ t, fractionOf d ('.'::t) =
          if t.takeWhile d.isDigit = [] then [] else '.'::t.takeWhile d.isDigit := fun t => rfl
      rw [List.cons_append,hpoint,hpoint,List.takeWhile_append]
      by_cases hall : text.takeWhile d.isDigit = text
      · rw [if_pos (congrArg List.length hall),hall]
        cases hq : more.takeWhile d.isDigit with
        | nil => exact Or.inl (by rw [List.append_nil])
        | cons c q =>
          have hc : d.isDigit c = true := List.mem_takeWhile_imp (hq ▸ List.mem_cons_self)
          cases text with
          | nil => exact Or.inr ⟨['.'],c::q,rfl,by simp,fun m => .point hc⟩
          | cons b text => exact Or.inr ⟨[],c::q,by simp,by simp,fun m => .next (Or.inr hc)⟩
      · rw [if_neg fun h => hall ((List.takeWhile_prefix d.isDigit).eq_of_length h)]
        exact Or.inl rfl
    · refine Or.inl ?_
      have hother : ∀ t, fractionOf d (a::t) = [] := by
        intro t
        unfold fractionOf
        split
        · rename_i h
          exact absurd (List.cons.inj h).1 ha
        · rfl
      rw [List.cons_append,hother,hother]

theorem GoesOn.fractionOf_eq {m y q : List Char} (h : GoesOn d m y q) : fractionOf d y = [] := by
  cases h with
  | next | group | point | unfinished => rfl

theorem GoesOn.ne_nil {m y q : List Char} (h : GoesOn d m y q) : q ≠ [] := by
  cases h with
  | next | group | point | unfinished => simp

theorem run_of_numeral {text n : List Char} (h : numeral d text = some n) : ∃ run rest,
    text = run ++ rest ∧ run ≠ [] ∧ (∀ c ∈ run, d.isDigit c = true) ∧
      ∀ c ∈ rest.head?, d.isDigit c = false := by
  dsimp only [numeral] at h
  split_ifs at h with hrun
  refine ⟨text.takeWhile d.isDigit,text.dropWhile d.isDigit,?_,hrun,?_,?_⟩
  · exact List.takeWhile_append_dropWhile.symm
  · exact fun c hc => List.mem_takeWhile_imp hc
  · intro c hc
    have hnot := List.head?_dropWhile_not d.isDigit text
    rw [Option.mem_def.mp hc] at hnot
    simpa using hnot

theorem groupsBehind_cut (run text more : List Char) :
    groupsBehind d run (text ++ more) = groupsBehind d run text ∨
      ∃ y q, text = groupsBehind d run text ++ y ∧ groupsBehind d run (text ++ more) = text ++ q ∧
        ∀ m, '.' ∉ m → ∀ rest, GoesOn d m y (q ++ rest) := by
  unfold groupsBehind
  split_ifs
  · exact groupsOf_cut text more
  · exact Or.inl rfl

theorem point_not_mem_groupsBehind (run text : List Char) : '.' ∉ groupsBehind d run text := by
  unfold groupsBehind
  split_ifs
  · exact point_not_mem_groupsOf text
  · exact List.not_mem_nil

/-- What follows a run of digits that ends at the cut. -/
theorem goesOn_run {m run groups fraction text rest : List Char} 
    (hrun : ∀ c ∈ run, d.isDigit c = true) (hgroups : groups = groupsOf d text ∨ groups = [])
    (hfraction : fraction = fractionOf d rest) (hne : run ++ groups ++ fraction ≠ []) :
    GoesOn d m [] (run ++ groups ++ fraction) := by
  cases run with
  | cons c run => exact .next (Or.inr (hrun c List.mem_cons_self))
  | nil =>
    by_cases hnone : groups = []
    · subst hnone hfraction
      revert hne
      fun_cases fractionOf d rest with
      | case1 | case3 => exact fun h => absurd rfl h
      | case2 t h => exact fun _ => .next (Or.inl rfl)
    · obtain rfl := hgroups.resolve_right hnone
      obtain ⟨x,y,z,t,-,hx,-,-,heq⟩ := groupsOf_ne_nil hnone
      rw [heq]
      exact .group hx

/-- A number that is read before a cut is the number of the whole text, or goes on across it. -/
theorem numeral_cut {text m : List Char} (h : numeral d text = some m) (more : List Char) :
    ∃ n, numeral d (text ++ more) = some n ∧
      (n = m ∨ ∃ y q, text = m ++ y ∧ n = text ++ q ∧ GoesOn d m y q) := by
  obtain ⟨run,rest,rfl,hrun,hdigits,hrest⟩ := run_of_numeral h
  rw [numeral_run hrun hdigits hrest] at h
  obtain rfl := Option.some.inj h
  cases rest with
  | nil =>
    -- the cut is in the first digits: what follows them is read behind the cut alone
    have hnone : groupsBehind d run [] = [] := List.prefix_nil.mp (groupsBehind_begins d run [])
    have hmore : ∀ c ∈ run ++ more.takeWhile d.isDigit, d.isDigit c = true := by
      intro c hc
      obtain hc | hc := List.mem_append.mp hc
      · exact hdigits c hc
      · exact List.mem_takeWhile_imp hc
    have hstop : ∀ c ∈ (more.dropWhile d.isDigit).head?, d.isDigit c = false := by
      intro c hc
      have hnot := List.head?_dropWhile_not d.isDigit more
      rw [Option.mem_def.mp hc] at hnot
      simpa using hnot
    have hnumeral := numeral_run (by simp [hrun]) hmore hstop
    rw [List.append_assoc run,List.takeWhile_append_dropWhile] at hnumeral
    rw [List.append_nil,hnone,hnumeral]
    refine ⟨_,rfl,?_⟩
    generalize hgroups : groupsBehind d (run ++ more.takeWhile d.isDigit)
      (more.dropWhile d.isDigit) = groups
    have hcases : groups = groupsOf d (more.dropWhile d.isDigit) ∨ groups = [] := by
      rw [← hgroups,groupsBehind]
      split_ifs <;> simp
    rw [List.append_assoc run,List.append_assoc run]
    by_cases hq : more.takeWhile d.isDigit ++ groups ++
        fractionOf d ((more.dropWhile d.isDigit).drop groups.length) = []
    · exact Or.inl (by rw [hq]; simp [fractionOf])
    · refine Or.inr ⟨[],_,by simp [fractionOf],rfl,?_⟩
      exact goesOn_run (fun c hc => List.mem_takeWhile_imp hc) hcases rfl hq
  | cons c rest =>
    have hhead : ∀ e ∈ (c::rest ++ more).head?, d.isDigit e = false := hrest
    rw [List.append_assoc,numeral_run hrun hdigits hhead]
    refine ⟨_,rfl,?_⟩
    obtain hsame | ⟨y,q,hsplit,hmore,hon⟩ := groupsBehind_cut (d := d) run (c::rest) more
    · rw [hsame]
      obtain ⟨behind,hbehind⟩ := groupsBehind_begins d run (c::rest)
      generalize groupsBehind d run (c::rest) = groups at hbehind
      rw [← hbehind,List.append_assoc groups,List.drop_left,List.drop_left]
      obtain hfraction | ⟨y,q,hsplit,hmore,hon⟩ := fractionOf_cut (d := d) behind more
      · exact Or.inl (by rw [hfraction])
      · refine Or.inr ⟨y,q,?_,?_,hon _⟩
        · conv_lhs => rw [hsplit]
          simp
        · rw [hmore]
          simp
    · have hpoint : '.' ∉ run := fun h => not_point_of_isDigit (hdigits _ h) rfl
      have hdot : '.' ∉ run ++ groupsBehind d run (c::rest) := by
        simp [hpoint,point_not_mem_groupsBehind]
      have hdrop : (c::rest).drop (groupsBehind d run (c::rest)).length = y :=
        (congrArg (List.drop _) hsplit).trans List.drop_left
      rw [hdrop,(hon _ hdot []).fractionOf_eq,hmore]
      refine Or.inr ⟨y,q ++ fractionOf d ((c::rest ++ more).drop (c::rest ++ q).length),?_,?_,hon _ ?_ _⟩
      · rw [List.append_nil,List.append_assoc,← hsplit]
      · simp
      · rw [List.append_nil]
        exact hdot

/-! ### The amounts of a text that is cut -/

/-- No number and no amount goes on into this text. -/
def Stops (d : Digits) (text : List Char) : Prop :=
  ∀ c ∈ text.head?, d.isDigit c = false ∧ c ≠ ',' ∧ c ≠ '.' ∧ isSpace c = false

/-- No number goes on into this text, nor any amount behind a white space at its beginning. -/
def Halts (d : Digits) (text : List Char) : Prop :=
  ∀ c ∈ text.head?, d.isDigit c = false ∧ c ≠ ',' ∧ c ≠ '.' ∧
    (isSpace c = true → ∀ b ∈ text.tail.head?, d.isDigit b = false)

theorem Stops.halts {text : List Char} (h : Stops d text) : Halts d text := by
  intro c hc
  obtain ⟨hdigit,hcomma,hpoint,hspace⟩ := h c hc
  exact ⟨hdigit,hcomma,hpoint,fun hs => absurd (hspace.symm.trans hs) (by simp)⟩

theorem halts_dollar (text : List Char) : Halts d ('$'::text) := by
  refine Stops.halts fun c hc => ?_
  obtain rfl : '$' = c := Option.some.inj hc
  refine ⟨Bool.eq_false_iff.mpr fun h => not_dollar_of_isDigit h rfl,?_⟩
  decide

theorem GoesOn.not_halts {m y q rest : List Char} (h : GoesOn d m y q) : ¬ Halts d (q ++ rest) := by
  intro hhalt
  cases h with
  | @next c q hc =>
    obtain ⟨hdigit,-,hpoint,-⟩ := hhalt c rfl
    obtain hc | hc := hc
    · exact hpoint hc
    · simp [hc] at hdigit
  | group hx => exact (hhalt ',' rfl).2.1 rfl
  | @point c q hc => simp [(hhalt c rfl).1] at hc
  | @unfinished x c ys q rest hm hys hc hx hnext => simp [(hhalt c rfl).1] at hc

theorem numeral_eq_none {text : List Char} : numeral d text = none ↔
    ∀ c ∈ text.head?, d.isDigit c = false := by
  dsimp only [numeral]
  cases text with
  | nil => simp
  | cons c text => by_cases hc : d.isDigit c = true <;> simp [hc]

theorem numeral_append_halt {more : List Char} (hhalt : Halts d more) (text : List Char) :
    numeral d (text ++ more) = numeral d text := by
  cases h : numeral d text with
  | none =>
    rw [numeral_eq_none] at h ⊢
    cases text with
    | nil => exact fun c hc => (hhalt c hc).1
    | cons a text => exact h
  | some m =>
    obtain ⟨n,hn,rfl | ⟨y,q,-,rfl,hon⟩⟩ := numeral_cut h more
    · exact hn
    · obtain ⟨rest,rfl⟩ := (List.prefix_append_right_inj text).mp (numeral_begins d hn)
      exact absurd hhalt hon.not_halts

theorem amountAt_append_halt {text more : List Char} (hhalt : Halts d more) (hne : text ≠ []) :
    amountAt d (text ++ more) = amountAt d text := by
  match text with
  | [a] =>
    by_cases ha : a = '$'
    · subst ha
      cases more with
      | nil => rfl
      | cons b more =>
        obtain ⟨hdigit,-,-,hspace⟩ := hhalt b rfl
        have hnone : numeral d (b::more) = none := numeral_eq_none.mpr (by simpa using hdigit)
        have hgap : (if isSpace b then numeral d more else none) = none := by
          split_ifs with hb
          · exact numeral_eq_none.mpr (hspace hb)
          · rfl
        simp [amountAt,hgap,hnone]
    · rw [amountAt_eq_none (by simpa using ha),amountAt_eq_none (by simpa using ha)]
  | a::b::text =>
    by_cases ha : a = '$'
    · subst ha
      have hlong := numeral_append_halt hhalt (b::text)
      rw [List.cons_append] at hlong
      rw [List.cons_append,List.cons_append,amountAt,amountAt,numeral_append_halt hhalt,hlong]
    · rw [amountAt_eq_none (by simpa using ha),amountAt_eq_none (by simpa using ha)]

theorem numerals_append_halt {more : List Char} (hhalt : Halts d more) (text : List Char) :
    numerals d (text ++ more) = numerals d text ++ numerals d more := by
  induction text with
  | nil => rfl
  | cons a text ih =>
    rw [List.cons_append,numerals_cons,numerals_cons,← List.cons_append,
      amountAt_append_halt hhalt (by simp),ih,List.append_assoc]

/-- A number of the whole text with its beginning `p` before the cut and its end `q` behind it. -/
structure CutInside (d : Digits) (kept lost p q : List Char) : Prop where
  begun : p ≠ []
  unfinished : q ≠ []
  amount : ∃ before gap, kept = before ++ '$'::(gap ++ p) ∧
    (gap = [] ∨ ∃ s, gap = [s] ∧ isSpace s = true)
  number : numeral d (p ++ lost) = some (p ++ q)

/-- What the tables of Unicode say beyond ASCII: white space, the ellipsis and the replacement
character are no digits. -/
structure Apart (d : Digits) : Prop where
  space : ∀ c, isSpace c = true → d.isDigit c = false
  ellipsis : d.isDigit '…' = false
  replacement : d.isDigit '\uFFFD' = false

theorem amountAt_dollar (hd : Apart d) (c : Char) (text : List Char) :
    amountAt d ('$'::c::text) = numeral d (if isSpace c then text else c::text) := by
  rw [amountAt]
  split_ifs with hc
  · have hnone : numeral d (c::text) = none := numeral_eq_none.mpr (by simpa using hd.space c hc)
    rw [hnone,Option.or_none]
  · rfl

theorem exists_last_dollar {text : List Char} (h : '$' ∈ text) :
    ∃ u v, text = u ++ '$'::v ∧ '$' ∉ v := by
  obtain ⟨v,u,hsplit,hv⟩ := List.eq_append_cons_of_mem (List.mem_reverse.mpr h)
  refine ⟨u.reverse,v.reverse,?_,by simpa using hv⟩
  rw [← List.reverse_reverse text,hsplit]
  simp

theorem last_dollar_inj {u v u' v' : List Char} (hv : '$' ∉ v) (hv' : '$' ∉ v')
    (h : u ++ '$'::v = u' ++ '$'::v') : u = u' ∧ v = v' := by
  have hrev := congrArg List.reverse h
  simp only [List.reverse_append,List.reverse_cons,List.append_assoc,List.singleton_append] at hrev
  obtain ⟨hvv,huu⟩ := Delimited.append_cons_inj '$' (by simpa using hv) (by simpa using hv') hrev
  exact ⟨List.reverse_injective huu,List.reverse_injective hvv⟩

theorem not_dollar_of_numeral {p more q : List Char} (h : numeral d (p ++ more) = some (p ++ q)) :
    '$' ∉ p := by
  intro hmem
  obtain ⟨u,v,rfl⟩ := List.append_of_mem hmem
  have hstop := numeral_append_halt (d := d) (halts_dollar (v ++ more)) u
  rw [List.append_assoc,List.cons_append,hstop] at h
  have hlen := (numeral_begins d h).length_le
  simp at hlen

theorem CutInside.digit {kept lost p q : List Char} (h : CutInside d kept lost p q) :
    ∃ c t, p = c::t ∧ d.isDigit c = true := by
  obtain ⟨c,t,rfl⟩ := List.exists_cons_of_ne_nil h.begun
  refine ⟨c,t,rfl,?_⟩
  by_contra hc
  have hnone : numeral d (c::t ++ lost) = none := numeral_eq_none.mpr (by simpa using hc)
  rw [h.number] at hnone
  cases hnone

/-- The number across the cut begins at the last dollar sign before it. -/
theorem CutInside.eq_behind (hd : Apart d) {u v lost p q : List Char} (hv : '$' ∉ v)
    (h : CutInside d (u ++ '$'::v) lost p q) :
    ∃ c t, v = c::t ∧ p = if isSpace c then t else c::t := by
  obtain ⟨before,gap,hkept,hgap⟩ := h.amount
  obtain ⟨c,t,rfl,hc⟩ := h.digit
  have hspace : isSpace c = false := by
    by_contra hs
    rw [hd.space c (by simpa using hs)] at hc
    cases hc
  have hp : '$' ∉ c::t := not_dollar_of_numeral h.number
  obtain rfl | ⟨s,rfl,hs⟩ := hgap
  · obtain ⟨-,rfl⟩ := last_dollar_inj hv hp hkept
    exact ⟨c,t,rfl,by simp [hspace]⟩
  · have hgap : '$' ∉ [s] ++ c::t := by
      rw [List.mem_append,not_or]
      refine ⟨?_,hp⟩
      rw [List.mem_singleton]
      rintro rfl
      exact absurd hs (by decide)
    obtain ⟨-,rfl⟩ := last_dollar_inj hv hgap hkept
    exact ⟨s,c::t,rfl,by simp [hs]⟩

theorem numerals_of_not_mem {text : List Char} (h : '$' ∉ text) : numerals d text = [] := by
  rw [← List.append_nil text,numerals_append h]
  rfl

/-- What a cut does to the numbers of a text: those before it are a beginning of all, or the last of
them goes on across the cut. -/
theorem numerals_cut (hd : Apart d) (kept lost : List Char) :
    (numerals d kept <+: numerals d (kept ++ lost) ∧ ∀ p q, ¬ CutInside d kept lost p q) ∨
      ∃ ns m y q more, numerals d kept = ns ++ [m] ∧
        numerals d (kept ++ lost) = ns ++ (m ++ (y ++ q))::more ∧ GoesOn d m y q ∧
        ∀ p' q', CutInside d kept lost p' q' ↔ p' = m ++ y ∧ q' = q := by
  by_cases hmem : '$' ∈ kept
  swap
  · rw [numerals_of_not_mem hmem]
    refine Or.inl ⟨List.nil_prefix,?_⟩
    rintro p q ⟨-,-,⟨before,gap,rfl,-⟩,-⟩
    simp at hmem
  obtain ⟨u,v,rfl,hv⟩ := exists_last_dollar hmem
  have hlast := numerals_dollar (d := d) hv []
  rw [List.append_nil,numerals_of_not_mem List.not_mem_nil,List.append_nil] at hlast
  rw [List.append_assoc,List.cons_append,numerals_append_halt (halts_dollar _),
    numerals_append_halt (halts_dollar _),hlast,numerals_dollar hv]
  cases v with
  | nil =>
    refine Or.inl ⟨(List.prefix_append_right_inj _).mpr List.nil_prefix,fun p q h => ?_⟩
    obtain ⟨c,t,hct,-⟩ := h.eq_behind hd hv
    cases hct
  | cons c t =>
    have hmore : (if isSpace c then t ++ lost else c::(t ++ lost)) =
        (if isSpace c then t else c::t) ++ lost := by split_ifs <;> rfl
    have hwhole : ∀ p q, CutInside d (u ++ '$'::c::t) lost p q →
        p = if isSpace c then t else c::t := by
      intro p q h
      obtain ⟨c',t',hct,hp⟩ := h.eq_behind hd hv
      obtain ⟨rfl,rfl⟩ := List.cons.inj hct
      exact hp
    have hgap : ∃ before gap, u ++ '$'::c::t =
        before ++ '$'::(gap ++ if isSpace c then t else c::t) ∧
          (gap = [] ∨ ∃ s, gap = [s] ∧ isSpace s = true) := by
      by_cases hs : isSpace c = true
      · exact ⟨u,[c],by simp [hs],Or.inr ⟨c,rfl,hs⟩⟩
      · exact ⟨u,[],by simp [hs],Or.inl rfl⟩
    rw [List.cons_append,amountAt_dollar hd,amountAt_dollar hd,hmore]
    generalize (if isSpace c then t else c::t) = w at hwhole hgap ⊢
    cases hm : numeral d w with
    | none =>
      refine Or.inl ⟨(List.prefix_append_right_inj _).mpr List.nil_prefix,fun p q h => ?_⟩
      obtain ⟨c',t',rfl,hdigit⟩ := h.digit
      obtain rfl := hwhole _ q h
      rw [numeral_eq_none] at hm
      simp [hm c' rfl] at hdigit
    | some m =>
      obtain ⟨n,hn,hcut⟩ := numeral_cut hm lost
      rw [hn]
      obtain rfl | ⟨y,q,rfl,rfl,hon⟩ := hcut
      · refine Or.inl ⟨(List.prefix_append_right_inj _).mpr (List.prefix_append _ _),fun p q h => ?_⟩
        obtain rfl := hwhole p q h
        have hsame := Option.some.inj (hn.symm.trans h.number)
        have hlen := (numeral_begins d hm).length_le
        rw [hsame,List.length_append] at hlen
        exact h.unfinished (List.length_eq_zero_iff.mp (by omega))
      · refine Or.inr ⟨numerals d u,m,y,q,numerals d lost,rfl,by simp,hon,fun p' q' => ⟨fun h => ?_,?_⟩⟩
        · obtain rfl := hwhole p' q' h
          have hsame := Option.some.inj (hn.symm.trans h.number)
          exact ⟨rfl,((List.append_right_inj (m ++ y)).mp hsame).symm⟩
        · rintro ⟨rfl,rfl⟩
          refine ⟨?_,hon.ne_nil,hgap,hn⟩
          intro hnil
          rw [hnil] at hm
          cases hm

/-- A cut leaves a beginning of the amounts, unless it changes the number that lies across it. -/
theorem worth_prefix_iff (hd : Apart d) (kept lost : List Char) :
    ((numerals d kept).map (worth d) <+: (numerals d (kept ++ lost)).map (worth d)) ↔
      ∀ p q, CutInside d kept lost p q → ZerosBehind d p q := by
  obtain ⟨hbegins,hnone⟩ | ⟨ns,m,y,q,more,hkept,hall,hon,hcut⟩ := numerals_cut hd kept lost
  · exact iff_of_true (hbegins.map _) fun p q h => absurd h (hnone p q)
  · have hworth : (numerals d kept).map (worth d) <+: (numerals d (kept ++ lost)).map (worth d) ↔
        worth d (m ++ (y ++ q)) = worth d m := by
      rw [hkept,hall,List.map_append,List.map_append,List.prefix_append_right_inj]
      simp [List.cons_prefix_cons,eq_comm]
    rw [hworth,hon.worth_eq_iff]
    constructor
    · intro h p' q' hinside
      obtain ⟨rfl,rfl⟩ := (hcut p' q').mp hinside
      exact h
    · exact fun h => h _ _ ((hcut _ _).mpr ⟨rfl,rfl⟩)

end AtlasCompliance.Agents
