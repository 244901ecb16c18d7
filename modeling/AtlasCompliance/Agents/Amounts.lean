import AtlasCompliance.Lib.Cut
import AtlasCompliance.Lib.Preferred
import AtlasCompliance.Agents.Decision

/-! What the currency pattern finds, by reading forward: a dollar sign, one space at most, and the
number that follows. Amounts written the American way are read back from any text around them. -/
namespace AtlasCompliance.Agents
open Python Regex

variable (d : Digits)

/-- `(?:,\d{3})*` at the beginning of a text. -/
def groupsOf : List Char → List Char
  | a::x::y::z::rest =>
    if a = ',' ∧ d.isDigit x = true ∧ d.isDigit y = true ∧ d.isDigit z = true then
      a::x::y::z::groupsOf rest
    else []
  | _ => []

/-- `(?:\.\d+)?` at the beginning of a text. -/
def fractionOf : List Char → List Char
  | '.'::rest => if rest.takeWhile d.isDigit = [] then [] else '.'::rest.takeWhile d.isDigit
  | _ => []

/-- The groups behind a run of digits: a run of more than three has none. -/
def groupsBehind (run rest : List Char) : List Char :=
  if run.length ≤ 3 then groupsOf d rest else []

/-- The number at the beginning of a text. -/
def numeral (text : List Char) : Option (List Char) :=
  let run := text.takeWhile d.isDigit
  let rest := text.dropWhile d.isDigit
  let groups := groupsBehind d run rest
  if run = [] then none else some (run ++ groups ++ fractionOf d (rest.drop groups.length))

/-- The number of the amount at the beginning of a text. -/
def amountAt : List Char → Option (List Char)
  | '$'::a::rest => (if isSpace a then numeral d rest else none).or (numeral d (a::rest))
  | _ => none

theorem groupsOf_begins (text : List Char) : groupsOf d text <+: text := by
  fun_induction groupsOf d text with
  | case1 a x y z rest h ih => simpa using ih
  | case2 => exact List.nil_prefix
  | case3 => exact List.nil_prefix

theorem fractionOf_begins (text : List Char) : fractionOf d text <+: text := by
  fun_cases fractionOf d text with
  | case1 rest h => exact List.nil_prefix
  | case2 rest h => simpa using List.takeWhile_prefix d.isDigit
  | case3 => exact List.nil_prefix

theorem groupsBehind_begins (run rest : List Char) : groupsBehind d run rest <+: rest := by
  unfold groupsBehind
  split_ifs
  · exact groupsOf_begins d rest
  · exact List.nil_prefix

theorem append_begins {α : Type} {u v text : List α} (hu : u <+: text)
    (hv : v <+: text.drop u.length) : u ++ v <+: text := by
  obtain ⟨rest,rfl⟩ := hu
  rw [List.drop_left] at hv
  exact (List.prefix_append_right_inj u).mpr hv

theorem drop_length_takeWhile (p : Char → Bool) (text : List Char) :
    text.drop (text.takeWhile p).length = text.dropWhile p := by
  induction text with
  | nil => rfl
  | cons a text ih => by_cases ha : p a = true <;> simp [ha,ih]

theorem numeral_begins {text n : List Char} (h : numeral d text = some n) : n <+: text := by
  dsimp only [numeral] at h
  split_ifs at h
  obtain rfl := Option.some.inj h
  rw [List.append_assoc]
  refine append_begins (List.takeWhile_prefix d.isDigit) ?_
  rw [drop_length_takeWhile]
  exact append_begins (groupsBehind_begins d _ _) (fractionOf_begins d _)

/-! ### The pattern -/

def digit : Pattern Char := .sat d.isDigit

def lit (c : Char) : Pattern Char := .sat (· == c)

/-- `\.\d+`. -/
def POINT : Pattern Char := .seq (lit '.') (digit d).plus

/-- `,\d{3}`. -/
def GROUP : Pattern Char := .seq (lit ',') (Pattern.times 3 (digit d))

/-- `\d{1,3}(?:,\d{3})+(?:\.\d+)?|\d+(?:\.\d+)?`. -/
def NUMBER : Pattern Char :=
  .alt (.seq ((digit d).between 1 2) (.seq (GROUP d).plus (POINT d).opt))
    (.seq (digit d).plus (POINT d).opt)

theorem CURRENCY_eq : CURRENCY d =
    .seq (lit '$') (.seq (Pattern.opt (.sat isSpace)) (.group 1 (NUMBER d))) := rfl

/-- The place behind a word that has been read. -/
def behind (w : List Char) (c : Cursor Char) : Cursor Char :=
  ⟨w.reverse ++ c.before,c.after.drop w.length,c.groups⟩

variable {d} {β : Type} {k : Cursor Char → Option β}

theorem past_eq_behind (p : Char → Bool) (c : Cursor Char) :
    c.past p = behind (c.after.takeWhile p) c := by
  rw [Cursor.past,behind,drop_length_takeWhile]

theorem prefer_point (hk : Total k) (c : Cursor Char) :
    (POINT d).opt.prefer k c = k (behind (fractionOf d c.after) c) := by
  obtain ⟨before,after,groups⟩ := c
  rw [prefer_opt,POINT,prefer_seq]
  fun_cases fractionOf d after with
  | case1 rest h =>
    rw [lit,prefer_sat,if_pos (by decide),digit,hk.prefer_plus_sat,if_pos h]
    simp [behind]
  | case2 rest h =>
    rw [lit,prefer_sat,if_pos (by decide),digit,hk.prefer_plus_sat,if_neg h,Option.or_of_isSome (hk _),
      past_eq_behind]
    simp [behind]
  | case3 _ h =>
    have hfail : (lit '.').prefer ((digit d).plus.prefer k) ⟨before,after,groups⟩ = none := by
      cases after with
      | nil => rfl
      | cons a rest =>
        have ha : ¬ (a == '.') = true := by
          intro ha
          exact h rest (by rw [beq_iff_eq.mp ha])
        rw [lit,prefer_sat,if_neg ha]
    rw [hfail]
    simp [behind]

theorem behind_append (v w : List Char) (c : Cursor Char) :
    behind w (behind v c) = behind (v ++ w) c := by
  simp [behind]

/-- One group. -/
def nextGroup (d : Digits) (c : Cursor Char) : Option (Cursor Char) :=
  match c.after with
  | a::x::y::z::_ =>
    if a = ',' ∧ d.isDigit x = true ∧ d.isDigit y = true ∧ d.isDigit z = true then
      some (behind [a,x,y,z] c)
    else none
  | _ => none

theorem group_single : (GROUP d).Single (nextGroup d) := by
  rintro ⟨before,after,groups⟩
  match after with
  | [] => rfl
  | [a] => by_cases ha : a = ',' <;> simp [GROUP,lit,digit,Pattern.times,Pattern.ends,nextGroup,ha]
  | [a,x] =>
    by_cases ha : a = ',' <;> by_cases hx : d.isDigit x = true <;>
      simp [GROUP,lit,digit,Pattern.times,Pattern.ends,nextGroup,ha,hx]
  | [a,x,y] =>
    by_cases ha : a = ',' <;> by_cases hx : d.isDigit x = true <;>
      by_cases hy : d.isDigit y = true <;>
      simp [GROUP,lit,digit,Pattern.times,Pattern.ends,nextGroup,ha,hx,hy]
  | a::x::y::z::rest =>
    by_cases ha : a = ',' <;> by_cases hx : d.isDigit x = true <;>
      by_cases hy : d.isDigit y = true <;> by_cases hz : d.isDigit z = true <;>
      simp [GROUP,lit,digit,Pattern.times,Pattern.ends,nextGroup,behind,ha,hx,hy,hz]

theorem group_proper : (GROUP d).Proper := by
  intro c e h
  rw [group_single c,Option.mem_toList] at h
  obtain ⟨before,after,groups⟩ := c
  revert h
  fun_cases nextGroup d ⟨before,after,groups⟩ with
  | case1 a x y z rest hafter h =>
    dsimp only at hafter
    intro h
    obtain rfl := Option.mem_some.mp h
    simp [behind,hafter]
    omega
  | case2 | case3 => simp

theorem nextGroup_eq_none_iff {c : Cursor Char} :
    nextGroup d c = none ↔ groupsOf d c.after = [] := by
  obtain ⟨before,after,groups⟩ := c
  dsimp only
  fun_cases groupsOf d after with
  | case1 a x y z rest h => simp [nextGroup,h]
  | case2 a x y z rest h => simp [nextGroup,h]
  | case3 _ h =>
    unfold nextGroup
    split
    · rename_i a x y z rest hafter
      exact absurd hafter (h a x y z rest)
    · simp

theorem rounds_groupsOf (before after : List Char) (groups : List (ℕ × List Char)) :
    Rounds (nextGroup d) ⟨before,after,groups⟩
      (behind (groupsOf d after) ⟨before,after,groups⟩) := by
  fun_induction groupsOf d after generalizing before with
  | case1 a x y z rest h ih =>
    have hrest := ih (z::y::x::a::before)
    refine .step (d := behind [a,x,y,z] ⟨before,a::x::y::z::rest,groups⟩) (by simp [nextGroup,h]) ?_
    simpa [behind] using hrest
  | case2 a x y z rest h => exact .stop (by simp [nextGroup,h])
  | case3 after h => exact .stop (nextGroup_eq_none_iff.mpr (by rw [groupsOf]; exact h))

/-- The groups are read to the last one. -/
theorem prefer_groups (hk : Total k) (c : Cursor Char) : (GROUP d).plus.prefer k c =
    if groupsOf d c.after = [] then none else k (behind (groupsOf d c.after) c) := by
  rw [Pattern.plus,prefer_seq,group_single.prefer]
  split_ifs with h
  · rw [nextGroup_eq_none_iff.mpr h]
    rfl
  · obtain ⟨before,after,groups⟩ := c
    have hrounds := rounds_groupsOf (d := d) before after groups
    generalize behind (groupsOf d after) ⟨before,after,groups⟩ = e at hrounds ⊢
    cases hrounds with
    | stop hnone => exact absurd (nextGroup_eq_none_iff.mp hnone) h
    | step hsome hrest =>
      rw [hsome,Option.bind_some,hk.prefer,hrest.star_head group_single group_proper,Option.bind_some]

theorem strict_groups : Strict d.isDigit ((GROUP d).plus.prefer k) := by
  intro before a rest groups ha
  have hcomma : a ≠ ',' := by
    rintro rfl
    exact absurd ha (by simp [Digits.isDigit,d.ascii])
  have hnone : nextGroup d ⟨before,a::rest,groups⟩ = none := by
    unfold nextGroup
    split
    · rename_i hafter
      obtain ⟨rfl,-⟩ := List.cons.inj hafter
      exact if_neg fun h => hcomma h.1
    · rfl
  rw [Pattern.plus,prefer_seq,group_single.prefer,hnone]
  rfl

theorem after_run (p : Char → Bool) (c : Cursor Char) :
    (behind (c.after.takeWhile p) c).after = c.after.dropWhile p := drop_length_takeWhile p c.after

theorem prefer_plain (hk : Total k) (c : Cursor Char) :
    (Pattern.seq (digit d).plus (POINT d).opt).prefer k c =
      if c.after.takeWhile d.isDigit = [] then none
      else k (behind (c.after.takeWhile d.isDigit ++ fractionOf d (c.after.dropWhile d.isDigit)) c) := by
  rw [prefer_seq,digit,(hk.prefer_opt (POINT d)).prefer_plus_sat]
  split_ifs
  · rfl
  · rw [prefer_point hk,past_eq_behind,behind_append,after_run]

theorem prefer_grouped (hk : Total k) (c : Cursor Char) {run rest : List Char}
    (hrun : c.after.takeWhile d.isDigit = run) (hrest : c.after.dropWhile d.isDigit = rest) :
    (Pattern.seq ((digit d).between 1 2) (.seq (GROUP d).plus (POINT d).opt)).prefer k c =
      if run ≠ [] ∧ run.length ≤ 3 ∧ groupsOf d rest ≠ [] then
        k (behind (run ++ groupsOf d rest ++ fractionOf d (rest.drop (groupsOf d rest).length)) c)
      else none := by
  have hseq : (Pattern.seq (GROUP d).plus (POINT d).opt).prefer k =
      (GROUP d).plus.prefer ((POINT d).opt.prefer k) := funext fun e => prefer_seq k _ _ e
  have hafter : (behind run c).after = rest := by
    rw [← hrun,after_run,hrest]
  rw [prefer_seq,hseq,digit,strict_groups.prefer_between,hrun]
  by_cases hshort : run ≠ [] ∧ run.length ≤ 3
  · rw [if_pos hshort,prefer_groups (hk.prefer_opt (POINT d)),past_eq_behind,hrun,hafter]
    by_cases hgroups : groupsOf d rest = []
    · rw [if_pos hgroups,if_neg fun h => h.2.2 hgroups]
    · have hlast : (behind (groupsOf d rest) (behind run c)).after =
          rest.drop (groupsOf d rest).length := by
        rw [← hafter]
        rfl
      rw [if_neg hgroups,if_pos ⟨hshort.1,hshort.2,hgroups⟩,prefer_point hk,hlast,behind_append,
        behind_append,List.append_assoc]
  · rw [if_neg hshort,if_neg fun h => hshort ⟨h.1,h.2.1⟩]

/-- The pattern reads the number at a place. -/
theorem prefer_number (hk : Total k) (c : Cursor Char) :
    (NUMBER d).prefer k c = (numeral d c.after).bind fun n => k (behind n c) := by
  rw [NUMBER,prefer_alt,prefer_plain hk,prefer_grouped hk c rfl rfl]
  dsimp only [numeral]
  by_cases hrun : c.after.takeWhile d.isDigit = []
  · simp [hrun]
  · by_cases hgroups : (c.after.takeWhile d.isDigit).length ≤ 3 ∧
        groupsOf d (c.after.dropWhile d.isDigit) ≠ []
    · rw [if_pos ⟨hrun,hgroups⟩,if_neg hrun,if_neg hrun,groupsBehind,if_pos hgroups.1,
        Option.or_of_isSome (hk _)]
      rfl
    · have hnone : groupsBehind d (c.after.takeWhile d.isDigit) (c.after.dropWhile d.isDigit) = [] := by
        unfold groupsBehind
        split_ifs with hshort
        · exact not_not.mp fun h => hgroups ⟨hshort,h⟩
        · rfl
      rw [if_neg fun h => hgroups h.2,if_neg hrun,if_neg hrun,hnone]
      simp

/-- The pattern finds the amount at a place. -/
theorem prefer_currency (before after : List Char) :
    (CURRENCY d).prefer (fun e => e.groups.lookup 1) ⟨before,after,[]⟩ = amountAt d after := by
  have hnumber : ∀ before text, (Pattern.group 1 (NUMBER d)).prefer (fun e => e.groups.lookup 1)
      ⟨before,text,[]⟩ = numeral d text := by
    intro before text
    rw [prefer_group,prefer_number (fun _ => rfl)]
    cases hn : numeral d text with
    | none => rfl
    | some n =>
      obtain ⟨rest,rfl⟩ := numeral_begins d hn
      simp [behind]
  rw [CURRENCY_eq,prefer_seq]
  match after with
  | [] => rfl
  | [a] =>
    rw [lit,prefer_sat,prefer_seq,prefer_opt,prefer_sat_nil,hnumber]
    by_cases ha : a = '$' <;> simp [ha,amountAt,numeral]
  | a::b::rest =>
    rw [lit,prefer_sat,prefer_seq,prefer_opt,prefer_sat,hnumber,hnumber]
    by_cases ha : a = '$' <;> simp [ha,amountAt]

theorem not_dollar_of_isDigit {c : Char} (h : d.isDigit c = true) : c ≠ '$' := by
  rintro rfl
  exact absurd h (by simp [Digits.isDigit,d.ascii])

theorem number_only : (NUMBER d).Only (· ≠ '$') := by
  have hdigit : (digit d).Only (· ≠ '$') := fun c hc => not_dollar_of_isDigit hc
  have hlit : ∀ a, a ≠ '$' → (lit a).Only (· ≠ '$') := by
    intro a ha c hc
    rw [eq_of_beq hc]
    exact ha
  have hpoint : (POINT d).opt.Only (· ≠ '$') := ⟨⟨hlit '.' (by decide),hdigit,hdigit⟩,trivial⟩
  have hgroup : (GROUP d).Only (· ≠ '$') := ⟨hlit ',' (by decide),hdigit,hdigit,hdigit,trivial⟩
  have hshort : ((digit d).between 1 2).Only (· ≠ '$') :=
    ⟨⟨hdigit,trivial⟩,⟨hdigit,⟨hdigit,trivial⟩,trivial⟩,trivial⟩
  exact ⟨⟨hshort,⟨hgroup,hgroup⟩,hpoint⟩,⟨hdigit,hdigit⟩,hpoint⟩

/-- A match begins with a dollar sign and has no other. -/
theorem currency_ends {c e : Cursor Char} (h : e ∈ (CURRENCY d).ends c) :
    ∃ w, c.after = '$'::(w ++ e.after) ∧ '$' ∉ w ∧ (e.groups.lookup 1).isSome := by
  obtain ⟨c₁,hc₁,h⟩ := List.mem_flatMap.mp h
  obtain ⟨c₂,hc₂,h⟩ := List.mem_flatMap.mp h
  obtain ⟨c₃,hc₃,rfl⟩ := List.mem_map.mp h
  have hspace : (Pattern.opt (.sat isSpace)).Only (· ≠ '$') := by
    refine ⟨?_,trivial⟩
    rintro a ha rfl
    exact absurd ha (by decide)
  obtain ⟨_,⟨a,rfl,ha⟩,hafter,-⟩ := (mem_ends (r := lit '$') trivial).mp hc₁
  obtain ⟨v,hv,hafter₂,-⟩ := (mem_ends hspace.plain).mp hc₂
  obtain ⟨w,hw,hafter₃,-⟩ := (mem_ends number_only.plain).mp hc₃
  refine ⟨v ++ w,?_,?_,by simp⟩
  · rw [hafter,hafter₂,hafter₃,eq_of_beq ha]
    simp
  · intro hmem
    obtain hmem | hmem := List.mem_append.mp hmem
    · exact hspace.letters hv _ hmem rfl
    · exact number_only.letters hw _ hmem rfl

theorem amountAt_eq_none {text : List Char} (h : ∀ a ∈ text.head?, a ≠ '$') :
    amountAt d text = none := by
  fun_cases amountAt d text with
  | case1 a rest => exact absurd rfl (h '$' rfl)
  | case2 => rfl

theorem findall_currency (text : List Char) :
    findall (CURRENCY d) 1 text = text.tails.filterMap (amountAt d) := by
  have hproper : (CURRENCY d).Proper := by
    intro c e h
    obtain ⟨w,hafter,-⟩ := currency_ends h
    rw [hafter,List.length_cons,List.length_append]
    omega
  refine (scanned_tokens hproper text).findall ?_ ?_ rfl
  · intro before after
    rw [← prefer_currency before,head?_bind_eq_prefer]
    intro c e h
    obtain ⟨-,-,-,hsome⟩ := currency_ends h
    exact hsome
  · -- no amount begins inside another: only its first letter is a dollar sign
    intro before v w rest e he hrest hv hw
    obtain ⟨u,hafter,hu,-⟩ := currency_ends he
    dsimp only at hafter
    rw [hrest] at hafter
    obtain ⟨a,v,rfl⟩ := List.exists_cons_of_ne_nil hv
    obtain ⟨b,w,rfl⟩ := List.exists_cons_of_ne_nil hw
    have huw : v ++ b::w = u := (List.append_left_inj rest).mp (by simpa using (List.cons.inj hafter).2)
    refine amountAt_eq_none ?_
    rintro _ hb rfl
    obtain rfl : b = '$' := by simpa using hb
    exact hu (huw ▸ by simp)

/-- The numbers of the amounts in a text, in order. -/
def numerals (d : Digits) (text : List Char) : List (List Char) := text.tails.filterMap (amountAt d)

theorem amountsOf_eq {F : Type} (py : Runtime F) (text : List Char) :
    amountsOf py text = (numerals py.digits text).map fun m => py.float (m.filter (· != ',')) := by
  rw [amountsOf,findall_currency,numerals]

theorem numerals_cons (a : Char) (text : List Char) :
    numerals d (a::text) = (amountAt d (a::text)).toList ++ numerals d text := by
  rw [numerals,List.tails_cons,List.filterMap_cons]
  cases amountAt d (a::text) <;> rfl

/-- A text without a dollar sign begins no amount. -/
theorem numerals_append {u : List Char} (hu : '$' ∉ u) (text : List Char) :
    numerals d (u ++ text) = numerals d text := by
  induction u with
  | nil => rfl
  | cons a u ih =>
    obtain ⟨ha,hu⟩ := not_or.mp (List.mem_cons.not.mp hu)
    rw [List.cons_append,numerals_cons,amountAt_eq_none,ih hu]
    · rfl
    · rintro b hb rfl
      exact ha (Option.some.inj hb).symm

theorem numerals_dollar {u : List Char} (hu : '$' ∉ u) (text : List Char) :
    numerals d ('$'::(u ++ text)) = (amountAt d ('$'::(u ++ text))).toList ++ numerals d text := by
  rw [numerals_cons,numerals_append hu]

/-! ### Amounts written the American way -/

/-- Groups of three digits, each behind a comma. -/
inductive Groups (d : Digits) : List Char → Prop
  | nil : Groups d []
  | cons {x y z : Char} {rest : List Char} (hx : d.isDigit x = true) (hy : d.isDigit y = true)
      (hz : d.isDigit z = true) (hrest : Groups d rest) : Groups d (','::x::y::z::rest)

theorem Groups.append {u v : List Char} (hu : Groups d u) (hv : Groups d v) : Groups d (u ++ v) := by
  induction hu with
  | nil => exact hv
  | cons hx hy hz _ ih => exact .cons hx hy hz ih

theorem Groups.groupsOf_append {u : List Char} (hu : Groups d u) (rest : List Char) :
    groupsOf d (u ++ rest) = u ++ groupsOf d rest := by
  induction hu with
  | nil => rfl
  | cons hx hy hz _ ih => simp [groupsOf,hx,hy,hz,ih]

theorem Groups.head {u : List Char} (hu : Groups d u) : ∀ a ∈ u.head?, a = ',' := by
  cases hu with
  | nil => simp
  | cons => simp

/-- An amount as it is written: with a space behind the dollar sign or not, with commas or not. -/
structure Money where
  space : Bool
  grouped : Bool
  whole : List (Fin 10)
  tens : Fin 10
  ones : Fin 10
  whole_ne : whole ≠ []

namespace Money

def digitChar (x : Fin 10) : Char := Nat.digitChar x.val

/-- The digits before the point. -/
def wholeText (m : Money) : List Char :=
  let digits := m.whole.map digitChar
  if m.grouped then (commas digits.reverse).reverse else digits

def text (m : Money) : List Char :=
  '$'::((if m.space then [' '] else []) ++ m.wholeText ++ ['.',digitChar m.tens,digitChar m.ones])

/-- The amount in cents. -/
def inCents (m : Money) : ℕ := (m.whole ++ [m.tens,m.ones]).foldl (fun n x => 10*n + x.val) 0

def value (m : Money) : ℚ := m.inCents/100

/-- The number without its commas. -/
def numeral (m : Money) : List Char :=
  m.whole.map digitChar ++ ['.',digitChar m.tens,digitChar m.ones]

end Money

theorem isDigit_digitChar (d : Digits) (x : Fin 10) : d.isDigit (Money.digitChar x) = true := by
  have hascii : ∀ x : Fin 10, (Money.digitChar x).toNat < 128 ∧ 48 ≤ (Money.digitChar x).toNat ∧
      (Money.digitChar x).toNat ≤ 57 := by decide
  obtain ⟨hlt,hge⟩ := hascii x
  rw [Digits.isDigit,d.ascii _ hlt,if_pos hge]
  rfl

theorem value_digitChar (d : Digits) (x : Fin 10) : d.value (Money.digitChar x) = some x := by
  have hascii : ∀ x : Fin 10, (Money.digitChar x).toNat < 128 ∧ (48 ≤ (Money.digitChar x).toNat ∧
      (Money.digitChar x).toNat ≤ 57) ∧ Fin.ofNat 10 ((Money.digitChar x).toNat - 48) = x := by decide
  obtain ⟨hlt,hge,hx⟩ := hascii x
  rw [d.ascii _ hlt,if_pos hge,hx]

theorem comma_not_digit (d : Digits) : d.isDigit ',' = false := by simp [Digits.isDigit,d.ascii]

theorem point_not_digit (d : Digits) : d.isDigit '.' = false := by simp [Digits.isDigit,d.ascii]

theorem run_append {p : Char → Bool} {run rest : List Char} (hrun : ∀ c ∈ run, p c = true)
    (hrest : ∀ c ∈ rest.head?, p c = false) :
    (run ++ rest).takeWhile p = run ∧ (run ++ rest).dropWhile p = rest := by
  rw [List.takeWhile_append_of_pos hrun,List.dropWhile_append_of_pos hrun]
  cases rest with
  | nil => simp
  | cons c rest => simp [hrest c rfl]

/-- A number is a run of digits, its groups and its fraction. -/
theorem numeral_run {run rest : List Char} (hrun : run ≠ [])
    (hdigits : ∀ c ∈ run, d.isDigit c = true) (hrest : ∀ c ∈ rest.head?, d.isDigit c = false) :
    numeral d (run ++ rest) = some (run ++ groupsBehind d run rest ++
      fractionOf d (rest.drop (groupsBehind d run rest).length)) := by
  obtain ⟨htake,hdrop⟩ := run_append hdigits hrest
  dsimp only [numeral]
  rw [htake,hdrop,if_neg hrun]

/-- A number with a fraction is read whole if no digit follows it. -/
theorem numeral_append {run groups fraction rest : List Char}
    (hrun : run ≠ []) (hdigits : ∀ c ∈ run, d.isDigit c = true) (hgroups : Groups d groups)
    (hshort : run.length ≤ 3 ∨ groups = []) (hfraction : fraction ≠ [])
    (hpoint : ∀ c ∈ fraction, d.isDigit c = true) (hrest : ∀ c ∈ rest.head?, d.isDigit c = false) :
    numeral d (run ++ (groups ++ '.'::(fraction ++ rest))) =
      some (run ++ groups ++ '.'::fraction) := by
  have hstop : ∀ c ∈ (groups ++ '.'::(fraction ++ rest)).head?, d.isDigit c = false := by
    intro c hc
    cases hgroups with
    | nil =>
      obtain rfl : c = '.' := by simpa [eq_comm] using hc
      exact point_not_digit d
    | cons =>
      obtain rfl : c = ',' := by simpa [eq_comm] using hc
      exact comma_not_digit d
  have hbehind : groupsBehind d run (groups ++ '.'::(fraction ++ rest)) = groups := by
    have hnone : groupsOf d ('.'::(fraction ++ rest)) = [] := by
      unfold groupsOf
      split
      · rename_i h
        obtain ⟨rfl,-⟩ := List.cons.inj h
        exact if_neg fun h => absurd h.1 (by decide)
      · rfl
    unfold groupsBehind
    split_ifs with h
    · rw [hgroups.groupsOf_append,hnone,List.append_nil]
    · exact (hshort.resolve_left h).symm
  have hfrac : fractionOf d ('.'::(fraction ++ rest)) = '.'::fraction := by
    rw [fractionOf,(run_append hpoint hrest).1,if_neg hfraction]
  rw [numeral_run hrun hdigits hstop,hbehind,List.drop_left,hfrac]

/-- Commas after every third digit from the right leave a short run and groups. -/
theorem commas_reverse {digits : List Char} (hne : digits ≠ [])
    (hdigits : ∀ c ∈ digits, d.isDigit c = true) :
    ∃ run groups, (commas digits).reverse = run ++ groups ∧ run ≠ [] ∧ run.length ≤ 3 ∧
      (∀ c ∈ run, d.isDigit c = true) ∧ Groups d groups ∧
      (run ++ groups).filter (· != ',') = digits.reverse := by
  fun_induction commas digits with
  | case1 a b c e rest ih =>
    obtain ⟨run,groups,hsplit,hrun,hshort,hall,hgroups,hfilter⟩ :=
      ih (by simp) fun x hx => hdigits x (by grind)
    have hcomma : ∀ x, d.isDigit x = true → (x != ',') = true := by
      intro x hx
      rw [bne_iff_ne]
      rintro rfl
      exact absurd hx (by simp [comma_not_digit d])
    have ha := hdigits a (by simp)
    have hb := hdigits b (by simp)
    have hc := hdigits c (by simp)
    refine ⟨run,groups ++ [',',c,b,a],?_,hrun,hshort,hall,hgroups.append (.cons hc hb ha .nil),?_⟩
    · simp [hsplit]
    · rw [← List.append_assoc,List.filter_append,hfilter]
      simp [hcomma a ha,hcomma b hb,hcomma c hc]
  | case2 short h =>
    have hlen : short.length ≤ 3 := by
      by_contra hlong
      obtain ⟨a,b,c,e,rest,rfl⟩ : ∃ a b c e rest, short = a::b::c::e::rest := by
        match short with
        | a::b::c::e::rest => exact ⟨a,b,c,e,rest,rfl⟩
        | [] | [_] | [_,_] | [_,_,_] => simp at hlong
      exact h a b c e rest rfl
    refine ⟨short.reverse,[],by simp,by simpa using hne,by simpa using hlen,by simpa using hdigits,.nil,?_⟩
    rw [List.append_nil,List.filter_eq_self]
    intro x hx
    rw [bne_iff_ne]
    rintro rfl
    exact absurd (hdigits _ (List.mem_reverse.mp hx)) (by simp [comma_not_digit d])

/-- The value of a character as a digit. -/
def digitValue (d : Digits) (c : Char) : ℕ := (d.value c).elim 0 Fin.val

/-- The digits read as one number. -/
def natOf (d : Digits) (digits : List Char) : ℕ :=
  digits.foldl (fun n c => 10*n + digitValue d c) 0

theorem decimal_eq (text : List Char) : decimal d text =
    (natOf d (text.takeWhile (fun c => decide (c ≠ '.')) ++
      (text.dropWhile fun c => decide (c ≠ '.')).drop 1) : ℚ)/
        10^((text.dropWhile fun c => decide (c ≠ '.')).drop 1).length := by
  have hdigit : ∀ c, ((d.value c).getD 0).val = digitValue d c := by
    intro c
    rw [digitValue]
    cases d.value c <;> rfl
  simp only [decimal,natOf,hdigit]

theorem takeWhile_point {x y : List Char} (h : '.' ∉ x) :
    (x ++ '.'::y).takeWhile (fun c => decide (c ≠ '.')) = x ∧
      (x ++ '.'::y).dropWhile (fun c => decide (c ≠ '.')) = '.'::y := by
  refine run_append (fun c hc => ?_) (by simp)
  exact decide_eq_true (ne_of_mem_of_not_mem hc h)

/-- The digits before a point and the digits behind it. -/
theorem decimal_append {whole fraction : List Char} (hwhole : '.' ∉ whole) :
    decimal d (whole ++ '.'::fraction) = (natOf d (whole ++ fraction) : ℚ)/10^fraction.length := by
  obtain ⟨htake,hdrop⟩ := takeWhile_point (y := fraction) hwhole
  rw [decimal_eq,htake,hdrop]
  rfl

theorem Money.decimal_numeral (d : Digits) (m : Money) : decimal d m.numeral = m.value := by
  have hwhole : '.' ∉ m.whole.map Money.digitChar := by
    intro h
    obtain ⟨x,-,hx⟩ := List.mem_map.mp h
    exact absurd (isDigit_digitChar d x) (by simp [hx,point_not_digit d])
  have hcents : ∀ xs : List (Fin 10), natOf d (xs.map Money.digitChar) =
      xs.foldl (fun n x => 10*n + x.val) 0 := by
    intro xs
    rw [natOf,List.foldl_map]
    simp only [digitValue,value_digitChar,Option.elim_some]
  have hdigits : m.whole.map Money.digitChar ++ [Money.digitChar m.tens,Money.digitChar m.ones] =
      (m.whole ++ [m.tens,m.ones]).map Money.digitChar := by simp
  rw [Money.numeral,decimal_append hwhole,hdigits,hcents,Money.value,Money.inCents]
  norm_num

theorem Money.wholeText_eq (d : Digits) (m : Money) : ∃ run groups, m.wholeText = run ++ groups ∧
    run ≠ [] ∧ (run.length ≤ 3 ∨ groups = []) ∧ (∀ c ∈ run, d.isDigit c = true) ∧ Groups d groups ∧
      (run ++ groups).filter (· != ',') = m.whole.map Money.digitChar := by
  have hdigits : ∀ c ∈ m.whole.map Money.digitChar, d.isDigit c = true := by
    intro c hc
    obtain ⟨x,-,rfl⟩ := List.mem_map.mp hc
    exact isDigit_digitChar d x
  have hne : m.whole.map Money.digitChar ≠ [] := by simpa using m.whole_ne
  unfold Money.wholeText
  cases m.grouped with
  | true =>
    obtain ⟨run,groups,hsplit,hrun,hshort,hall,hgroups,hfilter⟩ :=
      @commas_reverse d (m.whole.map Money.digitChar).reverse (by simpa using m.whole_ne)
        fun c hc => hdigits c (List.mem_reverse.mp hc)
    exact ⟨run,groups,by simpa using hsplit,hrun,Or.inl hshort,hall,hgroups,by simpa using hfilter⟩
  | false =>
    refine ⟨_,[],by simp,hne,Or.inr rfl,hdigits,.nil,?_⟩
    rw [List.append_nil,List.filter_eq_self]
    intro c hc
    rw [bne_iff_ne]
    rintro rfl
    exact absurd (hdigits _ hc) (by simp [comma_not_digit d])

/-- The amount at a written amount is that amount. -/
theorem Money.amountAt_text (m : Money) {rest : List Char}
    (hrest : ∀ c ∈ rest.head?, d.isDigit c = false) :
    ∃ n, amountAt d (m.text ++ rest) = some n ∧ n.filter (· != ',') = m.numeral := by
  obtain ⟨run,groups,hwhole,hrun,hshort,hall,hgroups,hfilter⟩ := m.wholeText_eq d
  have hcents : ∀ c ∈ [Money.digitChar m.tens,Money.digitChar m.ones], d.isDigit c = true := by
    simp [isDigit_digitChar]
  have hcomma : ∀ x, (Money.digitChar x != ',') = true := by decide
  have hspace : ∀ x, isSpace (Money.digitChar x) = false := by decide
  have hnumeral := numeral_append hrun hall hgroups hshort (by simp) hcents hrest
  refine ⟨run ++ groups ++ ['.',Money.digitChar m.tens,Money.digitChar m.ones],?_,?_⟩
  · cases hm : m.space with
    | true =>
      simp only [Money.text,hm,hwhole,if_true,List.cons_append,List.append_assoc,List.nil_append] at hnumeral ⊢
      rw [amountAt,if_pos (by decide),hnumeral,Option.some_or]
    | false =>
      obtain ⟨c,run,rfl⟩ := List.exists_cons_of_ne_nil hrun
      have hc : c ∈ m.whole.map Money.digitChar := by
        rw [← hfilter,List.mem_filter,bne_iff_ne]
        refine ⟨by simp,?_⟩
        rintro rfl
        exact absurd (hall _ List.mem_cons_self) (by simp [comma_not_digit d])
      obtain ⟨x,-,rfl⟩ := List.mem_map.mp hc
      simp only [Money.text,hm,hwhole,Bool.false_eq_true,if_false,List.cons_append,List.append_assoc,
        List.nil_append] at hnumeral ⊢
      rw [amountAt,hspace,if_neg (by decide),hnumeral,Option.none_or]
  · rw [List.filter_append,hfilter,Money.numeral]
    simp [hcomma]

theorem Money.dollar_not_mem (m : Money) : ∃ w, m.text = '$'::w ∧ '$' ∉ w := by
  obtain ⟨run,groups,hwhole,-,-,hall,hgroups,hfilter⟩ := m.wholeText_eq asciiDigits
  have hdigit : ∀ x, Money.digitChar x ≠ '$' := by decide
  refine ⟨_,rfl,?_⟩
  have hwholeText : '$' ∉ m.wholeText := by
    intro h
    have hmem : '$' ∈ m.whole.map Money.digitChar := by
      rw [← hfilter,← hwhole,List.mem_filter]
      exact ⟨h,by decide⟩
    obtain ⟨x,-,hx⟩ := List.mem_map.mp hmem
    exact hdigit x hx
  have hgap : '$' ∉ if m.space then [' '] else [] := by split_ifs <;> simp
  simp [hgap,hwholeText,(hdigit _).symm]

theorem exists_digits (n : ℕ) :
    ∃ digits : List (Fin 10), digits ≠ [] ∧ digits.foldl (fun n x => 10*n + x.val) 0 = n := by
  induction n using Nat.strong_induction_on with
  | _ n ih =>
    by_cases hn : n < 10
    · exact ⟨[⟨n,hn⟩],by simp,by simp⟩
    · obtain ⟨digits,-,hdigits⟩ := ih (n/10) (by omega)
      refine ⟨digits ++ [Fin.ofNat 10 n],by simp,?_⟩
      rw [List.foldl_append,hdigits]
      simp [Fin.ofNat]
      omega

/-- Each amount with two decimals can be written in each of the ways. -/
theorem Money.exists_inCents (cents : ℕ) (space grouped : Bool) :
    ∃ m : Money, m.inCents = cents ∧ m.space = space ∧ m.grouped = grouped := by
  obtain ⟨whole,hne,hwhole⟩ := exists_digits (cents/100)
  refine ⟨⟨space,grouped,whole,Fin.ofNat 10 (cents/10),Fin.ofNat 10 cents,hne⟩,?_,rfl,rfl⟩
  rw [Money.inCents,List.foldl_append,hwhole]
  simp [Fin.ofNat]
  omega

/-- Text that may follow an amount: it goes on with no digit and begins no other amount. -/
def Separator (d : Digits) (text : List Char) : Prop :=
  '$' ∉ text ∧ ∀ c ∈ text.head?, d.isDigit c = false

theorem numerals_amounts (amounts : List (Money × List Char))
    (hafter : ∀ x ∈ amounts, Separator d x.2) :
    (numerals d (amounts.flatMap fun x => x.1.text ++ x.2)).map (List.filter (· != ',')) =
      amounts.map fun x => x.1.numeral := by
  induction amounts with
  | nil => rfl
  | cons x amounts ih =>
    obtain ⟨hdollar,hdigit⟩ := hafter x List.mem_cons_self
    have htail := ih fun y hy => hafter y (List.mem_cons_of_mem x hy)
    generalize hrest : (amounts.flatMap fun x => x.1.text ++ x.2) = rest at htail
    have hnext : ∀ c ∈ (x.2 ++ rest).head?, d.isDigit c = false := by
      intro c hc
      cases hx : x.2 with
      | cons e w => exact hdigit c (by simpa [hx] using hc)
      | nil =>
        cases amounts with
        | nil => simp [hx,← hrest] at hc
        | cons y amounts =>
          obtain rfl : '$' = c := by simpa [hx,← hrest,Money.text] using hc
          exact Bool.eq_false_iff.mpr fun h => not_dollar_of_isDigit h rfl
    obtain ⟨n,hn,hfilter⟩ := x.1.amountAt_text hnext
    obtain ⟨w,htext,hw⟩ := x.1.dollar_not_mem
    have hwx : '$' ∉ w ++ x.2 := by simp [hw,hdollar]
    have hsplit : x.1.text ++ (x.2 ++ rest) = '$'::(w ++ x.2 ++ rest) := by simp [htext]
    rw [List.flatMap_cons,hrest,List.append_assoc]
    rw [hsplit] at hn ⊢
    rw [numerals_dollar hwx,hn,Option.toList_some,List.map_append,htail]
    simp [hfilter]

theorem extractAmounts_ofList {F : Type} (py : Runtime F) (text : List Char) :
    extractAmounts py (.str (String.ofList text)) = .ok (amountsOf py text) := by
  refine extractAmounts_eq_ok.mpr ⟨fun _ => ⟨_,rfl⟩,?_⟩
  rw [asString,Option.getD_some,String.toList_ofList]

/-- Every list of amounts is read back, whatever stands around them. -/
theorem extractAmounts_text {F : Type} (py : Runtime F) (before : List Char)
    (amounts : List (Money × List Char)) (hbefore : '$' ∉ before)
    (hafter : ∀ x ∈ amounts, Separator py.digits x.2) :
    ∃ found : List (List Char), extractAmounts py (.str (String.ofList
        (before ++ amounts.flatMap fun x => x.1.text ++ x.2))) = .ok (found.map py.float) ∧
      found.map (decimal py.digits) = amounts.map fun x => x.1.value := by
  refine ⟨amounts.map fun x => x.1.numeral,?_,?_⟩
  · rw [extractAmounts_ofList,amountsOf_eq,numerals_append hbefore,
      ← numerals_amounts amounts hafter,List.map_map]
    rfl
  · simp [Money.decimal_numeral]

/-- A grouped amount and a plain one with a space. -/
def twoAmounts : List (Money × List Char) :=
  let zero : Fin 10 := ⟨0,by decide⟩
  let two : Fin 10 := ⟨2,by decide⟩
  let five : Fin 10 := ⟨5,by decide⟩
  [(⟨false,true,[⟨1,by decide⟩,two,five,zero,zero],zero,zero,by decide⟩,[' ','+']),
    (⟨true,false,[two,five,zero],⟨9,by decide⟩,five,by decide⟩,['.','.'])]

theorem extractAmounts_text_two : (∀ x ∈ twoAmounts, Separator asciiDigits x.2) ∧
    ∃ found : List (List Char), extractAmounts exactRuntime (.str (String.ofList
        ['o','f',' ','$','1','2',',','5','0','0','.','0','0',' ','+','$',' ','2','5','0','.','9','5',
          '.','.'])) = .ok (found.map (decimal asciiDigits)) ∧
      found.map (decimal asciiDigits) = [12500,25095/100] := by
  have hafter : ∀ x ∈ twoAmounts, Separator asciiDigits x.2 := by
    simp [twoAmounts,Separator,Digits.isDigit,asciiDigits]
  obtain ⟨found,hfound,hvalues⟩ := extractAmounts_text exactRuntime ['o','f',' '] twoAmounts
    (by decide) hafter
  have htext : ['o','f',' '] ++ twoAmounts.flatMap (fun x => x.1.text ++ x.2) =
      ['o','f',' ','$','1','2',',','5','0','0','.','0','0',' ','+','$',' ','2','5','0','.','9','5',
        '.','.'] := by decide
  rw [htext] at hfound
  refine ⟨hafter,found,hfound,hvalues.trans ?_⟩
  norm_num [twoAmounts,Money.value,Money.inCents]

end AtlasCompliance.Agents
