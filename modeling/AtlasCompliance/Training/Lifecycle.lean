import AtlasCompliance.Training.Registry

/-! Runs of promotions and rollbacks: what holds of the two aliases when every call of the registry
is served, and exactly which failures leave an operation half done. -/
namespace AtlasCompliance.Training
open Handling Registry

inductive Operation
  | promote (name version : String)
  | rollback (name : String)

namespace Operation

def name : Operation → String
  | .promote name _ | .rollback name => name

def run : Operation → Handler Registry Error PromotionOutcome
  | .promote name version => Training.promote name version
  | .rollback name => Training.rollback name

/-- The outcome of the operation and the aliases that it leaves, the calls of the registry meeting
the given fates. -/
def under (op : Operation) (fates : ℕ → Fate) (A : Aliases) :
    Except Error PromotionOutcome × Aliases :=
  let r := exec op.run ⟨A,fates⟩
  (r.1,r.2.aliases)

/-- The operation with every call of the registry served. -/
def perform (op : Operation) (A : Aliases) : Except Error PromotionOutcome × Aliases :=
  op.under (fun _ => .served) A

end Operation

/-- A new registry. -/
def Aliases.empty : Aliases := fun _ _ => none

/-! ### Every call served -/

section Served
variable {A : Aliases} {name version : String}

theorem perform_promote : ((Operation.promote name version).perform A).2 =
    if A name CHAMPION = some version then A
    else match A name CHAMPION with
      | none => A.point name CHAMPION version
      | some c => (A.point name PREVIOUS c).point name CHAMPION version := by
  change (exec (promote name version) ⟨A,fun _ => .served⟩).2.aliases = _
  rw [promote_aliases]
  cases h : A name CHAMPION <;> simp [answer,written,h]

theorem perform_rollback : ((Operation.rollback name).perform A).2 =
    match A name PREVIOUS with
    | none => A
    | some prev => match (A name CHAMPION).filter (· ≠ prev) with
      | none => A.point name CHAMPION prev
      | some c => (A.point name CHAMPION prev).point name PREVIOUS c := by
  change (exec (rollback name) ⟨A,fun _ => .served⟩).2.aliases = _
  rw [rollback_aliases]
  cases h : A name PREVIOUS with
  | none => simp [answer,h]
  | some prev =>
    cases hc : (A name CHAMPION).filter (· ≠ prev) with
    | none => simp only [answer,written,passed_fates,passed_aliases,if_true,h,hc,reduceCtorEq,if_false]
    | some c => simp only [answer,written,passed_fates,passed_aliases,if_true,h,hc,reduceCtorEq,if_false]

/-- The rollback target is another version than the champion, and there is none without a
champion. -/
def Paired (A : Aliases) : Prop :=
  ∀ name p, A name PREVIOUS = some p → ∃ c, A name CHAMPION = some c ∧ c ≠ p

theorem paired_swap {c : String} (h : Paired A) (hc : c ≠ version) :
    Paired ((A.point name PREVIOUS c).point name CHAMPION version) := by
  intro n p hp
  by_cases hn : n = name
  · subst hn
    rw [Aliases.point_other (by decide),Aliases.point_self] at hp
    obtain rfl := Option.some.inj hp
    exact ⟨version,Aliases.point_self,hc.symm⟩
  · simp only [Aliases.point,hn,false_and,if_false] at hp ⊢
    exact h n p hp

theorem point_comm {c : String} : (A.point name PREVIOUS c).point name CHAMPION version =
    (A.point name CHAMPION version).point name PREVIOUS c := by
  funext n b
  cases b <;> simp [Aliases.point]

theorem promote_first (hc : A name CHAMPION = none) :
    ((Operation.promote name version).perform A).2 = A.point name CHAMPION version := by
  rw [perform_promote,hc,if_neg (by simp)]

theorem promote_swaps {c : String} (hc : A name CHAMPION = some c) (hne : c ≠ version) :
    ((Operation.promote name version).perform A).2 =
      (A.point name PREVIOUS c).point name CHAMPION version := by
  rw [perform_promote,hc,if_neg (by simpa using hne)]

theorem rollback_swaps {c p : String} (hc : A name CHAMPION = some c)
    (hp : A name PREVIOUS = some p) (hne : c ≠ p) :
    ((Operation.rollback name).perform A).2 = (A.point name PREVIOUS c).point name CHAMPION p := by
  have hkeep : (some c).filter (· ≠ p) = some c := by simp [hne]
  rw [perform_rollback,hp,hc,point_comm]
  simp only [hkeep]

theorem Paired.perform (h : Paired A) (op : Operation) : Paired (op.perform A).2 := by
  cases op with
  | promote name version =>
    cases hc : A name CHAMPION with
    | none =>
      rw [promote_first hc]
      intro n p hp
      by_cases hn : n = name
      · subst hn
        rw [Aliases.point_other (by decide)] at hp
        obtain ⟨c,hc',-⟩ := h n p hp
        rw [hc] at hc'
        cases hc'
      · simp only [Aliases.point,hn,false_and,if_false] at hp ⊢
        exact h n p hp
    | some c =>
      by_cases hsame : c = version
      · rw [perform_promote,hc,if_pos (by rw [hsame])]
        exact h
      · rw [promote_swaps hc hsame]
        exact paired_swap h hsame
  | rollback name =>
    cases hp : A name PREVIOUS with
    | none =>
      rw [perform_rollback,hp]
      exact h
    | some p =>
      obtain ⟨c,hc,hne⟩ := h name p hp
      rw [rollback_swaps hc hp hne]
      exact paired_swap h hne

end Served

/-- The aliases are as before, or as the completed operation leaves them, and every version that the
completed operation keeps under an alias is still under one. -/
structure Lossless (op : Operation) (fates : ℕ → Fate) (A : Aliases) : Prop where
  whole : (op.under fates A).2 = A ∨ (op.under fates A).2 = (op.perform A).2
  kept : ∀ v a, A op.name a = some v → (∃ b, (op.perform A).2 op.name b = some v) →
    ∃ b, (op.under fates A).2 op.name b = some v

theorem lossless_iff_whole {op : Operation} {fates : ℕ → Fate} {A : Aliases} :
    Lossless op fates A ↔
      (op.under fates A).2 = A ∨ (op.under fates A).2 = (op.perform A).2 := by
  constructor
  · exact fun h => h.whole
  · intro h
    refine ⟨h,fun v a ha hb => ?_⟩
    obtain h | h := h
    · exact ⟨a,by rw [h]; exact ha⟩
    · exact h ▸ hb

/-- The operation is to move both aliases. -/
def Operation.MovesBoth (A : Aliases) : Operation → Prop
  | .promote name version =>
    ∃ c, A name CHAMPION = some c ∧ c ≠ version ∧ A name PREVIOUS ≠ some c
  | .rollback name =>
    ∃ c p, A name CHAMPION = some c ∧ A name PREVIOUS = some p ∧ c ≠ p

/-- From the reading of the champion on: the first write is refused, or the reading and the first
write are served and the second write is carried out. -/
def Together (fates : ℕ → Fate) : Prop :=
  fates 1 = .refused ∨ (fates 0 = .served ∧ fates 1 = .served ∧ fates 2 ≠ .refused)

/-- The fates of the calls leave no operation half done that moves both aliases. -/
def Operation.Orderly (fates : ℕ → Fate) : Operation → Prop
  | .promote _ _ => Together fates
  | .rollback _ => fates 0 ≠ .served ∨ Together fun n => fates (n + 1)

section Fates
variable {A : Aliases} {name c v : String} {fates : ℕ → Fate}

/-- One alias moved without the other is neither the old state nor the new one. -/
theorem half_ne {B : Aliases} (hc : A name CHAMPION = some c) (hne : c ≠ v)
    (hp : A name PREVIOUS ≠ some c)
    (hB : B = A.point name CHAMPION v ∨ B = A.point name PREVIOUS c) :
    B ≠ A ∧ B ≠ (A.point name PREVIOUS c).point name CHAMPION v := by
  obtain rfl | rfl := hB
  · constructor
    · intro h
      have hat := congrFun (congrFun h name) CHAMPION
      rw [Aliases.point_self,hc] at hat
      exact hne (Option.some.inj hat).symm
    · intro h
      have hat := congrFun (congrFun h name) PREVIOUS
      rw [Aliases.point_other (by decide),Aliases.point_other (by decide),Aliases.point_self] at hat
      exact hp hat
  · constructor
    · intro h
      have hat := congrFun (congrFun h name) PREVIOUS
      rw [Aliases.point_self] at hat
      exact hp hat.symm
    · intro h
      have hat := congrFun (congrFun h name) CHAMPION
      rw [Aliases.point_other (by decide),Aliases.point_self,hc] at hat
      exact hne (Option.some.inj hat)

/-- What an operation that moves both aliases leaves behind under each sequence of fates. -/
structure Swap (A B : Aliases) (name c v : String) (fates : ℕ → Fate) : Prop where
  refused : fates 1 = .refused → B = A
  served : fates 0 = .served → fates 1 = .served → fates 2 ≠ .refused →
    B = (A.point name PREVIOUS c).point name CHAMPION v
  half : ¬ Together fates → B = A.point name CHAMPION v ∨ B = A.point name PREVIOUS c

theorem Swap.whole_iff {B : Aliases} (h : Swap A B name c v fates)
    (hc : A name CHAMPION = some c) (hne : c ≠ v) (hp : A name PREVIOUS ≠ some c) :
    (B = A ∨ B = (A.point name PREVIOUS c).point name CHAMPION v) ↔ Together fates := by
  constructor
  · intro hwhole
    by_contra hnot
    obtain ⟨hA,hswap⟩ := half_ne hc hne hp (h.half hnot)
    obtain heq | heq := hwhole
    · exact hA heq
    · exact hswap heq
  · rintro (hrefused | ⟨hread,hfirst,hsecond⟩)
    · exact Or.inl (h.refused hrefused)
    · exact Or.inr (h.served hread hfirst hsecond)

theorem swap_promote (hc : A name CHAMPION = some c) (hne : c ≠ v) :
    Swap A ((Operation.promote name v).under fates A).2 name c v fates := by
  have hafter : ((Operation.promote name v).under fates A).2 =
      (exec (promote name v) ⟨A,fates⟩).2.aliases := rfl
  rw [promote_aliases] at hafter
  simp only [answer,hc,written,passed_fates,passed_aliases] at hafter
  rw [hafter]
  refine ⟨?_,?_,?_⟩
  · intro h
    by_cases hread : fates 0 = .served <;> simp [hread,h,hne]
  · intro hread hfirst hsecond
    simp [hread,hfirst,hsecond,hne]
  · intro hnot
    unfold Together at hnot
    by_cases hread : fates 0 = .served
    · by_cases hfirst : fates 1 = .served
      · have hsecond : fates 2 = .refused := by
          by_contra hsecond
          exact hnot (Or.inr ⟨hread,hfirst,hsecond⟩)
        right
        simp [hread,hfirst,hsecond,hne]
      · have hrefused : fates 1 ≠ .refused := fun h => hnot (Or.inl h)
        right
        simp [hread,hfirst,hrefused,hne]
    · have hrefused : fates 1 ≠ .refused := fun h => hnot (Or.inl h)
      left
      simp [hread,hrefused]

theorem swap_rollback {p : String} (hc : A name CHAMPION = some c)
    (hp : A name PREVIOUS = some p) (hne : c ≠ p) (hread : fates 0 = .served) :
    Swap A ((Operation.rollback name).under fates A).2 name c p fun n => fates (n + 1) := by
  have hafter : ((Operation.rollback name).under fates A).2 =
      (exec (rollback name) ⟨A,fates⟩).2.aliases := rfl
  rw [rollback_aliases] at hafter
  simp only [answer,hc,hp,hread,written,passed_fates,passed_aliases,if_true] at hafter
  have hkeep : (some c).filter (fun x => !decide (x = p)) = some c := by simp [hne]
  rw [hafter]
  refine ⟨?_,?_,?_⟩
  · intro h
    simp only [zero_add,Nat.reduceAdd] at h ⊢
    simp [h]
  · intro hcurrent hfirst hsecond
    simp only [zero_add,Nat.reduceAdd] at hcurrent hfirst hsecond ⊢
    simp [hcurrent,hfirst,hsecond,hkeep,point_comm]
  · intro hnot
    left
    simp only [Together,zero_add,Nat.reduceAdd] at hnot ⊢
    have hrefused : fates 2 ≠ .refused := fun h => hnot (Or.inl h)
    by_cases hcurrent : fates 1 = .served
    · by_cases hfirst : fates 2 = .served
      · have hsecond : fates 3 = .refused := by
          by_contra hsecond
          exact hnot (Or.inr ⟨hcurrent,hfirst,hsecond⟩)
        simp [hcurrent,hfirst,hsecond,hkeep]
      · simp [hfirst,hrefused]
    · simp [hcurrent,hrefused]

theorem filter_eq_none {current : Option String} (h : ∀ c, current = some c → c = v) :
    current.filter (· ≠ v) = none := by
  cases current with
  | none => rfl
  | some c => simp [h c rfl]

theorem answer_filter {r : Registry} (h : ∀ c, r.aliases name CHAMPION = some c → c = v) :
    (r.answer name CHAMPION).filter (· ≠ v) = none := by
  apply filter_eq_none
  intro c hc
  unfold answer at hc
  split_ifs at hc
  exact h c hc

/-- An operation that moves one alias at most is never half done. -/
theorem whole_of_not_movesBoth {op : Operation} (h : ¬ op.MovesBoth A) :
    (op.under fates A).2 = A ∨ (op.under fates A).2 = (op.perform A).2 := by
  cases op with
  | promote name version =>
    have hafter : ((Operation.promote name version).under fates A).2 =
        (exec (promote name version) ⟨A,fates⟩).2.aliases := rfl
    rw [promote_aliases] at hafter
    rw [hafter,perform_promote]
    cases hc : A name CHAMPION with
    | none =>
      by_cases hrefused : fates 1 = .refused <;> simp [answer,hc,written,hrefused]
    | some c =>
      by_cases hsame : c = version
      · subst hsame
        have hpoint : A.point name CHAMPION c = A := Aliases.point_of_eq hc
        by_cases hread : fates 0 = .served <;> simp [answer,hc,written,hread,hpoint]
      · have hp : A name PREVIOUS = some c := by
          by_contra hp
          exact h ⟨c,hc,hsame,hp⟩
        have hpoint : A.point name PREVIOUS c = A := Aliases.point_of_eq hp
        by_cases hread : fates 0 = .served
        · by_cases hfirst : fates 1 = .served
          · by_cases hsecond : fates 2 = .refused <;>
              simp [answer,hc,written,hread,hfirst,hsecond,hpoint,hsame]
          · simp [answer,hc,written,hread,hfirst,hpoint,hsame]
        · by_cases hfirst : fates 1 = .refused <;>
            simp [answer,written,hread,hfirst,hpoint,hsame]
  | rollback name =>
    have hafter : ((Operation.rollback name).under fates A).2 =
        (exec (rollback name) ⟨A,fates⟩).2.aliases := rfl
    rw [rollback_aliases] at hafter
    rw [hafter,perform_rollback]
    cases hp : A name PREVIOUS with
    | none => simp [answer,hp]
    | some p =>
      have hsame : ∀ c, A name CHAMPION = some c → c = p := by
        intro c hc
        by_contra hne
        exact h ⟨c,p,hc,hp,hne⟩
      by_cases hread : fates 0 = .served
      · have hprev : answer ⟨A,fates⟩ name PREVIOUS = some p := by simp [answer,hread,hp]
        simp only [hprev,answer_filter (r := passed ⟨A,fates⟩) hsame,filter_eq_none hsame]
        by_cases hrefused : fates 2 = .refused <;> simp [written,hrefused]
      · simp [answer,hread]

theorem whole_iff {op : Operation} : ((op.under fates A).2 = A ∨
    (op.under fates A).2 = (op.perform A).2) ↔ (op.MovesBoth A → op.Orderly fates) := by
  by_cases hboth : op.MovesBoth A
  · rw [forall_prop_of_true hboth]
    cases op with
    | promote name version =>
      obtain ⟨c,hc,hne,hp⟩ := hboth
      rw [promote_swaps hc hne]
      exact (swap_promote hc hne).whole_iff hc hne hp
    | rollback name =>
      obtain ⟨c,p,hc,hp,hne⟩ := hboth
      by_cases hread : fates 0 = .served
      · have hp' : A name PREVIOUS ≠ some c := by
          rw [hp]
          exact fun h => hne (Option.some.inj h).symm
        rw [rollback_swaps hc hp hne,(swap_rollback hc hp hne hread).whole_iff hc hne hp']
        simp [Operation.Orderly,hread]
      · have hafter : ((Operation.rollback name).under fates A).2 =
            (exec (rollback name) ⟨A,fates⟩).2.aliases := rfl
        rw [rollback_aliases] at hafter
        simp [hafter,answer,hread,Operation.Orderly]
  · exact ⟨fun _ h => absurd h hboth,fun _ => whole_of_not_movesBoth hboth⟩

end Fates

/-- An operation and the fates that its calls of the registry meet. -/
structure Attempt where
  op : Operation
  fates : ℕ → Fate

/-- The aliases after a sequence of operations whose calls may fail. -/
def attemptAll (A : Aliases) (attempts : List Attempt) : Aliases :=
  attempts.foldl (fun A t => (t.op.under t.fates A).2) A

/-- In every state that promotions and rollbacks lead to, failing or not, the next one loses nothing
exactly when its calls fail in an orderly way or it moves one alias only. -/
theorem lossless_iff (attempts : List Attempt) (op : Operation) (fates : ℕ → Fate) :
    Lossless op fates (attemptAll Aliases.empty attempts) ↔
      (op.MovesBoth (attemptAll Aliases.empty attempts) → op.Orderly fates) :=
  lossless_iff_whole.trans whole_iff

/-- Two versions promoted. -/
def twoPromoted : List Attempt :=
  [⟨.promote "reranker" "1",fun _ => .served⟩,⟨.promote "reranker" "2",fun _ => .served⟩]

/-- The third promotion fails to read the champion, which is lost. -/
theorem promote_loses : ¬ ∀ attempts op fates,
    Lossless op fates (attemptAll Aliases.empty attempts) := by
  intro h
  have hkept := (h twoPromoted (.promote "reranker" "3")
    fun n => if n = 0 then .refused else .served).kept "2" CHAMPION (by decide)
    ⟨PREVIOUS,by decide⟩
  exact absurd hkept (by
    rintro ⟨b,hb⟩
    cases b <;> exact absurd hb (by decide))

end AtlasCompliance.Training
