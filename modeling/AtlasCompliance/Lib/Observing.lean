import AtlasCompliance.Lib.Handling

/-! Two handlers run side by side, for an observer who sees a part of the store: where the observer is
served, the outcomes match; where somebody else is, the part stays the same on both sides. -/
namespace AtlasCompliance.Handling

variable {S E α β γ δ P : Type}

/-- The same failure on both sides, or values that correspond. -/
inductive Matching (V : α → β → Prop) : Except E α → Except E β → Prop
  | ok {a : α} {b : β} (h : V a b) : Matching V (.ok a) (.ok b)
  | error (e : E) : Matching V (.error e) (.error e)

theorem Matching.map_eq {V : α → β → Prop} {f : α → γ} {g : β → γ} (hV : ∀ a b, V a b → f a = g b)
    {x : Except E α} {y : Except E β} (h : Matching V x y) : x.map f = y.map g := by
  cases h with
  | ok h => exact congrArg Except.ok (hV _ _ h)
  | error e => rfl

/-- From stores that look the same, the outcomes match and the stores look the same again. -/
def Agree (p : S → P) (V : α → β → Prop) (x : Handler S E α) (y : Handler S E β) : Prop :=
  ∀ s t, p s = p t → Matching V (exec x s).1 (exec y t).1 ∧ p (exec x s).2 = p (exec y t).2

/-- From stores that look the same, the stores look the same again, whatever the outcomes are. -/
def Blind (p : S → P) (x : Handler S E α) (y : Handler S E β) : Prop :=
  ∀ s t, p s = p t → p (exec x s).2 = p (exec y t).2

variable {p : S → P} {V : α → β → Prop} {W : γ → δ → Prop}

theorem agree_pure {a : α} {b : β} (h : V a b) :
    Agree p V (pure a : Handler S E α) (pure b) := fun _ _ hst => ⟨.ok h,hst⟩

theorem agree_throw (e : E) : Agree p V (throw e : Handler S E α) (throw e : Handler S E β) :=
  fun _ _ hst => ⟨.error e,hst⟩

/-- What is read of stores that look the same is a pair of such stores. -/
theorem agree_get : Agree p (fun s t => p s = p t) (get : Handler S E S) get :=
  fun _ _ hst => ⟨.ok hst,hst⟩

theorem agree_modify {f g : S → S} (h : ∀ s t, p s = p t → p (f s) = p (g t)) :
    Agree p Eq (modify f : Handler S E PUnit) (modify g) := fun s t hst => ⟨.ok rfl,h s t hst⟩

theorem Agree.bind {x : Handler S E α} {y : Handler S E β} {f : α → Handler S E γ}
    {g : β → Handler S E δ} (hxy : Agree p V x y) (hfg : ∀ a b, V a b → Agree p W (f a) (g b)) :
    Agree p W (x >>= f) (y >>= g) := by
  intro s t hst
  obtain ⟨hout,hview⟩ := hxy s t hst
  rw [exec_bind,exec_bind]
  generalize exec x s = r at hout hview
  generalize exec y t = r' at hout hview
  obtain ⟨out,s'⟩ := r
  obtain ⟨out',t'⟩ := r'
  cases hout with
  | ok h => exact hfg _ _ h s' t' hview
  | error e => exact ⟨.error e,hview⟩

theorem Agree.blind {x : Handler S E α} {y : Handler S E β} (h : Agree p V x y) : Blind p x y :=
  fun s t hst => (h s t hst).2

theorem Keeps.blind {x : Handler S E α} {y : Handler S E β} (hx : Keeps p x) (hy : Keeps p y) :
    Blind p x y := fun s t hst => (hx s).trans (hst.trans (hy t).symm)

/-- Behind parts that agree the outcomes may go apart, as long as what follows keeps the view. -/
theorem Agree.bind_blind {x : Handler S E α} {y : Handler S E β} {f : α → Handler S E γ}
    {g : β → Handler S E δ} (hxy : Agree p V x y) (hfg : ∀ a b, V a b → Blind p (f a) (g b)) :
    Blind p (x >>= f) (y >>= g) := by
  intro s t hst
  obtain ⟨hout,hview⟩ := hxy s t hst
  rw [exec_bind,exec_bind]
  generalize exec x s = r at hout hview
  generalize exec y t = r' at hout hview
  obtain ⟨out,s'⟩ := r
  obtain ⟨out',t'⟩ := r'
  cases hout with
  | ok h => exact hfg _ _ h s' t' hview
  | error e => exact hview

end AtlasCompliance.Handling
