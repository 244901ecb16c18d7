import Mathlib

/-! Handlers that work on a store and either return or throw, the store surviving both: rules for
what a handler keeps of the store and for what two runs of handlers have in common. -/
namespace AtlasCompliance.Handling

variable {S E α β P : Type}

/-- A computation over a store that returns or throws. -/
abbrev Handler (S E α : Type) : Type := ExceptT E (StateM S) α

/-- The outcome and the store that is left behind. -/
def exec (h : Handler S E α) (s : S) : Except E α × S := h.run s

@[simp] theorem exec_pure (a : α) (s : S) : exec (pure a : Handler S E α) s = (.ok a,s) := rfl

@[simp] theorem exec_throw (e : E) (s : S) : exec (throw e : Handler S E α) s = (.error e,s) := rfl

@[simp] theorem exec_get (s : S) : exec (get : Handler S E S) s = (.ok s,s) := rfl

@[simp] theorem exec_modify (f : S → S) (s : S) :
    exec (modify f : Handler S E PUnit) s = (.ok ⟨⟩,f s) := rfl

theorem exec_bind (x : Handler S E α) (f : α → Handler S E β) (s : S) :
    exec (x >>= f) s = match exec x s with
      | (.ok a,t) => exec (f a) t
      | (.error e,t) => (.error e,t) := by
  change (match (x.run s).1 with
    | .ok a => (f a).run
    | .error e => pure (Except.error e) : StateM S (Except E β)) (x.run s).2 = _
  cases hout : x.run s with
  | mk out t =>
    cases out with
    | ok a => simp [exec,hout]
    | error e => simp [exec,hout,pure,StateT.pure]

theorem exec_bind_ok {x : Handler S E α} {f : α → Handler S E β} {s t : S} {a : α}
    (h : exec x s = (.ok a,t)) : exec (x >>= f) s = exec (f a) t := by
  rw [exec_bind,h]

theorem exec_bind_error {x : Handler S E α} {f : α → Handler S E β} {s t : S} {e : E}
    (h : exec x s = (.error e,t)) : exec (x >>= f) s = (.error e,t) := by
  rw [exec_bind,h]

/-- A sequence returns when both of its parts do. -/
theorem exec_bind_eq_ok {x : Handler S E α} {f : α → Handler S E β} {s t : S} {b : β} :
    exec (x >>= f) s = (.ok b,t) ↔ ∃ a r, exec x s = (.ok a,r) ∧ exec (f a) r = (.ok b,t) := by
  rw [exec_bind]
  cases hout : exec x s with
  | mk out r =>
    cases out with
    | ok a => simp
    | error e => simp

/-- A sequence ends in its first part, which throws, or goes on with its second. -/
theorem exec_bind_cases (x : Handler S E α) (f : α → Handler S E β) (s : S) :
    (∃ e t, exec x s = (.error e,t) ∧ exec (x >>= f) s = (.error e,t)) ∨
      ∃ a t, exec x s = (.ok a,t) ∧ exec (x >>= f) s = exec (f a) t := by
  rw [exec_bind]
  cases hout : exec x s with
  | mk out t =>
    cases out with
    | ok a => exact Or.inr ⟨a,t,rfl,rfl⟩
    | error e => exact Or.inl ⟨e,t,rfl,rfl⟩

theorem exec_tryCatch (x : Handler S E α) (f : E → Handler S E α) (s : S) :
    exec (tryCatch x f) s = match exec x s with
      | (.ok a,t) => (.ok a,t)
      | (.error e,t) => exec (f e) t := by
  change (match (x.run s).1 with
    | .ok a => pure (Except.ok a)
    | .error e => (f e).run : StateM S (Except E α)) (x.run s).2 = _
  cases hout : x.run s with
  | mk out t =>
    cases out with
    | ok a => simp [exec,hout,pure,StateT.pure]
    | error e => simp [exec,hout]

theorem exec_tryCatch_ok {x : Handler S E α} {f : E → Handler S E α} {s t : S} {a : α}
    (h : exec x s = (.ok a,t)) : exec (tryCatch x f) s = (.ok a,t) := by
  rw [exec_tryCatch,h]

theorem exec_tryCatch_error {x : Handler S E α} {f : E → Handler S E α} {s t : S} {e : E}
    (h : exec x s = (.error e,t)) : exec (tryCatch x f) s = exec (f e) t := by
  rw [exec_tryCatch,h]

/-! ### What a handler keeps -/

/-- The handler leaves a part of the store as it is, whether it returns or throws. -/
def Keeps (p : S → P) (h : Handler S E α) : Prop := ∀ s, p (exec h s).2 = p s

theorem keeps_pure (p : S → P) (a : α) : Keeps p (pure a : Handler S E α) := fun _ => rfl

theorem keeps_throw (p : S → P) (e : E) : Keeps p (throw e : Handler S E α) := fun _ => rfl

theorem keeps_get (p : S → P) : Keeps p (get : Handler S E S) := fun _ => rfl

theorem keeps_modify {p : S → P} {f : S → S} (h : ∀ s, p (f s) = p s) :
    Keeps p (modify f : Handler S E PUnit) := h

theorem Keeps.bind {p : S → P} {x : Handler S E α} {f : α → Handler S E β} (hx : Keeps p x)
    (hf : ∀ a, Keeps p (f a)) : Keeps p (x >>= f) := by
  intro s
  rw [exec_bind]
  have hkept := hx s
  cases hout : exec x s with
  | mk out t =>
    rw [hout] at hkept
    cases out with
    | ok a => exact (hf a t).trans hkept
    | error e => exact hkept

theorem Keeps.ite {p : S → P} {c : Prop} [Decidable c] {x y : Handler S E α} (hx : Keeps p x)
    (hy : Keeps p y) : Keeps p (if c then x else y) := by
  split_ifs
  · exact hx
  · exact hy

theorem Keeps.tryCatch {p : S → P} {x : Handler S E α} {f : E → Handler S E α} (hx : Keeps p x)
    (hf : ∀ e, Keeps p (f e)) : Keeps p (tryCatch x f) := by
  intro s
  rw [exec_tryCatch]
  have hkept := hx s
  cases hout : exec x s with
  | mk out t =>
    rw [hout] at hkept
    cases out with
    | ok a => exact hkept
    | error e => exact (hf e t).trans hkept

/-- What is kept decides what is kept of it. -/
theorem Keeps.of {Q : Type} {p : S → P} {q : S → Q} {h : Handler S E α} (hkeeps : Keeps p h)
    (hq : ∀ s t, p s = p t → q s = q t) : Keeps q h := fun s => hq _ s (hkeeps s)

/-! ### What a handler preserves -/

/-- The store is as it should be afterwards if it was so before, whether the handler returns or
throws. -/
def Preserves (I : S → Prop) (h : Handler S E α) : Prop := ∀ s, I s → I (exec h s).2

/-- What depends on a part of the store only is preserved where that part is kept. -/
theorem Keeps.preserves {I : S → Prop} {p : S → P} {h : Handler S E α} (hkeeps : Keeps p h)
    (hI : ∀ s t, p t = p s → I s → I t) : Preserves I h := fun s hs => hI s _ (hkeeps s) hs

theorem preserves_pure (I : S → Prop) (a : α) : Preserves I (pure a : Handler S E α) := fun _ hs => hs

theorem preserves_throw (I : S → Prop) (e : E) : Preserves I (throw e : Handler S E α) :=
  fun _ hs => hs

theorem preserves_modify {I : S → Prop} {f : S → S} (h : ∀ s, I s → I (f s)) :
    Preserves I (modify f : Handler S E PUnit) := h

/-- The second part may rely on what the first returned. -/
theorem Preserves.bind_of {I : S → Prop} {x : Handler S E α} {f : α → Handler S E β}
    (hx : Preserves I x)
    (hf : ∀ {s a t}, I s → exec x s = (.ok a,t) → I t → I (exec (f a) t).2) :
    Preserves I (x >>= f) := by
  intro s hs
  rw [exec_bind]
  have hkept := hx s hs
  cases hout : exec x s with
  | mk out t =>
    rw [hout] at hkept
    cases out with
    | ok a => exact hf hs hout hkept
    | error e => exact hkept

theorem Preserves.bind {I : S → Prop} {x : Handler S E α} {f : α → Handler S E β}
    (hx : Preserves I x) (hf : ∀ a, Preserves I (f a)) : Preserves I (x >>= f) :=
  hx.bind_of fun _ _ ht => hf _ _ ht

theorem Preserves.tryCatch {I : S → Prop} {x : Handler S E α} {f : E → Handler S E α}
    (hx : Preserves I x) (hf : ∀ e, Preserves I (f e)) : Preserves I (tryCatch x f) := by
  intro s hs
  rw [exec_tryCatch]
  have hkept := hx s hs
  cases hout : exec x s with
  | mk out t =>
    rw [hout] at hkept
    cases out with
    | ok a => exact hkept
    | error e => exact hf e t hkept

end AtlasCompliance.Handling
