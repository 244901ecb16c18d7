import Mathlib

/-! Schedules of a partial step function, with the induction rules used by every
reachability argument: plain invariants, invariants of guarded schedules, and
stuttering simulation between two systems. -/
namespace AtlasCompliance.Transition

universe u v w x
variable {σ : Type u} {α : Type v} {τ : Type w} {β : Type x}

/-- Execute a schedule; an action that is not enabled ends the run without a result. -/
def run (step : σ → α → Option σ) : σ → List α → Option σ
  | s, [] => some s
  | s, a::as => (step s a).bind fun t => run step t as

@[simp] theorem run_nil (step : σ → α → Option σ) (s : σ) : run step s [] = some s := rfl

theorem run_cons {step : σ → α → Option σ} {s t : σ} {a : α} {as : List α} :
    run step s (a::as) = some t ↔ ∃ r, step s a = some r ∧ run step r as = some t := by
  simp [run,Option.bind_eq_some_iff]

theorem run_append (step : σ → α → Option σ) (s : σ) (as bs : List α) :
    run step s (as ++ bs) = (run step s as).bind fun t => run step t bs := by
  induction as generalizing s with
  | nil => rfl
  | cons a as ih =>
    cases h : step s a with
    | none => simp [run,h]
    | some t => simpa [run,h] using ih t

/-- Some schedule leads from `s` to `t`. -/
def Reachable (step : σ → α → Option σ) (s t : σ) : Prop := ∃ as, run step s as = some t

theorem Reachable.refl {step : σ → α → Option σ} (s : σ) : Reachable step s s := ⟨[],rfl⟩

theorem Reachable.single {step : σ → α → Option σ} {s t : σ} {a : α}
    (h : step s a = some t) : Reachable step s t := ⟨[a],by simp [run,h]⟩

theorem Reachable.trans {step : σ → α → Option σ} {r s t : σ}
    (h : Reachable step r s) (k : Reachable step s t) : Reachable step r t := by
  obtain ⟨as,ha⟩ := h
  obtain ⟨bs,hb⟩ := k
  exact ⟨as ++ bs,by rw [run_append,ha]; exact hb⟩

/-- Every step of the schedule is taken in a state where the guard allows it. -/
def Guarded (step : σ → α → Option σ) (G : σ → α → Prop) : σ → List α → Prop
  | _, [] => True
  | s, a::as => G s a ∧ ∀ t, step s a = some t → Guarded step G t as

instance decidableGuarded {step : σ → α → Option σ} {G : σ → α → Prop}
    [∀ s a, Decidable (G s a)] : (s : σ) → (as : List α) → Decidable (Guarded step G s as)
  | _,[] => isTrue trivial
  | s,a::as =>
    have (t : σ) : Decidable (Guarded step G t as) := decidableGuarded t as
    inferInstanceAs (Decidable (G s a ∧ ∀ t ∈ step s a, Guarded step G t as))

/-- An invariant kept by every guarded step holds after every guarded schedule. -/
theorem run_guarded_invariant {step : σ → α → Option σ} {G : σ → α → Prop} {I : σ → Prop}
    (hstep : ∀ s a t, I s → G s a → step s a = some t → I t) {s t : σ} {as : List α}
    (hs : I s) (hg : Guarded step G s as) (h : run step s as = some t) : I t := by
  induction as generalizing s with
  | nil => cases h; exact hs
  | cons a as ih =>
    obtain ⟨r,hr,hrun⟩ := run_cons.mp h
    exact ih (hstep s a r hs hg.1 hr) (hg.2 r hr) hrun

/-- An invariant kept by every step holds in every reachable state. -/
theorem Reachable.invariant {step : σ → α → Option σ} {I : σ → Prop}
    (hstep : ∀ s a t, I s → step s a = some t → I t) {s t : σ}
    (hs : I s) (h : Reachable step s t) : I t := by
  obtain ⟨as,ha⟩ := h
  induction as generalizing s with
  | nil => cases ha; exact hs
  | cons a as ih =>
    obtain ⟨r,hr,hrun⟩ := run_cons.mp ha
    exact ih (hstep s a r hs hr) hrun

/-- Where every step lowers a measure, no schedule is longer than it. -/
theorem length_le_measure {step : σ → α → Option σ} {μ : σ → ℕ}
    (hstep : ∀ s a t, step s a = some t → μ t < μ s) {s t : σ} {as : List α}
    (h : run step s as = some t) : as.length ≤ μ s := by
  induction as generalizing s with
  | nil => exact Nat.zero_le _
  | cons a as ih =>
    obtain ⟨r,hr,hrun⟩ := run_cons.mp h
    have hlower := hstep s a r hr
    have hrest := ih hrun
    rw [List.length_cons]
    omega

/-- Two systems in lockstep: what related actions keep between two states holds after related
schedules. -/
theorem run_related {step : σ → α → Option σ} {step' : τ → β → Option τ} {R : σ → τ → Prop}
    {A : α → β → Prop} (hstep : ∀ s t a b s' t', R s t → A a b → step s a = some s' →
      step' t b = some t' → R s' t') {as : List α} {bs : List β} (h : List.Forall₂ A as bs) {s s' : σ}
    {t t' : τ} (hR : R s t) (hs : run step s as = some s') (ht : run step' t bs = some t') : R s' t' := by
  induction h generalizing s t with
  | nil =>
    cases hs
    cases ht
    exact hR
  | cons hab _ ih =>
    obtain ⟨r,hr,hs⟩ := run_cons.mp hs
    obtain ⟨r',hr',ht⟩ := run_cons.mp ht
    exact ih (hstep _ _ _ _ _ _ hR hab hr hr') hs ht

end AtlasCompliance.Transition
