import Mathlib

/-! A loop whose guard and body may fail, run for at most a number of rounds. -/
namespace AtlasCompliance.Looping

universe u v
variable {ε : Type u} {σ : Type v}

/-- Rounds of the body until the guard is false, `unfinished` where they run out before. -/
def loop (guard : σ → Except ε Bool) (body : σ → Except ε σ) (unfinished : ε) :
    ℕ → σ → Except ε σ
  | 0, _ => .error unfinished
  | rounds+1, s => (guard s).bind fun again =>
      if again then (body s).bind (loop guard body unfinished rounds) else .ok s

variable {guard : σ → Except ε Bool} {body : σ → Except ε σ} {unfinished : ε}

theorem loop_stop {s : σ} (hstop : guard s = .ok false) (rounds : ℕ) :
    loop guard body unfinished (rounds+1) s = .ok s := by
  simp [loop,hstop,Except.bind]

theorem loop_again {s s' : σ} (hagain : guard s = .ok true) (hbody : body s = .ok s')
    (rounds : ℕ) : loop guard body unfinished (rounds+1) s = loop guard body unfinished rounds s' := by
  simp [loop,hagain,hbody,Except.bind]

/-- A loop whose rounds keep an invariant and lower a measure ends with the invariant and a false
guard, without a failure, within any rounds above the measure. -/
theorem loop_ends {inv : σ → Prop} {measure : σ → ℕ}
    (hround : ∀ s, inv s → guard s = .ok false ∨
      guard s = .ok true ∧ ∃ s', body s = .ok s' ∧ inv s' ∧ measure s' < measure s)
    {rounds : ℕ} {s : σ} (hinv : inv s) (hrounds : measure s < rounds) :
    ∃ s', loop guard body unfinished rounds s = .ok s' ∧ inv s' ∧ guard s' = .ok false := by
  induction rounds generalizing s with
  | zero => exact absurd hrounds (Nat.not_lt_zero _)
  | succ rounds ih =>
    cases hround s hinv with
    | inl hstop => exact ⟨s,loop_stop hstop rounds,hinv,hstop⟩
    | inr hagain =>
      obtain ⟨hguard,s',hbody,hinv',hless⟩ := hagain
      rw [loop_again hguard hbody]
      apply ih hinv'
      omega

end AtlasCompliance.Looping
