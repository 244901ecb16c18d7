import Mathlib

/-! Token buckets over a linearly ordered field: a level that is refilled at a fixed rate up to a
capacity and pays one token for each granted request, and what a window of time can grant. -/
namespace AtlasCompliance.TokenBucket

universe u

/-- The level left by the last request, and the time of that request. -/
structure Bucket (K : Type u) where
  level : K
  time : K

/-- How much a bucket holds, and how much flows in for each unit of time. -/
structure Rate (K : Type u) where
  capacity : K
  refill : K

variable {K : Type u} [LinearOrder K]

/-- The requests granted in the window from `s` to `t`. -/
def granted (s t : K) (ds : List (K × Bool)) : ℕ := ds.countP fun d => d.2 && s ≤ d.1 && d.1 ≤ t

@[simp] theorem granted_nil (s t : K) : granted s t [] = 0 := rfl

theorem granted_cons (s t now : K) (ok : Bool) (ds : List (K × Bool)) :
    granted s t ((now,ok)::ds) = granted s t ds + if ok ∧ s ≤ now ∧ now ≤ t then 1 else 0 := by
  simp [granted,List.countP_cons,and_assoc]

namespace Rate
variable [Field K] {R : Rate K}

/-- The level at `now`; a bucket nobody used yet is full. -/
def level (R : Rate K) (now : K) : Option (Bucket K) → K
  | none => R.capacity
  | some b => min R.capacity (b.level + (now - b.time)*R.refill)

/-- A request at `now` is granted when a whole token is there, and takes it. -/
def take (R : Rate K) (b : Option (Bucket K)) (now : K) : Bucket K × Bool :=
  if 1 ≤ R.level now b then (⟨R.level now b - 1,now⟩,true) else (⟨R.level now b,now⟩,false)

/-- The requests at the given times, each with its decision. -/
def decisions (R : Rate K) : Option (Bucket K) → List K → List (K × Bool)
  | _,[] => []
  | b,now::rest => (now,(R.take b now).2)::R.decisions (some (R.take b now).1) rest

@[simp] theorem take_time (b : Option (Bucket K)) (now : K) : (R.take b now).1.time = now := by
  unfold take
  split <;> rfl

/-- A request moves one token from the level to the granted requests, or leaves the level. -/
theorem take_level (b : Option (Bucket K)) (now : K) :
    (R.take b now).1.level + (if (R.take b now).2 then 1 else 0) = R.level now b := by
  unfold take
  split <;> simp

theorem level_le (now : K) (b : Option (Bucket K)) : R.level now b ≤ R.capacity := by
  cases b with
  | none => exact le_rfl
  | some b => exact min_le_left _ _

/-- Nothing is granted in a window that is over. -/
theorem granted_of_lt {s t : K} {times : List K} (h : ∀ now ∈ times, t < now)
    (b : Option (Bucket K)) : granted s t (R.decisions b times) = 0 := by
  induction times generalizing b with
  | nil => rfl
  | cons now rest ih =>
    have hnow : ¬ now ≤ t := not_le.mpr (h now (by simp))
    simp [decisions,granted_cons,hnow,ih fun later hl => h later (by simp [hl])]

theorem granted_of_over {s t now : K} {rest : List K} (hover : t < now)
    (hle : ∀ later ∈ rest, now ≤ later) (b : Option (Bucket K)) :
    granted s t (R.decisions b (now::rest)) = 0 := by
  refine granted_of_lt (fun later hl => ?_) b
  rcases List.mem_cons.mp hl with rfl | hl
  · exact hover
  · exact hover.trans_le (hle later hl)

variable [IsStrictOrderedRing K]

theorem take_level_nonneg {b : Option (Bucket K)} {now : K} (h : 0 ≤ R.level now b) :
    0 ≤ (R.take b now).1.level := by
  unfold take
  split
  · simpa
  · exact h

theorem level_nonneg (hcap : 0 ≤ R.capacity) (hrefill : 0 ≤ R.refill) {b : Bucket K} {now : K}
    (hlevel : 0 ≤ b.level) (htime : b.time ≤ now) : 0 ≤ R.level now (some b) :=
  le_min hcap (add_nonneg hlevel (mul_nonneg (sub_nonneg.mpr htime) hrefill))

/-- Within the window, the requests granted from now on are paid by the level and the refill. -/
theorem granted_le_level (hcap : 0 ≤ R.capacity) (hrefill : 0 ≤ R.refill) {s t : K}
    {times : List K} (hsorted : times.Pairwise (· ≤ ·)) {b : Bucket K} (hlevel : 0 ≤ b.level)
    (hfirst : ∀ now ∈ times, b.time ≤ now) (ht : b.time ≤ t) :
    (granted s t (R.decisions (some b) times) : K) ≤ b.level + (t - b.time)*R.refill := by
  induction times generalizing b with
  | nil => simpa [decisions] using add_nonneg hlevel (mul_nonneg (sub_nonneg.mpr ht) hrefill)
  | cons now rest ih =>
    obtain ⟨hle,hrest⟩ := List.pairwise_cons.mp hsorted
    have hnow : b.time ≤ now := hfirst now (by simp)
    by_cases hover : now ≤ t
    · have hnext := ih (b := (R.take (some b) now).1) hrest
        (take_level_nonneg (level_nonneg hcap hrefill hlevel hnow))
        (by simpa using hle) (by simpa using hover)
      have htaken := take_level (R := R) (some b) now
      have hlevel' : R.level now (some b) ≤ b.level + (now - b.time)*R.refill := min_le_right _ _
      have hone : (if (R.take (some b) now).2 = true ∧ s ≤ now ∧ now ≤ t then (1 : K) else 0) ≤
          if (R.take (some b) now).2 then 1 else 0 := by
        split_ifs with h1 h2 h2
        · exact le_rfl
        · exact absurd h1.1 h2
        · exact zero_le_one
        · exact le_rfl
      rw [take_time] at hnext
      simp only [decisions,granted_cons,Nat.cast_add,Nat.cast_ite,Nat.cast_one,Nat.cast_zero]
      linarith [sub_mul t now R.refill,sub_mul t b.time R.refill,sub_mul now b.time R.refill]
    · rw [granted_of_over (not_le.mp hover) hle,Nat.cast_zero]
      exact add_nonneg hlevel (mul_nonneg (sub_nonneg.mpr ht) hrefill)

/-- What a bucket with a level of its own can hold. -/
def Sound (b : Option (Bucket K)) (times : List K) : Prop :=
  ∀ c ∈ b, 0 ≤ c.level ∧ ∀ now ∈ times, c.time ≤ now

theorem Sound.level_nonneg (hcap : 0 ≤ R.capacity) (hrefill : 0 ≤ R.refill)
    {b : Option (Bucket K)} {now : K} {rest : List K} (h : Sound b (now::rest)) :
    0 ≤ R.level now b := by
  cases b with
  | none => exact hcap
  | some c => exact Rate.level_nonneg hcap hrefill (h c rfl).1 ((h c rfl).2 now (by simp))

/-- A window of a run of nondecreasing times grants at most the capacity and its refill. -/
theorem granted_le (hcap : 0 ≤ R.capacity) (hrefill : 0 ≤ R.refill) {s t : K} (hst : s ≤ t)
    {times : List K} (hsorted : times.Pairwise (· ≤ ·)) {b : Option (Bucket K)}
    (hb : Sound b times) :
    (granted s t (R.decisions b times) : K) ≤ R.capacity + (t - s)*R.refill := by
  have hwindow : 0 ≤ (t - s)*R.refill := mul_nonneg (sub_nonneg.mpr hst) hrefill
  induction times generalizing b with
  | nil => simpa [decisions] using add_nonneg hcap hwindow
  | cons now rest ih =>
    obtain ⟨hle,hrest⟩ := List.pairwise_cons.mp hsorted
    have hnonneg := take_level_nonneg (hb.level_nonneg hcap hrefill)
    by_cases hbefore : s ≤ now
    · by_cases hover : now ≤ t
      · -- the first request of the window finds at most the capacity
        have hnext := granted_le_level (s := s) hcap hrefill hrest hnonneg (by simpa using hle)
          (by simpa using hover)
        have htaken := take_level (R := R) b now
        have hcapacity := level_le (R := R) now b
        have hmono : (t - now)*R.refill ≤ (t - s)*R.refill :=
          mul_le_mul_of_nonneg_right (by linarith) hrefill
        rw [take_time] at hnext
        simp only [decisions,granted_cons,hbefore,hover,and_true,Nat.cast_add,Nat.cast_ite,
          Nat.cast_one,Nat.cast_zero]
        linarith
      · rw [granted_of_over (not_le.mp hover) hle,Nat.cast_zero]
        exact add_nonneg hcap hwindow
    · have hnext := ih hrest (b := some (R.take b now).1)
        fun c hc => by
          cases hc
          exact ⟨hnonneg,by simpa using hle⟩
      simpa [decisions,granted_cons,hbefore] using hnext

end Rate
end AtlasCompliance.TokenBucket
