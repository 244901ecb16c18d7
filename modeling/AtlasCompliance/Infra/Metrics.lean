import AtlasCompliance.Lib.Rounding
import AtlasCompliance.Python.Lists

/-! The metrics of the serving benchmark over exact numbers: percentiles by interpolation, and the
summary of the samples of one concurrency level. -/
namespace AtlasCompliance.Infra
open Interpolation Rounding
open Python (Error getItem minimum maximum sorted place)

/-- Linear interpolation at `p` percent of the sorted values. -/
def percentile (values : List ℚ) (p : ℚ) : Except Error ℚ :=
  if values = [] then .ok 0
  else if p ≤ 0 then minimum values
  else if 100 ≤ p then maximum values
  else
    let ordered := sorted values
    let rank : ℚ := p/100*(ordered.length-1)
    let lo := ⌊rank⌋
    let hi := ⌈rank⌉
    if lo = hi then getItem ordered lo
    else do
      let frac := rank - lo
      let below ← getItem ordered lo
      let above ← getItem ordered hi
      return below + (above - below)*frac

section Percentile
variable {values : List ℚ} {p q : ℚ}

/-- The rank of a share of the sorted values. -/
def rankOf (values : List ℚ) (q : ℚ) : ℚ := q*((sorted values).length-1)

theorem rankOf_mem (hvalues : values ≠ []) (hq : q ∈ Set.Icc (0 : ℚ) 1) :
    rankOf values q ∈ Set.Icc ((0 : ℤ) : ℚ) (((sorted values).length-1 : ℤ) : ℚ) := by
  have hpos : (1 : ℚ) ≤ (sorted values).length :=
    Nat.one_le_cast.mpr (Python.length_sorted_pos hvalues)
  have hlast : (0 : ℚ) ≤ (sorted values).length-1 := sub_nonneg.mpr hpos
  push_cast
  exact ⟨mul_nonneg hq.1 hlast,mul_le_of_le_one_left hlast hq.2⟩

theorem between_rankOf_zero : between (place (sorted values)) (rankOf values 0) = place (sorted values) 0 := by
  have hfirst := between_intCast (place (sorted values)) 0
  rwa [Int.cast_zero,← zero_mul (((sorted values).length-1 : ℚ))] at hfirst

theorem between_rankOf_one : between (place (sorted values)) (rankOf values 1) =
    place (sorted values) ((sorted values).length-1) := by
  have hlast := between_intCast (place (sorted values)) ((sorted values).length-1)
  push_cast at hlast
  rw [rankOf,one_mul,hlast]

/-- A percentile is the interpolated value at its rank. -/
theorem percentile_eq (hvalues : values ≠ []) (hq : q ∈ Set.Icc (0 : ℚ) 1) :
    percentile values (100*q) = .ok (between (place (sorted values)) (rankOf values q)) := by
  have hrank := rankOf_mem hvalues hq
  have hscale : 100*q/100*((sorted values).length-1) = rankOf values q := by
    rw [rankOf]
    ring
  unfold percentile
  simp only [hscale]
  rw [if_neg hvalues]
  split_ifs with hlow hhigh hwhole
  · have hzero : q = 0 := by linarith [hq.1]
    rw [Python.minimum_eq hvalues,hzero,between_rankOf_zero]
  · have hone : q = 1 := by linarith [hq.2]
    rw [Python.maximum_eq hvalues,hone,between_rankOf_one]
  · rw [Python.getItem_eq (floor_mem hrank),between,← hwhole,sub_self,zero_mul,add_zero]
  · rw [Python.getItem_eq (floor_mem hrank),Python.getItem_eq (ceil_mem hrank)]
    rfl

/-- No percentile fails. -/
theorem percentile_returns (values : List ℚ) (p : ℚ) : ∃ v, percentile values p = .ok v := by
  by_cases hvalues : values = []
  · exact ⟨0,by simp [percentile,hvalues]⟩
  by_cases hlow : p ≤ 0
  · exact ⟨_,by rw [percentile,if_neg hvalues,if_pos hlow,Python.minimum_eq hvalues]⟩
  by_cases hhigh : 100 ≤ p
  · exact ⟨_,by rw [percentile,if_neg hvalues,if_neg hlow,if_pos hhigh,Python.maximum_eq hvalues]⟩
  · have hq : p/100 ∈ Set.Icc (0 : ℚ) 1 := ⟨by linarith,by linarith⟩
    have heq := percentile_eq hvalues hq
    rw [mul_div_cancel₀ p (by norm_num : (100 : ℚ) ≠ 0)] at heq
    exact ⟨_,heq⟩

/-- The order of the values has no part in a percentile. -/
theorem percentile_perm {values' : List ℚ} (h : values.Perm values') (p : ℚ) :
    percentile values p = percentile values' p := by
  by_cases hvalues : values = []
  · rw [hvalues] at h ⊢
    rw [h.nil_eq]
  have hvalues' : values' ≠ [] := fun hnil => hvalues (List.perm_nil.mp (hnil ▸ h))
  have hsorted := Python.sorted_eq_of_perm h
  simp only [percentile,if_neg hvalues,if_neg hvalues',Python.minimum_eq hvalues,
    Python.minimum_eq hvalues',Python.maximum_eq hvalues,Python.maximum_eq hvalues',hsorted]

end Percentile

/-! ### The summary -/

/-- What the summary reads of a request's sample. -/
structure RequestResult where
  ok : Bool
  latency_s : ℚ
  ttft_s : Option ℚ
  output_tokens : ℤ
  deriving DecidableEq

structure BenchPoint where
  concurrency : ℤ
  requests : ℕ
  errors : ℤ
  error_rate : ℚ
  wall_s : ℚ
  requests_per_s : ℚ
  output_tokens : ℤ
  output_tokens_per_s : ℚ
  ttft_p50_ms : ℚ
  ttft_p90_ms : ℚ
  ttft_p99_ms : ℚ
  e2e_p50_ms : ℚ
  e2e_p90_ms : ℚ
  e2e_p99_ms : ℚ
  deriving DecidableEq

/-- The samples of one level in a point: latencies of the successful ones only, throughput over the
wall clock. -/
def summarize (concurrency : ℤ) (wall_s : ℚ) (results : List RequestResult) : Except Error BenchPoint := do
  let ok := results.filter RequestResult.ok
  let errors : ℤ := results.length - ok.length
  let wall := if 0 < wall_s then wall_s else 1/10^9
  let e2e_ms := ok.map fun r => r.latency_s*1000
  let ttft_ms := (ok.filterMap RequestResult.ttft_s).map (·*1000)
  let out_tokens := (ok.map RequestResult.output_tokens).sum
  let ttft_p50 ← percentile ttft_ms 50
  let ttft_p90 ← percentile ttft_ms 90
  let ttft_p99 ← percentile ttft_ms 99
  let e2e_p50 ← percentile e2e_ms 50
  let e2e_p90 ← percentile e2e_ms 90
  let e2e_p99 ← percentile e2e_ms 99
  return {
    concurrency := concurrency
    requests := results.length
    errors := errors
    error_rate := if results = [] then 0 else errors/results.length
    wall_s := decimals 4 wall_s
    requests_per_s := decimals 3 (ok.length/wall)
    output_tokens := out_tokens
    output_tokens_per_s := decimals 2 (out_tokens/wall)
    ttft_p50_ms := decimals 1 ttft_p50
    ttft_p90_ms := decimals 1 ttft_p90
    ttft_p99_ms := decimals 1 ttft_p99
    e2e_p50_ms := decimals 1 e2e_p50
    e2e_p90_ms := decimals 1 e2e_p90
    e2e_p99_ms := decimals 1 e2e_p99 }

/-- The summary of any samples is made. -/
theorem summarize_returns (concurrency : ℤ) (wall_s : ℚ) (results : List RequestResult) :
    ∃ point, summarize concurrency wall_s results = .ok point := by
  have hreturn : ∀ {α : Type} (values : List ℚ) (p : ℚ) (next : ℚ → Except Error α),
      (∀ v, ∃ a, next v = .ok a) → ∃ a, (percentile values p >>= next) = .ok a := by
    intro α values p next hnext
    obtain ⟨v,hv⟩ := percentile_returns values p
    obtain ⟨a,ha⟩ := hnext v
    exact ⟨a,Python.bind_eq_ok.mpr ⟨v,hv,ha⟩⟩
  unfold summarize
  repeat refine hreturn _ _ _ fun _ => ?_
  exact ⟨_,rfl⟩

/-- The order in which the samples arrived has no part in it. -/
theorem summarize_perm {results results' : List RequestResult} (h : results.Perm results')
    (concurrency : ℤ) (wall_s : ℚ) :
    summarize concurrency wall_s results = summarize concurrency wall_s results' := by
  have hok : (results.filter RequestResult.ok).Perm (results'.filter RequestResult.ok) := h.filter _
  have htokens := (hok.map RequestResult.output_tokens).sum_eq
  have hempty : results = [] ↔ results' = [] := by
    rw [← List.length_eq_zero_iff,← List.length_eq_zero_iff,h.length_eq]
  simp only [summarize,h.length_eq,hok.length_eq,htokens,hempty,
    percentile_perm (hok.map fun r => r.latency_s*1000),
    percentile_perm ((hok.filterMap RequestResult.ttft_s).map (·*1000))]

end AtlasCompliance.Infra
