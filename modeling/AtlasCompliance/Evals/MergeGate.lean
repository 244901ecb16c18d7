import AtlasCompliance.Evals.Adversarial
import AtlasCompliance.Lib.Rounding
import AtlasCompliance.Python.Dict

/-! The merge gate: the baseline that a calibration run writes, the decision over a later run, and what
the one promises about the other. Scores are exact numbers. -/
namespace AtlasCompliance.Evals
open Python Rounding

/-! ### The baseline -/

def GATING_METRICS : List String := ["faithfulness","answer_relevancy","context_recall"]

def MAX_REGRESSION : List (String × ℚ) :=
  [("faithfulness",0.05),("answer_relevancy",0.05),("context_recall",0.07)]

def FLOOR_MARGIN : List (String × ℚ) :=
  [("faithfulness",0.05),("answer_relevancy",0.05),("context_recall",0.07)]

structure MetricThreshold where
  baseline : Option ℚ
  floor : Option ℚ
  max_regression : Option ℚ
  report_only : Bool

/-- What the gate reads of a baseline. -/
structure Baseline where
  metrics : Dict MetricThreshold
  adversarial_must_pass_rate : ℚ

def marginOf (name : String) : ℚ := (FLOOR_MARGIN.lookup name).getD 0.05

def bandOf (name : String) : ℚ := (MAX_REGRESSION.lookup name).getD 0.05

/-- The threshold that a calibration run gives to a metric. -/
def threshold (name : String) (value : ℚ) : MetricThreshold :=
  if name ∈ GATING_METRICS then
    ⟨some (decimals 3 value),some (decimals 3 (max 0 (value - marginOf name))),some (bandOf name),false⟩
  else ⟨some (decimals 3 value),none,none,true⟩

def calibrate (scores : Dict ℚ) : Baseline := ⟨scores.mapItems threshold,1⟩

/-! ### The gate -/

def AdversarialReport.violations (report : AdversarialReport) : List Violation :=
  report.results.flatMap CaseResult.violations

structure GateResult where
  passed : Bool
  failures : List String

section Gate
variable (T : Texts)

def regressed (name : String) (thr : MetricThreshold) (score : ℚ) : List String :=
  match thr.baseline with
  | none => []
  | some baseline => match thr.max_regression with
    | none => []
    | some band =>
      if band < baseline - score then [name ++ ": regressed " ++ T.fixed 3 (baseline - score) ++ " > " ++
        T.fixed 3 band ++ " (baseline " ++ T.fixed 3 baseline ++ " -> " ++ T.fixed 3 score ++ ")"]
      else []

/-- What a run fails of one metric of the baseline. -/
def metricFailures (scores : Dict ℚ) (name : String) (thr : MetricThreshold) : List String :=
  if thr.report_only then [] else match thr.floor with
    | none => []
    | some floor => match scores.get name with
      | none => [name ++ ": missing from run (no score produced)"]
      | some score =>
        (if score < floor then [name ++ ": " ++ T.fixed 3 score ++ " < floor " ++ T.fixed 3 floor]
          else []) ++ regressed T name thr score

def evaluateGate (scores : Dict ℚ) (adversarial : AdversarialReport) (baseline : Baseline) :
    GateResult :=
  let failures := (baseline.metrics.items.flatMap fun item => metricFailures T scores item.1 item.2) ++
    if adversarial.pass_rate < baseline.adversarial_must_pass_rate then
      ["adversarial: pass-rate " ++ T.fixed 3 adversarial.pass_rate ++ " < " ++
        T.fixed 3 baseline.adversarial_must_pass_rate ++ " (" ++
        T.str (.num adversarial.violations.length) ++ " violation(s))"]
    else []
  ⟨failures.isEmpty,failures⟩

end Gate

/-! ### From one run to the next -/

/-- A score is as good as a calibrated one asks for, up to rounding to three decimals. -/
structure Holds (name : String) (calibrated score : ℚ) : Prop where
  floor : max 0 (calibrated - marginOf name) ≤ score + 1/2000
  band : calibrated - score ≤ bandOf name + 1/2000

section Runs
variable {T : Texts} {scores later : Dict ℚ} {adversarial : AdversarialReport} {name : String}

theorem rounded (q : ℚ) : decimals 3 q ≤ q + 1/2000 ∧ q ≤ decimals 3 q + 1/2000 := by
  have herror := abs_le.mp (abs_decimals_sub_le 3 q)
  norm_num at herror
  constructor <;> linarith

/-- A gating metric passes exactly when its score is there, at the floor and within the band. -/
theorem metricFailures_threshold (hname : name ∈ GATING_METRICS) (value : ℚ) :
    metricFailures T later name (threshold name value) = [] ↔
      ∃ score, later.get name = some score ∧ decimals 3 (max 0 (value - marginOf name)) ≤ score ∧
        decimals 3 value - score ≤ bandOf name := by
  unfold metricFailures threshold
  rw [if_pos hname]
  cases hscore : later.get name with
  | none => simp
  | some score => simp [regressed]

theorem metricFailures_reportOnly (hname : name ∉ GATING_METRICS) (value : ℚ) :
    metricFailures T later name (threshold name value) = [] := by
  simp [metricFailures,threshold,hname]

/-- What passes against a calibrated baseline. -/
theorem evaluateGate_calibrate : (evaluateGate T later adversarial (calibrate scores)).passed = true ↔
    (∀ name ∈ GATING_METRICS, ∀ value, scores.get name = some value →
      ∃ score, later.get name = some score ∧ decimals 3 (max 0 (value - marginOf name)) ≤ score ∧
        decimals 3 value - score ≤ bandOf name) ∧ adversarial.pass_rate = 1 := by
  simp only [evaluateGate,calibrate,Dict.mapItems,List.isEmpty_iff,List.append_eq_nil_iff,
    List.flatMap_eq_nil_iff,List.forall_mem_map]
  refine and_congr ⟨fun hall name hname value hvalue => ?_,fun hall item hitem => ?_⟩ ?_
  · exact (metricFailures_threshold hname value).mp (hall (name,value) (Dict.get_eq_some.mp hvalue))
  · by_cases hname : item.1 ∈ GATING_METRICS
    · exact (metricFailures_threshold hname item.2).mpr
        (hall item.1 hname item.2 (Dict.get_eq_some.mpr hitem))
    · exact metricFailures_reportOnly hname item.2
  · have hle := adversarial.pass_rate_le_one
    constructor
    · intro hnil
      refine le_antisymm hle (not_lt.mp fun hlt => ?_)
      simp [hlt] at hnil
    · intro hone
      simp [hone]

/-- Margins and bands are wider than the rounding. -/
theorem margins_ge : ∀ name ∈ GATING_METRICS, 1/2000 ≤ marginOf name ∧ 1/2000 ≤ bandOf name := by
  decide +kernel

/-- Scores pass against a baseline when they are those of the calibration, raised to zero where they
are below it. -/
theorem evaluateGate_of_raised (hrate : adversarial.pass_rate = 1)
    (hraised : ∀ name ∈ GATING_METRICS, ∀ value, scores.get name = some value →
      later.get name = some (max 0 value)) :
    (evaluateGate T later adversarial (calibrate scores)).passed = true := by
  refine evaluateGate_calibrate.mpr ⟨fun name hname value hvalue =>
    ⟨max 0 value,hraised name hname value hvalue,?_,?_⟩,hrate⟩
  · obtain ⟨hmargin,-⟩ := margins_ge name hname
    obtain hlow | hhigh := le_total (value - marginOf name) 0
    · rw [max_eq_left hlow,decimals_zero]
      exact le_max_left 0 value
    · rw [max_eq_right hhigh]
      have hrounded := (rounded (value - marginOf name)).1
      exact le_max_of_le_right (by linarith)
  · obtain ⟨-,hband⟩ := margins_ge name hname
    have hrounded := (rounded value).1
    have hle := le_max_right 0 value
    linarith

/-- What the gate promises after a calibration: a run that passes has every gating metric, none of them
worse than its calibrated score allows, and a clean adversarial suite. -/
def Guarded (T : Texts) (scores : Dict ℚ) : Prop :=
  ∀ (later : Dict ℚ) (adversarial : AdversarialReport),
    (evaluateGate T later adversarial (calibrate scores)).passed = true →
      (∀ name ∈ GATING_METRICS, ∃ score, later.get name = some score ∧
        ∀ calibrated, scores.get name = some calibrated → Holds name calibrated score) ∧
      adversarial.pass_rate = 1

/-- A run that produced all gating scores in the unit interval passes against itself. -/
def SelfConsistent (T : Texts) (scores : Dict ℚ) : Prop :=
  ∀ adversarial : AdversarialReport, adversarial.passed = true →
    (∀ name ∈ GATING_METRICS, ∃ value, scores.get name = some value ∧ 0 ≤ value ∧ value ≤ 1) →
      (evaluateGate T scores adversarial (calibrate scores)).passed = true

theorem selfConsistent : SelfConsistent T scores := by
  intro adversarial hpassed hunit
  have hrate : adversarial.pass_rate = 1 :=
    le_antisymm adversarial.pass_rate_le_one (by simpa [AdversarialReport.passed] using hpassed)
  refine evaluateGate_of_raised hrate fun name hname value hvalue => ?_
  obtain ⟨value',hvalue',hnonneg,-⟩ := hunit name hname
  obtain rfl := Option.some.inj (hvalue.symm.trans hvalue')
  rw [max_eq_right hnonneg]
  exact hvalue

end Runs

/-- A calibration keeps the gate on exactly when its run produced every gating metric. -/
theorem calibrate_guards_iff (T : Texts) (scores : Dict ℚ) :
    (Guarded T scores ∧ SelfConsistent T scores) ↔
      ∀ name ∈ GATING_METRICS, ∃ value, scores.get name = some value := by
  constructor
  · rintro ⟨hguarded,-⟩ name hname
    -- the scores of the calibration itself pass once they are raised to zero
    let later := scores.mapItems fun _ value => max 0 value
    have hpassed : (evaluateGate T later ⟨[]⟩ (calibrate scores)).passed = true :=
      evaluateGate_of_raised rfl fun name _ value hvalue => by rw [Dict.get_mapItems,hvalue]; rfl
    obtain ⟨score,hscore,-⟩ := (hguarded later ⟨[]⟩ hpassed).1 name hname
    rw [Dict.get_mapItems] at hscore
    obtain ⟨value,hvalue,-⟩ := Option.map_eq_some_iff.mp hscore
    exact ⟨value,hvalue⟩
  · intro hall
    refine ⟨fun later adversarial hpassed => ?_,selfConsistent⟩
    obtain ⟨hscores,hrate⟩ := evaluateGate_calibrate.mp hpassed
    refine ⟨fun name hname => ?_,hrate⟩
    obtain ⟨value,hvalue⟩ := hall name hname
    obtain ⟨score,hscore,hfloor,hband⟩ := hscores name hname value hvalue
    refine ⟨score,hscore,fun calibrated hcalibrated => ?_⟩
    obtain rfl := Option.some.inj (hvalue.symm.trans hcalibrated)
    have hroundedFloor := (rounded (max 0 (value - marginOf name))).2
    have hroundedBand := (rounded value).2
    exact ⟨by linarith,by linarith⟩

/-- A calibration run without a faithfulness score turns that gate off. -/
theorem unguarded : ¬ ∀ (T : Texts) (scores : Dict ℚ), Guarded T scores ∧ SelfConsistent T scores := by
  intro hall
  let scores : Dict ℚ := ⟨[("answer_relevancy",0.84),("context_recall",0.8)],by decide⟩
  have hpassed : (evaluateGate exactTexts scores ⟨[]⟩ (calibrate scores)).passed = true := by
    decide +kernel
  obtain ⟨score,hscore,-⟩ := ((hall exactTexts scores).1 scores ⟨[]⟩ hpassed).1 "faithfulness"
    (by decide)
  cases hscore

end AtlasCompliance.Evals
