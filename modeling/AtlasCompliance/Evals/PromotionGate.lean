import AtlasCompliance.Python.Value

/-! The model-promotion gate: the floors as they are loaded, the five decisions over a scored
comparison, and the verdict with its reasons. Scores are exact numbers. -/
namespace AtlasCompliance.Evals
open Python

/-- How Python writes numbers and values, and reads a text as a number. -/
structure Texts where
  fixed : ℕ → ℚ → String
  signed : ℕ → ℚ → String
  str : Json → String
  repr : Json → String
  float : String → Option ℚ

/-! ### The floors -/

inductive FloorConfigError
  | notAnObject
  | missingBlock (block : String)
  | malformedBlock
  | invalid (message : String)
  deriving DecidableEq

inductive FaithfulnessMode
  | hybrid
  | no_regression
  | absolute
  deriving DecidableEq

namespace FaithfulnessMode

def name : FaithfulnessMode → String
  | hybrid => "hybrid"
  | no_regression => "no_regression"
  | absolute => "absolute"

def FAITHFULNESS_MODES : List FaithfulnessMode := [hybrid,no_regression,absolute]

end FaithfulnessMode

/-- A number in the closed unit interval. -/
abbrev Unit01 : Type := {q : ℚ // 0 ≤ q ∧ q ≤ 1}

structure FaithfulnessFloor where
  abs_floor : Unit01
  max_regression_vs_base : Unit01
  mode : FaithfulnessMode

structure FormatFloor where
  abs_floor : Unit01

structure RefusalFloor where
  min_delta_vs_base : ℚ

structure CostFloor where
  max_regression_pct_vs_base : {q : ℚ // 0 ≤ q}

/-- Validated floors. -/
structure PromotionFloors where
  faithfulness : FaithfulnessFloor
  format_validity : FormatFloor
  refusal_correctness : RefusalFloor
  cost : CostFloor
  block_reason_required : Bool

section Floors
variable (T : Texts)

/-- A value that is a number and no boolean. -/
def number? : Json → Option ℚ
  | .num q => some q
  | .null | .bool _ | .str _ | .arr _ | .obj _ => none

def requireNumber (name : String) (value : Json) : Except FloorConfigError ℚ :=
  match number? value with
  | some q => .ok q
  | none => .error (.invalid (name ++ ": expected a number, got " ++ T.repr value))

def requireUnit (name : String) (value : Json) : Except FloorConfigError Unit01 := do
  let v ← requireNumber T name value
  if h : 0 ≤ v ∧ v ≤ 1 then pure ⟨v,h⟩
  else throw (.invalid (name ++ ": " ++ T.str (.num v) ++ " out of range [0, 1]"))

def requireMode (mode : Json) : Except FloorConfigError FaithfulnessMode :=
  match FaithfulnessMode.FAITHFULNESS_MODES.find? fun m => decide (mode = .str m.name) with
  | some m => .ok m
  | none => .error (.invalid ("faithfulness.mode " ++ T.repr mode ++
      " not in ('hybrid', 'no_regression', 'absolute')"))

/-- The keyword arguments of a block: no other key, and every required one. -/
def keywords (required optional : List String) (block : Json) :
    Except FloorConfigError (String → Option Json) :=
  match block with
  | .obj members =>
    if (members.all fun m => m.1 ∈ required ++ optional) &&
        required.all fun name => (members.lookup name).isSome then .ok fun name => members.lookup name
    else .error .malformedBlock
  | .null | .bool _ | .num _ | .str _ | .arr _ => .error .malformedBlock

def loadFloors (obj : Json) : Except FloorConfigError PromotionFloors :=
  match obj with
  | .obj members => do
    let faith ← match members.lookup "faithfulness" with
      | some block => pure block
      | none => throw (.missingBlock "faithfulness")
    let fmt ← match members.lookup "format_validity" with
      | some block => pure block
      | none => throw (.missingBlock "format_validity")
    let faith ← keywords ["abs_floor","max_regression_vs_base"] ["mode"] faith
    let fmt ← keywords ["abs_floor"] [] fmt
    let refusal ← keywords [] ["min_delta_vs_base"]
      ((members.lookup "refusal_correctness").getD (.obj []))
    let cost ← keywords [] ["max_regression_pct_vs_base"] ((members.lookup "cost").getD (.obj []))
    let absFloor ← requireUnit T "faithfulness.abs_floor" ((faith "abs_floor").getD .null)
    let regression ← requireUnit T "faithfulness.max_regression_vs_base"
      ((faith "max_regression_vs_base").getD .null)
    let mode ← requireMode T ((faith "mode").getD (.str "hybrid"))
    let fmtFloor ← requireUnit T "format_validity.abs_floor" ((fmt "abs_floor").getD .null)
    let minDelta ← requireNumber T "refusal_correctness.min_delta_vs_base"
      ((refusal "min_delta_vs_base").getD (.num 0))
    let band ← requireNumber T "cost.max_regression_pct_vs_base"
      ((cost "max_regression_pct_vs_base").getD (.num 10))
    if h : 0 ≤ band then
      match (members.lookup "block_reason_required").getD (.bool true) with
      | .bool b => pure ⟨⟨absFloor,regression,mode⟩,⟨fmtFloor⟩,⟨minDelta⟩,⟨⟨band,h⟩⟩,b⟩
      | .null | .num _ | .str _ | .arr _ | .obj _ =>
        throw (.invalid "block_reason_required must be a boolean")
    else throw (.invalid ("cost.max_regression_pct_vs_base: " ++ T.str (.num band) ++ " must be >= 0"))
  | .null | .bool _ | .num _ | .str _ | .arr _ => .error .notAnObject

end Floors

/-! ### The comparison -/

inductive ComparisonError
  | missingBlock (name : String)
  | missingNumeric (name key : String)
  | python (e : Error)
  deriving DecidableEq

/-- The message of a `ComparisonError`. -/
def ComparisonError.message : ComparisonError → Option String
  | missingBlock name => some ("comparison.json missing required metric block: '" ++ name ++ "'")
  | missingNumeric name key =>
    some ("comparison metric '" ++ name ++ "' missing numeric '" ++ key ++ "'")
  | python _ => none

/-- What the gate reads of a metric: the two scores and, if it is there, the stored delta. -/
structure Metric where
  base : ℚ
  ft : ℚ
  delta : Option Json

/-- A score of a metric block. -/
def numeric (name : String) (block : Json) (key : String) : Except ComparisonError ℚ := do
  match number? (← (get block key .null).mapError .python) with
  | some q => pure q
  | none => throw (.missingNumeric name key)

/-- `_metric`. -/
def metric (comparison : Json) (name : String) : Except ComparisonError Metric := do
  match ← (get comparison "metrics" .null).mapError .python with
  | .obj metrics => match metrics.lookup name with
    | some block => do
      let base ← numeric name block "base"
      let ft ← numeric name block "ft"
      pure ⟨base,ft,block.get? "delta"⟩
    | none => throw (.missingBlock name)
  | .null | .bool _ | .num _ | .str _ | .arr _ => throw (.missingBlock name)

section Gate
variable (T : Texts)

/-- `float(value)`. -/
def float (value : Json) : Except ComparisonError ℚ :=
  match value with
  | .num q => .ok q
  | .bool b => .ok (if b then 1 else 0)
  | .str s => match T.float s with
    | some q => .ok q
    | none => .error (.python .valueError)
  | .null | .arr _ | .obj _ => .error (.python .typeError)

/-- The delta of a metric: the stored one if there is one. -/
def deltaOf (m : Metric) : Except ComparisonError ℚ :=
  match m.delta with
  | some v => float T v
  | none => .ok (m.ft - m.base)

/-- The cost delta, if it was measured. -/
def costDelta (comparison : Json) : Except ComparisonError (Option ℚ) := do
  match ← (get comparison "cost" .null).mapError .python with
  | .obj cost => match (cost.lookup "delta_pct").getD .null with
    | .null => pure none
    | .bool b => some <$> float T (.bool b)
    | .num q => some <$> float T (.num q)
    | .str s => some <$> float T (.str s)
    | .arr es => some <$> float T (.arr es)
    | .obj ms => some <$> float T (.obj ms)
  | .null | .bool _ | .num _ | .str _ | .arr _ => pure none

/-- `_model_version`. -/
def modelVersion (comparison : Json) : String :=
  let ft := ((comparison.get? "model_ids").bind (Json.get? "ft")).getD .null
  if truthy ft then T.str ft else T.str ((comparison.get? "ft_model").getD (.str ""))

/-! ### The verdict -/

def EPS : ℚ := 1/1000000000

def FORMAT_JUMP_MIN_DELTA : ℚ := 1/4

structure Decision where
  metric : String
  value : Option ℚ
  base : Option ℚ
  threshold : Option ℚ
  rule : String
  passed : Bool

structure PromotionGateResult where
  promoted : Bool
  decisions : List Decision
  blocked_reasons : List String
  model_version : String
  evaluated_at : String
  git_sha : String

/-- A decision, and the reason it gives for a block. -/
structure Ruling where
  decision : Decision
  reason : String

variable (floors : PromotionFloors) (faith fmt refusal : Metric)

def withinBand : Bool := decide
  (faith.base - floors.faithfulness.max_regression_vs_base.val ≤ faith.ft + EPS)

def formatOk : Bool := decide (floors.format_validity.abs_floor.val ≤ fmt.ft + EPS)

def formatJumped : Bool :=
  formatOk floors fmt && decide (FORMAT_JUMP_MIN_DELTA ≤ fmt.ft - fmt.base + EPS)

/-- The regression rule of the mode and its text. -/
def regression : Bool × String :=
  let band := T.fixed 3 floors.faithfulness.max_regression_vs_base.val
  match floors.faithfulness.mode with
  | .absolute => (true,"absolute: floor only")
  | .no_regression => (withinBand floors faith,"ft >= base - " ++ band)
  | .hybrid => (withinBand floors faith || formatJumped floors fmt,
      "ft >= base - " ++ band ++ " OR format jumped >= " ++ T.fixed 2 FORMAT_JUMP_MIN_DELTA)

def floorRuling : Ruling :=
  let floor := floors.faithfulness.abs_floor.val
  ⟨⟨"faithfulness_floor",some faith.ft,some faith.base,some floor,"ft >= abs_floor",
    decide (floor ≤ faith.ft + EPS)⟩,
    "faithfulness " ++ T.fixed 3 faith.ft ++ " < abs_floor " ++ T.fixed 3 floor ++
      " (below floor — not promotable)"⟩

def regressionRuling : Ruling :=
  let band := floors.faithfulness.max_regression_vs_base.val
  let mode := floors.faithfulness.mode.name
  ⟨⟨"faithfulness_regression[" ++ mode ++ "]",some faith.ft,some faith.base,some band,
    (regression T floors faith fmt).2,(regression T floors faith fmt).1⟩,
    "faithfulness regressed " ++ T.fixed 3 (faith.base - faith.ft) ++ " beyond band " ++
      T.fixed 3 band ++ " (base " ++ T.fixed 3 faith.base ++ " -> ft " ++ T.fixed 3 faith.ft ++
      ") and format did not jump — mode=" ++ mode⟩

def formatRuling : Ruling :=
  let floor := floors.format_validity.abs_floor.val
  ⟨⟨"format_validity",some fmt.ft,some fmt.base,some floor,"ft >= abs_floor",formatOk floors fmt⟩,
    "format_validity " ++ T.fixed 3 fmt.ft ++ " < abs_floor " ++ T.fixed 3 floor⟩

def refusalRuling (delta : ℚ) : Ruling :=
  let min := floors.refusal_correctness.min_delta_vs_base
  ⟨⟨"refusal_correctness",some refusal.ft,some refusal.base,some min,
    "delta >= " ++ T.str (.num min),decide (min ≤ delta + EPS)⟩,
    "refusal_correctness delta " ++ T.signed 3 delta ++ " < min " ++ T.signed 3 min ++
      " (regressed vs base)"⟩

/-- A cost that was not measured passes. -/
def costRuling : Option ℚ → Ruling
  | none =>
    let band := floors.cost.max_regression_pct_vs_base.val
    ⟨⟨"cost_per_request",none,none,some band,
      "delta_pct <= " ++ T.fixed 1 band ++ "% (not measured)",true⟩,""⟩
  | some delta =>
    let band := floors.cost.max_regression_pct_vs_base.val
    ⟨⟨"cost_per_request",some delta,some 0,some band,"delta_pct <= " ++ T.fixed 1 band ++ "%",
      decide (delta ≤ band + EPS)⟩,
      "cost/request regressed " ++ T.fixed 1 delta ++ "% > band " ++ T.fixed 1 band ++ "% vs base"⟩

/-- The five decisions in their order. -/
def rulings (delta : ℚ) (cost : Option ℚ) : List Ruling :=
  [floorRuling T floors faith,regressionRuling T floors faith fmt,formatRuling T floors fmt,
    refusalRuling T floors refusal delta,costRuling T floors cost]

def reasonsOf (rulings : List Ruling) : List String :=
  (rulings.filter fun r => !r.decision.passed).map Ruling.reason

def evaluatePromotionGate (evaluatedAt : String) (comparison : Json) (gitSha : String) :
    Except ComparisonError PromotionGateResult := do
  let faith ← metric comparison "faithfulness"
  let fmt ← metric comparison "format_validity"
  let refusal ← metric comparison "refusal_correctness"
  let delta ← deltaOf T refusal
  let cost ← costDelta T comparison
  let rulings := rulings T floors faith fmt refusal delta cost
  let promoted := rulings.all fun r => r.decision.passed
  let reasons := reasonsOf rulings
  pure ⟨promoted,rulings.map Ruling.decision,
    if !promoted && floors.block_reason_required && reasons.isEmpty then
      ["promotion blocked (see decisions)"] else reasons,
    modelVersion T comparison,evaluatedAt,
    if gitSha ≠ "" then gitSha else T.str ((comparison.get? "git_sha").getD (.str ""))⟩

/-! ### The policy -/

/-- What the gate stands for: the floor, the regression rule of the mode, the format floor, a refusal
delta and a cost delta within their bounds, each up to the tolerance. -/
structure Promotable (floors : PromotionFloors) (faith fmt : Metric) (delta : ℚ) (cost : Option ℚ) :
    Prop where
  floor : floors.faithfulness.abs_floor.val ≤ faith.ft + EPS
  regression : match floors.faithfulness.mode with
    | .absolute => True
    | .no_regression => faith.base - floors.faithfulness.max_regression_vs_base.val ≤ faith.ft + EPS
    | .hybrid => faith.base - floors.faithfulness.max_regression_vs_base.val ≤ faith.ft + EPS ∨
        floors.format_validity.abs_floor.val ≤ fmt.ft + EPS ∧
          FORMAT_JUMP_MIN_DELTA ≤ fmt.ft - fmt.base + EPS
  format : floors.format_validity.abs_floor.val ≤ fmt.ft + EPS
  refusal : floors.refusal_correctness.min_delta_vs_base ≤ delta + EPS
  cost : ∀ d ∈ cost, d ≤ floors.cost.max_regression_pct_vs_base.val + EPS

variable {T floors faith fmt refusal}

@[simp] theorem floorRuling_passed : (floorRuling T floors faith).decision.passed =
    decide (floors.faithfulness.abs_floor.val ≤ faith.ft + EPS) := rfl

@[simp] theorem regressionRuling_passed : (regressionRuling T floors faith fmt).decision.passed =
    (regression T floors faith fmt).1 := rfl

@[simp] theorem formatRuling_passed : (formatRuling T floors fmt).decision.passed =
    decide (floors.format_validity.abs_floor.val ≤ fmt.ft + EPS) := rfl

@[simp] theorem refusalRuling_passed {delta : ℚ} :
    (refusalRuling T floors refusal delta).decision.passed =
      decide (floors.refusal_correctness.min_delta_vs_base ≤ delta + EPS) := rfl

theorem costRuling_passed {cost : Option ℚ} : (costRuling T floors cost).decision.passed = true ↔
    ∀ d ∈ cost, d ≤ floors.cost.max_regression_pct_vs_base.val + EPS := by
  cases cost <;> simp [costRuling]

theorem regression_iff : (regression T floors faith fmt).1 = true ↔
    match floors.faithfulness.mode with
    | .absolute => True
    | .no_regression => faith.base - floors.faithfulness.max_regression_vs_base.val ≤ faith.ft + EPS
    | .hybrid => faith.base - floors.faithfulness.max_regression_vs_base.val ≤ faith.ft + EPS ∨
        floors.format_validity.abs_floor.val ≤ fmt.ft + EPS ∧
          FORMAT_JUMP_MIN_DELTA ≤ fmt.ft - fmt.base + EPS := by
  cases hmode : floors.faithfulness.mode <;>
    simp [regression,hmode,withinBand,formatJumped,formatOk]

/-- All rulings pass exactly when the policy is met. -/
theorem rulings_all_iff {delta : ℚ} {cost : Option ℚ} :
    ((rulings T floors faith fmt refusal delta cost).all fun r => r.decision.passed) = true ↔
      Promotable floors faith fmt delta cost := by
  simp only [rulings,List.all_cons,List.all_nil,Bool.and_true,Bool.and_eq_true,floorRuling_passed,
    regressionRuling_passed,formatRuling_passed,refusalRuling_passed,decide_eq_true_eq,
    costRuling_passed,regression_iff]
  constructor
  · rintro ⟨hfloor,hregression,hformat,hrefusal,hcost⟩
    exact ⟨hfloor,hregression,hformat,hrefusal,hcost⟩
  · rintro ⟨hfloor,hregression,hformat,hrefusal,hcost⟩
    exact ⟨hfloor,hregression,hformat,hrefusal,hcost⟩

/-- A ruling that does not pass gives its reason. -/
theorem reasonsOf_ne_nil {rulings : List Ruling}
    (h : (rulings.all fun r => r.decision.passed) = false) : reasonsOf rulings ≠ [] := by
  obtain ⟨r,hr,hpassed⟩ := List.all_eq_false.mp h
  have hmem : r ∈ rulings.filter fun r => !r.decision.passed :=
    List.mem_filter.mpr ⟨hr,by simpa using hpassed⟩
  exact fun hnil => List.ne_nil_of_mem hmem (List.map_eq_nil_iff.mp hnil)

/-- Higher scores meet the policy as well. -/
theorem Promotable.raise {faith' fmt' : Metric} {delta delta' : ℚ} {cost : Option ℚ}
    (h : Promotable floors faith fmt delta cost) (hfaith : faith.ft ≤ faith'.ft)
    (hfaithBase : faith'.base = faith.base) (hfmt : fmt.ft ≤ fmt'.ft) (hfmtBase : fmt'.base = fmt.base)
    (hdelta : delta ≤ delta') : Promotable floors faith' fmt' delta' cost where
  floor := by linarith [h.floor]
  regression := by
    have hregression := h.regression
    cases hmode : floors.faithfulness.mode with
    | absolute => trivial
    | no_regression =>
      simp only [hmode] at hregression ⊢
      linarith
    | hybrid =>
      simp only [hmode] at hregression ⊢
      obtain hband | ⟨hfloor,hjump⟩ := hregression
      · exact Or.inl (by linarith)
      · exact Or.inr ⟨by linarith,by linarith⟩
  format := by linarith [h.format]
  refusal := by linarith [h.refusal]
  cost := h.cost

/-- What a comparison that the gate accepts was read as, and what the result says. -/
theorem evaluate_ok {evaluatedAt gitSha : String} {comparison : Json} {result : PromotionGateResult}
    (h : evaluatePromotionGate T floors evaluatedAt comparison gitSha = .ok result) :
    ∃ faith fmt refusal delta cost, metric comparison "faithfulness" = .ok faith ∧
      metric comparison "format_validity" = .ok fmt ∧
      metric comparison "refusal_correctness" = .ok refusal ∧ deltaOf T refusal = .ok delta ∧
      costDelta T comparison = .ok cost ∧
      result.promoted = (rulings T floors faith fmt refusal delta cost).all (·.decision.passed) ∧
      (result.promoted = false → result.blocked_reasons ≠ []) := by
  simp only [evaluatePromotionGate,bind_eq_ok,pure,Except.pure,Except.ok.injEq] at h
  obtain ⟨faith,hfaith,fmt,hfmt,refusal,hrefusal,delta,hdelta,cost,hcost,rfl⟩ := h
  refine ⟨faith,fmt,refusal,delta,cost,hfaith,hfmt,hrefusal,hdelta,hcost,rfl,fun hblocked => ?_⟩
  have hreasons := reasonsOf_ne_nil hblocked
  simp only
  rw [if_neg (by simp [hreasons])]
  exact hreasons

/-- The gate accepts a comparison whose metrics and deltas it can read. -/
theorem evaluate_of_read {evaluatedAt gitSha : String} {comparison : Json} {delta : ℚ}
    {cost : Option ℚ} (hfaith : metric comparison "faithfulness" = .ok faith)
    (hfmt : metric comparison "format_validity" = .ok fmt)
    (hrefusal : metric comparison "refusal_correctness" = .ok refusal)
    (hdelta : deltaOf T refusal = .ok delta) (hcost : costDelta T comparison = .ok cost) :
    ∃ result, evaluatePromotionGate T floors evaluatedAt comparison gitSha = .ok result ∧
      result.promoted = (rulings T floors faith fmt refusal delta cost).all (·.decision.passed) := by
  unfold evaluatePromotionGate
  rw [hfaith,hfmt,hrefusal]
  simp only [bind,Except.bind,hdelta,hcost]
  exact ⟨_,rfl,rfl⟩

end Gate

/-! ### Raised scores -/

/-- The comparison with another fine-tuned score for one metric and all else as it was. -/
def withFt (name : String) (x : ℚ) (comparison : Json) : Json :=
  match comparison.get? "metrics" with
  | some metrics => match metrics.get? name with
    | some block => comparison.put "metrics" (metrics.put name (block.put "ft" (.num x)))
    | none => comparison
  | none => comparison

theorem numeric_eq_ok {name : String} {block : Json} {key : String} {q : ℚ} :
    numeric name block key = .ok q ↔ (block.get? key).bind number? = some q := by
  unfold numeric
  rw [bind_eq_ok]
  constructor
  · rintro ⟨v,hv,hq⟩
    obtain ⟨-,hv⟩ := get_eq_ok.mp (mapError_eq_ok.mp hv)
    cases hget : block.get? key with
    | none =>
      rw [hget] at hv
      subst hv
      cases hq
    | some w =>
      rw [hget] at hv
      obtain rfl : w = v := hv
      cases hnumber : number? w with
      | none =>
        rw [hnumber] at hq
        cases hq
      | some q' =>
        rw [hnumber] at hq
        exact hnumber.trans (congrArg some (Except.ok.inj hq))
  · intro hq
    obtain ⟨v,hv,hnumber⟩ := Option.bind_eq_some_iff.mp hq
    refine ⟨v,mapError_eq_ok.mpr (get_eq_ok.mpr ⟨Json.isObj_of_get? hv,by rw [hv]; rfl⟩),?_⟩
    rw [hnumber]
    rfl

/-- What `_metric` reads, in terms of members. -/
theorem metric_eq_ok {comparison : Json} {name : String} {m : Metric} :
    metric comparison name = .ok m ↔ ∃ metrics block, comparison.get? "metrics" = some metrics ∧
      metrics.get? name = some block ∧ (block.get? "base").bind number? = some m.base ∧
      (block.get? "ft").bind number? = some m.ft ∧ block.get? "delta" = m.delta := by
  unfold metric
  rw [bind_eq_ok]
  constructor
  · rintro ⟨v,hv,hm⟩
    obtain ⟨-,hv⟩ := get_eq_ok.mp (mapError_eq_ok.mp hv)
    cases v with
    | obj blocks =>
      obtain ⟨metrics,hmetrics,rfl⟩ : ∃ metrics, comparison.get? "metrics" = some metrics ∧
          metrics = .obj blocks := by
        cases hget : comparison.get? "metrics" with
        | none =>
          rw [hget] at hv
          cases hv
        | some metrics =>
          rw [hget] at hv
          exact ⟨metrics,rfl,hv⟩
      cases hblock : blocks.lookup name with
      | none =>
        simp only [hblock] at hm
        cases hm
      | some block =>
        simp only [hblock,bind_eq_ok,numeric_eq_ok,pure,Except.pure,Except.ok.injEq] at hm
        obtain ⟨base,hbase,ft,hft,rfl⟩ := hm
        exact ⟨_,block,hmetrics,hblock,hbase,hft,rfl⟩
    | null | bool | num | str | arr => cases hm
  · rintro ⟨metrics,block,hmetrics,hblock,hbase,hft,hdelta⟩
    obtain ⟨blocks,rfl⟩ := Json.isObj_of_get? hblock
    refine ⟨.obj blocks,mapError_eq_ok.mpr (get_eq_ok.mpr ⟨Json.isObj_of_get? hmetrics,by rw [hmetrics]; rfl⟩),
      ?_⟩
    have hlookup : blocks.lookup name = some block := hblock
    simp only [hlookup,bind_eq_ok,numeric_eq_ok,pure,Except.pure,Except.ok.injEq]
    exact ⟨m.base,hbase,m.ft,hft,by rw [hdelta]⟩

/-- A raised score is read, and nothing else is read differently. -/
theorem metric_withFt {comparison : Json} {name other : String} {m : Metric} (x : ℚ)
    (h : metric comparison other = .ok m) :
    metric (withFt name x comparison) other = .ok (if other = name then {m with ft := x} else m) := by
  obtain ⟨metrics,block,hmetrics,hblock,hbase,hft,hdelta⟩ := metric_eq_ok.mp h
  unfold withFt
  simp only [hmetrics]
  by_cases hname : other = name
  · subst hname
    obtain ⟨w,hw,-⟩ := Option.bind_eq_some_iff.mp hft
    simp only [hblock,if_true]
    refine metric_eq_ok.mpr ⟨_,_,Json.get?_put_of_some hmetrics,Json.get?_put_of_some hblock,?_,?_,?_⟩
    · rw [Json.get?_put_of_ne (by decide)]
      exact hbase
    · rw [Json.get?_put_of_some hw]
      rfl
    · rw [Json.get?_put_of_ne (by decide)]
      exact hdelta
  · rw [if_neg hname]
    cases hget : metrics.get? name with
    | none => exact h
    | some raised =>
      refine metric_eq_ok.mpr ⟨_,block,Json.get?_put_of_some hmetrics,?_,hbase,hft,hdelta⟩
      rw [Json.get?_put_of_ne hname]
      exact hblock

/-- The cost block stays. -/
theorem costDelta_withFt (T : Texts) (name : String) (x : ℚ) (comparison : Json) :
    costDelta T (withFt name x comparison) = costDelta T comparison := by
  have hget : ∀ j v : Json, Python.get (j.put "metrics" v) "cost" .null =
      Python.get j "cost" .null := by
    intro j v
    cases j with
    | obj members =>
      have hlookup : (Json.putMember "metrics" v members).lookup "cost" = members.lookup "cost" :=
        Json.lookup_putMember_of_ne (by decide) v members
      exact congrArg (fun o => Except.ok (Option.getD o .null)) hlookup
    | null | bool | num | str | arr => rfl
  unfold withFt
  cases comparison.get? "metrics" with
  | none => rfl
  | some metrics =>
    cases hblock : metrics.get? name with
    | none => simp only [hblock]
    | some block => simp only [hblock,costDelta,hget]

/-- The verdict on every comparison that is accepted: promoted exactly when the policy is met, with the
refusal delta that the comparison stores or, where it stores none, the difference of its scores; never
blocked without a reason; and not blocked after a score is raised. -/
theorem promotes_iff (T : Texts) (floors : PromotionFloors) {evaluatedAt gitSha : String}
    {comparison : Json} {result : PromotionGateResult}
    (h : evaluatePromotionGate T floors evaluatedAt comparison gitSha = .ok result) :
    ∃ faith fmt refusal delta cost, metric comparison "faithfulness" = .ok faith ∧
      metric comparison "format_validity" = .ok fmt ∧
      metric comparison "refusal_correctness" = .ok refusal ∧
      (match refusal.delta with
        | some v => float T v = .ok delta
        | none => delta = refusal.ft - refusal.base) ∧
      costDelta T comparison = .ok cost ∧
      (result.promoted = true ↔ Promotable floors faith fmt delta cost) ∧
      (result.promoted = false → result.blocked_reasons ≠ []) ∧
      ∀ name x, (∀ m, metric comparison name = .ok m → m.ft ≤ x) → result.promoted = true →
        ∃ raised, evaluatePromotionGate T floors evaluatedAt (withFt name x comparison) gitSha =
          .ok raised ∧ raised.promoted = true := by
  obtain ⟨faith,fmt,refusal,delta,cost,hfaith,hfmt,hrefusal,hdelta,hcost,hpromoted,hreasons⟩ :=
    evaluate_ok h
  refine ⟨faith,fmt,refusal,delta,cost,hfaith,hfmt,hrefusal,?_,hcost,?_,hreasons,?_⟩
  · unfold deltaOf at hdelta
    cases hstored : refusal.delta with
    | some v => simpa [hstored] using hdelta
    | none =>
      simp only [hstored,Except.ok.injEq] at hdelta
      exact hdelta.symm
  · rw [hpromoted]
    exact rulings_all_iff
  · intro name x hx hall
    rw [hpromoted] at hall
    have hpolicy := rulings_all_iff.mp hall
    have hraise : ∀ {other m}, metric comparison other = .ok m →
        ∃ m', metric (withFt name x comparison) other = .ok m' ∧ m.ft ≤ m'.ft ∧ m'.base = m.base ∧
          m'.delta = m.delta := by
      intro other m hm
      refine ⟨_,metric_withFt x hm,?_⟩
      split_ifs with hname
      · exact ⟨hx m (hname ▸ hm),rfl,rfl⟩
      · exact ⟨le_rfl,rfl,rfl⟩
    obtain ⟨faith',hfaith',hfaithFt,hfaithBase,-⟩ := hraise hfaith
    obtain ⟨fmt',hfmt',hfmtFt,hfmtBase,-⟩ := hraise hfmt
    obtain ⟨refusal',hrefusal',hrefusalFt,hrefusalBase,hrefusalDelta⟩ := hraise hrefusal
    obtain ⟨delta',hdelta',hle⟩ : ∃ delta', deltaOf T refusal' = .ok delta' ∧ delta ≤ delta' := by
      unfold deltaOf at hdelta ⊢
      rw [hrefusalDelta]
      cases hstored : refusal.delta with
      | some v => exact ⟨delta,by simpa [hstored] using hdelta,le_rfl⟩
      | none =>
        simp only [hstored,Except.ok.injEq] at hdelta
        exact ⟨_,rfl,by rw [hrefusalBase]; linarith⟩
    have hcost' : costDelta T (withFt name x comparison) = .ok cost := by
      rw [costDelta_withFt]
      exact hcost
    obtain ⟨raised,hraised,hverdict⟩ := evaluate_of_read hfaith' hfmt' hrefusal' hdelta' hcost'
    refine ⟨raised,hraised,?_⟩
    rw [hverdict]
    exact rulings_all_iff.mpr (hpolicy.raise hfaithFt hfaithBase hfmtFt hfmtBase hle)

/-! ### The committed floors -/

/-- A number with `n+1` decimals, rounded half to even. -/
def fixedText (n : ℕ) (q : ℚ) : String :=
  let scaled := |q| * 10^(n+1)
  let rest := scaled - scaled.floor
  let units := if 1/2 < rest ∨ (rest = 1/2 ∧ scaled.floor % 2 = 1) then scaled.floor + 1
    else scaled.floor
  let digits := Delimited.pad (n+2) units.toNat
  let whole := digits.take (digits.length - (n+1))
  String.ofList ((if q < 0 then ['-'] else []) ++ whole ++ '.'::digits.drop whole.length)

/-- Texts of exact numbers; of other values only strings are written. -/
def exactTexts : Texts where
  fixed n := fixedText (n-1)
  signed n q := (if q < 0 then "" else "+") ++ fixedText (n-1) q
  str
    | .str s => s
    | .num q => fixedText 0 q
    | .null | .bool _ | .arr _ | .obj _ => ""
  repr
    | .str s => "'" ++ s ++ "'"
    | .num q => fixedText 0 q
    | .null | .bool _ | .arr _ | .obj _ => ""
  float _ := none

def committedFloors : PromotionFloors :=
  ⟨⟨⟨0.656,by norm_num⟩,⟨0.05,by norm_num⟩,.hybrid⟩,⟨⟨0.95,by norm_num⟩⟩,⟨0⟩,⟨⟨10,by norm_num⟩⟩,true⟩

/-- The committed scores but for those of refusals. -/
def comparisonWith (refusal : Json) : Json := .obj [("metrics",.obj [
  ("faithfulness",.obj [("base",.num 0.7763),("ft",.num 0.6742),("delta",.num (-0.1021))]),
  ("format_validity",.obj [("base",.num 0),("ft",.num 0.9545),("delta",.num 0.9545)]),
  ("refusal_correctness",refusal)]),("git_sha",.str "a696108")]

/-- A refusal score that fell beside a delta that says it did not. -/
def staleRefusal : Json := .obj [("base",.num 1),("ft",.num 0),("delta",.num 0)]

theorem evaluate_stale : ∃ result, evaluatePromotionGate exactTexts committedFloors ""
    (comparisonWith staleRefusal) "" = .ok result ∧ result.promoted = true := by
  obtain ⟨result,hresult,hpromoted⟩ := @evaluate_of_read exactTexts committedFloors
    ⟨0.7763,0.6742,some (.num (-0.1021))⟩ ⟨0,0.9545,some (.num 0.9545)⟩ ⟨1,0,some (.num 0)⟩ "" ""
    (comparisonWith staleRefusal) 0 none rfl rfl rfl rfl rfl
  refine ⟨result,hresult,?_⟩
  rw [hpromoted]
  refine rulings_all_iff.mpr ⟨?_,?_,?_,?_,by simp⟩
  · norm_num [committedFloors,EPS]
  · right
    norm_num [committedFloors,EPS,FORMAT_JUMP_MIN_DELTA]
  · norm_num [committedFloors,EPS]
  · norm_num [committedFloors,EPS]

theorem promotes_iff_stale : ∃ result faith fmt delta cost,
    evaluatePromotionGate exactTexts committedFloors "" (comparisonWith staleRefusal) "" = .ok result ∧
      metric (comparisonWith staleRefusal) "faithfulness" = .ok faith ∧
      metric (comparisonWith staleRefusal) "format_validity" = .ok fmt ∧
      (result.promoted = true ↔ Promotable committedFloors faith fmt delta cost) := by
  obtain ⟨result,hresult,-⟩ := evaluate_stale
  obtain ⟨faith,fmt,-,delta,cost,hfaith,hfmt,-,-,-,hverdict,-⟩ :=
    promotes_iff exactTexts committedFloors hresult
  exact ⟨result,faith,fmt,delta,cost,hresult,hfaith,hfmt,hverdict⟩

/-- The verdict does not follow the difference of the refusal scores. -/
theorem stale_promoted : ¬ ∀ (T : Texts) (floors : PromotionFloors) (evaluatedAt gitSha : String)
    (comparison : Json) (result : PromotionGateResult) (faith fmt refusal : Metric) (cost : Option ℚ),
      evaluatePromotionGate T floors evaluatedAt comparison gitSha = .ok result →
        metric comparison "faithfulness" = .ok faith → metric comparison "format_validity" = .ok fmt →
          metric comparison "refusal_correctness" = .ok refusal → costDelta T comparison = .ok cost →
            (result.promoted = true ↔
              Promotable floors faith fmt (refusal.ft - refusal.base) cost) := by
  intro hall
  obtain ⟨result,hresult,hpromoted⟩ := evaluate_stale
  have hpolicy := (hall exactTexts committedFloors "" "" (comparisonWith staleRefusal) result
    ⟨0.7763,0.6742,some (.num (-0.1021))⟩ ⟨0,0.9545,some (.num 0.9545)⟩ ⟨1,0,some (.num 0)⟩ none
    hresult rfl rfl rfl rfl).mp hpromoted
  have hrefusal := hpolicy.refusal
  norm_num [committedFloors,EPS] at hrefusal

end AtlasCompliance.Evals
