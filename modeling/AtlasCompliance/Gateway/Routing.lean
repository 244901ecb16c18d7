import AtlasCompliance.Java.Text

/-! Request limits, the cost table and the model router of the gateway. Costs are exact numbers;
the record components that the configuration replaces when missing or not positive are replaced
here as well. -/
namespace AtlasCompliance.Gateway
open Java

namespace RequestLimits

/-- `estimateTokens`, the same in `ModelRouter`: about four characters to a token. -/
def estimateTokens (text : String) : ℕ :=
  if Text.isBlank text then 0 else (Text.length (Text.strip text) + 3)/4

end RequestLimits

structure RequestLimits where
  maxInputTokens : ℤ
  maxOutputTokens : ℤ

/-- The limits that `ResilienceProperties` hands on. -/
def RequestLimits.ofConfigured (maxInputTokens maxOutputTokens : ℤ) : RequestLimits :=
  ⟨if 0 < maxInputTokens then maxInputTokens else 6000,
    if 0 < maxOutputTokens then maxOutputTokens else 1024⟩

inductive ModelTier
  | TIER1_SMALL
  | TIER2_MID
  | TIER3_FRONTIER
  | TIER_FT_CITATION
  deriving DecidableEq, Repr

namespace ModelTier

def values : List ModelTier := [TIER1_SMALL,TIER2_MID,TIER3_FRONTIER,TIER_FT_CITATION]

def label : ModelTier → String
  | TIER1_SMALL => "tier1-small"
  | TIER2_MID => "tier2-mid"
  | TIER3_FRONTIER => "tier3-frontier"
  | TIER_FT_CITATION => "tier-ft-citation"

/-- `strip().toLowerCase(Locale.ROOT)`. -/
def normalized (casing : Casing) (s : String) : String :=
  String.ofList (casing.lowerCase [] (Text.strip s).toList)

/-- None where the source throws. -/
def fromLabel (casing : Casing) (label : String) : Option ModelTier :=
  values.find? fun t => decide (t.label = normalized casing label)

end ModelTier

/-! ### Cost units -/

/-- The cost units per thousand tokens of each tier, all positive. -/
structure CostProperties where
  tier1UnitsPer1k : ℚ
  tier2UnitsPer1k : ℚ
  frontierUnitsPer1k : ℚ
  ftTierUnitsPer1k : ℚ
  tier1_pos : 0 < tier1UnitsPer1k
  tier2_pos : 0 < tier2UnitsPer1k
  frontier_pos : 0 < frontierUnitsPer1k
  ftTier_pos : 0 < ftTierUnitsPer1k

/-- A configured rate, or the default when it is not positive. -/
def unitsOr (configured fallback : ℚ) : ℚ := if 0 < configured then configured else fallback

theorem unitsOr_pos {configured fallback : ℚ} (h : 0 < fallback) :
    0 < unitsOr configured fallback := by
  unfold unitsOr
  split_ifs with hc
  · exact hc
  · exact h

def CostProperties.ofConfigured (tier1 tier2 frontier ftTier : ℚ) : CostProperties where
  tier1UnitsPer1k := unitsOr tier1 0.30
  tier2UnitsPer1k := unitsOr tier2 0.70
  frontierUnitsPer1k := unitsOr frontier 5
  ftTierUnitsPer1k := unitsOr ftTier 0.70
  tier1_pos := unitsOr_pos (by norm_num)
  tier2_pos := unitsOr_pos (by norm_num)
  frontier_pos := unitsOr_pos (by norm_num)
  ftTier_pos := unitsOr_pos (by norm_num)

namespace CostTable
variable (props : CostProperties)

def unitsPer1k : ModelTier → ℚ
  | .TIER1_SMALL => props.tier1UnitsPer1k
  | .TIER2_MID => props.tier2UnitsPer1k
  | .TIER3_FRONTIER => props.frontierUnitsPer1k
  | .TIER_FT_CITATION => props.ftTierUnitsPer1k

def costUnits (tier : ModelTier) (promptTokens completionTokens : ℤ) : ℚ :=
  ((max 0 promptTokens + max 0 completionTokens : ℤ) : ℚ)/1000*unitsPer1k props tier

theorem unitsPer1k_pos (tier : ModelTier) : 0 < unitsPer1k props tier := by
  cases tier
  · exact props.tier1_pos
  · exact props.tier2_pos
  · exact props.frontier_pos
  · exact props.ftTier_pos

/-- Every token costs something. -/
theorem costUnits_pos {tier : ModelTier} {promptTokens completionTokens : ℤ}
    (h : 0 < promptTokens ∨ 0 < completionTokens) :
    0 < costUnits props tier promptTokens completionTokens := by
  have htotal : 0 < max 0 promptTokens + max 0 completionTokens := by omega
  have htotal' : (0 : ℚ) < ((max 0 promptTokens + max 0 completionTokens : ℤ) : ℚ) := by
    exact_mod_cast htotal
  have hunits := unitsPer1k_pos props tier
  unfold costUnits
  positivity

end CostTable

/-! ### The router -/

structure RoutingProperties where
  defaultTier : String
  tier1Model : String
  tier2Model : String
  escalateQueryTokens : ℤ
  frontierEnabled : Bool
  frontierModel : Option String
  ftTierEnabled : Bool
  ftTierModel : Option String

def blankTo (v : Option String) (fallback : String) : String :=
  ((v.filter fun s => !Text.isBlank s)).getD fallback

def RoutingProperties.ofConfigured (defaultTier tier1Model tier2Model : Option String)
    (escalateQueryTokens : ℤ) (frontierEnabled : Bool) (frontierModel : Option String)
    (ftTierEnabled : Bool) (ftTierModel : Option String) : RoutingProperties where
  defaultTier := blankTo defaultTier ModelTier.TIER1_SMALL.label
  tier1Model := blankTo tier1Model "qwen2.5:3b-instruct"
  tier2Model := blankTo tier2Model "qwen2.5:7b-instruct"
  escalateQueryTokens := if 0 < escalateQueryTokens then escalateQueryTokens else 1200
  frontierEnabled := frontierEnabled
  frontierModel := frontierModel.filter fun s => !Text.isBlank s
  ftTierEnabled := ftTierEnabled
  ftTierModel := ftTierModel.filter fun s => !Text.isBlank s

/-- The tiers that may be chosen. -/
def RoutingProperties.selectable (props : RoutingProperties) : ModelTier → Bool
  | .TIER1_SMALL | .TIER2_MID => true
  | .TIER3_FRONTIER => props.frontierEnabled
  | .TIER_FT_CITATION => props.ftTierEnabled

structure ModelRouter where
  casing : Casing
  props : RoutingProperties
  defaultTier : ModelTier

/-- The constructor; an unknown default tier keeps the gateway from starting. -/
def ModelRouter.new (casing : Casing) (props : RoutingProperties) : Option ModelRouter :=
  (ModelTier.fromLabel casing props.defaultTier).map fun configured =>
    ⟨casing,props,if props.selectable configured then configured else .TIER1_SMALL⟩

/-- `RoutingDecision`, without the reason, which is only logged. -/
structure RoutingDecision where
  tier : ModelTier
  model : Option String
  escalated : Bool
  deriving DecidableEq

namespace ModelRouter
variable (R : ModelRouter)

def wantsFt (ftHint : Option String) : Bool :=
  ftHint.any fun hint =>
    ["true","1","citation","ft"].contains (ModelTier.normalized R.casing hint)

def modelFor : ModelTier → Option String
  | .TIER1_SMALL => some R.props.tier1Model
  | .TIER2_MID => some R.props.tier2Model
  | .TIER3_FRONTIER => R.props.frontierModel
  | .TIER_FT_CITATION => R.props.ftTierModel

def wantsHigh (qualityHint : Option String) : Bool :=
  qualityHint.any fun hint => Text.equalsIgnoreCase (Text.strip hint) "high"

def route (query : String) (qualityHint ftHint : Option String) : RoutingDecision :=
  if R.wantsFt ftHint && R.props.selectable .TIER_FT_CITATION then
    ⟨.TIER_FT_CITATION,R.props.ftTierModel,false⟩
  else if (wantsHigh qualityHint ||
      decide (R.props.escalateQueryTokens < RequestLimits.estimateTokens query)) &&
      R.props.selectable .TIER2_MID then
    ⟨.TIER2_MID,some R.props.tier2Model,true⟩
  else ⟨R.defaultTier,R.modelFor R.defaultTier,false⟩

/-! ### What the router may choose -/

/-- The quality hint or the size of the query asks for the second tier. -/
def asksTier2 (query : String) (qualityHint : Option String) : Bool :=
  wantsHigh qualityHint ||
    decide (R.props.escalateQueryTokens < RequestLimits.estimateTokens query)

/-- What the router promises of one decision. -/
structure Safe (query : String) (qualityHint ftHint : Option String) : Prop where
  ft : (R.route query qualityHint ftHint).tier = .TIER_FT_CITATION →
    R.props.ftTierEnabled = true ∧ R.wantsFt ftHint = true
  frontier : (R.route query qualityHint ftHint).tier ≠ .TIER3_FRONTIER
  escalated : (R.route query qualityHint ftHint).escalated = true ↔
    (R.route query qualityHint ftHint).tier = .TIER2_MID ∧ R.asksTier2 query qualityHint = true
  model : (R.route query qualityHint ftHint).model =
    R.modelFor (R.route query qualityHint ftHint).tier

/-- A signal of the request decides, and not the default tier. -/
def Signalled (query : String) (qualityHint ftHint : Option String) : Prop :=
  (R.wantsFt ftHint = true ∧ R.props.ftTierEnabled = true) ∨ R.asksTier2 query qualityHint = true

variable {R}

/-- The three ways a tier is chosen. -/
theorem route_cases (query : String) (qualityHint ftHint : Option String) :
    (R.wantsFt ftHint = true ∧ R.props.ftTierEnabled = true ∧
      R.route query qualityHint ftHint = ⟨.TIER_FT_CITATION,R.modelFor .TIER_FT_CITATION,false⟩) ∨
    (R.asksTier2 query qualityHint = true ∧
      R.route query qualityHint ftHint = ⟨.TIER2_MID,R.modelFor .TIER2_MID,true⟩) ∨
    (¬ R.Signalled query qualityHint ftHint ∧
      R.route query qualityHint ftHint = ⟨R.defaultTier,R.modelFor R.defaultTier,false⟩) := by
  unfold route
  split_ifs with hft hhigh
  · obtain ⟨hwants,henabled⟩ := (Bool.and_eq_true _ _).mp hft
    exact Or.inl ⟨hwants,henabled,rfl⟩
  · exact Or.inr (Or.inl ⟨((Bool.and_eq_true _ _).mp hhigh).1,rfl⟩)
  · refine Or.inr (Or.inr ⟨?_,rfl⟩)
    rintro (⟨hwants,henabled⟩ | hasks)
    · exact hft ((Bool.and_eq_true _ _).mpr ⟨hwants,henabled⟩)
    · exact hhigh ((Bool.and_eq_true _ _).mpr ⟨hasks,rfl⟩)

theorem safe_of_signalled {query : String} {qualityHint ftHint : Option String}
    (h : R.Signalled query qualityHint ftHint) : R.Safe query qualityHint ftHint := by
  have hcases := @route_cases R query qualityHint ftHint
  obtain ⟨hwants,henabled,hroute⟩ | ⟨hasks,hroute⟩ | ⟨hnot,-⟩ := hcases
  · exact ⟨fun _ => ⟨henabled,hwants⟩,by simp [hroute],by simp [hroute],by rw [hroute]⟩
  · exact ⟨by simp [hroute],by simp [hroute],by simp [hroute,hasks],by rw [hroute]⟩
  · exact absurd h hnot

/-- Without a signal everything hangs on the default tier. -/
theorem safe_iff_of_unsignalled {query : String} {qualityHint ftHint : Option String}
    (h : ¬ R.Signalled query qualityHint ftHint) : R.Safe query qualityHint ftHint ↔
      R.defaultTier ≠ .TIER_FT_CITATION ∧ R.defaultTier ≠ .TIER3_FRONTIER := by
  have hroute : R.route query qualityHint ftHint =
      ⟨R.defaultTier,R.modelFor R.defaultTier,false⟩ := by
    obtain ⟨hwants,henabled,-⟩ | ⟨hasks,-⟩ | ⟨-,hroute⟩ := @route_cases R query qualityHint ftHint
    · exact absurd (Or.inl ⟨hwants,henabled⟩) h
    · exact absurd (Or.inr hasks) h
    · exact hroute
  obtain ⟨hft,hasks⟩ := not_or.mp h
  constructor
  · intro hsafe
    refine ⟨fun hdefault => hft ?_,fun hdefault => hsafe.frontier (by rw [hroute]; exact hdefault)⟩
    exact (hsafe.ft (by rw [hroute]; exact hdefault)).symm
  · rintro ⟨hne,hne'⟩
    exact ⟨fun ht => absurd (by rwa [hroute] at ht) hne,by rw [hroute]; exact hne',
      by simp [hroute,hasks],by rw [hroute]⟩

/-- The default tier is the configured one where that may be chosen. -/
theorem defaultTier_eq_iff {casing : Casing} {props : RoutingProperties} {tier : ModelTier}
    (h : ModelRouter.new casing props = some R) (htier : tier ≠ .TIER1_SMALL) :
    R.defaultTier = tier ↔ ModelTier.fromLabel casing props.defaultTier = some tier ∧
      props.selectable tier = true := by
  obtain ⟨configured,hlabel,rfl⟩ := Option.map_eq_some_iff.mp h
  rw [hlabel]
  by_cases hs : props.selectable configured = true
  · simp only [hs,if_true,Option.some.injEq]
    constructor
    · rintro rfl
      exact ⟨rfl,hs⟩
    · exact fun h => h.1
  · simp only [hs,Bool.false_eq_true,if_false,Option.some.injEq]
    constructor
    · exact fun heq => absurd heq.symm htier
    · rintro ⟨rfl,hs'⟩
      exact absurd hs' hs

/-- The router keeps its promises on a request exactly when a signal decides or the configuration
does not make an enabled capability tier the default. -/
theorem route_safe_iff {casing : Casing} {props : RoutingProperties}
    (h : ModelRouter.new casing props = some R) (query : String)
    (qualityHint ftHint : Option String) : R.Safe query qualityHint ftHint ↔
      R.Signalled query qualityHint ftHint ∨
        (¬ (ModelTier.fromLabel casing props.defaultTier = some .TIER_FT_CITATION ∧
            props.ftTierEnabled = true) ∧
          ¬ (ModelTier.fromLabel casing props.defaultTier = some .TIER3_FRONTIER ∧
            props.frontierEnabled = true)) := by
  have hft := @defaultTier_eq_iff R casing props .TIER_FT_CITATION h (by decide)
  have hfrontier := @defaultTier_eq_iff R casing props .TIER3_FRONTIER h (by decide)
  by_cases hsignal : R.Signalled query qualityHint ftHint
  · exact ⟨fun _ => Or.inl hsignal,fun _ => safe_of_signalled hsignal⟩
  · rw [safe_iff_of_unsignalled hsignal,Ne,Ne,hft,hfrontier]
    constructor
    · exact fun h => Or.inr h
    · rintro (h | h)
      · exact absurd h hsignal
      · exact h

/-- A configuration with the tier of that label as the default and both capability tiers on. -/
def capabilityDefault (label : String) : RoutingProperties :=
  .ofConfigured (some label) none none 0 true (some "frontier") true (some "ft")

set_option maxRecDepth 20000 in
theorem route_safe_small : ∃ R, ModelRouter.new asciiCasing (capabilityDefault "tier1-small") =
    some R ∧ R.Safe "What is the reporting threshold?" none none := by
  refine ⟨⟨asciiCasing,capabilityDefault "tier1-small",.TIER1_SMALL⟩,rfl,?_⟩
  have hnew : ModelRouter.new asciiCasing (capabilityDefault "tier1-small") =
      some ⟨asciiCasing,capabilityDefault "tier1-small",.TIER1_SMALL⟩ := by rfl
  exact (route_safe_iff hnew _ none none).mpr (Or.inr ⟨by decide +kernel,by decide +kernel⟩)

set_option maxRecDepth 20000 in
/-- Without any hint the fine-tuned tier answers. -/
theorem route_default_ft : ¬ ∀ casing props R, ModelRouter.new casing props = some R →
    ∀ query qualityHint ftHint, R.Safe query qualityHint ftHint := by
  intro h
  have hsafe := h asciiCasing (capabilityDefault "tier-ft-citation")
    ⟨asciiCasing,capabilityDefault "tier-ft-citation",.TIER_FT_CITATION⟩ rfl
    "What is the reporting threshold?" none none
  exact absurd (hsafe.ft (by decide +kernel)).2 (by decide +kernel)

end ModelRouter

end AtlasCompliance.Gateway
