import AtlasCompliance.Lib.Delimited
import AtlasCompliance.McpTools.DraftSarTool

/-! Which arguments the digest of a draft keeps apart: the joined text loses where the period stands when
another period-like segment stands between separators. -/
namespace AtlasCompliance.McpTools
open Java AuditHasher SarInputValidator DraftSarTool

/-! ### The text of the citations -/

/-- The numbers between the brackets. -/
def numerals (cs : List ℤ) : List Char := [',',' '].intercalate (cs.map fun c => c.repr.toList)

/-- The content of a draft as `validate` lets it pass. -/
structure SarContent where
  account : String
  period : String
  rationale : String
  citations : List ℤ
  form : periodMatches period = true
  cited : citations ≠ []

/-- The arguments are those of the content. -/
structure ToolArgs.Holds (a : ToolArgs) (x : SarContent) : Prop where
  account : a.account = some x.account
  period : a.period = some x.period
  rationale : a.rationale = some x.rationale
  citations : a.citations = some (x.citations.map some)

theorem requireText_ok {field : String} {value : Option String} {u : Unit}
    (h : requireText field value = .ok u) : ∃ v, value = some v := by
  cases value with
  | none => cases h
  | some v => exact ⟨v,rfl⟩

theorem check_ok {ok : Bool} {message : String} {u : Unit} (h : check ok message = .ok u) :
    ok = true := by
  cases ok with
  | true => rfl
  | false => cases h

theorem map_some_of_all {cs : List (Option ℤ)} (h : cs.all Option.isSome = true) :
    ∃ ds : List ℤ, cs = ds.map some := by
  induction cs with
  | nil => exact ⟨[],rfl⟩
  | cons c cs ih =>
    obtain ⟨hc,hcs⟩ := (Bool.and_eq_true _ _).mp h
    obtain ⟨n,rfl⟩ := Option.isSome_iff_exists.mp hc
    obtain ⟨ds,rfl⟩ := ih hcs
    exact ⟨n::ds,rfl⟩

theorem requireCitations_ok {citations : Option (List (Option ℤ))} {u : Unit}
    (h : requireCitations citations = .ok u) : ∃ cs, cs ≠ [] ∧ citations = some (cs.map some) := by
  match citations,h with
  | some (c::cs),h =>
    obtain ⟨ds,hds⟩ := map_some_of_all (check_ok h)
    refine ⟨ds,?_,by rw [hds]⟩
    rintro rfl
    cases hds

theorem bind_ok {α β : Type} {x : Except String α} {f : α → Except String β} {b : β}
    (h : x.bind f = .ok b) : ∃ a, x = .ok a ∧ f a = .ok b := by
  cases x with
  | error e => cases h
  | ok a => exact ⟨a,rfl,h⟩

theorem holds_of_validate {a : ToolArgs} (h : validate a = .ok ()) : ∃ x, a.Holds x := by
  obtain ⟨_,haccount,h₁⟩ := bind_ok h
  obtain ⟨_,hperiod,h₂⟩ := bind_ok h₁
  obtain ⟨_,hform,h₃⟩ := bind_ok h₂
  obtain ⟨_,hrationale,h₄⟩ := bind_ok h₃
  obtain ⟨_,-,hcitations⟩ := bind_ok h₄
  obtain ⟨account,haccount⟩ := requireText_ok haccount
  obtain ⟨period,hperiod⟩ := requireText_ok hperiod
  obtain ⟨rationale,hrationale⟩ := requireText_ok hrationale
  obtain ⟨cs,hcited,hcitations⟩ := requireCitations_ok hcitations
  have hform := check_ok hform
  rw [hperiod] at hform
  exact ⟨⟨account,period,rationale,cs,hform,hcited⟩,haccount,hperiod,hrationale,hcitations⟩

/-! ### The joined text -/

namespace SarContent

/-- The text between the first and the last separator that every form of the period allows. -/
def head (x : SarContent) : List Char :=
  x.account.toList ++ US::(x.period.toList ++ US::x.rationale.toList)

/-- What is compared: the four arguments. -/
def content (x : SarContent) : String × String × String × List ℤ :=
  (x.account,x.period,x.rationale,x.citations)

end SarContent

namespace ToolArgs

/-- The arguments that the digest is over. -/
def content (a : ToolArgs) :
    Option String × Option String × Option String × Option (List (Option ℤ)) :=
  (a.account,a.period,a.rationale,a.citations)

end ToolArgs

end AtlasCompliance.McpTools
