import AtlasCompliance.Java.Text

/-! The clearance hierarchy, of which the gateway, the tool server and the rag-engine each keep
an identical copy. -/
namespace AtlasCompliance
open Java

inductive Clearance
  | PUBLIC
  | ANALYST
  | COMPLIANCE
  | RESTRICTED
  deriving DecidableEq, Repr

namespace Clearance

def values : List Clearance := [PUBLIC,ANALYST,COMPLIANCE,RESTRICTED]

def rank : Clearance → ℕ
  | PUBLIC => 0
  | ANALYST => 1
  | COMPLIANCE => 2
  | RESTRICTED => 3

def name : Clearance → String
  | PUBLIC => "PUBLIC"
  | ANALYST => "ANALYST"
  | COMPLIANCE => "COMPLIANCE"
  | RESTRICTED => "RESTRICTED"

/-- `name().toLowerCase(Locale.ROOT)`. -/
def label (c : Clearance) : String := String.ofList (c.name.toList.map Char.toLower)

/-- `atLeast` in the tool server, `dominates` in the rag-engine. -/
def atLeast (c other : Clearance) : Bool := decide (other.rank ≤ c.rank)

/-- `valueOf(label.strip().toUpperCase(Locale.ROOT))`; none where the source throws. -/
def fromLabel (label : String) : Option Clearance :=
  values.find? fun c => decide (c.name = Text.toUpperCaseLatin (Text.strip label))

theorem fromLabel_label (c : Clearance) : fromLabel c.label = some c := by
  cases c <;> decide

theorem rank_injective : Function.Injective rank := by
  intro c d h
  cases c <;> cases d <;> first | rfl | exact absurd h (by decide)

end Clearance
end AtlasCompliance
