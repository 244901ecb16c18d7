import AtlasCompliance.Clearance

/-! Retrieved chunks with their provenance, and the clearance check made on each of them. -/
namespace AtlasCompliance.RagEngine

/-- `java.util.UUID`. -/
structure UUID where
  bits : BitVec 128
  deriving DecidableEq, Repr

/-- The `w` lowest hexadecimal digits. -/
def hexDigits : ℕ → ℕ → List Char
  | 0,_ => []
  | w+1,n => hexDigits w (n/16) ++ [Nat.digitChar (n % 16)]

/-- `UUID.toString`. -/
def UUID.text (id : UUID) : List Char :=
  let n := id.bits.toNat
  hexDigits 8 (n / 2^96) ++ '-'::hexDigits 4 (n / 2^80) ++ '-'::hexDigits 4 (n / 2^64) ++
    '-'::hexDigits 4 (n / 2^48) ++ '-'::hexDigits 12 n

/-- A chunk as retrieval returns it, its metadata read; scores are of type `D`. -/
structure RetrievedChunk (D : Type) where
  id : UUID
  documentId : UUID
  content : String
  clearance : String
  docId : Option String
  title : Option String
  sourceUri : Option String
  score : D

/-- The labels in the retrieval predicate of a caller. -/
def visibleLabels (caller : Clearance) : List String :=
  (Clearance.values.filter caller.atLeast).map Clearance.label

/-- `isVisible` on a persisted label; an unknown one is not visible. -/
def isVisible (caller : Clearance) (itemClearanceLabel : String) : Bool :=
  match Clearance.fromLabel itemClearanceLabel with
  | some level => caller.atLeast level
  | none => false

end AtlasCompliance.RagEngine
