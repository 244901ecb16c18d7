import AtlasCompliance.Lib.HashChain
import AtlasCompliance.Java.Instant
import AtlasCompliance.Java.Sha256

/-! The audit hash chain: `AuditRecord`, `Digests`, `AuditHasher` and `AuditChainVerifier`.
SHA-256 itself is a parameter; its hexadecimal form and the canonical form are the code's. -/
namespace AtlasCompliance.McpTools
open Java

inductive AuditPhase
  | attempt | approved | rejected | success | denied | error
  deriving DecidableEq, Repr

namespace AuditPhase

def name : AuditPhase → String
  | attempt => "ATTEMPT"
  | approved => "APPROVED"
  | rejected => "REJECTED"
  | success => "SUCCESS"
  | denied => "DENIED"
  | error => "ERROR"

theorem name_injective : Function.Injective name := by
  intro p q h
  cases p <;> cases q <;> first | rfl | exact absurd h (by decide)

end AuditPhase

/-- One `agent.tool_audit` row; `result_ref` is the only nullable column. -/
structure AuditRecord where
  seq : ℕ
  ts : Instant
  runId : String
  tool : String
  phase : AuditPhase
  caller : String
  clearance : String
  argsDigest : String
  resultRef : Option String
  prevHash : String
  rowHash : String
  deriving DecidableEq, Repr

/-- The logical fields, which the canonical form is meant to pin down. -/
def AuditRecord.logical (r : AuditRecord) :
    Instant × String × String × AuditPhase × String × String × String × Option String :=
  (r.ts,r.runId,r.tool,r.phase,r.caller,r.clearance,r.argsDigest,r.resultRef)

namespace Digests

/-- `Character.forDigit((b >> 4) & 0xF, 16)` and `Character.forDigit(b & 0xF, 16)`. -/
def hexByte (b : UInt8) : List Char := [Nat.digitChar (b.toNat/16%16),Nat.digitChar (b.toNat%16)]

def hex (digest : List UInt8) : List Char := digest.flatMap hexByte

/-- Lowercase hex SHA-256 of the UTF-8 bytes of the input. -/
def sha256Hex (sha : Sha256) (input : String) : String := String.ofList (hex (sha input.toUTF8))

theorem digitChar_inj : ∀ m < 16, ∀ n < 16, Nat.digitChar m = Nat.digitChar n → m = n := by
  decide

theorem hexByte_injective : Function.Injective hexByte := by
  intro a b h
  have ha := a.toNat_lt
  have hb := b.toNat_lt
  obtain ⟨hhi,hlo⟩ : Nat.digitChar (a.toNat/16%16) = Nat.digitChar (b.toNat/16%16) ∧
      Nat.digitChar (a.toNat%16) = Nat.digitChar (b.toNat%16) := by simpa [hexByte] using h
  have hhi := digitChar_inj _ (by omega) _ (by omega) hhi
  have hlo := digitChar_inj _ (by omega) _ (by omega) hlo
  exact UInt8.toNat_inj.mp (by omega)

theorem hex_injective : Function.Injective hex := by
  intro xs
  induction xs with
  | nil => intro ys h; cases ys with
    | nil => rfl
    | cons y ys => simp [hex,hexByte] at h
  | cons x xs ih => intro ys h; cases ys with
    | nil => simp [hex,hexByte] at h
    | cons y ys =>
      obtain ⟨hb,hrest⟩ := List.append_inj (show hexByte x ++ hex xs = hexByte y ++ hex ys from h) rfl
      rw [hexByte_injective hb,ih hrest]

theorem sha256Hex_injective {sha : Sha256} (hsha : Function.Injective sha) :
    Function.Injective (sha256Hex sha) := by
  intro s t h
  have hb := hsha (hex_injective (String.ofList_injective h))
  exact String.toByteArray_inj.mp hb

theorem digitChar_mem : ∀ n < 16, Nat.digitChar n ∈ "0123456789abcdef".toList := by decide

theorem not_mem_sha256Hex {sha : Sha256} {c : Char} (hc : c ∉ "0123456789abcdef".toList)
    (input : String) : c ∉ (sha256Hex sha input).toList := by
  intro hmem
  obtain ⟨b,-,hb⟩ := List.mem_flatMap.mp (show c ∈ (sha input.toUTF8).flatMap hexByte by
    simpa [sha256Hex,hex] using hmem)
  rcases List.mem_pair.mp hb with rfl | rfl
  · exact hc (digitChar_mem _ (by omega))
  · exact hc (digitChar_mem _ (by omega))

end Digests

namespace AuditHasher

/-- Genesis link for the first row in the chain (64 hex zeros). -/
def GENESIS : String := String.ofList (List.replicate 64 '0')

theorem GENESIS_eq : GENESIS = String.ofList (Digests.hex (List.replicate 32 0)) := by decide

theorem table_ne_GENESIS {known : List (String × List UInt8)}
    (h : ∀ e ∈ known, e.2 ≠ List.replicate 32 0) (s : String) :
    Digests.sha256Hex (Sha256.table known) s ≠ GENESIS := by
  rw [GENESIS_eq,Digests.sha256Hex,Sha256.table_toUTF8]
  intro hg
  have hd := Digests.hex_injective (String.ofList_injective hg)
  cases hf : known.find? fun e => decide (e.1 = s) with
  | none =>
    rw [hf] at hd
    have hl := congrArg List.length hd
    rw [List.length_append,List.length_replicate,List.length_replicate] at hl
    omega
  | some e =>
    rw [hf] at hd
    exact h e (List.mem_of_find?_eq_some hf) hd

/-- ASCII unit separator. -/
def US : Char := '\u001f'

/-- The texts that `String.join` puts into the canonical form, in its order. -/
def fields (r : AuditRecord) : List String :=
  [r.ts.toString,r.runId,r.tool,r.phase.name,r.caller,r.clearance,r.argsDigest,r.resultRef.getD ""]

def canonical (r : AuditRecord) : String := (String.singleton US).intercalate (fields r)

/-- The `row_hash` a record should have, from its `prev_hash` and its logical fields. -/
def rowHash (sha : Sha256) (r : AuditRecord) : String :=
  Digests.sha256Hex sha (r.prevHash ++ String.singleton US ++ canonical r)

end AuditHasher

open AuditHasher

structure VerificationResult where
  valid : Bool
  brokenSeq : Option ℕ
  message : String
  deriving DecidableEq, Repr

namespace VerificationResult

def ok (rows : ℕ) : VerificationResult :=
  ⟨true,none,"chain verified (" ++ rows.repr ++ " rows)"⟩

def broken (seq : ℕ) (why : String) : VerificationResult :=
  ⟨false,some seq,"chain broken at seq=" ++ seq.repr ++ ": " ++ why⟩

theorem ok_ne_broken (rows seq : ℕ) (why : String) : ok rows ≠ broken seq why := fun h =>
  Bool.noConfusion (congrArg valid h)

end VerificationResult

namespace AuditChainVerifier

def linkFault : String := "prev_hash does not link to the previous row's row_hash"
def digestFault : String := "row_hash does not match recomputed digest"

/-- The loop of `verifyChain`; `size` is only for the final message. -/
def verifyFrom (sha : Sha256) (size : ℕ) : String → List AuditRecord → VerificationResult
  | _, [] => .ok size
  | expectedPrev, r::rows =>
    if expectedPrev ≠ r.prevHash then .broken r.seq linkFault
    else if rowHash sha r ≠ r.rowHash then .broken r.seq digestFault
    else verifyFrom sha size r.rowHash rows

def verifyChain (sha : Sha256) (rows : List AuditRecord) : VerificationResult :=
  verifyFrom sha rows.length GENESIS rows

/-- What the verifier reads of a row, as an instance of the general hash chain. -/
def links (sha : Sha256) : HashChain AuditRecord String :=
  ⟨AuditRecord.prevHash,AuditRecord.rowHash,rowHash sha⟩

/-- The verifier reports exactly the first fault of the general checker. -/
theorem verifyFrom_eq (sha : Sha256) (size : ℕ) (g : String) (rows : List AuditRecord) :
    verifyFrom sha size g rows = match (links sha).check g rows with
      | none => .ok size
      | some (r,.link) => .broken r.seq linkFault
      | some (r,.digest) => .broken r.seq digestFault := by
  induction rows generalizing g with
  | nil => rfl
  | cons r rows ih =>
    by_cases hp : g = r.prevHash
    · by_cases hd : rowHash sha r = r.rowHash
      · simp [verifyFrom,HashChain.check,links,hp,hd,ih]
      · simp [verifyFrom,HashChain.check,links,hp,hd]
    · have hp' : r.prevHash ≠ g := fun h => hp h.symm
      simp [verifyFrom,HashChain.check,links,hp,hp']

theorem verifyChain_valid_iff (sha : Sha256) (rows : List AuditRecord) :
    (verifyChain sha rows).valid = true ↔ (links sha).Valid GENESIS rows := by
  rw [verifyChain,verifyFrom_eq,HashChain.Valid]
  rcases (links sha).check GENESIS rows with _ | ⟨r,_ | _⟩ <;>
    simp [VerificationResult.ok,VerificationResult.broken]

/-- The hash the next appended row will link to. -/
def headHash (rows : List AuditRecord) : String :=
  (rows.getLast?.map AuditRecord.rowHash).getD GENESIS

theorem headHash_eq (sha : Sha256) (rows : List AuditRecord) :
    headHash rows = (links sha).head GENESIS rows := by
  induction rows using List.reverseRecOn with
  | nil => rfl
  | append_singleton rows r ih => simp [headHash,links]

end AuditChainVerifier
end AtlasCompliance.McpTools
