import Mathlib

/-! SHA-256 as the JDK provides it: a parameter, with finite tables of known digests. -/
namespace AtlasCompliance.Java

/-- `MessageDigest.getInstance("SHA-256").digest`, from the JDK. -/
abbrev Sha256 := ByteArray → List UInt8

namespace Sha256

/-- Known digests by input, completed injectively by values longer than any digest. -/
def table (known : List (String × List UInt8)) : Sha256 := fun bytes =>
  match known.find? fun e => decide (e.1.toUTF8 = bytes) with
  | some e => e.2
  | none => List.replicate 33 0 ++ bytes.data.toList

theorem table_toUTF8 (known : List (String × List UInt8)) (s : String) :
    table known s.toUTF8 = match known.find? fun e => decide (e.1 = s) with
      | some e => e.2
      | none => List.replicate 33 0 ++ s.toUTF8.data.toList := by
  have hkey : (fun e : String × List UInt8 => decide (e.1.toUTF8 = s.toUTF8)) =
      fun e => decide (e.1 = s) := by
    funext e
    exact decide_eq_decide.mpr String.toByteArray_inj
  rw [table,hkey]

theorem table_injective {known : List (String × List UInt8)}
    (hlen : ∀ e ∈ known, e.2.length = 32) (hdig : (known.map Prod.snd).Nodup) :
    Function.Injective (table known) := by
  have hlong : ∀ (e : String × List UInt8) (bytes : ByteArray), e ∈ known →
      e.2 ≠ List.replicate 33 0 ++ bytes.data.toList := by
    intro e bytes he hb
    have hl := congrArg List.length hb
    rw [hlen e he,List.length_append,List.length_replicate] at hl
    omega
  intro a b h
  unfold table at h
  cases ha : known.find? fun e => decide (e.1.toUTF8 = a) with
  | none => cases hb : known.find? fun e => decide (e.1.toUTF8 = b) with
    | none =>
      rw [ha,hb] at h
      exact ByteArray.ext (Array.ext' (List.append_cancel_left h))
    | some f =>
      rw [ha,hb] at h
      exact absurd h.symm (hlong f a (List.mem_of_find?_eq_some hb))
  | some e => cases hb : known.find? fun e => decide (e.1.toUTF8 = b) with
    | none =>
      rw [ha,hb] at h
      exact absurd h (hlong e b (List.mem_of_find?_eq_some ha))
    | some f =>
      rw [ha,hb] at h
      have hef := List.inj_on_of_nodup_map hdig (List.mem_of_find?_eq_some ha)
        (List.mem_of_find?_eq_some hb) h
      have hea : e.1.toUTF8 = a := by simpa using List.find?_some ha
      have hfb : f.1.toUTF8 = b := by simpa using List.find?_some hb
      rw [← hea,← hfb,hef]

end Sha256
end AtlasCompliance.Java
