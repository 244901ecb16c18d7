import AtlasCompliance.Lib.Delimited

/-! `java.time.Instant`: microsecond truncation and the ISO-8601 text of `toString`, with
its injectivity. The civil date is the proleptic ISO calendar counted from 1 March 0000. -/
namespace AtlasCompliance.Java
open Delimited

/-- Seconds since 1970-01-01T00:00:00Z and the nanosecond within the second. -/
structure Instant where
  epochSecond : ℤ
  nano : Fin 1000000000
  deriving DecidableEq, Repr

namespace Instant

/-- `Instant.ofEpochSecond`. -/
def ofEpochSecond (epochSecond : ℤ) : Instant := ⟨epochSecond,⟨0,by decide⟩⟩

/-- `truncatedTo(ChronoUnit.MICROS)`. -/
def truncatedToMicros (t : Instant) : Instant :=
  ⟨t.epochSecond,⟨t.nano.val/1000*1000,by have := t.nano.isLt; omega⟩⟩

/-- Days before 1 March of the (March-based) year `y`, counted from 0000-03-01. -/
def marchDays (y : ℤ) : ℤ := 365*y + y/4 - y/100 + y/400

/-- March-based year and day of that year of a day counted from 0000-03-01. -/
def marchYearDay (z : ℤ) : ℤ × ℤ :=
  let est := (400*z + 591)/146097
  let y := if z - marchDays est < 0 then est - 1 else est
  (y,z - marchDays y)

theorem marchYearDay_spec (z : ℤ) :
    marchDays (marchYearDay z).1 + (marchYearDay z).2 = z := by
  simp [marchYearDay]

theorem marchDays_cycle (q y : ℤ) : marchDays (400*q + y) = 146097*q + marchDays y := by
  unfold marchDays
  omega

theorem marchDays_pred (y : ℤ) :
    365 ≤ marchDays y - marchDays (y - 1) ∧ marchDays y - marchDays (y - 1) ≤ 366 := by
  unfold marchDays
  omega

/-- The year estimate is off by at most one, within one 400-year cycle. -/
theorem estimate_bounds {w : ℤ} (h0 : 0 ≤ w) (h1 : w < 146097) :
    -365 ≤ w - marchDays ((400*w + 591)/146097) ∧ w - marchDays ((400*w + 591)/146097) ≤ 365 := by
  obtain ⟨e,he⟩ : ∃ e, e = (400*w + 591)/146097 := ⟨_,rfl⟩
  rw [← he]
  rcases (show e ≤ 399 ∨ e = 400 by omega) with hle | rfl
  · obtain ⟨c,g,k,hc0,hc,hk0,hk,hg0,hg,rfl⟩ : ∃ c g k : ℤ, 0 ≤ c ∧ c ≤ 3 ∧ 0 ≤ k ∧ k ≤ 3 ∧
        0 ≤ g ∧ g ≤ 24 ∧ e = 100*c + 4*g + k :=
      ⟨e/100,e%100/4,e%4,by omega,by omega,by omega,by omega,by omega,by omega,by omega⟩
    have hdays : marchDays (100*c + 4*g + k) = 365*(100*c + 4*g + k) + (25*c + g) - c := by
      have h4 : (100*c + 4*g + k)/4 = 25*c + g := by omega
      have h100 : (100*c + 4*g + k)/100 = c := by omega
      have h400 : (100*c + 4*g + k)/400 = 0 := by omega
      rw [marchDays,h4,h100,h400]
      ring
    rw [hdays]
    interval_cases c <;> interval_cases k <;> omega
  · unfold marchDays
    omega

theorem marchYearDay_bounds (z : ℤ) :
    0 ≤ (marchYearDay z).2 ∧ (marchYearDay z).2 ≤ 365 := by
  obtain ⟨q,w,rfl,h0,h1⟩ : ∃ q w : ℤ, z = 146097*q + w ∧ 0 ≤ w ∧ w < 146097 :=
    ⟨z/146097,z%146097,by omega,by omega,by omega⟩
  have hest : (400*(146097*q + w) + 591)/146097 = 400*q + (400*w + 591)/146097 := by omega
  have hb := estimate_bounds h0 h1
  have hpred := marchDays_pred ((400*w + 591)/146097)
  have hpred' := marchDays_cycle q ((400*w + 591)/146097 - 1)
  unfold marchYearDay
  rw [hest]
  simp only [marchDays_cycle]
  rw [← add_sub_assoc] at hpred'
  split_ifs
  · rw [hpred']
    omega
  · rw [marchDays_cycle]
    omega

/-- `LocalDate.ofEpochDay`: year, month and day of month. -/
def civil (epochDay : ℤ) : ℤ × ℤ × ℤ :=
  let yd := marchYearDay (epochDay + 719468)
  let m := (5*yd.2 + 2)/153
  (if m < 10 then yd.1 else yd.1 + 1,if m < 10 then m + 3 else m - 9,yd.2 - (306*m + 5)/10 + 1)

theorem civil_bounds (d : ℤ) :
    1 ≤ (civil d).2.1 ∧ (civil d).2.1 ≤ 12 ∧ 1 ≤ (civil d).2.2 ∧ (civil d).2.2 ≤ 31 := by
  have h := marchYearDay_bounds (d + 719468)
  simp only [civil]
  split_ifs <;> omega

theorem civil_injective : Function.Injective civil := by
  intro d e h
  have hd := marchYearDay_bounds (d + 719468)
  have he := marchYearDay_bounds (e + 719468)
  have hds := marchYearDay_spec (d + 719468)
  have hes := marchYearDay_spec (e + 719468)
  simp only [civil,Prod.mk.injEq] at h
  obtain ⟨hy,hm,hday⟩ := h
  have hmonth : (5*(marchYearDay (d + 719468)).2 + 2)/153 =
      (5*(marchYearDay (e + 719468)).2 + 2)/153 := by
    split_ifs at hm <;> omega
  rw [hmonth] at hy hday
  have hyear : (marchYearDay (d + 719468)).1 = (marchYearDay (e + 719468)).1 := by
    split_ifs at hy <;> omega
  rw [hyear] at hds
  omega

/-- Years have at least four digits, a sign when negative or beyond 9999. -/
def yearText (y : ℤ) : List Char :=
  (if y < 0 then ['-'] else if 9999 < y then ['+'] else []) ++ pad 4 y.natAbs

/-- No fraction, or the shortest of milli-, micro- and nanoseconds that is exact. -/
def fractionText (n : ℕ) : List Char :=
  if n = 0 then []
  else if n % 1000000 = 0 then '.'::pad 3 (n/1000000)
  else if n % 1000 = 0 then '.'::pad 6 (n/1000)
  else '.'::pad 9 n

/-- Second of the day of an instant. -/
def secondOfDay (t : Instant) : ℕ := (t.epochSecond % 86400).toNat

def isoText (t : Instant) : List Char :=
  let date := civil (t.epochSecond/86400)
  yearText date.1 ++ '-'::(pad 2 date.2.1.toNat ++ '-'::(pad 2 date.2.2.toNat ++
    'T'::(pad 2 (t.secondOfDay/3600) ++ ':'::(pad 2 (t.secondOfDay%3600/60) ++
      ':'::(pad 2 (t.secondOfDay%60) ++ (fractionText t.nano.val ++ ['Z']))))))

/-- `Instant.toString`. -/
def toString (t : Instant) : String := String.ofList t.isoText

example : (Instant.mk 1782036000 0).toString = "2026-06-21T10:00:00Z" := by decide

/-- A signed numeral up to its delimiter: the sign is the first character, if any. -/
theorem yearText_append_inj {y z : ℤ} {a b : List Char}
    (h : yearText y ++ '-'::a = yearText z ++ '-'::b) : y = z ∧ a = b := by
  have strip : ∀ m n : ℕ, pad 4 m ++ '-'::a = pad 4 n ++ '-'::b → m = n ∧ a = b := by
    intro m n hmn
    obtain ⟨hp,hab⟩ := append_cons_inj '-' (not_mem_pad rfl) (not_mem_pad rfl) hmn
    exact ⟨pad_injective 4 hp,hab⟩
  have first : ∀ (m : ℕ) (d : Char) (u v : List Char), d.isDigit = false → pad 4 m ++ u ≠ d::v := by
    intro m d u v hd he
    obtain ⟨e,es,hes⟩ := List.exists_cons_of_ne_nil (pad_ne_nil 4 m)
    rw [hes] at he
    obtain rfl : e = d := by simpa using (List.cons_eq_cons.mp he).1
    exact not_mem_pad hd (hes ▸ List.mem_cons_self)
  simp only [yearText] at h
  split_ifs at h with h1 h2 h3 h4 h5 h6 h7 <;>
    simp only [List.cons_append,List.nil_append,List.cons.injEq,true_and,Char.reduceEq,false_and] at h
  all_goals first
    | exact absurd h.symm (first _ _ _ _ rfl)
    | exact absurd h (first _ _ _ _ rfl)
    | (obtain ⟨hn,hab⟩ := strip _ _ h; exact ⟨by omega,hab⟩)

/-- The fraction is read back from its digits and their number. -/
theorem fractionText_value {n : ℕ} (hn : n < 1000000000) :
    Nat.ofDigitChars 10 (fractionText n).tail 0*10^(9 - (fractionText n).tail.length) = n := by
  unfold fractionText
  split_ifs with h0 h6 h3
  · simp [h0]
  · rw [List.tail_cons,value_pad,length_pad (by omega) (by omega)]
    omega
  · rw [List.tail_cons,value_pad,length_pad (by omega) (by omega)]
    omega
  · rw [List.tail_cons,value_pad,length_pad (by omega) (by omega)]
    omega

theorem fractionText_inj {m n : ℕ} (hm : m < 1000000000) (hn : n < 1000000000)
    (h : fractionText m = fractionText n) : m = n := by
  rw [← fractionText_value hm,h,fractionText_value hn]

/-- Seconds end at the fraction's point or at the final `Z`, never at a digit. -/
theorem seconds_append_inj {m n a b : ℕ}
    (h : pad 2 m ++ (fractionText a ++ ['Z']) = pad 2 n ++ (fractionText b ++ ['Z'])) :
    m = n ∧ fractionText a = fractionText b := by
  have digits : ∀ k c, (pad 2 k ++ (fractionText c ++ ['Z'])).takeWhile Char.isDigit = pad 2 k := by
    intro k c
    rw [List.takeWhile_append_of_pos (fun d hd => isDigit_of_mem_pad hd)]
    unfold fractionText
    split_ifs <;> simp
  have hp : pad 2 m = pad 2 n := by rw [← digits m a,h,digits]
  rw [hp] at h
  exact ⟨pad_injective 2 hp,List.append_cancel_right (List.append_cancel_left h)⟩

theorem isoText_injective : Function.Injective isoText := by
  intro t u h
  obtain ⟨hyear,h⟩ := yearText_append_inj h
  obtain ⟨hmonth,h⟩ := append_cons_inj '-' (not_mem_pad rfl) (not_mem_pad rfl) h
  obtain ⟨hday,h⟩ := append_cons_inj 'T' (not_mem_pad rfl) (not_mem_pad rfl) h
  obtain ⟨hhour,h⟩ := append_cons_inj ':' (not_mem_pad rfl) (not_mem_pad rfl) h
  obtain ⟨hmin,h⟩ := append_cons_inj ':' (not_mem_pad rfl) (not_mem_pad rfl) h
  obtain ⟨hsec,hfrac⟩ := seconds_append_inj h
  have hmonth := pad_injective 2 hmonth
  have hday := pad_injective 2 hday
  have hhour := pad_injective 2 hhour
  have hmin := pad_injective 2 hmin
  have hnano := fractionText_inj t.nano.isLt u.nano.isLt hfrac
  have hdate : t.epochSecond/86400 = u.epochSecond/86400 := by
    have ht := civil_bounds (t.epochSecond/86400)
    have hu := civil_bounds (u.epochSecond/86400)
    apply civil_injective
    refine Prod.ext hyear (Prod.ext ?_ ?_) <;> omega
  unfold secondOfDay at hhour hmin hsec
  have hs : t.epochSecond = u.epochSecond := by omega
  cases t
  cases u
  simp only at hs hnano
  rw [hs,Fin.ext hnano]

theorem toString_injective : Function.Injective Instant.toString := fun t u h => by
  exact isoText_injective (by simpa [Instant.toString] using congrArg String.toList h)

/-- The text of an instant has only digits and the ISO punctuation. -/
theorem not_mem_toString {c : Char} (hd : c.isDigit = false)
    (hp : c ∉ ['-','+',':','T','.','Z']) (t : Instant) : c ∉ t.toString.toList := by
  have hpad : ∀ w n, c ∉ pad w n := fun w n => not_mem_pad hd
  simp only [List.mem_cons,List.not_mem_nil,or_false,not_or] at hp
  obtain ⟨h1,h2,h3,h4,h5,h6⟩ := hp
  have hyear : ∀ y, c ∉ yearText y := by
    intro y
    unfold yearText
    split_ifs <;> simp [hpad,h1,h2]
  have hfrac : ∀ n, c ∉ fractionText n := by
    intro n
    unfold fractionText
    split_ifs <;> simp [hpad,h5]
  simp [Instant.toString,isoText,hyear,hpad,hfrac,h1,h3,h4,h6]

end Instant
end AtlasCompliance.Java
