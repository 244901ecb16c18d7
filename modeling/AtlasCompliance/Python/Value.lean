import AtlasCompliance.Lib.Delimited
import AtlasCompliance.Lib.Json

/-! The part of Python that the agent relies on: truth values, dictionary access on decoded JSON,
sorted sets, characters and floats. -/
namespace AtlasCompliance.Python

/-- What a built-in operation raises. -/
inductive Error
  | attributeError
  | indexError
  | keyError
  | typeError
  | valueError
  deriving DecidableEq, Repr

/-- A computation that returns has returned in each of its parts. -/
theorem bind_eq_ok {ε α β : Type} {x : Except ε α} {f : α → Except ε β} {b : β} :
    (x >>= f) = .ok b ↔ ∃ a, x = .ok a ∧ f a = .ok b := by
  cases x with
  | error e => simp [bind,Except.bind]
  | ok a => simp [bind,Except.bind]

theorem mapError_eq_ok {ε ε' α : Type} {x : Except ε α} {f : ε → ε'} {a : α} :
    x.mapError f = .ok a ↔ x = .ok a := by
  cases x <;> simp [Except.mapError]

/-- A traversal returns with good results exactly when each element does. -/
theorem mapM_ok_forall {ε α β : Type} {f : α → Except ε β} {P : β → Prop} {xs : List α} :
    (∃ ys, xs.mapM f = .ok ys ∧ ∀ y ∈ ys, P y) ↔ ∀ x ∈ xs, ∃ y, f x = .ok y ∧ P y := by
  induction xs with
  | nil => simp [pure,Except.pure]
  | cons x xs ih =>
    rw [List.forall_mem_cons,← ih]
    constructor
    · rintro ⟨zs,hzs,hP⟩
      simp only [List.mapM_cons,bind_eq_ok,pure,Except.pure,Except.ok.injEq] at hzs
      obtain ⟨y,hy,ys,hys,rfl⟩ := hzs
      exact ⟨⟨y,hy,hP y List.mem_cons_self⟩,ys,hys,fun z hz => hP z (List.mem_cons_of_mem _ hz)⟩
    · rintro ⟨⟨y,hy,hPy⟩,ys,hys,hPys⟩
      refine ⟨y::ys,?_,List.forall_mem_cons.mpr ⟨hPy,hPys⟩⟩
      simp only [List.mapM_cons,bind_eq_ok,pure,Except.pure,Except.ok.injEq]
      exact ⟨y,hy,ys,hys,rfl⟩

/-- `bool(value)`. -/
def truthy : Json → Bool
  | .null => false
  | .bool b => b
  | .num q => q != 0
  | .str s => s != ""
  | .arr elems => !elems.isEmpty
  | .obj members => !members.isEmpty

/-- `a or b`. -/
def orElse (a b : Json) : Json := if truthy a then a else b

/-- `value.get(name, default)`; only a dictionary has the attribute. -/
def get (value : Json) (name : String) (default : Json) : Except Error Json :=
  match value with
  | .obj members => .ok ((members.lookup name).getD default)
  | .null | .bool _ | .num _ | .str _ | .arr _ => .error .attributeError

/-- Only a dictionary has members to get. -/
theorem get_eq_ok {value default v : Json} {name : String} : get value name default = .ok v ↔
    (∃ members, value = .obj members) ∧ (value.get? name).getD default = v := by
  cases value with
  | obj members => simp [get,Json.get?]
  | null | bool | num | str | arr => simp [get]

/-- `for item in value`: a string and a dictionary yield strings. -/
def iterate : Json → Except Error (List Json)
  | .arr elems => .ok elems
  | .str s => .ok (s.toList.map fun c => .str (String.singleton c))
  | .obj members => .ok (members.map fun m => .str m.1)
  | .null | .bool _ | .num _ => .error .typeError

/-- The number a value counts as in comparisons. -/
def asNumber : Json → Option ℚ
  | .bool b => some (if b then 1 else 0)
  | .num q => some q
  | .null | .str _ | .arr _ | .obj _ => none

def asString : Json → Option String
  | .str s => some s
  | .null | .bool _ | .num _ | .arr _ | .obj _ => none

/-- Lists and dictionaries cannot be members of a set. -/
def hashable : Json → Bool
  | .arr _ | .obj _ => false
  | .null | .bool _ | .num _ | .str _ => true

/-- `a == b` between hashable values. -/
def sameKey (a b : Json) : Bool :=
  match asNumber a,asNumber b with
  | some x,some y => x == y
  | _,_ => decide (a = b)

/-- The set of the values, in order of insertion; an equal value that comes later is dropped. -/
def toSet (values : List Json) : List Json :=
  values.foldl (fun set v => if set.any (sameKey v) then set else set ++ [v]) []

/-- `sorted({…})`: the values have to be comparable with each other. -/
def sortedSet (values : List Json) : Except Error (List Json) :=
  if values.all hashable then
    let set := toSet values
    if set.length ≤ 1 then .ok set
    else match set.mapM asNumber,set.mapM asString with
      | some keys,_ => .ok (((keys.zip set).insertionSort fun a b => a.1 ≤ b.1).map Prod.snd)
      | none,some keys => .ok (((keys.zip set).insertionSort fun a b => a.1 ≤ b.1).map Prod.snd)
      | none,none => .error .typeError
  else .error .typeError

/-- `\s` on text. -/
def isSpace (c : Char) : Bool :=
  (9 ≤ c.toNat && c.toNat ≤ 13) || (28 ≤ c.toNat && c.toNat ≤ 32) || c.toNat == 0x85 ||
  c.toNat == 0xA0 || c.toNat == 0x1680 || (0x2000 ≤ c.toNat && c.toNat ≤ 0x200A) ||
  c.toNat == 0x2028 || c.toNat == 0x2029 || c.toNat == 0x202F || c.toNat == 0x205F ||
  c.toNat == 0x3000

/-- The decimal digits of Unicode, with their values. -/
structure Digits where
  value : Char → Option (Fin 10)
  ascii : ∀ c, c.toNat < 128 →
    value c = if 48 ≤ c.toNat ∧ c.toNat ≤ 57 then some (Fin.ofNat 10 (c.toNat - 48)) else none

/-- `\d` on text. -/
def Digits.isDigit (d : Digits) (c : Char) : Bool := (d.value c).isSome

/-- The digits of ASCII only. -/
def asciiDigits : Digits where
  value c := if 48 ≤ c.toNat ∧ c.toNat ≤ 57 then some (Fin.ofNat 10 (c.toNat - 48)) else none
  ascii _ _ := rfl

/-- The runtime: the digits, its floats with their conversion from a numeral and their `,.2f`
format, and the decoders of the standard library. -/
structure Runtime (F : Type) where
  digits : Digits
  float : List Char → F
  commaDotTwo : F → String
  urlsafeB64decode : String → Except Error (List UInt8)
  decode : List UInt8 → Except Error String
  loads : String → Except Error Json

/-- The value of a numeral with an optional fraction, read exactly. -/
def decimal (d : Digits) (numeral : List Char) : ℚ :=
  let value := fun cs => (cs.foldl (fun n c => 10*n + ((d.value c).getD 0).val) 0 : ℕ)
  let whole := numeral.takeWhile (· ≠ '.')
  let fraction := (numeral.dropWhile (· ≠ '.')).drop 1
  (value (whole ++ fraction) : ℚ) / 10^fraction.length

/-- Digits, the last first, with a comma after every third one. -/
def commas : List Char → List Char
  | a::b::c::d::rest => a::b::c:: ',' ::commas (d::rest)
  | short => short

/-- The `,.2f` format of a number that is not negative, read exactly and rounded half to even. -/
def twoDecimals (q : ℚ) : String :=
  let whole := (100*q).floor
  let rest := 100*q - whole
  let cents := (if 1/2 < rest ∨ (rest = 1/2 ∧ whole % 2 = 1) then whole + 1 else whole).toNat
  let digits := Delimited.pad 3 cents
  String.ofList ((commas (digits.reverse.drop 2)).reverse ++ '.'::(digits.reverse.take 2).reverse)

end AtlasCompliance.Python
