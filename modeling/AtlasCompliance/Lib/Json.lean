import Mathlib

/-! JSON values as a parser delivers them: numbers are read exactly and the members of an object
have distinct names, in the order of the text. -/
namespace AtlasCompliance

/-- A JSON value. -/
inductive Json where
  | null
  | bool (b : Bool)
  | num (q : ℚ)
  | str (s : String)
  | arr (elems : List Json)
  | obj (members : List (String × Json))

namespace Json

mutual

/-- Equality of values is decidable; the lists inside a value are compared with it. -/
def decEq : (x y : Json) → Decidable (x = y)
  | .null,y => match y with
    | .null => isTrue rfl
    | .bool _ | .num _ | .str _ | .arr _ | .obj _ => isFalse (by simp)
  | .bool b,y => match y with
    | .bool b' => decidable_of_iff (b = b') (by simp)
    | .null | .num _ | .str _ | .arr _ | .obj _ => isFalse (by simp)
  | .num q,y => match y with
    | .num q' => decidable_of_iff (q = q') (by simp)
    | .null | .bool _ | .str _ | .arr _ | .obj _ => isFalse (by simp)
  | .str s,y => match y with
    | .str s' => decidable_of_iff (s = s') (by simp)
    | .null | .bool _ | .num _ | .arr _ | .obj _ => isFalse (by simp)
  | .arr es,y => match y with
    | .arr es' => match decEqElems es es' with
      | isTrue h => isTrue (by rw [h])
      | isFalse h => isFalse (by simpa using h)
    | .null | .bool _ | .num _ | .str _ | .obj _ => isFalse (by simp)
  | .obj ms,y => match y with
    | .obj ms' => match decEqMembers ms ms' with
      | isTrue h => isTrue (by rw [h])
      | isFalse h => isFalse (by simpa using h)
    | .null | .bool _ | .num _ | .str _ | .arr _ => isFalse (by simp)

def decEqElems : (xs ys : List Json) → Decidable (xs = ys)
  | [],[] => isTrue rfl
  | [],_::_ => isFalse (by simp)
  | _::_,[] => isFalse (by simp)
  | x::xs,y::ys => match decEq x y with
    | isTrue h => match decEqElems xs ys with
      | isTrue k => isTrue (by rw [h,k])
      | isFalse k => isFalse fun e => k (List.cons.inj e).2
    | isFalse h => isFalse fun e => h (List.cons.inj e).1

def decEqMembers : (xs ys : List (String × Json)) → Decidable (xs = ys)
  | [],[] => isTrue rfl
  | [],_::_ => isFalse (by simp)
  | _::_,[] => isFalse (by simp)
  | (k,x)::xs,(k',y)::ys => match decEq x y with
    | isTrue h => match decEqMembers xs ys with
      | isTrue t => decidable_of_iff (k = k') (by simp [h,t])
      | isFalse t => isFalse fun e => t (List.cons.inj e).2
    | isFalse h => isFalse fun e => h (Prod.mk.inj (List.cons.inj e).1).2

end

instance : DecidableEq Json := decEq

/-- The value of a member, if the value is an object that has it. -/
def get? (name : String) : Json → Option Json
  | .obj members => members.lookup name
  | .null | .bool _ | .num _ | .str _ | .arr _ => none

theorem isObj_of_get? {j v : Json} {name : String} (h : j.get? name = some v) :
    ∃ members, j = .obj members := by
  cases j with
  | obj members => exact ⟨members,rfl⟩
  | null | bool | num | str | arr => cases h

/-- The members with `name` set to `v`: in its place if it is there, else at the end. -/
def putMember (name : String) (v : Json) : List (String × Json) → List (String × Json)
  | [] => [(name,v)]
  | (k,x)::members =>
    if k = name then (k,v)::members else (k,x)::putMember name v members

/-- Set a member of an object; other values have none. -/
def put (j : Json) (name : String) (v : Json) : Json :=
  match j with
  | .obj members => .obj (putMember name v members)
  | .null => .null
  | .bool b => .bool b
  | .num q => .num q
  | .str s => .str s
  | .arr elems => .arr elems

theorem lookup_putMember (name : String) (v : Json) (members : List (String × Json)) :
    (putMember name v members).lookup name = some v := by
  induction members with
  | nil => simp [putMember]
  | cons m members ih =>
    obtain ⟨k,x⟩ := m
    by_cases h : k = name
    · simp [putMember,h]
    · simp [putMember,h,List.lookup_cons,beq_eq_false_iff_ne.mpr (Ne.symm h),ih]

theorem lookup_putMember_of_ne {name other : String} (hne : other ≠ name) (v : Json)
    (members : List (String × Json)) :
    (putMember name v members).lookup other = members.lookup other := by
  induction members with
  | nil => simp [putMember,List.lookup_cons,beq_eq_false_iff_ne.mpr hne]
  | cons m members ih =>
    obtain ⟨k,x⟩ := m
    by_cases h : k = name
    · subst h
      simp [putMember,List.lookup_cons,beq_eq_false_iff_ne.mpr hne]
    · simp [putMember,h,List.lookup_cons,ih]

theorem putMember_putMember (name : String) (v w : Json) (members : List (String × Json)) :
    putMember name w (putMember name v members) = putMember name w members := by
  induction members with
  | nil => simp [putMember]
  | cons m members ih =>
    obtain ⟨k,x⟩ := m
    by_cases h : k = name
    · simp [putMember,h]
    · simp [putMember,h,ih]

@[simp] theorem get?_put_obj (name : String) (v : Json) (members : List (String × Json)) :
    ((obj members).put name v).get? name = some v := lookup_putMember name v members

/-- A member that is there can be set. -/
theorem get?_put_of_some {name : String} {j w v : Json} (h : j.get? name = some w) :
    (j.put name v).get? name = some v := by
  cases j with
  | obj members => exact get?_put_obj name v members
  | null | bool | num | str | arr => cases h

theorem get?_put_of_ne {name other : String} (hne : other ≠ name) (v j : Json) :
    (j.put name v).get? other = j.get? other := by
  cases j with
  | obj members => exact lookup_putMember_of_ne hne v members
  | null | bool | num | str | arr => rfl

theorem put_put (name : String) (v w j : Json) : (j.put name v).put name w = j.put name w := by
  cases j with
  | obj members => exact congrArg Json.obj (putMember_putMember name v w members)
  | null | bool | num | str | arr => rfl

end Json

end AtlasCompliance
