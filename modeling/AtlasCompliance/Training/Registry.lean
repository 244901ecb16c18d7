import AtlasCompliance.Lib.Handling

/-! Promotion and rollback in the model registry: two aliases of a model moved by reads and writes
that can fail one by one, and which failures leave an operation half done. -/
namespace AtlasCompliance.Training
open Handling

inductive Alias
  | champion
  | previous_champion
  deriving DecidableEq

abbrev CHAMPION : Alias := .champion

abbrev PREVIOUS : Alias := .previous_champion

/-- The version behind each alias of each model. -/
abbrev Aliases : Type := String → Alias → Option String

/-- What becomes of one call of the registry: it is answered, it is refused, or it is carried out
and the answer is lost. -/
inductive Fate
  | served
  | refused
  | lost
  deriving DecidableEq

/-- The registry with the fates of the calls to come. -/
structure Registry where
  aliases : Aliases
  fates : ℕ → Fate

/-- `TrackingError` (the model has no previous champion to roll back to), or what the client of the
registry raises. -/
inductive Error
  | tracking (name : String)
  | client
  deriving DecidableEq

structure PromotionOutcome where
  name : String
  champion : String
  previous : Option String
  action : String
  deriving DecidableEq

/-- An alias pointed at a version. -/
def Aliases.point (A : Aliases) (name : String) (a : Alias) (version : String) : Aliases :=
  fun n b => if n = name ∧ b = a then some version else A n b

namespace Registry

/-- The fate of the next call. -/
def nextFate : Handler Registry Error Fate := do
  let r ← get
  modify fun r => {r with fates := fun n => r.fates (n + 1)}
  pure (r.fates 0)

/-- `get_version_by_alias`: every exception counts as an absent alias. -/
def getVersionByAlias (name : String) (a : Alias) : Handler Registry Error (Option String) := do
  match ← nextFate with
  | .served => do
    let r ← get
    pure (r.aliases name a)
  | .refused | .lost => pure none

def setAlias (name : String) (a : Alias) (version : String) : Handler Registry Error PUnit := do
  match ← nextFate with
  | .served => modify fun r => {r with aliases := r.aliases.point name a version}
  | .refused => throw .client
  | .lost => do
    modify fun r => {r with aliases := r.aliases.point name a version}
    throw .client

end Registry

open Registry

/-- The outgoing champion is kept as the rollback target. -/
def stash (name : String) : Option String → Handler Registry Error PUnit
  | none => pure ⟨⟩
  | some current => setAlias name PREVIOUS current

def promote (name version : String) : Handler Registry Error PromotionOutcome := do
  let current ← getVersionByAlias name CHAMPION
  if current = some version then pure ⟨name,version,none,"noop"⟩
  else do
    stash name current
    setAlias name CHAMPION version
    pure ⟨name,version,current,"promote"⟩

/-- The champion becomes the previous one again. -/
def restore (name prev : String) : Handler Registry Error PromotionOutcome := do
  let current ← getVersionByAlias name CHAMPION
  setAlias name CHAMPION prev
  stash name (current.filter (· ≠ prev))
  pure ⟨name,prev,current,"rollback"⟩

def rollback (name : String) : Handler Registry Error PromotionOutcome := do
  match ← getVersionByAlias name PREVIOUS with
  | none => throw (.tracking name)
  | some prev => restore name prev

/-! ### What one call does -/

namespace Aliases
variable {A : Aliases} {name : String} {a b : Alias} {v w : String}

@[simp] theorem point_self : A.point name a v name a = some v := by simp [point]

@[simp] theorem point_other (h : b ≠ a) : A.point name a v name b = A name b := by
  simp [point,h]

theorem point_of_eq (h : A name a = some v) : A.point name a v = A := by
  funext n b
  unfold point
  split_ifs with hb
  · rw [hb.1,hb.2,h]
  · rfl

end Aliases

namespace Registry

/-- One call has been made. -/
def passed (r : Registry) : Registry := ⟨r.aliases,fun n => r.fates (n + 1)⟩

@[simp] theorem passed_aliases (r : Registry) : r.passed.aliases = r.aliases := rfl

@[simp] theorem passed_fates (r : Registry) (n : ℕ) : r.passed.fates n = r.fates (n + 1) := rfl

@[simp] theorem exec_nextFate (r : Registry) : exec nextFate r = (.ok (r.fates 0),r.passed) := rfl

/-- What a read answers. -/
def answer (r : Registry) (name : String) (a : Alias) : Option String :=
  if r.fates 0 = .served then r.aliases name a else none

theorem exec_getVersionByAlias (r : Registry) (name : String) (a : Alias) :
    exec (getVersionByAlias name a) r = (.ok (r.answer name a),r.passed) := by
  unfold getVersionByAlias
  rw [exec_bind_ok (exec_nextFate r)]
  cases h : r.fates 0 with
  | served => exact (exec_bind_ok (exec_get r.passed)).trans (by simp [answer,h])
  | refused => simp [answer,h]
  | lost => simp [answer,h]

/-- What a write leaves behind. -/
def written (r : Registry) (name : String) (a : Alias) (version : String) : Registry :=
  ⟨if r.fates 0 = .refused then r.aliases else r.aliases.point name a version,r.passed.fates⟩

theorem exec_setAlias (r : Registry) (name : String) (a : Alias) (version : String) :
    exec (setAlias name a version) r =
      (if r.fates 0 = .served then .ok ⟨⟩ else .error .client,r.written name a version) := by
  unfold setAlias
  rw [exec_bind_ok (exec_nextFate r)]
  cases h : r.fates 0
  · simp [written,h,passed]
  · simp [written,h,passed]
  · rw [exec_bind_ok (exec_modify _ _)]
    simp [written,h,passed]

end Registry

theorem exec_stash (r : Registry) (name : String) (current : Option String) :
    exec (stash name current) r = match current with
      | none => (.ok ⟨⟩,r)
      | some c => exec (setAlias name PREVIOUS c) r := by
  cases current <;> rfl

/-- The aliases after a promotion, call by call. -/
theorem promote_aliases (r : Registry) (name version : String) :
    (exec (promote name version) r).2.aliases =
      if r.answer name CHAMPION = some version then r.aliases
      else match r.answer name CHAMPION with
        | none => (r.passed.written name CHAMPION version).aliases
        | some c =>
          if r.fates 1 = .served then
            ((r.passed.written name PREVIOUS c).written name CHAMPION version).aliases
          else (r.passed.written name PREVIOUS c).aliases := by
  unfold promote
  rw [exec_bind_ok (exec_getVersionByAlias r name CHAMPION)]
  by_cases hsame : r.answer name CHAMPION = some version
  · rw [if_pos hsame,if_pos hsame]
    rfl
  · rw [if_neg hsame,if_neg hsame]
    cases hread : r.answer name CHAMPION with
    | none =>
      rw [exec_bind_ok (exec_stash _ name none),exec_bind,exec_setAlias]
      split_ifs <;> rfl
    | some c =>
      rw [exec_bind,exec_stash]
      simp only [exec_setAlias,passed_fates,zero_add]
      split_ifs with hserved
      · simp only [exec_bind,exec_setAlias]
        split_ifs <;> rfl
      · rfl

/-- The aliases after a rollback, call by call. -/
theorem rollback_aliases (r : Registry) (name : String) :
    (exec (rollback name) r).2.aliases = match r.answer name PREVIOUS with
      | none => r.aliases
      | some prev =>
        if r.fates 2 = .served then
          match (r.passed.answer name CHAMPION).filter (· ≠ prev) with
          | none => (r.passed.passed.written name CHAMPION prev).aliases
          | some c => ((r.passed.passed.written name CHAMPION prev).written name PREVIOUS c).aliases
        else (r.passed.passed.written name CHAMPION prev).aliases := by
  unfold rollback
  rw [exec_bind_ok (exec_getVersionByAlias r name PREVIOUS)]
  cases hprev : r.answer name PREVIOUS with
  | none => rfl
  | some prev =>
    change (exec (restore name prev) r.passed).2.aliases = _
    unfold restore
    rw [exec_bind_ok (exec_getVersionByAlias r.passed name CHAMPION),exec_bind,exec_setAlias]
    simp only [passed_fates,zero_add,Nat.reduceAdd]
    split_ifs with hserved
    · simp only [exec_bind,exec_stash]
      cases hc : (r.passed.answer name CHAMPION).filter (· ≠ prev) with
      | none => rfl
      | some c =>
        simp only [exec_setAlias]
        split_ifs <;> rfl
    · rfl

end AtlasCompliance.Training
