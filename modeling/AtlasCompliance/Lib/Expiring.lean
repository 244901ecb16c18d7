import Mathlib

/-! Values kept only until a deadline, as a store with expiring keys keeps them: what a read sees
before and after it. -/
namespace AtlasCompliance.Expiring

universe u v
variable {T : Type u} {α : Type v}

/-- A stored value and the last time at which it is still there, if it ever goes. -/
structure Entry (T : Type u) (α : Type v) where
  value : α
  deadline : Option T

/-- Store a value at `now` to be kept for `ttl`, or for ever. -/
def write [Add T] (now : T) (ttl : Option T) (value : α) : Entry T α := ⟨value,ttl.map (now + ·)⟩

variable [LinearOrder T]

def Entry.Live (now : T) (e : Entry T α) : Prop := ∀ d ∈ e.deadline, now ≤ d

instance (now : T) (e : Entry T α) : Decidable (e.Live now) :=
  inferInstanceAs (Decidable (∀ d ∈ e.deadline, now ≤ d))

/-- What a read at `now` sees of a key. -/
def read (now : T) (cell : Option (Entry T α)) : Option α :=
  (cell.filter fun e => e.Live now).map Entry.value

@[simp] theorem read_none (now : T) : read now (none : Option (Entry T α)) = none := rfl

theorem read_of_live {now : T} {e : Entry T α} (h : e.Live now) : read now (some e) = some e.value := by
  simp [read,Option.filter,h]

theorem read_of_not_live {now : T} {e : Entry T α} (h : ¬ e.Live now) : read now (some e) = none := by
  simp [read,Option.filter,h]

theorem read_eq_some {now : T} {cell : Option (Entry T α)} {v : α} :
    read now cell = some v ↔ ∃ e, cell = some e ∧ e.Live now ∧ e.value = v := by
  cases cell with
  | none => simp
  | some e =>
    by_cases h : e.Live now
    · simp [read_of_live h,h]
    · simp [read_of_not_live h,h]

theorem live_write_none [Add T] {now later : T} {v : α} : (write now none v).Live later := by
  simp [write,Entry.Live]

theorem live_write_some [Add T] {now later ttl : T} {v : α} :
    (write now (some ttl) v).Live later ↔ later ≤ now + ttl := by
  simp [write,Entry.Live]

end AtlasCompliance.Expiring
