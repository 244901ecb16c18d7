import Mathlib

/-! Dictionaries with strings for names. -/
namespace AtlasCompliance.Python

/-- A dictionary in its order of insertion. -/
structure Dict (α : Type) where
  items : List (String × α)
  distinct : (items.map Prod.fst).Nodup

namespace Dict

def get {α : Type} (d : Dict α) (name : String) : Option α := d.items.lookup name

/-- A dictionary with the same names. -/
def mapItems {α β : Type} (f : String → α → β) (d : Dict α) : Dict β where
  items := d.items.map fun item => (item.1,f item.1 item.2)
  distinct := by simpa [Function.comp_def] using d.distinct

theorem get_eq_some {α : Type} {d : Dict α} {name : String} {v : α} :
    d.get name = some v ↔ (name,v) ∈ d.items := by
  obtain ⟨items,distinct⟩ := d
  unfold get
  induction items with
  | nil => simp
  | cons item items ih =>
    obtain ⟨name',v'⟩ := item
    obtain ⟨hnew,hrest⟩ := List.nodup_cons.mp distinct
    rw [List.lookup_cons,List.mem_cons]
    by_cases hname : name = name'
    · subst hname
      have habsent : (name,v) ∉ items := fun hmem => hnew (List.mem_map.mpr ⟨_,hmem,rfl⟩)
      simp [habsent,eq_comm]
    · simp [beq_eq_false_iff_ne.mpr hname,hname,ih hrest]

theorem get_mapItems {α β : Type} (f : String → α → β) (d : Dict α) (name : String) :
    (d.mapItems f).get name = (d.get name).map (f name) := by
  have hlookup : ∀ items : List (String × α),
      (items.map fun item => (item.1,f item.1 item.2)).lookup name =
        (items.lookup name).map (f name) := by
    intro items
    induction items with
    | nil => rfl
    | cons item items ih =>
      obtain ⟨name',v'⟩ := item
      by_cases hname : name = name'
      · subst hname
        simp
      · simp [List.lookup_cons,beq_eq_false_iff_ne.mpr hname,ih]
  exact hlookup d.items

end Dict

end AtlasCompliance.Python
