import AtlasCompliance.Lib.Arranged
import AtlasCompliance.Lib.Interpolation
import AtlasCompliance.Python.Value

/-! Lists of numbers: positions that may count from the end, the least and the greatest element, and
`sorted`. -/
namespace AtlasCompliance.Python
open Arranged Interpolation

/-- `xs[i]`: a negative position counts from the end. -/
def getItem {α : Type} (xs : List α) (i : ℤ) : Except Error α :=
  let i := if i < 0 then i + xs.length else i
  if i < 0 then .error .indexError
  else match xs[i.toNat]? with
    | some x => .ok x
    | none => .error .indexError

/-- `min(xs)` -/
def minimum (xs : List ℚ) : Except Error ℚ :=
  match xs.min? with
  | some x => .ok x
  | none => .error .valueError

/-- `max(xs)` -/
def maximum (xs : List ℚ) : Except Error ℚ :=
  match xs.max? with
  | some x => .ok x
  | none => .error .valueError

/-- `sorted(xs)` -/
def sorted (xs : List ℚ) : List ℚ := sortBy id xs

/-- The elements by their positions. -/
def place (xs : List ℚ) (i : ℤ) : ℚ := xs.getD i.toNat 0

variable {xs ys : List ℚ}

theorem getItem_eq {i : ℤ} (hi : i ∈ Set.Icc (0 : ℤ) (xs.length-1)) :
    getItem xs i = .ok (place xs i) := by
  obtain ⟨hlow,hhigh⟩ := hi
  have hlength : i.toNat < xs.length := by omega
  simp [getItem,place,not_lt.mpr hlow,List.getElem?_eq_getElem hlength]

@[simp] theorem length_sorted (xs : List ℚ) : (sorted xs).length = xs.length :=
  (sortBy_perm xs).length_eq

theorem mem_sorted {x : ℚ} : x ∈ sorted xs ↔ x ∈ xs := (sortBy_perm xs).mem_iff

theorem sorted_eq_nil : sorted xs = [] ↔ xs = [] := by
  rw [← List.length_eq_zero_iff,length_sorted,List.length_eq_zero_iff]

/-- The order of a list has no part in what is sorted. -/
theorem sorted_eq_of_perm (h : xs.Perm ys) : sorted xs = sorted ys := by
  simpa [sorted] using @map_sortBy_of_perm ℚ ℚ _ id xs ys h

theorem place_mem {i : ℤ} (hi : i ∈ Set.Icc (0 : ℤ) (xs.length-1)) : place xs i ∈ xs := by
  obtain ⟨hlow,hhigh⟩ := hi
  have hlength : i.toNat < xs.length := by omega
  rw [place,List.getD_eq_getElem _ _ hlength]
  exact List.getElem_mem hlength

theorem place_sorted_monotoneOn :
    MonotoneOn (place (sorted xs)) (Set.Icc (0 : ℤ) ((sorted xs).length-1)) := by
  intro i hi j hj hij
  obtain ⟨hlow,-⟩ := hi
  obtain ⟨-,hhigh⟩ := hj
  have hpairwise : (sorted xs).Pairwise (· ≤ ·) := sortBy_pairwise xs
  have hj : j.toNat < (sorted xs).length := by omega
  have hi : i.toNat < (sorted xs).length := by omega
  rw [place,place,List.getD_eq_getElem _ _ hi,List.getD_eq_getElem _ _ hj]
  obtain heq | hlt := (Int.toNat_le_toNat hij).eq_or_lt
  · simp [heq]
  · exact List.pairwise_iff_getElem.mp hpairwise _ _ hi hj hlt

/-- Every element has a place among the sorted ones. -/
theorem exists_place {x : ℚ} (hx : x ∈ xs) :
    ∃ i ∈ Set.Icc (0 : ℤ) ((sorted xs).length-1), place (sorted xs) i = x := by
  obtain ⟨k,hk,rfl⟩ := List.mem_iff_getElem.mp (mem_sorted.mpr hx)
  exact ⟨k,⟨by omega,by omega⟩,by simp [place,List.getElem?_eq_getElem hk]⟩

section NonEmpty
variable (hxs : xs ≠ [])
include hxs

theorem length_sorted_pos : 0 < (sorted xs).length := by
  rw [length_sorted]
  exact List.length_pos_iff.mpr hxs

/-- The least element is the first of the sorted ones. -/
theorem min?_eq : xs.min? = some (place (sorted xs) 0) := by
  have hpos := length_sorted_pos hxs
  have hfirst : (0 : ℤ) ∈ Set.Icc (0 : ℤ) ((sorted xs).length-1) := ⟨le_rfl,by omega⟩
  rw [List.min?_eq_some_iff]
  refine ⟨mem_sorted.mp (place_mem hfirst),fun x hx => ?_⟩
  obtain ⟨i,hi,rfl⟩ := exists_place hx
  exact place_sorted_monotoneOn hfirst hi hi.1

theorem minimum_eq : minimum xs = .ok (place (sorted xs) 0) := by simp [minimum,min?_eq hxs]

/-- The greatest element is the last of the sorted ones. -/
theorem max?_eq : xs.max? = some (place (sorted xs) ((sorted xs).length-1)) := by
  have hpos := length_sorted_pos hxs
  have hlast : ((sorted xs).length-1 : ℤ) ∈ Set.Icc (0 : ℤ) ((sorted xs).length-1) :=
    ⟨by omega,le_rfl⟩
  rw [List.max?_eq_some_iff]
  refine ⟨mem_sorted.mp (place_mem hlast),fun x hx => ?_⟩
  obtain ⟨i,hi,rfl⟩ := exists_place hx
  exact place_sorted_monotoneOn hi hlast hi.2

theorem maximum_eq : maximum xs = .ok (place (sorted xs) ((sorted xs).length-1)) := by
  simp [maximum,max?_eq hxs]

end NonEmpty

end AtlasCompliance.Python
