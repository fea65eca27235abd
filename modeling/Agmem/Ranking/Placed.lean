import Mathlib.Data.List.Sort
import Mathlib.Data.List.Perm.Subperm

/-! Items that carry their own places. Where every place up to the number of items is carried, each
is carried once, and sorting on it puts every item in its place. -/

namespace Agmem.Ranking

variable {α : Type*} {key : α → ℕ} {items : List α}

/-- Every place is carried. -/
def Placed (key : α → ℕ) (items : List α) : Prop := ∀ i < items.length, ∃ x ∈ items, key x = i

theorem Placed.perm (h : Placed key items) : (items.map key).Perm (List.range items.length) := by
  have hsub : List.range items.length ⊆ items.map key := fun i hi =>
    List.mem_map.mpr (h i (List.mem_range.mp hi))
  exact ((List.nodup_range.subperm hsub).perm_of_length_le (by simp)).symm

theorem Placed.map_insertionSort (h : Placed key items) :
    (items.insertionSort fun x y => key x ≤ key y).map key = List.range items.length := by
  refine List.Perm.eq_of_pairwise' (r := (· ≤ ·)) ?_ ?_ ?_
  · rw [List.pairwise_map]
    have htotal : Std.Total fun x y => key x ≤ key y := ⟨fun x y => le_total (key x) (key y)⟩
    have htrans : IsTrans α fun x y => key x ≤ key y := ⟨fun _ _ _ => le_trans⟩
    exact List.pairwise_insertionSort _ _
  · exact List.pairwise_lt_range.imp le_of_lt
  · exact ((List.perm_insertionSort _ items).map key).trans h.perm

/-- The item that carries a place comes to be there. -/
theorem Placed.getElem? (h : Placed key items) {x : α} (hx : x ∈ items) :
    (items.insertionSort fun x y => key x ≤ key y)[key x]? = some x := by
  obtain ⟨i, hi⟩ := List.mem_iff_getElem?.mp
    ((List.mem_insertionSort fun x y => key x ≤ key y).mpr hx)
  have hlt : i < items.length := by
    simpa [List.length_insertionSort] using (List.getElem?_eq_some_iff.mp hi).1
  have hkey : ((items.insertionSort fun x y => key x ≤ key y).map key)[i]? = some (key x) := by
    rw [List.getElem?_map, hi]
    rfl
  rw [h.map_insertionSort, List.getElem?_range hlt] at hkey
  rw [← Option.some.inj hkey]
  exact hi

/-- No two items carry one place. -/
theorem Placed.filter_eq (h : Placed key items) {x : α} (hx : x ∈ items) :
    items.filter (fun y => decide (key y = key x)) = [x] := by
  have hcount : (items.filter fun y => decide (key y = key x)).length = 1 := by
    have hone := List.count_eq_one_of_mem (h.perm.nodup_iff.mpr List.nodup_range)
      (List.mem_map_of_mem hx)
    rw [List.count_eq_countP, List.countP_map] at hone
    rw [← List.countP_eq_length_filter, ← hone]
    exact List.countP_congr fun y _ => by simp
  obtain ⟨y, hy⟩ := List.length_eq_one_iff.mp hcount
  have hmem : x ∈ items.filter fun y => decide (key y = key x) :=
    List.mem_filter.mpr ⟨hx, decide_eq_true rfl⟩
  rw [hy, List.mem_singleton] at hmem
  rw [hy, hmem]

end Agmem.Ranking
