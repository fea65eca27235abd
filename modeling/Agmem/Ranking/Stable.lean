import Mathlib.Data.List.Induction
import Mathlib.Data.List.Sort
import Mathlib.Tactic.SplitIfs

/-! Sorts that keep the order of equal entries, and lists reduced to the first occurrence of each
entry. -/

namespace Agmem.Ranking.Stable

variable {α : Type*}

/-! ### Sorts -/

section Sorting

variable {r s : α → α → Prop}

/-- By `r` the entry `a` comes before `b`, and if both orders would do, it does so by `s`. -/
def Before (r s : α → α → Prop) (a b : α) : Prop := r a b ∧ (r b a → s a b)

variable [DecidableRel r]

/-- Sorted lists without some of the entries. -/
theorem sublist_insertionSort [Std.Total r] [IsTrans α r] {l m : List α} (h : l.Sublist m) :
    (l.insertionSort r).Sublist (m.insertionSort r) := by
  induction h with
  | slnil => exact .slnil
  | cons x h ih => exact ih.trans (List.sublist_orderedInsert x _)
  | cons_cons x h ih => exact ih.orderedInsert_sublist x (List.pairwise_insertionSort r _)

/-- Of equals the order stays. -/
theorem filter_insertionSort {p : α → Bool} (hp : ∀ a b, p a = true → p b = true → r a b)
    (l : List α) : (l.insertionSort r).filter p = l.filter p := by
  have hequal : (l.filter p).Pairwise r :=
    List.pairwise_of_forall_mem_list fun a ha b hb =>
      hp a b (List.mem_filter.mp ha).2 (List.mem_filter.mp hb).2
  have hsub := (List.sublist_insertionSort hequal List.filter_sublist).filter p
  rw [List.filter_filter] at hsub
  simp only [Bool.and_self] at hsub
  exact (hsub.eq_of_length ((List.perm_insertionSort r l).symm.filter p).length_eq).symm

theorem pairwise_orderedInsert [Std.Total r] [IsTrans α r] {x : α} {l : List α}
    (h : l.Pairwise (Before r s)) (hx : ∀ y ∈ l, s x y) :
    (l.orderedInsert r x).Pairwise (Before r s) := by
  induction l with
  | nil => exact List.pairwise_singleton _ _
  | cons y ys ih =>
    obtain ⟨hy, hys⟩ := List.pairwise_cons.mp h
    by_cases hxy : r x y
    · rw [List.orderedInsert_cons_of_le r ys hxy]
      refine List.pairwise_cons.mpr ⟨fun z hz => ⟨?_, fun _ => hx z hz⟩, h⟩
      rcases List.mem_cons.mp hz with rfl | hz
      · exact hxy
      · exact trans_of r hxy (hy z hz).1
    · rw [List.orderedInsert_of_not_le r ys hxy]
      have hyx : r y x := (total_of r x y).resolve_left hxy
      have hins := ih hys fun z hz => hx z (List.mem_cons_of_mem y hz)
      refine List.pairwise_cons.mpr ⟨fun z hz => ?_, hins⟩
      rcases (List.mem_orderedInsert r).mp hz with rfl | hz
      · exact ⟨hyx, fun h => absurd h hxy⟩
      · exact hy z hz

/-- A sort breaks ties by the order in which the entries came. -/
theorem pairwise_insertionSort [Std.Total r] [IsTrans α r] {l : List α} (h : l.Pairwise s) :
    (l.insertionSort r).Pairwise (Before r s) := by
  induction l with
  | nil => exact .nil
  | cons x xs ih =>
    obtain ⟨hx, hxs⟩ := List.pairwise_cons.mp h
    exact pairwise_orderedInsert (ih hxs) fun y hy => hx y ((List.mem_insertionSort r).mp hy)

end Sorting

/-! ### First occurrences -/

section Occurrence

variable [BEq α] [LawfulBEq α]

theorem eraseDups_concat_of_mem {l : List α} {e : α} (h : e ∈ l) :
    (l ++ [e]).eraseDups = l.eraseDups := by
  rw [List.eraseDups_append]
  simp [List.removeAll, h]

theorem eraseDups_concat_of_not_mem {l : List α} {e : α} (h : e ∉ l) :
    (l ++ [e]).eraseDups = l.eraseDups ++ [e] := by
  rw [List.eraseDups_append]
  simp [List.removeAll, h, List.eraseDups_cons]

/-- The entries are in the order in which they were first seen. -/
theorem pairwise_eraseDups (l : List α) :
    l.eraseDups.Pairwise fun a b => l.idxOf a < l.idxOf b := by
  induction l using List.reverseRecOn with
  | nil => exact .nil
  | append_singleton l e ih =>
    have hold : l.eraseDups.Pairwise fun a b => (l ++ [e]).idxOf a < (l ++ [e]).idxOf b := by
      refine ih.imp_of_mem fun ha hb h => ?_
      rwa [List.idxOf_append_of_mem (List.mem_eraseDups.mp ha),
        List.idxOf_append_of_mem (List.mem_eraseDups.mp hb)]
    by_cases he : e ∈ l
    · rwa [eraseDups_concat_of_mem he]
    · rw [eraseDups_concat_of_not_mem he]
      refine List.pairwise_append.mpr ⟨hold, List.pairwise_singleton _ _, fun a ha b hb => ?_⟩
      rw [List.mem_singleton.mp hb, List.idxOf_append_of_mem (List.mem_eraseDups.mp ha),
        List.idxOf_append_of_notMem he]
      exact Nat.lt_add_right _ (List.idxOf_lt_length_of_mem (List.mem_eraseDups.mp ha))

theorem nodup_eraseDups (l : List α) : l.eraseDups.Nodup :=
  (pairwise_eraseDups l).imp fun {a b} h (heq : a = b) => absurd h (heq ▸ Nat.lt_irrefl _)

/-- Repetitions may be left out beforehand. -/
theorem eraseDups_append_eraseDups (l m : List α) :
    (l ++ m.eraseDups).eraseDups = (l ++ m).eraseDups := by
  induction m using List.reverseRecOn with
  | nil => rfl
  | append_singleton m e ih =>
    have hmem : e ∈ l ++ m.eraseDups ↔ e ∈ l ++ m := by simp
    rw [← List.append_assoc]
    by_cases he : e ∈ m
    · rw [eraseDups_concat_of_mem he, ih,
        eraseDups_concat_of_mem (List.mem_append_right l he)]
    · rw [eraseDups_concat_of_not_mem he, ← List.append_assoc]
      by_cases hl : e ∈ l ++ m
      · rw [eraseDups_concat_of_mem (hmem.mpr hl), eraseDups_concat_of_mem hl, ih]
      · rw [eraseDups_concat_of_not_mem (mt hmem.mp hl), eraseDups_concat_of_not_mem hl, ih]

end Occurrence

end Agmem.Ranking.Stable
