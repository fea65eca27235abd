import Agmem.Ranking.Quota
import Mathlib.Order.Basic

/-! Sorted runs, one after another. The start of the whole is in order exactly if, wherever it goes
on from one run to the next, the last entry of the one may stand before the first of the other. -/

namespace Agmem.Ranking.Runs

variable {α : Type*} {le : α → α → Prop}

/-- The last entry of a run may stand before the first one that follows. -/
def Joins (le : α → α → Prop) (run rest : List α) : Prop :=
  ∀ x ∈ run.getLast?, ∀ y ∈ rest.head?, le x y

/-- Of the first `k` entries of the runs, every run joins what follows it there. -/
def Meet (le : α → α → Prop) : ℕ → List (List α) → Prop
  | _, [] => True
  | k, run :: runs =>
    (run.length < k → Joins le run runs.flatten) ∧ Meet le (k - run.length) runs

instance [DecidableRel le] (run rest : List α) : Decidable (Joins le run rest) := by
  unfold Joins
  infer_instance

instance Meet.decidable [DecidableRel le] :
    (k : ℕ) → (runs : List (List α)) → Decidable (Meet le k runs)
  | _, [] => .isTrue trivial
  | k, run :: runs =>
    have : Decidable (Meet le (k - run.length) runs) := Meet.decidable (k - run.length) runs
    inferInstanceAs (Decidable (_ ∧ _))

theorem meet_zero (runs : List (List α)) : Meet le 0 runs := by
  induction runs with
  | nil => trivial
  | cons run runs ih =>
    refine ⟨fun h => absurd h (Nat.not_lt_zero _), ?_⟩
    rw [Nat.zero_sub]
    exact ih

section Sorted

variable [IsTrans α le]

/-- Two sorted runs are sorted together if the first joins the second. -/
theorem pairwise_append_iff {run rest : List α} (hrun : run.Pairwise le) :
    (run ++ rest).Pairwise le ↔ rest.Pairwise le ∧ Joins le run rest := by
  rw [List.pairwise_append]
  constructor
  · rintro ⟨-, hrest, hall⟩
    exact ⟨hrest, fun x hx y hy => hall x (List.mem_of_getLast? hx) y (List.mem_of_head? hy)⟩
  · rintro ⟨hrest, hjoin⟩
    refine ⟨hrun, hrest, fun x hx y hy => ?_⟩
    obtain ⟨init, last, rfl⟩ : ∃ init last, run = init ++ [last] :=
      ⟨_, _, (List.dropLast_append_getLast (List.ne_nil_of_mem hx)).symm⟩
    obtain ⟨first, tail, rfl⟩ := List.exists_cons_of_ne_nil (List.ne_nil_of_mem hy)
    have hseam : le last first := hjoin last (by simp) first (by simp)
    have hlast : x = last ∨ le x last := by
      rcases List.mem_append.mp hx with h | h
      · exact .inr ((List.pairwise_append.mp hrun).2.2 x h last (List.mem_singleton_self last))
      · exact .inl (List.mem_singleton.mp h)
    have hfirst : y = first ∨ le first y := by
      rcases List.mem_cons.mp hy with h | h
      · exact .inl h
      · exact .inr ((List.pairwise_cons.mp hrest).1 y h)
    rcases hlast with rfl | hlast <;> rcases hfirst with rfl | hfirst
    · exact hseam
    · exact IsTrans.trans _ _ _ hseam hfirst
    · exact IsTrans.trans _ _ _ hlast hseam
    · exact IsTrans.trans _ _ _ hlast (IsTrans.trans _ _ _ hseam hfirst)

/-- The start of sorted runs is in order exactly if they meet there. -/
theorem pairwise_take_iff (k : ℕ) (runs : List (List α)) (hruns : ∀ run ∈ runs, run.Pairwise le) :
    (runs.flatten.take k).Pairwise le ↔ Meet le k runs := by
  induction runs generalizing k with
  | nil => simp [Meet]
  | cons run runs ih =>
    have hrun : run.Pairwise le := hruns run (List.mem_cons_self ..)
    have hrest := ih (k - run.length) fun r hr => hruns r (List.mem_cons_of_mem run hr)
    rw [List.flatten_cons, List.take_append, Meet]
    by_cases hk : run.length < k
    · rw [List.take_of_length_le (by omega), pairwise_append_iff hrun, hrest]
      have hjoin : Joins le run (runs.flatten.take (k - run.length)) ↔
          Joins le run runs.flatten := by
        unfold Joins
        rw [List.head?_take, if_neg (by omega)]
      rw [hjoin]
      exact ⟨fun h => ⟨fun _ => h.2, h.1⟩, fun h => ⟨h.2, h.1 hk⟩⟩
    · have hzero : k - run.length = 0 := by omega
      rw [hzero, List.take_zero, List.append_nil]
      exact ⟨fun _ => ⟨fun h => absurd h hk, meet_zero runs⟩,
        fun _ => hrun.sublist (run.take_sublist k)⟩

end Sorted

/-! ### Runs under a quota -/

section Quota

variable {κ : Type*} [DecidableEq κ]

/-- What a quota takes and defers of each run; `count` says how many of each key were taken
before. -/
def split (key : α → Option κ) (cap : ℕ) (count : κ → ℕ) :
    List (List α) → List (List α) × List (List α)
  | [] => ([], [])
  | run :: runs =>
    let parts := Quota.split key cap count run
    let rest := split key cap
      (fun s => count s + parts.1.countP fun x => key x = some s) runs
    (parts.1 :: rest.1, parts.2 :: rest.2)

theorem flatten_split (key : α → Option κ) (cap : ℕ) (count : κ → ℕ) (runs : List (List α)) :
    (split key cap count runs).1.flatten = (Quota.split key cap count runs.flatten).1 ∧
    (split key cap count runs).2.flatten = (Quota.split key cap count runs.flatten).2 := by
  induction runs generalizing count with
  | nil => exact ⟨rfl, rfl⟩
  | cons run runs ih =>
    obtain ⟨count', htaken, hdeferred, hcount⟩ :=
      Quota.split_append key cap count run runs.flatten
    have hrest := ih count'
    rw [funext hcount] at hrest htaken hdeferred
    rw [List.flatten_cons, htaken, hdeferred]
    exact ⟨congrArg _ hrest.1, congrArg _ hrest.2⟩

variable {key : α → Option κ} {cap : ℕ}

/-- Every part is a part of one of the runs. -/
theorem exists_run_of_part {count : κ → ℕ} {runs : List (List α)} {part : List α}
    (h : part ∈ (split key cap count runs).1 ∨ part ∈ (split key cap count runs).2) :
    ∃ run ∈ runs, part.Sublist run := by
  induction runs generalizing count with
  | nil => simp [split] at h
  | cons run runs ih =>
    have hsub := Quota.split_sublist key cap count run
    simp only [split, List.mem_cons] at h
    rcases h with (rfl | h) | (rfl | h)
    · exact ⟨run, List.mem_cons_self .., hsub.1⟩
    · obtain ⟨r, hr, hpart⟩ := ih (.inl h)
      exact ⟨r, List.mem_cons_of_mem _ hr, hpart⟩
    · exact ⟨run, List.mem_cons_self .., hsub.2⟩
    · obtain ⟨r, hr, hpart⟩ := ih (.inr h)
      exact ⟨r, List.mem_cons_of_mem _ hr, hpart⟩

/-- Parts of sorted runs are sorted. -/
theorem pairwise_of_part {count : κ → ℕ} {runs : List (List α)} {part : List α}
    (hruns : ∀ run ∈ runs, run.Pairwise le)
    (h : part ∈ (split key cap count runs).1 ++ (split key cap count runs).2) :
    part.Pairwise le := by
  obtain ⟨run, hrun, hpart⟩ := exists_run_of_part (List.mem_append.mp h)
  exact (hruns run hrun).sublist hpart

end Quota

end Agmem.Ranking.Runs
