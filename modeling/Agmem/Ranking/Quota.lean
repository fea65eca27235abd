import Mathlib.Data.List.Perm.Subperm
import Mathlib.Logic.Function.Basic
import Mathlib.Tactic.SplitIfs

/-! A list under a quota. An entry may carry a key, and of each key only so many entries are taken;
the ones past the quota are deferred, in their order. Nothing is dropped, no key holds more than
its quota of what is taken, and no longer list that respects the quotas can be made of the same
entries. -/

namespace Agmem.Ranking.Quota

variable {α κ : Type*} [DecidableEq κ]

/-- What is taken and what is deferred; `count` says how many of each key were taken before. -/
def split (key : α → Option κ) (cap : ℕ) (count : κ → ℕ) : List α → List α × List α
  | [] => ([], [])
  | x :: xs =>
    match key x with
    | none =>
      let rest := split key cap count xs
      (x :: rest.1, rest.2)
    | some s =>
      if count s < cap then
        let rest := split key cap (Function.update count s (count s + 1)) xs
        (x :: rest.1, rest.2)
      else
        let rest := split key cap count xs
        (rest.1, x :: rest.2)

def taken (key : α → Option κ) (cap : ℕ) (l : List α) : List α := (split key cap (fun _ => 0) l).1

def deferred (key : α → Option κ) (cap : ℕ) (l : List α) : List α :=
  (split key cap (fun _ => 0) l).2

example : split (fun n : ℕ => some (n % 2)) 1 (fun _ => 0) [1, 3, 2] = ([1, 2], [3]) := by
  simp [split]

/-! ### One entry at a time -/

section Entry

variable {key : α → Option κ} {cap : ℕ}

theorem split_none {x : α} (h : key x = none) (count : κ → ℕ) (xs : List α) :
    split key cap count (x :: xs) =
      (x :: (split key cap count xs).1, (split key cap count xs).2) := by
  simp only [split, h]

theorem split_taken {x : α} {s : κ} {count : κ → ℕ} (h : key x = some s) (hc : count s < cap)
    (xs : List α) : split key cap count (x :: xs) =
      (x :: (split key cap (Function.update count s (count s + 1)) xs).1,
        (split key cap (Function.update count s (count s + 1)) xs).2) := by
  simp only [split, h, if_pos hc]

theorem split_deferred {x : α} {s : κ} {count : κ → ℕ} (h : key x = some s) (hc : ¬ count s < cap)
    (xs : List α) : split key cap count (x :: xs) =
      ((split key cap count xs).1, x :: (split key cap count xs).2) := by
  simp only [split, h, if_neg hc]

end Entry

variable (key : α → Option κ) (cap : ℕ)

/-! ### Nothing is dropped -/

theorem split_perm (count : κ → ℕ) (l : List α) :
    ((split key cap count l).1 ++ (split key cap count l).2).Perm l := by
  fun_induction split key cap count l with
  | case1 count => exact .nil
  | case2 count x xs h rest ih => exact ih.cons x
  | case3 count x xs s h hc rest ih => exact ih.cons x
  | case4 count x xs s h hc rest ih => exact List.perm_middle.trans (ih.cons x)

theorem split_sublist (count : κ → ℕ) (l : List α) :
    (split key cap count l).1.Sublist l ∧ (split key cap count l).2.Sublist l := by
  fun_induction split key cap count l with
  | case1 count => exact ⟨.slnil, .slnil⟩
  | case2 count x xs h rest ih => exact ⟨ih.1.cons_cons x, ih.2.cons x⟩
  | case3 count x xs s h hc rest ih => exact ⟨ih.1.cons_cons x, ih.2.cons x⟩
  | case4 count x xs s h hc rest ih => exact ⟨ih.1.cons x, ih.2.cons_cons x⟩

theorem taken_sublist (l : List α) : (taken key cap l).Sublist l := (split_sublist key cap _ l).1

theorem deferred_sublist (l : List α) : (deferred key cap l).Sublist l :=
  (split_sublist key cap _ l).2

theorem taken_append_deferred_perm (l : List α) :
    (taken key cap l ++ deferred key cap l).Perm l := split_perm key cap _ l

/-! ### What is taken -/

/-- Of each key its quota is taken, or all there are. -/
theorem countP_split (count : κ → ℕ) (l : List α) (s : κ) :
    (split key cap count l).1.countP (fun x => key x = some s) =
      min (l.countP fun x => key x = some s) (cap - count s) := by
  fun_induction split key cap count l with
  | case1 count => simp
  | case2 count x xs h rest ih => simpa [h] using ih
  | case3 count x xs t h hc rest ih =>
    by_cases hts : t = s
    · subst hts
      simp only [List.countP_cons, rest, ih, h, Function.update_self, decide_true, if_true]
      omega
    · have hst : s ≠ t := fun h => hts h.symm
      simp [rest, ih, h, hts, Function.update_of_ne hst]
  | case4 count x xs t h hc rest ih =>
    by_cases hts : t = s
    · subst hts
      simp only [List.countP_cons, rest, ih, h, decide_true, if_true]
      omega
    · simp [rest, ih, h, hts]

theorem countP_taken (l : List α) (s : κ) :
    (taken key cap l).countP (fun x => key x = some s) =
      min (l.countP fun x => key x = some s) cap := countP_split key cap _ l s

/-- Without a key, everything is taken. -/
theorem countP_split_none (count : κ → ℕ) (l : List α) :
    (split key cap count l).1.countP (fun x => key x = none) =
      l.countP fun x => key x = none := by
  fun_induction split key cap count l with
  | case1 count => rfl
  | case2 count x xs h rest ih => simpa [h] using ih
  | case3 count x xs s h hc rest ih => simpa [h] using ih
  | case4 count x xs s h hc rest ih => simpa [h] using ih

/-- What is deferred has a key, and its quota is full. -/
theorem full_of_deferred {key : α → Option κ} {cap : ℕ} {l : List α} {x : α}
    (hx : x ∈ deferred key cap l) :
    ∃ s, key x = some s ∧ (taken key cap l).countP (fun y => key y = some s) = cap := by
  have hperm := taken_append_deferred_perm key cap l
  have hcount (o : Option κ) := hperm.countP_eq fun y => key y = o
  simp only [List.countP_append] at hcount
  cases h : key x with
  | none =>
    have hnone := hcount none
    rw [taken, countP_split_none] at hnone
    have : 0 < (deferred key cap l).countP fun y => key y = none :=
      List.countP_pos_iff.mpr ⟨x, hx, by simpa using h⟩
    omega
  | some s =>
    have hsome := hcount (some s)
    have hmin := countP_taken key cap l s
    have : 0 < (deferred key cap l).countP fun y => key y = some s :=
      List.countP_pos_iff.mpr ⟨x, hx, by simpa using h⟩
    exact ⟨s, rfl, by omega⟩

/-- With all quotas full, only what has no key is taken. -/
theorem split_full {key : α → Option κ} {cap : ℕ} {count : κ → ℕ} (hfull : ∀ s, cap ≤ count s)
    (l : List α) : (split key cap count l).1 = l.filter fun x => key x = none := by
  fun_induction split key cap count l with
  | case1 count => rfl
  | case2 count x xs h rest ih => simpa [h] using ih hfull
  | case3 count x xs s h hc rest ih => exact absurd (hfull s) (Nat.not_le.mpr hc)
  | case4 count x xs s h hc rest ih => simpa [h] using ih hfull

/-- A list whose keys are within their quotas. -/
def Within (key : α → Option κ) (cap : ℕ) (l : List α) : Prop :=
  ∀ s, l.countP (fun x => key x = some s) ≤ cap

/-- Only the keys that occur count. -/
theorem within_iff {key : α → Option κ} {cap : ℕ} {l : List α} :
    Within key cap l ↔ ∀ s ∈ l.filterMap key, l.countP (fun x => key x = some s) ≤ cap := by
  refine ⟨fun h s _ => h s, fun h s => ?_⟩
  by_cases hs : s ∈ l.filterMap key
  · exact h s hs
  · rw [List.countP_eq_zero.mpr fun x hx => by
      simpa using fun hkey => hs (List.mem_filterMap.mpr ⟨x, hx, hkey⟩)]
    exact Nat.zero_le _

instance (l : List α) : Decidable (Within key cap l) := decidable_of_iff _ within_iff.symm

theorem Within.sublist {key : α → Option κ} {cap : ℕ} {l m : List α} (h : Within key cap l)
    (hm : m.Sublist l) : Within key cap m := fun s => Nat.le_trans hm.countP_le (h s)

theorem within_taken (l : List α) : Within key cap (taken key cap l) := by
  intro s
  rw [countP_taken]
  exact Nat.min_le_right _ _

/-- No longer list that respects the quotas can be made of the entries. -/
theorem length_le_taken {key : α → Option κ} {cap : ℕ} {l m : List α} (hm : m.Subperm l)
    (hw : Within key cap m) : m.length ≤ (taken key cap l).length := by
  have hcount (n : List α) (o : Option κ) : (n.map key).count o = n.countP fun x => key x = o := by
    rw [List.count, List.countP_map]
    exact List.countP_congr fun x _ => by simp
  have hkeys : (m.map key).Subperm ((taken key cap l).map key) := by
    refine List.subperm_ext_iff.mpr fun o _ => ?_
    rw [hcount, hcount]
    cases o with
    | none =>
      rw [taken, countP_split_none]
      exact hm.countP_le _
    | some s =>
      rw [countP_taken]
      exact Nat.le_min.mpr ⟨hm.countP_le _, hw s⟩
  simpa using hkeys.length_le

/-! ### Entries that carry more -/

/-- Only the keys decide. -/
theorem split_map {β : Type*} (f : β → α) (count : κ → ℕ) (l : List β) :
    split key cap count (l.map f) =
      ((split (fun x => key (f x)) cap count l).1.map f,
        (split (fun x => key (f x)) cap count l).2.map f) := by
  fun_induction split (fun x => key (f x)) cap count l with
  | case1 count => rfl
  | case2 count x xs h rest ih => rw [List.map_cons, split_none h, ih]; rfl
  | case3 count x xs s h hc rest ih => rw [List.map_cons, split_taken h hc, ih]; rfl
  | case4 count x xs s h hc rest ih => rw [List.map_cons, split_deferred h hc, ih]; rfl

/-- A list within the quotas is taken whole. -/
theorem deferred_eq_nil {key : α → Option κ} {cap : ℕ} {l : List α} (h : Within key cap l) :
    deferred key cap l = [] := by
  have hlen := length_le_taken (List.Subperm.refl l) h
  have hperm := (taken_append_deferred_perm key cap l).length_eq
  rw [List.length_append] at hperm
  exact List.length_eq_zero_iff.mp (by omega)

/-! ### The start of a list -/

theorem split_append (count : κ → ℕ) (l m : List α) : ∃ count',
    (split key cap count (l ++ m)).1 =
      (split key cap count l).1 ++ (split key cap count' m).1 ∧
    (split key cap count (l ++ m)).2 =
      (split key cap count l).2 ++ (split key cap count' m).2 ∧
    ∀ s, count' s = count s + (split key cap count l).1.countP fun x => key x = some s := by
  fun_induction split key cap count l with
  | case1 count => exact ⟨count, rfl, rfl, fun s => rfl⟩
  | case2 count x xs h rest ih =>
    obtain ⟨count', h1, h2, hc⟩ := ih
    refine ⟨count', ?_, ?_, fun s => ?_⟩
    · simp only [List.cons_append, split_none h, h1, rest]
    · simp only [List.cons_append, split_none h, h2, rest]
    · simp [hc, h, rest]
  | case3 count x xs t h hlt rest ih =>
    obtain ⟨count', h1, h2, hc⟩ := ih
    refine ⟨count', ?_, ?_, fun s => ?_⟩
    · simp only [List.cons_append, split_taken h hlt, h1, rest]
    · simp only [List.cons_append, split_taken h hlt, h2, rest]
    · rw [hc, List.countP_cons, h]
      by_cases hts : t = s
      · subst hts
        simp only [Function.update_self, decide_true, if_true, rest]
        omega
      · have hst : s ≠ t := fun h => hts h.symm
        simp [hts, Function.update_of_ne hst, rest]
  | case4 count x xs t h hlt rest ih =>
    obtain ⟨count', h1, h2, hc⟩ := ih
    refine ⟨count', ?_, ?_, hc⟩
    · simp only [List.cons_append, split_deferred h hlt, h1, rest]
    · simp only [List.cons_append, split_deferred h hlt, h2, rest]

/-- If nothing at the start is deferred, the start is taken as it is. -/
theorem split_eq_of_deferred_nil {key : α → Option κ} {cap : ℕ} {count : κ → ℕ} {l : List α}
    (h : (split key cap count l).2 = []) : (split key cap count l).1 = l := by
  have hperm := split_perm key cap count l
  rw [h, List.append_nil] at hperm
  exact (split_sublist key cap count l).1.eq_of_length hperm.length_eq

/-! ### The stable partition -/

/-- The entry at place `i` of `l` has no key, or fewer than `cap` entries before it have its key. -/
def inQuota (key : α → Option κ) (cap : ℕ) (l : List α) (row : α × ℕ) : Bool :=
  match key row.1 with
  | none => true
  | some s => decide (((l.take row.2).countP fun x => key x = some s) < cap)

theorem inQuota_none {key : α → Option κ} {cap : ℕ} {l : List α} {row : α × ℕ}
    (h : key row.1 = none) : inQuota key cap l row = true := by
  simp only [inQuota, h]

theorem inQuota_some {key : α → Option κ} {cap : ℕ} {l : List α} {row : α × ℕ} {s : κ}
    (h : key row.1 = some s) :
    inQuota key cap l row = decide (((l.take row.2).countP fun x => key x = some s) < cap) := by
  simp only [inQuota, h]

/-- The counts after `pre`: of each key its entries, up to the quota. -/
def Counted (key : α → Option κ) (cap : ℕ) (count : κ → ℕ) (pre : List α) : Prop :=
  ∀ s, count s = min (pre.countP fun x => key x = some s) cap

section Counted

variable {key : α → Option κ} {cap : ℕ} {count : κ → ℕ} {pre : List α} {x : α} {t : κ}

theorem Counted.lt_iff (h : Counted key cap count pre) (t : κ) :
    count t < cap ↔ (pre.countP fun x => key x = some t) < cap := by
  rw [h t]
  omega

theorem Counted.none (h : Counted key cap count pre) (hx : key x = none) :
    Counted key cap count (pre ++ [x]) := by
  intro s
  simp [h s, hx]

theorem Counted.taken (h : Counted key cap count pre) (hx : key x = some t) (hc : count t < cap) :
    Counted key cap (Function.update count t (count t + 1)) (pre ++ [x]) := by
  intro s
  have hs := h s
  by_cases hst : s = t
  · subst hst
    simp only [Function.update_self, List.countP_append, List.countP_singleton, hx, decide_true,
      if_true]
    omega
  · simp [Function.update_of_ne hst, hs, hx, Ne.symm hst]

theorem Counted.deferred (h : Counted key cap count pre) (hx : key x = some t)
    (hc : ¬ count t < cap) : Counted key cap count (pre ++ [x]) := by
  intro s
  have hs := h s
  by_cases hst : s = t
  · subst hst
    simp only [List.countP_append, List.countP_singleton, hx, decide_true, if_true]
    omega
  · simp [hs, hx, Ne.symm hst]

end Counted

/-- The rest `l` of a list after `pre`. -/
theorem split_eq_filter {key : α → Option κ} {cap : ℕ} {count : κ → ℕ} {pre : List α}
    (hcount : Counted key cap count pre) (l : List α) :
    split key cap count l =
      (((l.zipIdx pre.length).filter (inQuota key cap (pre ++ l))).map Prod.fst,
        ((l.zipIdx pre.length).filter fun row => !inQuota key cap (pre ++ l) row).map
          Prod.fst) := by
  induction l generalizing count pre with
  | nil => rfl
  | cons x xs ih =>
    have happend : pre ++ x :: xs = (pre ++ [x]) ++ xs := by simp
    have hlen : pre.length + 1 = (pre ++ [x]).length := by simp
    have htake : (pre ++ x :: xs).take pre.length = pre := List.take_left' rfl
    rw [List.zipIdx_cons]
    cases h : key x with
    | none =>
      have hin : inQuota key cap (pre ++ x :: xs) (x, pre.length) = true := inQuota_none h
      rw [split_none h, ih (hcount.none h), List.filter_cons_of_pos hin,
        List.filter_cons_of_neg (by simp [hin]), happend, hlen, List.map_cons]
    | some t =>
      have hin : inQuota key cap (pre ++ x :: xs) (x, pre.length) =
          decide ((pre.countP fun x => key x = some t) < cap) := by
        rw [inQuota_some h, htake]
      by_cases hc : count t < cap
      · rw [decide_eq_true ((hcount.lt_iff t).mp hc)] at hin
        rw [split_taken h hc, ih (hcount.taken h hc), List.filter_cons_of_pos hin,
          List.filter_cons_of_neg (by simp [hin]), happend, hlen, List.map_cons]
      · rw [decide_eq_false fun hlt => hc ((hcount.lt_iff t).mpr hlt)] at hin
        rw [split_deferred h hc, ih (hcount.deferred h hc),
          List.filter_cons_of_neg (by simp [hin]), List.filter_cons_of_pos (by simp [hin]), happend,
          hlen, List.map_cons]

/-- Taken are the entries without a key and the first `cap` of each key. -/
theorem taken_eq_filter (l : List α) :
    taken key cap l = (l.zipIdx.filter (inQuota key cap l)).map Prod.fst := by
  have hcount (s : κ) : 0 = min (([] : List α).countP fun x => key x = some s) cap := by simp
  rw [taken, split_eq_filter hcount]
  rfl

theorem deferred_eq_filter (l : List α) :
    deferred key cap l = (l.zipIdx.filter fun row => !inQuota key cap l row).map Prod.fst := by
  have hcount (s : κ) : 0 = min (([] : List α).countP fun x => key x = some s) cap := by simp
  rw [deferred, split_eq_filter hcount]
  rfl

end Agmem.Ranking.Quota
