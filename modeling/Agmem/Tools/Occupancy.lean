import Agmem.Ranking.Quota
import Mathlib.Data.List.Infix

/-! The occupancy cap of a page. Rows past the quota of their key are put below the others, and the
rows under the page move up; a pool whose page has no such row is left as it came. -/

namespace Agmem.Tools.Occupancy

open Ranking

/-- How many of a page of `k` rows one source may hold: half, rounded up, and never below 2. -/
def cap (k : ℕ) : ℕ := max ((k + 1) / 2) 2

/-- How many places of a page verbatim text may hold, all together. -/
def VERBATIM_CAP : ℕ := 1

/-- What a re-slice pushed out of the page. -/
structure Resliced (κ : Type*) where
  displaced : ℕ
  sources : List κ

variable {α κ : Type*} [DecidableEq κ]

/-- Defer every row past the `cap` of its key, where that changes the page. -/
def apply (ranked : List α) (k cap : ℕ) (key : α → Option κ) : List α × Option (Resliced κ) :=
  if ranked.length ≤ k then (ranked, none)
  else
    let taken := Quota.taken (fun row => key row.1) cap ranked.zipIdx
    let deferred := Quota.deferred (fun row => key row.1) cap ranked.zipIdx
    let displaced := (deferred.takeWhile fun row => decide (row.2 < k)).length
    if displaced = 0 then (ranked, none)
    else
      ((taken ++ deferred).map Prod.fst,
        some ⟨displaced, ((deferred.take displaced).filterMap fun row => key row.1).eraseDups⟩)

/-- No row of the page is over quota, or there is nothing below the page. -/
def Quiet (ranked : List α) (k cap : ℕ) (key : α → Option κ) : Prop :=
  ranked.length ≤ k ∨ Quota.deferred key cap (ranked.take k) = []

/-- The rows in the order in which a pass leaves them. -/
def resliced (ranked : List α) (cap : ℕ) (key : α → Option κ) : List α :=
  Quota.taken key cap ranked ++ Quota.deferred key cap ranked

variable {ranked : List α} {k cap : ℕ} {key : α → Option κ}

/-! ### One pass -/

theorem resliced_perm : (resliced ranked cap key).Perm ranked :=
  Quota.taken_append_deferred_perm key cap ranked

/-- What is deferred of a list starts with what is deferred of its start. -/
theorem deferred_append (key : α → Option κ) (cap : ℕ) (l m : List α) :
    ∃ rest : List α, rest.Sublist m ∧
      Quota.deferred key cap (l ++ m) = Quota.deferred key cap l ++ rest := by
  obtain ⟨count', -, h, -⟩ := Quota.split_append key cap (fun _ => 0) l m
  exact ⟨_, (Quota.split_sublist key cap count' m).2, h⟩

theorem taken_append (key : α → Option κ) (cap : ℕ) (l m : List α) :
    ∃ rest : List α, rest.Sublist m ∧
      Quota.taken key cap (l ++ m) = Quota.taken key cap l ++ rest := by
  obtain ⟨count', h, -, -⟩ := Quota.split_append key cap (fun _ => 0) l m
  exact ⟨_, (Quota.split_sublist key cap count' m).1, h⟩

theorem taken_zipIdx (l : List α) (n : ℕ) :
    (Quota.taken (fun row : α × ℕ => key row.1) cap (l.zipIdx n)).map Prod.fst =
      Quota.taken key cap l := by
  have h := Quota.split_map key cap Prod.fst (fun _ => 0) (l.zipIdx n)
  rw [List.zipIdx_map_fst] at h
  exact (congrArg Prod.fst h).symm

theorem deferred_zipIdx (l : List α) (n : ℕ) :
    (Quota.deferred (fun row : α × ℕ => key row.1) cap (l.zipIdx n)).map Prod.fst =
      Quota.deferred key cap l := by
  have h := Quota.split_map key cap Prod.fst (fun _ => 0) (l.zipIdx n)
  rw [List.zipIdx_map_fst] at h
  exact (congrArg Prod.snd h).symm

/-- The rows displaced are the ones over quota in the page. -/
theorem length_displaced (hk : k < ranked.length) :
    ((Quota.deferred (fun row => key row.1) cap ranked.zipIdx).takeWhile
      fun row => decide (row.2 < k)).length = (Quota.deferred key cap (ranked.take k)).length := by
  have hsplit : ranked.zipIdx = (ranked.take k).zipIdx ++ (ranked.drop k).zipIdx k := by
    conv_lhs => rw [← List.take_append_drop k ranked, List.zipIdx_append]
    rw [List.length_take, Nat.min_eq_left (by omega), Nat.zero_add]
  obtain ⟨rest, hrest, hdeferred⟩ := deferred_append (fun row : α × ℕ => key row.1) cap
    (ranked.take k).zipIdx ((ranked.drop k).zipIdx k)
  have hpage : ∀ row ∈ Quota.deferred (fun row : α × ℕ => key row.1) cap (ranked.take k).zipIdx,
      decide (row.2 < k) = true := by
    intro row hrow
    have hmem := (Quota.deferred_sublist _ cap _).subset hrow
    have := List.snd_lt_of_mem_zipIdx hmem
    rw [List.length_take] at this
    exact decide_eq_true (by omega)
  have hbelow : rest.takeWhile (fun row : α × ℕ => decide (row.2 < k)) = [] := by
    cases rest with
    | nil => rfl
    | cons row rest =>
      have := List.le_snd_of_mem_zipIdx (hrest.subset (List.mem_cons_self ..))
      exact List.takeWhile_cons_of_neg (by simpa using this)
  rw [hsplit, hdeferred, List.takeWhile_append_of_pos hpage, hbelow, List.append_nil,
    ← deferred_zipIdx (ranked.take k) 0, List.length_map]

theorem apply_quiet (h : Quiet ranked k cap key) : apply ranked k cap key = (ranked, none) := by
  unfold apply
  by_cases hk : ranked.length ≤ k
  · rw [if_pos hk]
  · have hnone := h.resolve_left hk
    rw [if_neg hk]
    simp only [length_displaced (Nat.lt_of_not_le hk), hnone, List.length_nil, if_true]

/-- A pass that finds a row over quota in the page puts all of them last. -/
theorem apply_fires (h : ¬ Quiet ranked k cap key) :
    (apply ranked k cap key).1 = resliced ranked cap key := by
  obtain ⟨hk, hsome⟩ := not_or.mp h
  have hne : (Quota.deferred key cap (ranked.take k)).length ≠ 0 := by
    simpa using hsome
  unfold apply
  simp only [if_neg hk, length_displaced (Nat.lt_of_not_le hk), if_neg hne, List.map_append,
    taken_zipIdx, deferred_zipIdx]
  rfl

theorem apply_perm (ranked : List α) (k cap : ℕ) (key : α → Option κ) :
    (apply ranked k cap key).1.Perm ranked := by
  by_cases h : Quiet ranked k cap key
  · rw [apply_quiet h]
  · rw [apply_fires h]
    exact resliced_perm

/-- A page with something below it reads as if every row over quota were put last. -/
theorem take_apply (cap : ℕ) (key : α → Option κ) (hk : k < ranked.length) :
    (apply ranked k cap key).1.take k = (resliced ranked cap key).take k := by
  by_cases h : Quiet ranked k cap key
  · have hnone := h.resolve_left (by omega)
    have htaken : Quota.taken key cap (ranked.take k) = ranked.take k :=
      Quota.split_eq_of_deferred_nil hnone
    obtain ⟨rest, -, hrest⟩ := taken_append key cap (ranked.take k)
      (ranked.drop k)
    rw [List.take_append_drop, htaken] at hrest
    have hlen : (ranked.take k).length = k := by
      rw [List.length_take]
      omega
    rw [apply_quiet h, resliced, hrest, List.append_assoc, List.take_left' hlen]
  · rw [apply_fires h]

/-! ### The order of the rows -/

/-- The rows without a key and the first `cap` of each key come first, and then all others. -/
theorem resliced_eq_filter : resliced ranked cap key =
    (ranked.zipIdx.filter (Quota.inQuota key cap ranked)).map Prod.fst ++
      (ranked.zipIdx.filter fun row => !Quota.inQuota key cap ranked row).map Prod.fst := by
  rw [resliced, Quota.taken_eq_filter, Quota.deferred_eq_filter]

theorem not_quiet_of_some {r : Resliced κ} (h : (apply ranked k cap key).2 = some r) :
    ¬ Quiet ranked k cap key := by
  intro hquiet
  rw [apply_quiet hquiet] at h
  cases h

/-- The first `k` places are within the quotas if there are rows enough to fill them. -/
theorem within_take_resliced (hk : k ≤ (Quota.taken key cap ranked).length) :
    Quota.Within key cap ((resliced ranked cap key).take k) := by
  rw [resliced, List.take_append_of_le_length hk]
  exact (Quota.within_taken key cap ranked).sublist (List.take_sublist ..)

/-- A pass that changes the page partitions the rows by their quotas and keeps the order of both
parts. -/
theorem some_stable_partition {r : Resliced κ} (h : (apply ranked k cap key).2 = some r) :
    (apply ranked k cap key).1.Perm ranked ∧
    (apply ranked k cap key).1 =
      (ranked.zipIdx.filter (Quota.inQuota key cap ranked)).map Prod.fst ++
        (ranked.zipIdx.filter fun row => !Quota.inQuota key cap ranked row).map Prod.fst ∧
    (k ≤ ranked.zipIdx.countP (Quota.inQuota key cap ranked) → ∀ s,
      ((apply ranked k cap key).1.take k).countP (fun row => key row = some s) ≤ cap) := by
  have hfires := apply_fires (not_quiet_of_some h)
  refine ⟨apply_perm ranked k cap key, hfires.trans resliced_eq_filter, fun hk => ?_⟩
  have hlen : (Quota.taken key cap ranked).length =
      ranked.zipIdx.countP (Quota.inQuota key cap ranked) := by
    rw [Quota.taken_eq_filter, List.length_map, List.countP_eq_length_filter]
  rw [hfires]
  exact within_take_resliced (hlen ▸ hk)

/-- Of five rows, three of them from one source under a quota of two, the third gives its place to
the row below the page. -/
theorem third_of_source_deferred :
    (apply [(1, some 7), (2, some 7), (3, some 7), (4, none), (5, some 7)] 3 2 Prod.snd).1 =
      [(1, some 7), (2, some 7), (4, none), (3, some 7), (5, some 7)] ∧
    (apply [(1, some 7), (2, some 7), (3, some 7), (4, none), (5, some 7)] 3 2 Prod.snd).1.Perm
      [(1, some 7), (2, some 7), (3, some 7), (4, none), (5, some 7)] :=
  ⟨by decide, (some_stable_partition (r := ⟨1, [7]⟩) rfl).1⟩

/-! ### A pass over all text of a sort, after a pass by key -/

/-- The first `k` of the rows within their quotas. -/
def window (ranked : List α) (k cap : ℕ) (key : α → Option κ) : List α :=
  (Quota.taken key cap ranked).take k

instance (ranked : List α) (k cap : ℕ) (key : α → Option κ) : Decidable (Quiet ranked k cap key) :=
  decidable_of_iff (ranked.length ≤ k ∨ (Quota.deferred key cap (ranked.take k)).isEmpty = true) <|
    or_congr_right List.isEmpty_iff

/-- The rows under the window: as they were ranked if the pass was quiet, and otherwise the rest of
the rows within their quotas before the ones past them. -/
def below (ranked : List α) (k cap : ℕ) (key : α → Option κ) : List α :=
  if Quiet ranked k cap key then ranked.drop k
  else (Quota.taken key cap ranked).drop k ++ Quota.deferred key cap ranked

/-- The rows of the window that a second pass finds over its quota. -/
def surplus (ranked : List α) (k cap : ℕ) (key : α → Option κ) (cap' : ℕ) (sort : α → Option Unit) :
    List α :=
  Quota.deferred sort cap' (window ranked k cap key)

/-- The rows that come up for the surplus: the next ones that are not of the sort. -/
def rising (ranked : List α) (k cap : ℕ) (key : α → Option κ) (cap' : ℕ) (sort : α → Option Unit) :
    List α :=
  ((below ranked k cap key).filter fun row => sort row = none).take
    (surplus ranked k cap key cap' sort).length

/-- Of every key, no more rows come up than it has places left, with those that its surplus
leaves. -/
def Room (ranked : List α) (k cap : ℕ) (key : α → Option κ) (cap' : ℕ) (sort : α → Option Unit) :
    Prop :=
  ∀ s, (rising ranked k cap key cap' sort).countP (fun row => key row = some s) ≤
    (cap - (window ranked k cap key).countP fun row => key row = some s) +
      (surplus ranked k cap key cap' sort).countP fun row => key row = some s

/-- Some `k` of the rows respect both quotas. -/
def Fillable (ranked : List α) (k cap : ℕ) (key : α → Option κ) (cap' : ℕ)
    (sort : α → Option Unit) : Prop :=
  ∃ rows : List α, rows.Subperm ranked ∧ rows.length = k ∧ Quota.Within key cap rows ∧
    Quota.Within sort cap' rows

variable {cap' : ℕ} {sort : α → Option Unit}

theorem apply_eq_window (hk : k < ranked.length) (hfill : k ≤ (Quota.taken key cap ranked).length) :
    (apply ranked k cap key).1 = window ranked k cap key ++ below ranked k cap key := by
  have htake := take_apply cap key hk
  rw [resliced, List.take_append_of_le_length hfill] at htake
  rw [window, ← htake, below]
  by_cases h : Quiet ranked k cap key
  · rw [if_pos h, apply_quiet h, List.take_append_drop]
  · rw [if_neg h, apply_fires h, resliced, List.take_append_of_le_length hfill,
      ← List.append_assoc, List.take_append_drop]

/-- The page after both passes: what the second one keeps of the window, and what rises. -/
theorem take_apply_apply (hk : k < ranked.length) (h : Fillable ranked k cap key cap' sort) :
    (apply (apply ranked k cap key).1 k cap' sort).1.take k =
      Quota.taken sort cap' (window ranked k cap key) ++ rising ranked k cap key cap' sort := by
  obtain ⟨rows, hrows, hlen, hkey, hsort⟩ := h
  have hfill : k ≤ (Quota.taken key cap ranked).length := hlen ▸ Quota.length_le_taken hrows hkey
  have hperm := apply_perm ranked k cap key
  have hfill' : k ≤ (Quota.taken sort cap' (apply ranked k cap key).1).length := by
    have := Quota.length_le_taken (hrows.trans hperm.symm.subperm) hsort
    omega
  have hwindow : (window ranked k cap key).length = k := by
    rw [window, List.length_take]
    omega
  obtain ⟨count', htaken, -, hcount⟩ := Quota.split_append sort cap' (fun _ => 0)
    (window ranked k cap key) (below ranked k cap key)
  have hsizes := (Quota.taken_append_deferred_perm sort cap'
    (window ranked k cap key)).length_eq
  rw [List.length_append, hwindow] at hsizes
  rw [take_apply _ _ (hperm.length_eq ▸ hk), resliced, List.take_append_of_le_length hfill',
    apply_eq_window hk hfill]
  change ((Quota.split sort cap' (fun _ => 0) _).1).take k = _
  rw [htaken]
  change (Quota.taken sort cap' (window ranked k cap key) ++ _).take k = _
  rw [List.take_append, List.take_of_length_le (by omega), rising, surplus]
  have hplaces : k - (Quota.taken sort cap' (window ranked k cap key)).length =
      (Quota.deferred sort cap' (window ranked k cap key)).length := by omega
  rw [hplaces]
  -- rows come up only where the quota of the sort is full, and then none of it follow
  cases hnone : Quota.deferred sort cap' (window ranked k cap key) with
  | nil => simp
  | cons row rows =>
    have hrow : row ∈ Quota.deferred sort cap' (window ranked k cap key) := by
      rw [hnone]
      exact List.mem_cons_self ..
    obtain ⟨s, -, hfull⟩ := Quota.full_of_deferred hrow
    rw [Quota.split_full fun t => by
      rw [hcount, show t = s from rfl]
      exact Nat.le_of_eq (by rw [Nat.zero_add]; exact hfull.symm)]

theorem countP_rising_sort (s : Unit) :
    (rising ranked k cap key cap' sort).countP (fun row => sort row = some s) = 0 := by
  refine List.countP_eq_zero.mpr fun row hrow => ?_
  have hnone := (List.mem_filter.mp ((List.take_sublist ..).subset hrow)).2
  simp [of_decide_eq_true hnone]

/-- A page with all of the rows is left as it came. -/
theorem room_of_short (hk : ranked.length ≤ k) (hkey : Quota.Within key cap ranked)
    (hsort : Quota.Within sort cap' ranked) : Room ranked k cap key cap' sort := by
  have hwindow : window ranked k cap key = ranked := by
    rw [window, Quota.taken, Quota.split_eq_of_deferred_nil (Quota.deferred_eq_nil hkey),
      List.take_of_length_le hk]
  have hsurplus : surplus ranked k cap key cap' sort = [] := by
    rw [surplus, hwindow, Quota.deferred_eq_nil hsort]
  intro s
  simp [rising, hsurplus]

/-- After both passes a page that can be filled keeps the second quota, and the first one exactly if
there is room for what comes up. -/
theorem within_iff_room (h : Fillable ranked k cap key cap' sort) :
    (Quota.Within key cap ((apply (apply ranked k cap key).1 k cap' sort).1.take k) ∧
      Quota.Within sort cap' ((apply (apply ranked k cap key).1 k cap' sort).1.take k)) ↔
      Room ranked k cap key cap' sort := by
  by_cases hk : k < ranked.length
  · have hperm := Quota.taken_append_deferred_perm sort cap'
      (window ranked k cap key)
    have hwindow : Quota.Within key cap (window ranked k cap key) :=
      (Quota.within_taken key cap ranked).sublist (List.take_sublist ..)
    have hsort : Quota.Within sort cap' (Quota.taken sort cap' (window ranked k cap key) ++
        rising ranked k cap key cap' sort) := by
      intro s
      rw [List.countP_append, countP_rising_sort, Nat.add_zero]
      exact Quota.within_taken sort cap' _ s
    rw [take_apply_apply hk h, and_iff_left hsort]
    refine forall_congr' fun s => ?_
    have hcount := hperm.countP_eq fun row => key row = some s
    have := hwindow s
    rw [List.countP_append] at hcount ⊢
    rw [surplus]
    omega
  · obtain ⟨rows, hrows, hlen, hkey, hsort⟩ := h
    have hshort : ranked.length ≤ k := Nat.le_of_not_lt hk
    have hperm : rows.Perm ranked := hrows.perm_of_length_le (by omega)
    have hkey : Quota.Within key cap ranked := fun s => hperm.countP_eq _ ▸ hkey s
    have hsort : Quota.Within sort cap' ranked := fun s => hperm.countP_eq _ ▸ hsort s
    rw [apply_quiet (.inl hshort), apply_quiet (.inl hshort), List.take_of_length_le hshort]
    exact ⟨fun _ => room_of_short hshort hkey hsort, fun _ => ⟨hkey, hsort⟩⟩

end Agmem.Tools.Occupancy
