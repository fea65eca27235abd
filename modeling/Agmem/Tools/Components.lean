import Mathlib.Combinatorics.SimpleGraph.Connectivity.Finite
import Mathlib.Data.List.FinRange
import Mathlib.Data.List.Perm.Basic
import Mathlib.Data.Set.Card
import Mathlib.Data.Set.List
import Mathlib.Order.Bounds.Basic
import Mathlib.Order.CompletePartialOrder
import Agmem.Tools.Consolidate

/-! Clusters as components. The rows of a scan are the vertices of a graph, the close pairs its
edges; a cluster is one component of two rows or more, its first rows listed, and no component is
lost. What is offered as a contradiction is decided by the pair alone. -/

namespace Agmem.Tools.Consolidate

open Core Relational Store Links Relation

/-! ### Similarities -/

/-- The unit form of the vector at an index. -/
def unitAt (sqrt : ℚ → ℚ) (rows : List Embedded) (i : ℕ) : Option UnitVector :=
  rows[i]?.bind fun row => UnitVector.new? sqrt row.embedding

/-- The similarity of two rows, if both vectors have a direction. -/
def similarityAt (sqrt : ℚ → ℚ) (rows : List Embedded) (i j : ℕ) : Option ℚ :=
  (unitAt sqrt rows i).bind fun a => (unitAt sqrt rows j).map a.similarity

variable {sqrt : ℚ → ℚ} {bands : Thresholds} {rows : List Embedded} {i j : ℕ} {s : ℚ}

theorem similarityAt_comm (sqrt : ℚ → ℚ) (rows : List Embedded) (i j : ℕ) :
    similarityAt sqrt rows i j = similarityAt sqrt rows j i := by
  unfold similarityAt
  cases unitAt sqrt rows i with
  | none => cases unitAt sqrt rows j <;> rfl
  | some a =>
    cases unitAt sqrt rows j with
    | none => rfl
    | some b => exact congrArg some (UnitVector.similarity_comm a b)

theorem similarityAt_isSome : (similarityAt sqrt rows i j).isSome = true ↔
    (unitAt sqrt rows i).isSome = true ∧ (unitAt sqrt rows j).isSome = true := by
  unfold similarityAt
  cases unitAt sqrt rows i with
  | none => simp
  | some a => simp

theorem lt_of_unitAt (h : (unitAt sqrt rows i).isSome = true) : i < rows.length := by
  by_contra hi
  simp [unitAt, List.getElem?_eq_none (not_lt.mp hi)] at h

theorem units_getElem (i : ℕ) :
    ((rows.map fun row => UnitVector.new? sqrt row.embedding)[i]?).join = unitAt sqrt rows i := by
  rw [List.getElem?_map, unitAt]
  cases rows[i]? <;> rfl

theorem mem_pairs {n i j : ℕ} : (i, j) ∈ pairs n ↔ i < j ∧ j < n := by
  simp only [pairs, List.mem_flatMap, List.mem_map, List.mem_filter, List.mem_range,
    decide_eq_true_eq, Prod.mk.injEq]
  constructor
  · rintro ⟨_, -, _, ⟨hlt, hlow⟩, rfl, rfl⟩
    exact ⟨hlow, hlt⟩
  · exact fun ⟨hlow, hlt⟩ => ⟨i, hlow.trans hlt, j, ⟨hlt, hlow⟩, rfl, rfl⟩

theorem mem_scores : ((i, j), s) ∈ scores sqrt rows ↔
    i < j ∧ similarityAt sqrt rows i j = some s := by
  simp only [scores, units_getElem, List.mem_filterMap, Option.bind_eq_some_iff,
    Option.map_eq_some_iff, Prod.mk.injEq, similarityAt]
  constructor
  · rintro ⟨k, hk, a, ha, b, hb, rfl, rfl⟩
    exact ⟨(mem_pairs.mp hk).1, a, ha, b, hb, rfl⟩
  · rintro ⟨hlt, a, ha, b, hb, rfl⟩
    have hj : j < rows.length := lt_of_unitAt (Option.isSome_of_mem hb)
    exact ⟨(i, j), mem_pairs.mpr ⟨hlt, hj⟩, a, ha, b, hb, rfl, rfl⟩

theorem mem_of_lookup {α β : Type*} [BEq α] [LawfulBEq α] {l : List (α × β)} {k : α} {b : β}
    (h : l.lookup k = some b) : (k, b) ∈ l := by
  obtain ⟨before, after, rfl, -⟩ := List.lookup_eq_some_iff.mp h
  exact List.mem_append_right _ List.mem_cons_self

/-- The matrix holds the similarity of every pair that has one. -/
theorem lookup_scores (hlt : i < j) :
    (scores sqrt rows).lookup (i, j) = similarityAt sqrt rows i j := by
  cases hl : (scores sqrt rows).lookup (i, j) with
  | some s => exact (mem_scores.mp (mem_of_lookup hl)).2.symm
  | none =>
    cases hs : similarityAt sqrt rows i j with
    | none => rfl
    | some s =>
      have hne := List.lookup_eq_none_iff.mp hl _ (mem_scores.mpr ⟨hlt, hs⟩)
      simp at hne

/-! ### Groups -/

/-- The pairs that are joined. -/
def close (bands : Thresholds) (scores : List ((ℕ × ℕ) × ℚ)) : List (ℕ × ℕ) :=
  (scores.filter fun s => bands.isClusterCandidate s.2).map Prod.fst

theorem mem_close : (i, j) ∈ close bands (scores sqrt rows) ↔
    i < j ∧ ∃ s, similarityAt sqrt rows i j = some s ∧ bands.isClusterCandidate s = true := by
  simp only [close, List.mem_map, List.mem_filter]
  constructor
  · rintro ⟨⟨k, s⟩, ⟨hmem, hclose⟩, hk⟩
    obtain rfl : k = (i, j) := hk
    exact ⟨(mem_scores.mp hmem).1, s, (mem_scores.mp hmem).2, hclose⟩
  · rintro ⟨hlt, s, hs, hclose⟩
    exact ⟨((i, j), s), ⟨mem_scores.mpr ⟨hlt, hs⟩, hclose⟩, rfl⟩

theorem rootsFrom_eq (u : Union) (is : List ℕ) : rootsFrom u is = is.map u.find := by
  induction is generalizing u with
  | nil => rfl
  | cons i is ih =>
    rw [rootsFrom, ih, List.map_cons, Union.root_snd]
    exact congrArg (u.find i :: ·) (List.map_congr_left fun j _ => u.find_root i j)

/-- The indices with the root of `i`. -/
def groupOf (n : ℕ) (u : Union) (i : ℕ) : List ℕ :=
  (List.range n).filter fun j => decide (u.find j = u.find i)

theorem mem_groupOf {n : ℕ} {u : Union} : j ∈ groupOf n u i ↔ j < n ∧ u.find j = u.find i := by
  simp [groupOf]

theorem groupOf_nodup (n : ℕ) (u : Union) (i : ℕ) : (groupOf n u i).Nodup :=
  List.nodup_range.filter _

theorem groupOf_congr {n : ℕ} {u : Union} (h : u.find i = u.find j) :
    groupOf n u i = groupOf n u j := by
  rw [groupOf, groupOf, h]

theorem grouped_eq (n : ℕ) (u : Union) : grouped n u =
    ((List.range n).map u.find).dedup.map fun root =>
      (List.range n).filter fun j => decide (u.find j = root) := by
  have hzip : (List.range n).zip (rootsFrom u (List.range n)) =
      (List.range n).map fun i => (i, u.find i) := by
    rw [rootsFrom_eq]
    nth_rewrite 1 [← List.map_id (List.range n)]
    exact List.zip_map'
  have hgroup (root : ℕ) : (((List.range n).map fun i => (i, u.find i)).filter fun p =>
      decide (p.2 = root)).map Prod.fst =
        (List.range n).filter fun j => decide (u.find j = root) := by
    rw [List.filter_map, List.map_map]
    exact List.map_id _
  simp only [grouped, hzip, hgroup, List.map_map]
  rfl

theorem mem_grouped {n : ℕ} {u : Union} {g : List ℕ} :
    g ∈ grouped n u ↔ ∃ i < n, g = groupOf n u i := by
  simp only [grouped_eq, List.mem_map, List.mem_dedup, List.mem_range]
  constructor
  · rintro ⟨_, ⟨i, hi, rfl⟩, rfl⟩
    exact ⟨i, hi, rfl⟩
  · rintro ⟨i, hi, rfl⟩
    exact ⟨_, ⟨i, hi, rfl⟩, rfl⟩

/-- No group is listed twice: a row has one root. -/
theorem grouped_nodup (n : ℕ) (u : Union) : (grouped n u).Nodup := by
  rw [grouped_eq]
  refine (List.nodup_dedup _).map_on fun r hr t _ h => ?_
  obtain ⟨i, hi, rfl⟩ := List.mem_map.mp (List.mem_dedup.mp hr)
  have hmem : i ∈ (List.range n).filter fun j => decide (u.find j = t) :=
    h ▸ List.mem_filter.mpr ⟨hi, decide_eq_true rfl⟩
  exact of_decide_eq_true (List.mem_filter.mp hmem).2

/-- Two rows are in one group exactly if close pairs link them. -/
theorem find_groups_iff {scores : List ((ℕ × ℕ) × ℚ)} :
    (groups bands scores).find i = (groups bands scores).find j ↔
      EqvGen (fun a b => (a, b) ∈ close bands scores) i j :=
  Union.find_joins_iff

theorem mem_pairsWithin {g : List ℕ} {k : ℕ × ℕ} (hg : g.Nodup) (h : k ∈ pairsWithin g) :
    ∃ a ∈ g, ∃ b ∈ g, a < b ∧ k = (a, b) := by
  induction g with
  | nil => exact absurd h List.not_mem_nil
  | cons left rest ih =>
    obtain ⟨hleft, hrest⟩ := List.nodup_cons.mp hg
    rcases List.mem_append.mp h with h | h
    · obtain ⟨right, hright, rfl⟩ := List.mem_map.mp h
      have hne : left ≠ right := fun heq => hleft (heq ▸ hright)
      rcases lt_or_gt_of_ne hne with hlt | hlt
      · rw [min_eq_left hlt.le, max_eq_right hlt.le]
        exact ⟨left, List.mem_cons_self, right, List.mem_cons_of_mem _ hright, hlt, rfl⟩
      · rw [min_eq_right hlt.le, max_eq_left hlt.le]
        exact ⟨right, List.mem_cons_of_mem _ hright, left, List.mem_cons_self, hlt, rfl⟩
    · obtain ⟨a, ha, b, hb, hlt, hk⟩ := ih hrest h
      exact ⟨a, List.mem_cons_of_mem _ ha, b, List.mem_cons_of_mem _ hb, hlt, hk⟩

/-- A group of two or more has a weakest and a closest pair if each pair has a similarity. -/
theorem extremes_isSome {scores : List ((ℕ × ℕ) × ℚ)} {g : List ℕ} (hlen : 1 < g.length)
    (h : ∀ k ∈ pairsWithin g, ∃ s, (k, s) ∈ scores) : (extremes scores g).isSome = true := by
  have hall : ∀ k ∈ pairsWithin g, (scores.lookup k).isSome = true := by
    intro k hk
    obtain ⟨s, hs⟩ := h k hk
    exact List.lookup_isSome_iff.mpr ⟨(k, s), hs, beq_self_eq_true k⟩
  unfold extremes
  rw [if_pos (List.all_eq_true.mpr hall)]
  split
  · next hnil =>
    obtain ⟨left, right, rest, rfl⟩ : ∃ left right rest, g = left :: right :: rest := by
      cases g with
      | nil => simp at hlen
      | cons left g =>
        cases g with
        | nil => simp at hlen
        | cons right rest => exact ⟨left, right, rest, rfl⟩
    have hk : (min left right, max left right) ∈ pairsWithin (left :: right :: rest) :=
      List.mem_append_left _ (List.mem_map.mpr ⟨right, List.mem_cons_self, rfl⟩)
    obtain ⟨s, hs⟩ := Option.isSome_iff_exists.mp (hall _ hk)
    exact absurd (hnil ▸ List.mem_filterMap.mpr ⟨_, hk, hs⟩) List.not_mem_nil
  · rfl

variable {outside : Outside} {space : SpaceName}

theorem mem_clustersOf {c : Cluster} :
    c ∈ clustersOf outside space rows bands ↔ ∃ i < rows.length,
      1 < (groupOf rows.length (groups bands (scores outside.sqrt rows)) i).length ∧
        clusterOf space rows (scores outside.sqrt rows)
          (groupOf rows.length (groups bands (scores outside.sqrt rows)) i) = some c := by
  simp only [clustersOf, List.mem_insertionSort, List.mem_filterMap, List.mem_filter,
    (outside.perm _).mem_iff, mem_grouped, decide_eq_true_eq]
  constructor
  · rintro ⟨_, ⟨⟨i, hi, rfl⟩, hlen⟩, hc⟩
    exact ⟨i, hi, hlen, hc⟩
  · rintro ⟨i, hi, hlen, hc⟩
    exact ⟨_, ⟨⟨i, hi, rfl⟩, hlen⟩, hc⟩


/-! ### Components -/

/-- The rows, with an edge between two that are close enough to be one claim. -/
def closeGraph (sqrt : ℚ → ℚ) (bands : Thresholds) (rows : List Embedded) :
    SimpleGraph (Fin rows.length) where
  Adj i j := i ≠ j ∧ ∃ s, similarityAt sqrt rows i j = some s ∧ bands.cluster ≤ s
  symm := ⟨fun i j ⟨hne, s, hs, hclose⟩ =>
    ⟨hne.symm, s, similarityAt_comm sqrt rows i j ▸ hs, hclose⟩⟩
  loopless := ⟨fun _ h => h.1 rfl⟩

theorem mem_close_of_adj {i j : Fin rows.length} (h : (closeGraph sqrt bands rows).Adj i j) :
    (i.val, j.val) ∈ close bands (scores sqrt rows) ∨
      (j.val, i.val) ∈ close bands (scores sqrt rows) := by
  obtain ⟨hne, s, hs, hclose⟩ := h
  rcases lt_or_gt_of_ne (Fin.val_ne_of_ne hne) with hlt | hlt
  · exact .inl (mem_close.mpr ⟨hlt, s, hs, decide_eq_true hclose⟩)
  · rw [similarityAt_comm] at hs
    exact .inr (mem_close.mpr ⟨hlt, s, hs, decide_eq_true hclose⟩)

/-- The forest has one root for each component. -/
theorem reachable_iff {i j : Fin rows.length} : (closeGraph sqrt bands rows).Reachable i j ↔
    (groups bands (scores sqrt rows)).find i = (groups bands (scores sqrt rows)).find j := by
  constructor
  · intro h
    rw [SimpleGraph.reachable_iff_reflTransGen] at h
    induction h with
    | refl => rfl
    | tail _ hadj ih =>
      refine ih.trans ?_
      rcases mem_close_of_adj hadj with hclose | hclose
      · exact find_groups_iff.mpr (.rel _ _ hclose)
      · exact (find_groups_iff.mpr (.rel _ _ hclose)).symm
  · intro h
    have hmap := eqvGen_map (f := fun k => if hk : k < rows.length then ⟨k, hk⟩ else i)
      (S := (closeGraph sqrt bands rows).Reachable) (fun a b hab => by
        obtain ⟨hlt, s, hs, hclose⟩ := mem_close.mp hab
        obtain ⟨ha, hb⟩ := similarityAt_isSome.mp (Option.isSome_of_mem hs)
        rw [dif_pos (lt_of_unitAt ha), dif_pos (lt_of_unitAt hb)]
        have hadj : (closeGraph sqrt bands rows).Adj ⟨a, lt_of_unitAt ha⟩ ⟨b, lt_of_unitAt hb⟩ :=
          ⟨fun heq => hlt.ne (congrArg Fin.val heq), s, hs, of_decide_eq_true hclose⟩
        exact hadj.reachable) (find_groups_iff.mp h)
    rw [dif_pos i.isLt, dif_pos j.isLt] at hmap
    exact ((closeGraph sqrt bands rows).reachable_is_equivalence.eqvGen_iff).mp hmap

open Classical in
/-- The rows of a component, the strongest first. -/
noncomputable def indices (C : (closeGraph sqrt bands rows).ConnectedComponent) :
    List (Fin rows.length) :=
  (List.finRange rows.length).filter fun i => decide (i ∈ C.supp)

/-- The rows of a component that its cluster lists. -/
noncomputable def listed (C : (closeGraph sqrt bands rows).ConnectedComponent) :
    List (Fin rows.length) :=
  (indices C).take MAX_CLUSTER_MEMBERS

variable {C : (closeGraph sqrt bands rows).ConnectedComponent}

theorem mem_indices {i : Fin rows.length} : i ∈ indices C ↔ i ∈ C.supp := by
  simp [indices]

theorem indices_sorted (C : (closeGraph sqrt bands rows).ConnectedComponent) :
    (indices C).Pairwise (· < ·) :=
  (List.pairwise_lt_finRange _).filter _

theorem indices_nodup (C : (closeGraph sqrt bands rows).ConnectedComponent) : (indices C).Nodup :=
  (indices_sorted C).imp ne_of_lt

theorem length_indices (C : (closeGraph sqrt bands rows).ConnectedComponent) :
    (indices C).length = C.supp.ncard := by
  have hset : C.supp = ((indices C).toFinset : Set (Fin rows.length)) := by
    ext i
    rw [Finset.mem_coe, List.mem_toFinset, mem_indices]
  rw [hset, Set.ncard_coe_finset, List.toFinset_card_of_nodup (indices_nodup C)]

/-- The group of a row is its component. -/
theorem groupOf_eq (i : Fin rows.length) : groupOf rows.length (groups bands (scores sqrt rows)) i =
    (indices ((closeGraph sqrt bands rows).connectedComponentMk i)).map Fin.val := by
  rw [groupOf, ← List.map_coe_finRange_eq_range, List.filter_map, indices]
  congr 1
  refine List.filter_congr fun j _ => ?_
  simp only [Function.comp_apply, SimpleGraph.ConnectedComponent.mem_supp_iff,
    SimpleGraph.ConnectedComponent.eq, reachable_iff]

/-! ### What a cluster says -/

theorem mem_pairsWithin_iff {g : List ℕ} (hg : g.Nodup) :
    (i, j) ∈ pairsWithin g ↔ i ∈ g ∧ j ∈ g ∧ i < j := by
  constructor
  · intro h
    obtain ⟨a, ha, b, hb, hlt, heq⟩ := mem_pairsWithin hg h
    obtain ⟨rfl, rfl⟩ := Prod.mk.inj heq
    exact ⟨ha, hb, hlt⟩
  · rintro ⟨hi, hj, hlt⟩
    induction g with
    | nil => exact absurd hi List.not_mem_nil
    | cons left rest ih =>
      rw [pairsWithin, List.mem_append, List.mem_map]
      rcases List.mem_cons.mp hi with rfl | hir
      · rcases List.mem_cons.mp hj with rfl | hjr
        · exact absurd hlt (lt_irrefl _)
        · exact .inl ⟨j, hjr, by rw [min_eq_left hlt.le, max_eq_right hlt.le]⟩
      · rcases List.mem_cons.mp hj with rfl | hjr
        · exact .inl ⟨i, hir, by rw [min_eq_right hlt.le, max_eq_left hlt.le]⟩
        · exact .inr (ih (List.nodup_cons.mp hg).2 hir hjr)

theorem isLeast_foldl_min {α : Type*} [LinearOrder α] (a : α) (as : List α) :
    IsLeast {x | x ∈ a :: as} (as.foldl min a) := by
  induction as generalizing a with
  | nil => exact ⟨List.mem_cons_self, fun x hx => (List.mem_singleton.mp hx).ge⟩
  | cons b bs ih =>
    obtain ⟨hmem, hlow⟩ := ih (min a b)
    refine ⟨?_, fun x hx => ?_⟩
    · rcases List.mem_cons.mp hmem with h | h
      · rcases min_choice a b with hmin | hmin
        · exact List.mem_cons.mpr (.inl (h.trans hmin))
        · exact List.mem_cons_of_mem _ (List.mem_cons.mpr (.inl (h.trans hmin)))
      · exact List.mem_cons_of_mem _ (List.mem_cons_of_mem _ h)
    · have hfirst : bs.foldl min (min a b) ≤ min a b := hlow List.mem_cons_self
      rcases List.mem_cons.mp hx with rfl | hx
      · exact hfirst.trans (min_le_left _ _)
      · rcases List.mem_cons.mp hx with rfl | hx
        · exact hfirst.trans (min_le_right _ _)
        · exact hlow (List.mem_cons_of_mem _ hx)

theorem isGreatest_foldl_max {α : Type*} [LinearOrder α] (a : α) (as : List α) :
    IsGreatest {x | x ∈ a :: as} (as.foldl max a) :=
  isLeast_foldl_min (α := αᵒᵈ) a as

/-- The two numbers of a cluster are the least and the greatest similarity of its pairs. -/
theorem extremes_eq_some {scores : List ((ℕ × ℕ) × ℚ)} {g : List ℕ} {e : ℚ × ℚ}
    (h : extremes scores g = some e) :
    (∀ k ∈ pairsWithin g, (scores.lookup k).isSome = true) ∧
      IsLeast {s | ∃ k ∈ pairsWithin g, scores.lookup k = some s} e.1 ∧
      IsGreatest {s | ∃ k ∈ pairsWithin g, scores.lookup k = some s} e.2 := by
  unfold extremes at h
  split_ifs at h with hall
  refine ⟨List.all_eq_true.mp hall, ?_⟩
  split at h
  · cases h
  · next s rest hlist =>
    obtain rfl := Option.some.inj h
    have hset : {s | ∃ k ∈ pairsWithin g, scores.lookup k = some s} = {x | x ∈ s :: rest} := by
      ext x
      rw [Set.mem_ofPred_eq, Set.mem_ofPred_eq, ← hlist, List.mem_filterMap]
    rw [hset]
    exact ⟨isLeast_foldl_min s rest, isGreatest_foldl_max s rest⟩

/-! ### What is reported -/

/-- The similarities of any two rows a component lists. -/
def similarities (C : (closeGraph sqrt bands rows).ConnectedComponent) : Set ℚ :=
  {s | ∃ i ∈ listed C, ∃ j ∈ listed C, i ≠ j ∧ similarityAt sqrt rows i j = some s}

/-- A cluster reports a component: its first rows, and how close any two of them are. -/
structure Reports (space : SpaceName) (C : (closeGraph sqrt bands rows).ConnectedComponent)
    (c : Cluster) : Prop where
  space : c.space = space
  members : c.members = (listed C).map fun i => rows[i].memory
  measured : ∀ i ∈ listed C, ∀ j ∈ listed C, i ≠ j → (similarityAt sqrt rows i j).isSome = true
  weakest : IsLeast (similarities C) c.minSimilarity
  closest : IsGreatest (similarities C) c.maxSimilarity

/-- A row that is not alone in its component has a unit vector. -/
theorem unitAt_of_mem {i : Fin rows.length} (hC : 1 < C.supp.ncard) (hi : i ∈ C.supp) :
    (unitAt sqrt rows i).isSome = true := by
  obtain ⟨j, hj, hne⟩ := Set.exists_ne_of_one_lt_ncard hC i
  have hreach : (closeGraph sqrt bands rows).Reachable i j :=
    SimpleGraph.ConnectedComponent.exact (hi.trans hj.symm)
  rcases eqvGen_touched (find_groups_iff.mp (reachable_iff.mp hreach)) with heq | ⟨⟨k, hk | hk⟩, -⟩
  · exact absurd (Fin.ext heq).symm hne
  · obtain ⟨-, s, hs, -⟩ := mem_close.mp hk
    exact (similarityAt_isSome.mp (Option.isSome_of_mem hs)).1
  · obtain ⟨-, s, hs, -⟩ := mem_close.mp hk
    exact (similarityAt_isSome.mp (Option.isSome_of_mem hs)).2

/-- Any two rows that a component lists have a similarity. -/
theorem similarityAt_of_listed {i j : Fin rows.length} (hC : 1 < C.supp.ncard)
    (hi : i ∈ listed C) (hj : j ∈ listed C) : (similarityAt sqrt rows i j).isSome = true :=
  similarityAt_isSome.mpr ⟨unitAt_of_mem hC (mem_indices.mp (List.mem_of_mem_take hi)),
    unitAt_of_mem hC (mem_indices.mp (List.mem_of_mem_take hj))⟩

/-- The pairs that the extremes are taken over are those of the listed rows. -/
theorem mem_pairsWithin_listed {k : ℕ × ℕ} :
    k ∈ pairsWithin ((listed C).map Fin.val) ↔
      ∃ i ∈ listed C, ∃ j ∈ listed C, i < j ∧ k = (i.val, j.val) := by
  have hnodup : ((listed C).map Fin.val).Nodup :=
    ((indices_nodup C).sublist (List.take_sublist _ _)).map Fin.val_injective
  rw [show k = (k.1, k.2) from rfl, mem_pairsWithin_iff hnodup]
  simp only [List.mem_map]
  constructor
  · rintro ⟨⟨i, hi, hki⟩, ⟨j, hj, hkj⟩, hlt⟩
    exact ⟨i, hi, j, hj, by rwa [← hki, ← hkj] at hlt, by rw [hki, hkj]⟩
  · rintro ⟨i, hi, j, hj, hlt, hk⟩
    obtain ⟨hki, hkj⟩ := Prod.mk.inj hk
    exact ⟨⟨i, hi, hki.symm⟩, ⟨j, hj, hkj.symm⟩, by rw [hki, hkj]; exact hlt⟩

/-- What is looked up for those pairs is how close the listed rows are. -/
theorem lookup_listed (C : (closeGraph sqrt bands rows).ConnectedComponent) :
    {s | ∃ k ∈ pairsWithin ((listed C).map Fin.val), (scores sqrt rows).lookup k = some s} =
      similarities C := by
  ext s
  simp only [Set.mem_ofPred_eq, mem_pairsWithin_listed, similarities]
  constructor
  · rintro ⟨_, ⟨i, hi, j, hj, hlt, rfl⟩, hs⟩
    exact ⟨i, hi, j, hj, hlt.ne, (lookup_scores hlt).symm.trans hs⟩
  · rintro ⟨i, hi, j, hj, hne, hs⟩
    rcases lt_or_gt_of_ne hne with hlt | hlt
    · exact ⟨_, ⟨i, hi, j, hj, hlt, rfl⟩, (lookup_scores hlt).trans hs⟩
    · rw [similarityAt_comm] at hs
      exact ⟨_, ⟨j, hj, i, hi, hlt, rfl⟩, (lookup_scores hlt).trans hs⟩

/-- No component is lost for want of a similarity. -/
theorem clusterOf_reports (space : SpaceName) (hC : 1 < C.supp.ncard) :
    ∃ c, clusterOf space rows (scores sqrt rows) ((indices C).map Fin.val) = some c ∧
      Reports space C c := by
  have htake : ((indices C).map Fin.val).take MAX_CLUSTER_MEMBERS = (listed C).map Fin.val :=
    List.map_take.symm
  have hextremes : (extremes (scores sqrt rows) ((listed C).map Fin.val)).isSome = true := by
    refine extremes_isSome ?_ fun k hk => ?_
    · rw [List.length_map, listed, List.length_take, lt_min_iff, length_indices]
      exact ⟨by decide, hC⟩
    · obtain ⟨i, hi, j, hj, hlt, rfl⟩ := mem_pairsWithin_listed.mp hk
      obtain ⟨s, hs⟩ := Option.isSome_iff_exists.mp (similarityAt_of_listed hC hi hj)
      exact ⟨s, mem_scores.mpr ⟨hlt, hs⟩⟩
  obtain ⟨e, he⟩ := Option.isSome_iff_exists.mp hextremes
  obtain ⟨-, hleast, hgreatest⟩ := extremes_eq_some he
  rw [lookup_listed] at hleast hgreatest
  refine ⟨_, by rw [clusterOf, htake, he, Option.map_some], rfl, ?_,
    fun i hi j hj _ => similarityAt_of_listed hC hi hj, hleast, hgreatest⟩
  rw [List.filterMap_map, ← List.filterMap_eq_map]
  refine List.filterMap_congr fun i _ => ?_
  simp

theorem indices_injective : Function.Injective
    (indices : (closeGraph sqrt bands rows).ConnectedComponent → List (Fin rows.length)) := by
  intro C D h
  obtain ⟨i, hi⟩ := C.nonempty_supp
  have hmem : i ∈ indices D := h ▸ mem_indices.mpr hi
  exact hi.symm.trans (mem_indices.mp hmem)

theorem forall₂_filterMap {α β : Type*} {R : α → β → Prop} {f : α → Option β} {as : List α}
    (h : ∀ a ∈ as, ∃ b, f a = some b ∧ R a b) : List.Forall₂ R as (as.filterMap f) := by
  induction as with
  | nil => exact .nil
  | cons a as ih =>
    obtain ⟨b, hb, hR⟩ := h a List.mem_cons_self
    rw [List.filterMap_cons_some hb]
    exact .cons hR (ih fun a' ha' => h a' (List.mem_cons_of_mem _ ha'))

/-- The groups of two rows or more are the components of two rows or more. -/
theorem exists_components (sqrt : ℚ → ℚ) (bands : Thresholds) (rows : List Embedded)
    {groups' : List (List ℕ)}
    (h : groups'.Perm (grouped rows.length (groups bands (scores sqrt rows)))) :
    ∃ components : List (closeGraph sqrt bands rows).ConnectedComponent, components.Nodup ∧
      (∀ C, C ∈ components ↔ 1 < C.supp.ncard) ∧
      (groups'.filter fun group => decide (1 < group.length)) =
        components.map fun C => (indices C).map Fin.val := by
  have hrange : (groups'.filter fun group => decide (1 < group.length)) ∈
      Set.range (List.map fun C : (closeGraph sqrt bands rows).ConnectedComponent =>
        (indices C).map Fin.val) := by
    rw [Set.range_list_map]
    intro g hg
    obtain ⟨i, hi, rfl⟩ := mem_grouped.mp (h.mem_iff.mp (List.mem_of_mem_filter hg))
    exact ⟨_, (groupOf_eq ⟨i, hi⟩).symm⟩
  obtain ⟨components, hcomponents⟩ := hrange
  have hnodup : (groups'.filter fun group => decide (1 < group.length)).Nodup :=
    (h.nodup_iff.mpr (grouped_nodup _ _)).filter _
  refine ⟨components, List.Nodup.of_map _ (hcomponents ▸ hnodup), fun C => ?_, hcomponents.symm⟩
  have hlength : ((indices C).map Fin.val).length = C.supp.ncard := by
    rw [List.length_map, length_indices]
  have hinjective : Function.Injective fun C : (closeGraph sqrt bands rows).ConnectedComponent =>
      (indices C).map Fin.val :=
    (List.map_injective_iff.mpr Fin.val_injective).comp indices_injective
  rw [← List.mem_map_of_injective hinjective, hcomponents, List.mem_filter, decide_eq_true_eq,
    hlength, and_iff_right_iff_imp]
  intro _
  obtain ⟨i, rfl⟩ := C.exists_rep
  exact h.mem_iff.mpr (mem_grouped.mpr ⟨i, i.isLt, (groupOf_eq i).symm⟩)

/-- The clusters of a scan are its components of two rows or more, whatever order the hash table
gives them in. -/
theorem clustersOf_components (outside : Outside) (space : SpaceName) (rows : List Embedded)
    (bands : Thresholds) :
    ∃ components : List (closeGraph outside.sqrt bands rows).ConnectedComponent,
      components.Pairwise (fun C D => Disjoint C.supp D.supp) ∧
      (∀ C, C ∈ components ↔ 1 < C.supp.ncard) ∧
      List.Forall₂ (Reports space) components (clustersOf outside space rows bands) := by
  obtain ⟨components, hnodup, hmem, hgroups⟩ := exists_components outside.sqrt bands rows
    (outside.perm (grouped rows.length (groups bands (scores outside.sqrt rows))))
  have hreports : List.Forall₂ (Reports space) components
      (components.filterMap fun C =>
        clusterOf space rows (scores outside.sqrt rows) ((indices C).map Fin.val)) :=
    forall₂_filterMap fun C hC => clusterOf_reports space ((hmem C).mp hC)
  obtain ⟨sorted, hsorted, hperm⟩ := List.perm_comp_forall₂
    (List.perm_insertionSort (fun c d : Cluster => d.maxSimilarity ≤ c.maxSimilarity) _)
    hreports.flip
  refine ⟨sorted, ?_, fun C => hperm.mem_iff.trans (hmem C), ?_⟩
  · exact (hperm.nodup_iff.mpr hnodup).imp fun hne =>
      SimpleGraph.pairwise_disjoint_supp_connectedComponent _ hne
  · simp only [clustersOf, hgroups, List.filterMap_map]
    exact hsorted.flip

/-! ### What is offered as a contradiction -/

section

variable [Hashing]

theorem sharedEntities_ne_nil {p q : MemoryRecord} : sharedEntities p q ≠ [] ↔
    ∃ a ∈ p.entities, ∃ b ∈ q.entities, Hashing.toLowercase b = Hashing.toLowercase a := by
  simp [sharedEntities, List.filter_eq_nil_iff]

/-- Two rows close enough to be about one subject, with a subject that both name, up to case. -/
def DisputedAt (sqrt : ℚ → ℚ) (bands : Thresholds) (rows : List Embedded) (i j : Fin rows.length) :
    Prop :=
  (∃ s, similarityAt sqrt rows i j = some s ∧ bands.correctionFloor ≤ s) ∧
    ∃ a ∈ rows[i].memory.entities, ∃ b ∈ rows[j].memory.entities,
      Hashing.toLowercase b = Hashing.toLowercase a

/-- What is said of two rows that are offered. -/
structure OffersPair (sqrt : ℚ → ℚ) (space : SpaceName) (rows : List Embedded)
    (k : Fin rows.length × Fin rows.length) (c : Contradiction) : Prop where
  space : c.space = space
  shared : c.sharedEntities = sharedEntities rows[k.1].memory rows[k.2].memory
  a : c.a = rows[k.1].memory
  b : c.b = rows[k.2].memory
  similarity : similarityAt sqrt rows k.1 k.2 = some c.similarity

/-- The pairs of rows that are compared. -/
def compared (rows : List Embedded) : List (Fin rows.length × Fin rows.length) :=
  (List.finRange rows.length ×ˢ List.finRange rows.length).filter fun k => decide (k.1 < k.2)

omit [Hashing] in
theorem pairs_eq (rows : List Embedded) :
    pairs rows.length = (compared rows).map fun k => (k.1.val, k.2.val) := by
  unfold pairs compared
  rw [← List.map_coe_finRange_eq_range]
  simp only [SProd.sprod, List.product, List.filter_flatMap, List.map_flatMap, List.flatMap_map,
    List.filter_map, List.map_map]
  rfl

/-- What is offered for a pair of rows, if anything is. -/
def offerOf (sqrt : ℚ → ℚ) (space : SpaceName) (bands : Thresholds) (rows : List Embedded)
    (k : Fin rows.length × Fin rows.length) : Option Contradiction :=
  (similarityAt sqrt rows k.1 k.2).bind fun s =>
    contradictionOf space bands rows ((k.1.val, k.2.val), s)

theorem contradictionsOf_eq (outside : Outside) (space : SpaceName) (rows : List Embedded)
    (bands : Thresholds) : contradictionsOf outside space rows bands =
      (compared rows).filterMap (offerOf outside.sqrt space bands rows) := by
  simp only [contradictionsOf, scores, units_getElem, pairs_eq, List.filterMap_map,
    List.filterMap_filterMap]
  refine List.filterMap_congr fun k _ => ?_
  simp only [Function.comp_apply, offerOf, similarityAt, Option.bind_assoc, Option.bind_map]

theorem offerOf_of_disputed {k : Fin rows.length × Fin rows.length} (space : SpaceName)
    (h : DisputedAt sqrt bands rows k.1 k.2) :
    ∃ c, offerOf sqrt space bands rows k = some c ∧ OffersPair sqrt space rows k c := by
  obtain ⟨⟨s, hs, hfloor⟩, hshared⟩ := h
  have hnonempty := sharedEntities_ne_nil.mpr hshared
  refine ⟨⟨space, sharedEntities rows[k.1].memory rows[k.2].memory, rows[k.1].memory,
    rows[k.2].memory, s⟩, ?_, rfl, rfl, rfl, rfl, hs⟩
  simp only [Fin.getElem_fin] at hnonempty
  simp [offerOf, hs, contradictionOf, Thresholds.isContradictionCandidate, hfloor, hnonempty]

theorem disputed_of_offerOf {k : Fin rows.length × Fin rows.length} {space : SpaceName}
    {c : Contradiction} (h : offerOf sqrt space bands rows k = some c) :
    DisputedAt sqrt bands rows k.1 k.2 := by
  obtain ⟨s, hs, hoffer⟩ := Option.bind_eq_some_iff.mp h
  unfold contradictionOf at hoffer
  split_ifs at hoffer with hband
  refine ⟨⟨s, hs, of_decide_eq_true hband⟩, sharedEntities_ne_nil.mp fun hnone => ?_⟩
  simp only [Fin.getElem_fin] at hnone
  simp [hnone] at hoffer

/-- The contradictions of a scan are the disputed pairs, whether or not they also cluster. -/
theorem contradictionsOf_disputed (outside : Outside) (space : SpaceName) (rows : List Embedded)
    (bands : Thresholds) : ∃ disputed : List (Fin rows.length × Fin rows.length),
      disputed.Nodup ∧
      (∀ i j, (i, j) ∈ disputed ↔ i < j ∧ DisputedAt outside.sqrt bands rows i j) ∧
      List.Forall₂ (OffersPair outside.sqrt space rows) disputed
        (contradictionsOf outside space rows bands) := by
  classical
  have hnodup : (compared rows).Nodup :=
    ((List.nodup_finRange _).product (List.nodup_finRange _)).filter _
  have hmem (i j : Fin rows.length) : (i, j) ∈ compared rows ↔ i < j := by
    simp only [compared, List.mem_filter, List.mem_product, List.mem_finRange, true_and,
      decide_eq_true_eq]
  refine ⟨(compared rows).filter fun k => decide (DisputedAt outside.sqrt bands rows k.1 k.2),
    hnodup.filter _, fun i j => ?_, ?_⟩
  · rw [List.mem_filter, hmem, decide_eq_true_eq]
  · have hsame : contradictionsOf outside space rows bands = ((compared rows).filter fun k =>
        decide (DisputedAt outside.sqrt bands rows k.1 k.2)).filterMap
          (offerOf outside.sqrt space bands rows) := by
      rw [contradictionsOf_eq, List.filterMap_filter]
      refine List.filterMap_congr fun k _ => ?_
      split_ifs with hdisputed
      · rfl
      · cases hoffer : offerOf outside.sqrt space bands rows k with
        | none => rfl
        | some c => exact absurd (decide_eq_true (disputed_of_offerOf hoffer)) hdisputed
    rw [hsame]
    exact forall₂_filterMap fun k hk =>
      offerOf_of_disputed space (of_decide_eq_true (List.mem_filter.mp hk).2)

omit [Hashing] in
/-- A row without a unit vector is alone in its component. -/
theorem alone_of_unitAt {i : Fin rows.length} (h : unitAt sqrt rows i = none)
    (hC : 1 < C.supp.ncard) : i ∉ C.supp := by
  intro hi
  have hsome := unitAt_of_mem hC hi
  rw [h] at hsome
  cases hsome

theorem undisputed_of_unitAt {i j : Fin rows.length} (h : unitAt sqrt rows i = none) :
    ¬DisputedAt sqrt bands rows i j ∧ ¬DisputedAt sqrt bands rows j i := by
  have hnone (k : ℕ) : similarityAt sqrt rows i k = none := by
    rw [similarityAt, h, Option.bind_none]
  refine ⟨fun hdisputed => ?_, fun hdisputed => ?_⟩
  · obtain ⟨⟨s, hs, -⟩, -⟩ := hdisputed
    rw [hnone] at hs
    cases hs
  · obtain ⟨⟨s, hs, -⟩, -⟩ := hdisputed
    rw [similarityAt_comm, hnone] at hs
    cases hs

/-- What `compare` reports: the components of two rows or more of the graph of close pairs, and the
disputed pairs. A row whose vector has no unit form is in neither. -/
theorem compare_reports (outside : Outside) (space : SpaceName) (rows : List Embedded)
    (bands : Thresholds) :
    ∃ (components : List (closeGraph outside.sqrt bands rows).ConnectedComponent)
      (disputed : List (Fin rows.length × Fin rows.length)),
      (components.Pairwise (fun C D => Disjoint C.supp D.supp) ∧
        (∀ C, C ∈ components ↔ 1 < C.supp.ncard) ∧
        List.Forall₂ (Reports space) components (clustersOf outside space rows bands)) ∧
      (disputed.Nodup ∧
        (∀ i j, (i, j) ∈ disputed ↔ i < j ∧ DisputedAt outside.sqrt bands rows i j) ∧
        List.Forall₂ (OffersPair outside.sqrt space rows) disputed
          (contradictionsOf outside space rows bands)) ∧
      ∀ i : Fin rows.length, unitAt outside.sqrt rows i = none →
        (∀ C ∈ components, i ∉ C.supp) ∧ ∀ k ∈ disputed, k.1 ≠ i ∧ k.2 ≠ i := by
  obtain ⟨components, hdisjoint, hcomponents, hclusters⟩ :=
    clustersOf_components outside space rows bands
  obtain ⟨disputed, hnodup, hdisputed, hcontradictions⟩ :=
    contradictionsOf_disputed outside space rows bands
  refine ⟨components, disputed, ⟨hdisjoint, hcomponents, hclusters⟩,
    ⟨hnodup, hdisputed, hcontradictions⟩, fun i hi => ⟨fun C hC => ?_, ?_⟩⟩
  · exact alone_of_unitAt hi ((hcomponents C).mp hC)
  · rintro ⟨a, b⟩ hk
    have hab := ((hdisputed a b).mp hk).2
    refine ⟨?_, ?_⟩
    · rintro rfl
      exact (undisputed_of_unitAt hi).1 hab
    · rintro rfl
      exact (undisputed_of_unitAt hi).2 hab

end

end Agmem.Tools.Consolidate
