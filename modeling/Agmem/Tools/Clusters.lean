import Agmem.Tools.Components

/-! The clusters of one space. Two rows are in one group exactly if close pairs link them; a group
always has a similarity for each of its pairs, so it is reported, cut after its first eight rows. A
group is therefore shown whole exactly if it has no more. -/

namespace Agmem.Tools.Consolidate

open Core Relational Store Links Relation

/-- The similarity of two rows, if both vectors have a direction. -/
def measured (sqrt : ℚ → ℚ) (p q : MemoryRecord) : Option ℚ :=
  (p.embedding.bind (UnitVector.new? sqrt)).bind fun a =>
    (q.embedding.bind (UnitVector.new? sqrt)).map a.similarity

/-- A row as the scan returns it, with its vector. -/
def embedded (r : MemoryRecord) : Embedded := ⟨MemoryRecord.read r, r.embedding.getD []⟩

/-- Two rows are close enough to be one claim. -/
def Alike (sqrt : ℚ → ℚ) (bands : Thresholds) (p q : MemoryRecord) : Prop :=
  ∃ s, measured sqrt p q = some s ∧ bands.isClusterCandidate s = true

variable {sqrt : ℚ → ℚ} {bands : Thresholds} {p q : MemoryRecord}

theorem measured_comm (sqrt : ℚ → ℚ) (p q : MemoryRecord) :
    measured sqrt p q = measured sqrt q p := by
  unfold measured
  cases p.embedding.bind (UnitVector.new? sqrt) with
  | none => cases q.embedding.bind (UnitVector.new? sqrt) <;> rfl
  | some a =>
    cases q.embedding.bind (UnitVector.new? sqrt) with
    | none => rfl
    | some b => exact congrArg some (UnitVector.similarity_comm a b)

theorem Alike.symm (h : Alike sqrt bands p q) : Alike sqrt bands q p := by
  obtain ⟨s, hs, hclose⟩ := h
  exact ⟨s, measured_comm sqrt q p ▸ hs, hclose⟩

/-- A row that is measured with another is measured with any that is. -/
theorem measured_isSome {r t : MemoryRecord} (h : (measured sqrt p q).isSome = true)
    (h' : (measured sqrt r t).isSome = true) : (measured sqrt p r).isSome = true := by
  unfold measured at *
  cases hp : p.embedding.bind (UnitVector.new? sqrt) <;>
    cases hr : r.embedding.bind (UnitVector.new? sqrt) <;> simp_all

/-! ### Pairs and their scores -/

/-- The rows of a scan: each has a vector, and an id of its own. -/
structure Rows (rows : List MemoryRecord) : Prop where
  embedded : ∀ r ∈ rows, r.embedding.isSome = true
  ids : (rows.map MemoryRecord.id).Nodup

variable {rows : List MemoryRecord} {i j : ℕ} {s : ℚ}

/-- The unit vector at an index. -/
theorem unitAt_eq_some (h : Rows rows) {a : UnitVector} :
    unitAt sqrt (rows.map embedded) i = some a ↔
      ∃ p, rows[i]? = some p ∧ p.embedding.bind (UnitVector.new? sqrt) = some a := by
  rw [unitAt, List.getElem?_map]
  cases hi : rows[i]? with
  | none => simp
  | some p =>
    obtain ⟨v, hv⟩ := Option.isSome_iff_exists.mp (h.embedded p (List.mem_of_getElem? hi))
    simp [embedded, hv]

theorem similarityAt_eq_some (h : Rows rows) :
    similarityAt sqrt (rows.map embedded) i j = some s ↔
      ∃ p q, rows[i]? = some p ∧ rows[j]? = some q ∧ measured sqrt p q = some s := by
  unfold similarityAt measured
  simp only [Option.bind_eq_some_iff, Option.map_eq_some_iff, unitAt_eq_some h]
  constructor
  · rintro ⟨a, ⟨p, hp, ha⟩, b, ⟨q, hq, hb⟩, rfl⟩
    exact ⟨p, q, hp, hq, a, ha, b, hb, rfl⟩
  · rintro ⟨p, q, hp, hq, a, ha, b, hb, rfl⟩
    exact ⟨a, ⟨p, hp, ha⟩, b, ⟨q, hq, hb⟩, rfl⟩

theorem mem_close_rows (h : Rows rows) : (i, j) ∈ close bands (scores sqrt (rows.map embedded)) ↔
    i < j ∧ ∃ p q, rows[i]? = some p ∧ rows[j]? = some q ∧ Alike sqrt bands p q := by
  simp only [mem_close, similarityAt_eq_some h, Alike]
  constructor
  · rintro ⟨hlt, s, ⟨p, q, hp, hq, hs⟩, hclose⟩
    exact ⟨hlt, p, q, hp, hq, s, hs, hclose⟩
  · rintro ⟨hlt, p, q, hp, hq, s, hs, hclose⟩
    exact ⟨hlt, s, ⟨p, q, hp, hq, hs⟩, hclose⟩

/-! ### Clusters -/

/-- The groups of the rows of a scan. -/
abbrev grouping (sqrt : ℚ → ℚ) (bands : Thresholds) (rows : List MemoryRecord) : Union :=
  groups bands (scores sqrt (rows.map embedded))

/-- A row that is not alone in its group is like some other row. -/
theorem alike_of_grouped (h : Rows rows)
    (hfind : (grouping sqrt bands rows).find i = (grouping sqrt bands rows).find j) (hne : i ≠ j) :
    ∃ k p q, k ≠ i ∧ rows[i]? = some p ∧ rows[k]? = some q ∧ Alike sqrt bands p q := by
  rcases eqvGen_touched (find_groups_iff.mp hfind) with heq | ⟨⟨k, hk | hk⟩, -⟩
  · exact absurd heq hne
  · obtain ⟨hlt, p, q, hp, hq, halike⟩ := (mem_close_rows h).mp hk
    exact ⟨k, p, q, hlt.ne', hp, hq, halike⟩
  · obtain ⟨hlt, q, p, hq, hp, halike⟩ := (mem_close_rows h).mp hk
    exact ⟨k, p, q, hlt.ne, hp, hq, halike.symm⟩

theorem Alike.isSome (h : Alike sqrt bands p q) : (measured sqrt p q).isSome = true := by
  obtain ⟨s, hs, -⟩ := h
  rw [hs]
  rfl

/-- Any two rows of one group have a similarity. -/
theorem exists_score (h : Rows rows)
    (hfind : (grouping sqrt bands rows).find i = (grouping sqrt bands rows).find j) (hlt : i < j) :
    ∃ s, ((i, j), s) ∈ scores sqrt (rows.map embedded) := by
  obtain ⟨-, p, t, -, hp, -, hpt⟩ := alike_of_grouped h hfind hlt.ne
  obtain ⟨-, q, t', -, hq, -, hqt⟩ := alike_of_grouped h hfind.symm hlt.ne'
  obtain ⟨s, hs⟩ := Option.isSome_iff_exists.mp (measured_isSome hpt.isSome hqt.isSome)
  exact ⟨s, mem_scores.mpr ⟨hlt, (similarityAt_eq_some h).mpr ⟨p, q, hp, hq, hs⟩⟩⟩

variable {space : SpaceName}

/-- No group is lost for want of a similarity. -/
theorem clusterOf_isSome (h : Rows rows)
    (hlen : 1 < (groupOf rows.length (grouping sqrt bands rows) i).length) :
    (clusterOf space (rows.map embedded) (scores sqrt (rows.map embedded))
      (groupOf rows.length (grouping sqrt bands rows) i)).isSome = true := by
  have hnodup := groupOf_nodup rows.length (grouping sqrt bands rows) i
  rw [clusterOf, Option.isSome_map]
  refine extremes_isSome ?_ fun k hk => ?_
  · rw [List.length_take, lt_min_iff]
    exact ⟨by decide, hlen⟩
  · obtain ⟨a, ha, b, hb, hlt, rfl⟩ :=
      mem_pairsWithin (hnodup.sublist (List.take_sublist _ _)) hk
    have ha := (mem_groupOf.mp (List.mem_of_mem_take ha)).2
    have hb := (mem_groupOf.mp (List.mem_of_mem_take hb)).2
    exact exists_score h (ha.trans hb.symm) hlt

/-- The rows a cluster lists. -/
theorem mem_clusterOf {g : List ℕ} {c : Cluster} {scores : List ((ℕ × ℕ) × ℚ)}
    (hc : clusterOf space (rows.map embedded) scores g = some c) {id : MemoryId} :
    id ∈ c.members.map MemoryRecord.id ↔
      ∃ k ∈ g.take MAX_CLUSTER_MEMBERS, ∃ r, rows[k]? = some r ∧ r.id = id := by
  obtain ⟨e, -, rfl⟩ := Option.map_eq_some_iff.mp hc
  simp only [List.mem_map, List.mem_filterMap, List.getElem?_map, Option.map_eq_some_iff]
  constructor
  · rintro ⟨_, ⟨k, hk, _, ⟨r, hr, rfl⟩, rfl⟩, rfl⟩
    exact ⟨k, hk, r, hr, rfl⟩
  · rintro ⟨k, hk, r, hr, rfl⟩
    exact ⟨_, ⟨k, hk, _, ⟨r, hr, rfl⟩, rfl⟩, rfl⟩

variable {outside : Outside}

/-! ### When a group is shown whole -/

theorem find_of_alike (h : Rows rows) (hp : rows[i]? = some p) (hq : rows[j]? = some q)
    (halike : Alike sqrt bands p q) :
    (grouping sqrt bands rows).find i = (grouping sqrt bands rows).find j := by
  rcases lt_trichotomy i j with hlt | rfl | hlt
  · exact find_groups_iff.mpr (.rel _ _ ((mem_close_rows h).mpr ⟨hlt, p, q, hp, hq, halike⟩))
  · rfl
  · exact (find_groups_iff.mpr
      (.rel _ _ ((mem_close_rows h).mpr ⟨hlt, q, p, hq, hp, halike.symm⟩))).symm

theorem index_unique (h : Rows rows) (hp : rows[i]? = some p) (hq : rows[j]? = some q)
    (hid : p.id = q.id) : i = j := by
  have hi : i < (rows.map MemoryRecord.id).length := by
    rw [List.length_map]
    exact (List.getElem?_eq_some_iff.mp hp).1
  refine (List.getElem?_inj hi h.ids).mp ?_
  rw [List.getElem?_map, List.getElem?_map, hp, hq, Option.map_some, Option.map_some, hid]

/-- A cluster shows every two rows that are alike. -/
def Shows (sqrt : ℚ → ℚ) (bands : Thresholds) (rows : List MemoryRecord)
    (clusters : List Cluster) : Prop :=
  ∀ p ∈ rows, ∀ q ∈ rows, p.id ≠ q.id → Alike sqrt bands p q →
    ∃ c ∈ clusters, p.id ∈ c.members.map MemoryRecord.id ∧ q.id ∈ c.members.map MemoryRecord.id

/-- What a cluster that holds a row was cut from is that row's group. -/
theorem mem_take_of_shown (h : Rows rows) {c : Cluster} (hp : rows[i]? = some p)
    (hc : c ∈ clustersOf outside space (rows.map embedded) bands)
    (hmem : p.id ∈ c.members.map MemoryRecord.id) :
    i ∈ (groupOf rows.length (grouping outside.sqrt bands rows) i).take MAX_CLUSTER_MEMBERS := by
  obtain ⟨j, -, -, hcluster⟩ := mem_clustersOf.mp hc
  rw [List.length_map] at hcluster
  obtain ⟨k, hk, r, hr, hid⟩ := (mem_clusterOf hcluster).mp hmem
  obtain rfl := index_unique h hr hp hid
  rwa [groupOf_congr (mem_groupOf.mp (List.mem_of_mem_take hk)).2]

theorem find_getElem {n k : ℕ} {u : Union} (hk : k < (groupOf n u i).length) :
    u.find (groupOf n u i)[k] = u.find i :=
  (mem_groupOf.mp (List.getElem_mem hk)).2

theorem one_lt_length {g : List ℕ} (hi : i ∈ g) (hj : j ∈ g) (hne : i ≠ j) : 1 < g.length := by
  have hpair : [i, j].Nodup := by simpa using hne
  exact (hpair.subperm fun k hk => by rcases List.mem_pair.mp hk with rfl | rfl <;> assumption)
    |>.length_le

theorem getElem_not_mem_take {g : List ℕ} (hg : g.Nodup) {m : ℕ} (hm : m < g.length) :
    g[m] ∉ g.take m := by
  have hdrop : g[m] ∈ g.drop m := List.mem_drop_iff_getElem.mpr ⟨0, by simpa using hm, by simp⟩
  exact fun htake => List.disjoint_take_drop hg le_rfl htake hdrop

/-- The first row that is cut off is like some row, and no other cluster has it. -/
theorem length_le_of_shows (h : Rows rows)
    (hshows : Shows outside.sqrt bands rows (clustersOf outside space (rows.map embedded) bands))
    (i : ℕ) : (groupOf rows.length (grouping outside.sqrt bands rows) i).length ≤
      MAX_CLUSTER_MEMBERS := by
  by_contra hmore
  have hlt := not_le.mp hmore
  have hnodup := groupOf_nodup rows.length (grouping outside.sqrt bands rows) i
  have hfirst := find_getElem ((Nat.zero_le _).trans_lt hlt)
  have hcut := find_getElem hlt
  have hne : (groupOf rows.length (grouping outside.sqrt bands rows) i)[MAX_CLUSTER_MEMBERS] ≠
      (groupOf rows.length (grouping outside.sqrt bands rows) i)[0] := fun heq =>
    absurd (hnodup.getElem_inj_iff.mp heq) (by decide)
  obtain ⟨k, p, q, hk, hp, hq, halike⟩ := alike_of_grouped h (hcut.trans hfirst.symm) hne
  have hid : p.id ≠ q.id := fun hid => hk (index_unique h hp hq hid).symm
  obtain ⟨c, hc, hpc, -⟩ :=
    hshows p (List.mem_of_getElem? hp) q (List.mem_of_getElem? hq) hid halike
  have htake := mem_take_of_shown h hp hc hpc
  rw [groupOf_congr hcut] at htake
  exact getElem_not_mem_take hnodup hlt htake

/-- A group that a cluster holds is shown with all its rows. -/
theorem shows_of_length_le (h : Rows rows) (hsmall : ∀ i < rows.length,
    (groupOf rows.length (grouping outside.sqrt bands rows) i).length ≤ MAX_CLUSTER_MEMBERS) :
    Shows outside.sqrt bands rows (clustersOf outside space (rows.map embedded) bands) := by
  intro p hp q hq hne halike
  obtain ⟨i, hi, hpi⟩ := List.mem_iff_getElem.mp hp
  obtain ⟨j, hj, hqj⟩ := List.mem_iff_getElem.mp hq
  have hp := List.getElem?_eq_some_iff.mpr ⟨hi, hpi⟩
  have hq := List.getElem?_eq_some_iff.mpr ⟨hj, hqj⟩
  have hfind := find_of_alike h hp hq halike
  have hmem : i ∈ groupOf rows.length (grouping outside.sqrt bands rows) i :=
    mem_groupOf.mpr ⟨hi, rfl⟩
  have hmem' : j ∈ groupOf rows.length (grouping outside.sqrt bands rows) i :=
    mem_groupOf.mpr ⟨hj, hfind.symm⟩
  have hij : i ≠ j := by
    rintro rfl
    exact hne (congrArg MemoryRecord.id (Option.some.inj (hp.symm.trans hq)))
  have hlen : 1 < (groupOf rows.length (grouping outside.sqrt bands rows) i).length :=
    one_lt_length hmem hmem' hij
  have hsome : (clusterOf space (rows.map embedded) (scores outside.sqrt (rows.map embedded))
    (groupOf rows.length (grouping outside.sqrt bands rows) i)).isSome = true :=
    clusterOf_isSome h hlen
  obtain ⟨c, hc⟩ := Option.isSome_iff_exists.mp hsome
  have htake := List.take_of_length_le (hsmall i hi)
  refine ⟨c, mem_clustersOf.mpr ⟨i, by simpa using hi, ?_⟩, ?_, ?_⟩
  · rw [List.length_map]
    exact ⟨hlen, hc⟩
  · exact (mem_clusterOf hc).mpr ⟨i, by rwa [htake], p, hp, rfl⟩
  · exact (mem_clusterOf hc).mpr ⟨j, by rwa [htake], q, hq, rfl⟩

/-- The pairs are all shown exactly if no group is larger than a cluster. -/
theorem shows_iff (h : Rows rows) :
    Shows outside.sqrt bands rows (clustersOf outside space (rows.map embedded) bands) ↔
      ∀ i < rows.length, (groupOf rows.length (grouping outside.sqrt bands rows) i).length ≤
        MAX_CLUSTER_MEMBERS :=
  ⟨fun hshows i _ => length_le_of_shows h hshows i, shows_of_length_le h⟩

/-! ### Linked rows -/

/-- Two rows are linked by rows of which each is like the next. -/
def Linked (sqrt : ℚ → ℚ) (bands : Thresholds) (rows : List MemoryRecord) :
    MemoryRecord → MemoryRecord → Prop :=
  EqvGen fun p q => p ∈ rows ∧ q ∈ rows ∧ Alike sqrt bands p q

theorem Linked.mem (h : Linked sqrt bands rows p q) (hp : p ∈ rows) : q ∈ rows := by
  rcases eqvGen_touched h with rfl | ⟨-, c, hc | hc⟩
  · exact hp
  · exact hc.1
  · exact hc.2.1

/-- Rows are linked exactly if their indices are in one group. -/
theorem linked_iff (h : Rows rows) (hp : rows[i]? = some p) (hq : rows[j]? = some q) :
    Linked sqrt bands rows p q ↔
      (grouping sqrt bands rows).find j = (grouping sqrt bands rows).find i := by
  constructor
  · intro hlinked
    -- A row is labelled with the root of its index.
    have hlabel {r : MemoryRecord} {k : ℕ} (hr : rows[k]? = some r) :
        (rows.map MemoryRecord.id).idxOf r.id = k := by
      have hmem : r.id ∈ rows.map MemoryRecord.id :=
        List.mem_map_of_mem (List.mem_of_getElem? hr)
      refine (List.getElem?_inj (List.idxOf_lt_length_of_mem hmem) h.ids).mp ?_
      rw [List.getElem?_idxOf hmem, List.getElem?_map, hr, Option.map_some]
    have hsame := eq_of_eqvGen (f := fun r : MemoryRecord =>
      (grouping sqrt bands rows).find ((rows.map MemoryRecord.id).idxOf r.id)) (fun a b hab => by
        obtain ⟨k, hk, hak⟩ := List.mem_iff_getElem.mp hab.1
        obtain ⟨l, hl, hbl⟩ := List.mem_iff_getElem.mp hab.2.1
        have ha := List.getElem?_eq_some_iff.mpr ⟨hk, hak⟩
        have hb := List.getElem?_eq_some_iff.mpr ⟨hl, hbl⟩
        rw [hlabel ha, hlabel hb]
        exact find_of_alike h ha hb hab.2.2) hlinked
    simpa only [hlabel hp, hlabel hq] using hsame.symm
  · intro hfind
    have hmap := eqvGen_map (f := fun k => (rows[k]?).getD p)
      (S := fun p q => p ∈ rows ∧ q ∈ rows ∧ Alike sqrt bands p q) (fun a b hab => by
        obtain ⟨-, r, t, hr, ht, halike⟩ := (mem_close_rows h).mp hab
        simp only [hr, ht, Option.getD_some]
        exact ⟨List.mem_of_getElem? hr, List.mem_of_getElem? ht, halike⟩)
      (find_groups_iff.mp hfind.symm)
    simp only [hp, hq, Option.getD_some] at hmap
    exact hmap

/-- A group has one index for each row linked to one of its rows. -/
theorem ncard_linked (h : Rows rows) (hp : rows[i]? = some p) :
    {q | Linked sqrt bands rows p q}.ncard =
      (groupOf rows.length (grouping sqrt bands rows) i).length := by
  have himage : {q | Linked sqrt bands rows p q} = Set.image (fun k => (rows[k]?).getD p)
      ((groupOf rows.length (grouping sqrt bands rows) i).toFinset : Set ℕ) := by
    ext q
    simp only [Set.mem_ofPred_eq, Set.mem_image, Finset.mem_coe, List.mem_toFinset, mem_groupOf]
    constructor
    · intro hlinked
      obtain ⟨k, hk, hqk⟩ := List.mem_iff_getElem.mp (hlinked.mem (List.mem_of_getElem? hp))
      have hq := List.getElem?_eq_some_iff.mpr ⟨hk, hqk⟩
      exact ⟨k, ⟨hk, (linked_iff h hp hq).mp hlinked⟩, by rw [hq, Option.getD_some]⟩
    · rintro ⟨k, ⟨hk, hfind⟩, rfl⟩
      have hq := List.getElem?_eq_getElem hk
      rw [hq, Option.getD_some]
      exact (linked_iff h hp hq).mpr hfind
  have hinj : Set.InjOn (fun k => (rows[k]?).getD p)
      ((groupOf rows.length (grouping sqrt bands rows) i).toFinset : Set ℕ) := by
    intro a ha b hb hab
    rw [Finset.mem_coe, List.mem_toFinset] at ha hb
    have hra := List.getElem?_eq_getElem (mem_groupOf.mp ha).1
    have hrb := List.getElem?_eq_getElem (mem_groupOf.mp hb).1
    simp only [hra, hrb, Option.getD_some] at hab
    exact index_unique h hra hrb (congrArg MemoryRecord.id hab)
  rw [himage, hinj.ncard_image, Set.ncard_coe_finset,
    List.toFinset_card_of_nodup (groupOf_nodup _ _ _)]

/-- The pairs are all shown exactly if no row is linked to more than a cluster holds. -/
theorem shows_iff_ncard (h : Rows rows) :
    Shows outside.sqrt bands rows (clustersOf outside space (rows.map embedded) bands) ↔
      ∀ p ∈ rows, {q | Linked outside.sqrt bands rows p q}.ncard ≤ MAX_CLUSTER_MEMBERS := by
  rw [shows_iff h]
  constructor
  · intro hsmall p hp
    obtain ⟨i, hi, hpi⟩ := List.mem_iff_getElem.mp hp
    rw [ncard_linked h (List.getElem?_eq_some_iff.mpr ⟨hi, hpi⟩)]
    exact hsmall i hi
  · intro hsmall i hi
    rw [← ncard_linked h (List.getElem?_eq_getElem hi)]
    exact hsmall _ (List.getElem_mem hi)

end Agmem.Tools.Consolidate
