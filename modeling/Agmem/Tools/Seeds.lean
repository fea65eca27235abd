import Agmem.Ranking.Stable
import Agmem.Tools.Hop
import Mathlib.Tactic.Linarith

/-! The entities a hop starts from. The fold over the top rows counts each row once for an entity,
and a row that repeats one counts no more. -/

namespace Agmem.Tools.Hop

open Core Ranking

/-- How many rows name the entity. -/
def rowsNaming (rows : List (List Text)) (entity : Text) : ℕ :=
  rows.countP fun list => decide (entity ∈ list)

/-- An entity that more rows name, or as many and it was seen first. -/
def Stronger (rows : List (List Text)) (a b : Text) : Prop :=
  rowsNaming rows b < rowsNaming rows a ∨
    rowsNaming rows b = rowsNaming rows a ∧ rows.flatten.idxOf a < rows.flatten.idxOf b

/-- The entities a pool hops on. -/
def seedsOf (pool : List (List Text)) : List Text := seeds (pool.take SEED_HITS) (hubs pool)

/-! ### The count -/

/-- The entities of a list in the order they were first seen, with what they count. -/
def tally (l : List Text) (f : Text → ℕ) : List (Text × ℕ) := l.eraseDups.map fun n => (n, f n)

theorem credit_tally {l : List Text} {f : Text → ℕ} (e : Text) (hf : ∀ n, n ∉ l → f n = 0) :
    credit (tally l f) e = tally (l ++ [e]) fun n => f n + if n = e then 1 else 0 := by
  have hany : (tally l f).any (fun entry => decide (entry.1 = e)) = true ↔ e ∈ l := by
    simp [tally]
  unfold credit
  by_cases he : e ∈ l
  · rw [if_pos (hany.mpr he), tally, tally, Stable.eraseDups_concat_of_mem he, List.map_map]
    refine List.map_congr_left fun n _ => ?_
    by_cases hn : n = e
    · simp [hn]
    · simp [hn]
  · rw [if_neg (fun h => he (hany.mp h)), tally, tally, Stable.eraseDups_concat_of_not_mem he,
      List.map_append]
    congr 1
    · refine List.map_congr_left fun n hn => ?_
      have hne : n ≠ e := fun h => he (h ▸ List.mem_eraseDups.mp hn)
      rw [if_neg hne, add_zero]
    · simp [hf e he]

theorem foldl_credit (es : List Text) {l : List Text} {f : Text → ℕ} (hf : ∀ n, n ∉ l → f n = 0) :
    es.foldl credit (tally l f) = tally (l ++ es) fun n => f n + es.count n := by
  induction es generalizing l f with
  | nil => simp
  | cons e es ih =>
    have hnext : ∀ n, n ∉ l ++ [e] → (f n + if n = e then 1 else 0) = 0 := by
      intro n hn
      rw [List.mem_append, List.mem_singleton, not_or] at hn
      rw [hf n hn.1, if_neg hn.2]
    rw [List.foldl_cons, credit_tally e hf, ih hnext, List.append_assoc, List.singleton_append]
    congr 1
    funext n
    by_cases hn : e = n
    · rw [hn, List.count_cons_self, if_pos rfl]
      omega
    · rw [List.count_cons_of_ne hn, if_neg (Ne.symm hn), Nat.add_zero]

/-- After some rows, each entity counts the rows that name it. -/
theorem foldl_rows (rows before : List (List Text)) :
    rows.foldl (fun ranked list => list.eraseDups.foldl credit ranked)
        (tally before.flatten (rowsNaming before)) =
      tally (before ++ rows).flatten (rowsNaming (before ++ rows)) := by
  induction rows generalizing before with
  | nil => rw [List.append_nil]; rfl
  | cons list rows ih =>
    have hzero : ∀ n, n ∉ before.flatten → rowsNaming before n = 0 := by
      intro n hn
      refine List.countP_eq_zero.mpr fun row hrow hmem => hn ?_
      exact List.mem_flatten.mpr ⟨row, hrow, of_decide_eq_true hmem⟩
    have hstep : list.eraseDups.foldl credit (tally before.flatten (rowsNaming before)) =
        tally (before ++ [list]).flatten (rowsNaming (before ++ [list])) := by
      rw [foldl_credit _ hzero, tally, Stable.eraseDups_append_eraseDups, tally]
      rw [List.flatten_append, List.flatten_singleton]
      refine List.map_congr_left fun n _ => ?_
      rw [rowsNaming, rowsNaming, List.countP_append, List.countP_singleton,
        (Stable.nodup_eraseDups list).count]
      simp
    rw [List.foldl_cons, hstep, ih, List.append_assoc, List.singleton_append]

/-- The seeds are the first of the named entities that are no hubs, by the rows that name them. -/
theorem seeds_eq (top : List (List Text)) (hubs : List Text) : seeds top hubs =
    ((top.flatten.eraseDups.filter fun n => decide (n ∉ hubs)).insertionSort
      fun a b => rowsNaming top b ≤ rowsNaming top a).take SEED_CAP := by
  have hranked := foldl_rows top []
  have hnil : tally ([] : List (List Text)).flatten (rowsNaming []) = [] := rfl
  rw [hnil, List.nil_append] at hranked
  unfold seeds
  dsimp only
  rw [hranked, tally, List.filter_map]
  have hsort := List.map_insertionSort (fun a b => rowsNaming top b ≤ rowsNaming top a)
    (fun a b : Text × ℕ => b.2 ≤ a.2) (fun n => (n, rowsNaming top n))
    (top.flatten.eraseDups.filter fun n => decide (n ∉ hubs)) fun _ _ _ _ => Iff.rfl
  change (((((top.flatten.eraseDups.filter fun n => decide (n ∉ hubs)).map
    fun n => (n, rowsNaming top n)).insertionSort fun a b => b.2 ≤ a.2).take SEED_CAP).map
      Prod.fst) = _
  rw [← hsort, ← List.map_take, List.map_map]
  exact List.map_id _

/-! ### The seeds of a pool -/

theorem mem_hubs_iff {pool : List (List Text)} {entity : Text} : entity ∈ hubs pool ↔
    HUB_MIN_POOL ≤ pool.length ∧ pool.length ≤ 2 * rowsNaming pool entity := by
  have hshare (n : ℕ) : HUB_SHARE * pool.length ≤ (n : ℚ) ↔ pool.length ≤ 2 * n := by
    rw [← Nat.cast_le (α := ℚ), Nat.cast_mul, HUB_SHARE]
    constructor
    · intro h
      push_cast
      linarith
    · intro h
      push_cast at h
      linarith
  unfold hubs
  split_ifs with hsmall
  · exact iff_of_false List.not_mem_nil fun h => absurd h.1 (by omega)
  · rw [List.mem_filter, decide_eq_true_eq, hshare, List.mem_eraseDups]
    constructor
    · rintro ⟨-, h⟩
      exact ⟨by omega, h⟩
    · rintro ⟨hmin, h⟩
      have hpos : 0 < rowsNaming pool entity := by
        unfold HUB_MIN_POOL at hmin
        omega
      obtain ⟨row, hrow, hmem⟩ := List.countP_pos_iff.mp hpos
      exact ⟨List.mem_flatten.mpr ⟨row, hrow, of_decide_eq_true hmem⟩, h⟩

/-- All candidates for a seed, strongest first. -/
def byRows (top : List (List Text)) (hubs : List Text) : List Text :=
  (top.flatten.eraseDups.filter fun n => decide (n ∉ hubs)).insertionSort
    fun a b => rowsNaming top b ≤ rowsNaming top a

theorem mem_byRows {top : List (List Text)} {hubs : List Text} {entity : Text} :
    entity ∈ byRows top hubs ↔ (∃ row ∈ top, entity ∈ row) ∧ entity ∉ hubs := by
  rw [byRows, List.mem_insertionSort, List.mem_filter, List.mem_eraseDups, List.mem_flatten,
    decide_eq_true_eq]

theorem pairwise_byRows (top : List (List Text)) (hubs : List Text) :
    (byRows top hubs).Pairwise (Stronger top) := by
  have : Std.Total fun a b => rowsNaming top b ≤ rowsNaming top a := ⟨fun a b => Nat.le_total _ _⟩
  have : IsTrans Text fun a b => rowsNaming top b ≤ rowsNaming top a :=
    ⟨fun a b c h h' => Nat.le_trans h' h⟩
  have hfirst := (Stable.pairwise_eraseDups top.flatten).filter fun n => decide (n ∉ hubs)
  refine (Stable.pairwise_insertionSort
    (r := fun a b => rowsNaming top b ≤ rowsNaming top a) hfirst).imp ?_
  rintro a b ⟨hle, htie⟩
  rcases Nat.lt_or_eq_of_le hle with hlt | heq
  · exact .inl hlt
  · exact .inr ⟨heq, htie heq.ge⟩

/-- The seeds of a pool are its five strongest entities among those of the top rows that are no
hubs, and the hubs are what half of a pool of eight rows or more names. -/
theorem seeds_ranked (pool : List (List Text)) :
    (seedsOf pool).length ≤ SEED_CAP ∧ (seedsOf pool).Nodup ∧
    (∀ e ∈ seedsOf pool, (∃ row ∈ pool.take SEED_HITS, e ∈ row) ∧ e ∉ hubs pool) ∧
    (seedsOf pool).Pairwise (Stronger (pool.take SEED_HITS)) ∧
    (∀ e, (∃ row ∈ pool.take SEED_HITS, e ∈ row) → e ∉ hubs pool → e ∉ seedsOf pool →
      (seedsOf pool).length = SEED_CAP ∧
        ∀ s ∈ seedsOf pool, Stronger (pool.take SEED_HITS) s e) ∧
    ∀ e, e ∈ hubs pool ↔
      HUB_MIN_POOL ≤ pool.length ∧ pool.length ≤ 2 * rowsNaming pool e := by
  have hsplit := List.take_append_drop SEED_CAP (byRows (pool.take SEED_HITS) (hubs pool))
  have hseeds : (byRows (pool.take SEED_HITS) (hubs pool)).take SEED_CAP = seedsOf pool :=
    (seeds_eq (pool.take SEED_HITS) (hubs pool)).symm
  have horder := pairwise_byRows (pool.take SEED_HITS) (hubs pool)
  rw [← hsplit, hseeds, List.pairwise_append] at horder
  rw [hseeds] at hsplit
  refine ⟨?_, ?_, ?_, horder.1, ?_, fun e => mem_hubs_iff⟩
  · rw [← hseeds, List.length_take]
    exact Nat.min_le_left _ _
  · refine horder.1.imp fun {a b} h (heq : a = b) => ?_
    subst heq
    rcases h with h | ⟨-, h⟩ <;> exact absurd h (Nat.lt_irrefl _)
  · intro e he
    refine mem_byRows.mp ?_
    rw [← hsplit]
    exact List.mem_append_left _ he
  · intro e hrow hhub he
    have hmem : e ∈ byRows (pool.take SEED_HITS) (hubs pool) := mem_byRows.mpr ⟨hrow, hhub⟩
    rw [← hsplit] at hmem
    have hbelow := (List.mem_append.mp hmem).resolve_left he
    refine ⟨?_, fun s hs => horder.2.2 s hs e hbelow⟩
    have := List.length_pos_of_mem hbelow
    rw [List.length_drop] at this
    rw [← hseeds, List.length_take]
    omega

end Agmem.Tools.Hop
