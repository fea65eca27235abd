import Agmem.Core.Scoring
import Agmem.Ranking.Stable
import Mathlib.Order.Bounds.Basic
import Mathlib.Tactic.FieldSimp
import Mathlib.Tactic.Linarith
import Mathlib.Tactic.Ring

/-! What the order of a pool depends on. A match is measured against the weakest and the best one
of its pool, so scores do not depend on the scale of the matches, nor on a candidate that is
neither weaker nor better than all the others. -/

namespace Agmem.Core.Scoring

open Ranking

variable {α : Type*}

/-- The matches of a pool. -/
def rrfs (candidates : List (α × Signals)) : Set ℚ := {x | ∃ c ∈ candidates, c.2.rrf = x}

/-- The candidates with their scores, in the order they came in. -/
def scored (candidates : List (α × Signals)) : List (α × Ranked) :=
  candidates.map fun c => (c.1, (Pool.of (candidates.map Prod.snd)).ranked c.2)

/-- The same candidate with its match on another scale. -/
def rescaled (a b : ℚ) (c : α × Signals) : α × Signals :=
  (c.1, { c.2 with rrf := a * c.2.rrf + b })

theorem rank_eq (candidates : List (α × Signals)) :
    rank candidates = (scored candidates).insertionSort fun a b => b.2.score ≤ a.2.score := rfl

/-! ### The weakest and the best match -/

theorem worst_eq {candidates : List (α × Signals)} {w : ℚ} (h : IsLeast (rrfs candidates) w) :
    (Pool.of (candidates.map Prod.snd)).worst = w := by
  obtain ⟨⟨c, hc, hw⟩, hle⟩ := h
  have hmin : ((candidates.map Prod.snd).map Signals.rrf).min? = some w := by
    rw [List.map_map]
    refine List.min?_eq_some_iff.mpr ⟨List.mem_map.mpr ⟨c, hc, hw⟩, fun x hx => ?_⟩
    obtain ⟨d, hd, rfl⟩ := List.mem_map.mp hx
    exact hle ⟨d, hd, rfl⟩
  rw [Pool.of, hmin]
  rfl

theorem best_eq {candidates : List (α × Signals)} {w : ℚ} (h : IsGreatest (rrfs candidates) w) :
    (Pool.of (candidates.map Prod.snd)).best = w := by
  obtain ⟨⟨c, hc, hw⟩, hle⟩ := h
  have hmax : ((candidates.map Prod.snd).map Signals.rrf).max? = some w := by
    rw [List.map_map]
    refine List.max?_eq_some_iff.mpr ⟨List.mem_map.mpr ⟨c, hc, hw⟩, fun x hx => ?_⟩
    obtain ⟨d, hd, rfl⟩ := List.mem_map.mp hx
    exact hle ⟨d, hd, rfl⟩
  rw [Pool.of, hmax]
  rfl

theorem isLeast_worst {candidates : List (α × Signals)} (h : candidates ≠ []) :
    IsLeast (rrfs candidates) (Pool.of (candidates.map Prod.snd)).worst := by
  have hne : candidates.map (fun c => c.2.rrf) ≠ [] := by simpa using h
  obtain ⟨w, hw⟩ := Option.isSome_iff_exists.mp (List.isSome_min?_of_ne_nil hne)
  obtain ⟨hmem, hle⟩ := List.min?_eq_some_iff.mp hw
  obtain ⟨c, hc, hcw⟩ := List.mem_map.mp hmem
  have hleast : IsLeast (rrfs candidates) w :=
    ⟨⟨c, hc, hcw⟩, fun _ ⟨d, hd, hdx⟩ => hle _ (List.mem_map.mpr ⟨d, hd, hdx⟩)⟩
  rwa [worst_eq hleast]

theorem isGreatest_best {candidates : List (α × Signals)} (h : candidates ≠ []) :
    IsGreatest (rrfs candidates) (Pool.of (candidates.map Prod.snd)).best := by
  have hne : candidates.map (fun c => c.2.rrf) ≠ [] := by simpa using h
  obtain ⟨w, hw⟩ := Option.isSome_iff_exists.mp (List.isSome_max?_of_ne_nil hne)
  obtain ⟨hmem, hle⟩ := List.max?_eq_some_iff.mp hw
  obtain ⟨c, hc, hcw⟩ := List.mem_map.mp hmem
  have hgreatest : IsGreatest (rrfs candidates) w :=
    ⟨⟨c, hc, hcw⟩, fun _ ⟨d, hd, hdx⟩ => hle _ (List.mem_map.mpr ⟨d, hd, hdx⟩)⟩
  rwa [best_eq hgreatest]

/-! ### The scores -/

/-- The mean novelty does not count. -/
theorem ranked_congr {p q : Pool} (hworst : p.worst = q.worst) (hbest : p.best = q.best)
    (s : Signals) : p.ranked s = q.ranked s := by
  have hnorm : p.normalize s.rrf = q.normalize s.rrf := by
    rw [Pool.normalize, Pool.normalize, hworst, hbest]
  simp only [Pool.ranked, hnorm, WEIGHT_NOVELTY, zero_mul]

theorem normalize_mem {p : Pool} {x : ℚ} (hworst : p.worst ≤ x) (hbest : x ≤ p.best) :
    0 ≤ p.normalize x ∧ p.normalize x ≤ 1 := by
  unfold Pool.normalize
  split_ifs with hnone hspread
  · exact ⟨le_refl _, zero_le_one⟩
  · exact ⟨div_nonneg (by linarith) hspread.le, (div_le_one hspread).mpr (by linarith)⟩
  · exact ⟨zero_le_one, le_refl _⟩

theorem normalize_rescaled {p q : Pool} {a b : ℚ} (ha : 0 < a) (hworst : q.worst = a * p.worst + b)
    (hbest : q.best = a * p.best + b) (hp : 0 < p.best) (hq : 0 < q.best) (x : ℚ) :
    q.normalize (a * x + b) = p.normalize x := by
  have hspread : q.best - q.worst = a * (p.best - p.worst) := by
    rw [hworst, hbest]
    ring
  have hpos : 0 < a * (p.best - p.worst) ↔ 0 < p.best - p.worst := mul_pos_iff_of_pos_left ha
  unfold Pool.normalize
  rw [if_neg (not_le.mpr hp), if_neg (not_le.mpr hq), hspread]
  by_cases h : 0 < p.best - p.worst
  · rw [if_pos h, if_pos (hpos.mpr h), hworst, show a * x + b - (a * p.worst + b) =
      a * (x - p.worst) by ring, mul_div_mul_left _ _ ha.ne']
  · rw [if_neg h, if_neg (fun hlt => h (hpos.mp hlt))]

/-! ### The order -/

instance : Std.Total fun a b : α × Ranked => b.2.score ≤ a.2.score :=
  ⟨fun a b => le_total b.2.score a.2.score⟩

instance : IsTrans (α × Ranked) fun a b => b.2.score ≤ a.2.score :=
  ⟨fun _ _ _ h h' => h'.trans h⟩

theorem rank_signals_perm (candidates : List (α × Signals)) :
    ((rank candidates).map fun c => (c.1, c.2.signals)).Perm candidates := by
  have hperm := (List.perm_insertionSort (fun a b => b.2.score ≤ a.2.score)
    (scored candidates)).map fun c => (c.1, c.2.signals)
  have hsame : (scored candidates).map (fun c => (c.1, c.2.signals)) = candidates := by
    rw [scored, List.map_map]
    exact List.map_id _
  rwa [hsame] at hperm

/-- Candidates of one score are in the order in which they came. -/
theorem rank_stable (candidates : List (α × Signals)) (s : ℚ) :
    (rank candidates).filter (fun c => decide (c.2.score = s)) =
      (scored candidates).filter fun c => decide (c.2.score = s) := by
  refine Stable.filter_insertionSort (fun a b ha hb => ?_) (scored candidates)
  rw [of_decide_eq_true ha, of_decide_eq_true hb]

theorem rank_normalized {candidates : List (α × Signals)} {c : α × Ranked}
    (h : c ∈ rank candidates) : 0 ≤ c.2.rrfNormalized ∧ c.2.rrfNormalized ≤ 1 := by
  rw [rank_eq, List.mem_insertionSort] at h
  obtain ⟨d, hd, rfl⟩ := List.mem_map.mp h
  have hne := List.ne_nil_of_mem hd
  exact normalize_mem ((isLeast_worst hne).2 ⟨d, hd, rfl⟩) ((isGreatest_best hne).2 ⟨d, hd, rfl⟩)

/-- The scores alone decide the order. -/
theorem rank_scores (candidates : List (α × Signals)) :
    (rank candidates).map (fun c => (c.1, c.2.score)) =
      ((scored candidates).map fun c => (c.1, c.2.score)).insertionSort fun a b => b.2 ≤ a.2 :=
  List.map_insertionSort _ (fun a b : α × ℚ => b.2 ≤ a.2) _ _ fun _ _ _ _ => Iff.rfl

theorem rrfs_rescaled (a b : ℚ) (candidates : List (α × Signals)) :
    rrfs (candidates.map (rescaled a b)) = Set.image (fun x => a * x + b) (rrfs candidates) := by
  ext x
  simp [rrfs, rescaled]

theorem scored_rescaled {candidates : List (α × Signals)} {a b : ℚ} (ha : 0 < a)
    (hbefore : ∃ c ∈ candidates, 0 < c.2.rrf) (hafter : ∃ c ∈ candidates, 0 < a * c.2.rrf + b) :
    (scored (candidates.map (rescaled a b))).map (fun c => (c.1, c.2.score)) =
      (scored candidates).map fun c => (c.1, c.2.score) := by
  obtain ⟨c, hc, hpos⟩ := hbefore
  obtain ⟨d, hd, hpos'⟩ := hafter
  have hne := List.ne_nil_of_mem hc
  have hmono : Monotone fun x : ℚ => a * x + b := fun x y h =>
    add_le_add_left (mul_le_mul_of_nonneg_left h ha.le) b
  have hworst := hmono.map_isLeast (isLeast_worst hne)
  have hbest := hmono.map_isGreatest (isGreatest_best hne)
  rw [← rrfs_rescaled] at hworst hbest
  have hp : 0 < (Pool.of (candidates.map Prod.snd)).best :=
    hpos.trans_le ((isGreatest_best hne).2 ⟨c, hc, rfl⟩)
  have hq : 0 < (Pool.of ((candidates.map (rescaled a b)).map Prod.snd)).best := by
    rw [best_eq hbest]
    exact hpos'.trans_le (hmono ((isGreatest_best hne).2 ⟨d, hd, rfl⟩))
  have hworst' := worst_eq hworst
  have hbest' := best_eq hbest
  unfold scored
  generalize Pool.of ((candidates.map (rescaled a b)).map Prod.snd) = q at hworst' hbest' hq ⊢
  rw [List.map_map, List.map_map, List.map_map]
  refine List.map_congr_left fun e _ => Prod.ext rfl ?_
  have hnorm := normalize_rescaled ha hworst' hbest' hp hq e.2.rrf
  simp only [Function.comp, Pool.ranked, rescaled, hnorm, WEIGHT_NOVELTY, zero_mul]

theorem rank_rescaled {candidates : List (α × Signals)} {a b : ℚ} (ha : 0 < a)
    (hbefore : ∃ c ∈ candidates, 0 < c.2.rrf) (hafter : ∃ c ∈ candidates, 0 < a * c.2.rrf + b) :
    (rank (candidates.map (rescaled a b))).map (fun c => (c.1, c.2.score)) =
      (rank candidates).map fun c => (c.1, c.2.score) := by
  rw [rank_scores, rank_scores, scored_rescaled ha hbefore hafter]

/-- One more candidate between the weakest and the best moves no other one. -/
theorem rank_sublist {above below : List (α × Signals)} {c : α × Signals}
    (hlow : ∃ d ∈ above ++ below, d.2.rrf ≤ c.2.rrf)
    (hhigh : ∃ d ∈ above ++ below, c.2.rrf ≤ d.2.rrf) :
    (rank (above ++ below)).Sublist (rank (above ++ c :: below)) := by
  obtain ⟨lo, hlo, hle⟩ := hlow
  obtain ⟨hi, hhi, hge⟩ := hhigh
  have hmem {d : α × Signals} : d ∈ above ++ c :: below ↔ d = c ∨ d ∈ above ++ below := by
    simp only [List.mem_append, List.mem_cons]
    exact or_left_comm
  obtain ⟨⟨w, hw, hworst⟩, hlower⟩ := isLeast_worst (List.ne_nil_of_mem hlo)
  obtain ⟨⟨g, hg, hbest⟩, hupper⟩ := isGreatest_best (List.ne_nil_of_mem hlo)
  have hleast : IsLeast (rrfs (above ++ c :: below))
      (Pool.of ((above ++ below).map Prod.snd)).worst := by
    refine ⟨⟨w, hmem.mpr (.inr hw), hworst⟩, ?_⟩
    rintro x ⟨d, hd, rfl⟩
    rcases hmem.mp hd with rfl | hd
    · exact (hlower ⟨lo, hlo, rfl⟩).trans hle
    · exact hlower ⟨d, hd, rfl⟩
  have hgreatest : IsGreatest (rrfs (above ++ c :: below))
      (Pool.of ((above ++ below).map Prod.snd)).best := by
    refine ⟨⟨g, hmem.mpr (.inr hg), hbest⟩, ?_⟩
    rintro x ⟨d, hd, rfl⟩
    rcases hmem.mp hd with rfl | hd
    · exact hge.trans (hupper ⟨hi, hhi, rfl⟩)
    · exact hupper ⟨d, hd, rfl⟩
  have hscored : (scored (above ++ below)).Sublist (scored (above ++ c :: below)) := by
    have hsame : scored (above ++ below) = (above ++ below).map fun d =>
        (d.1, (Pool.of ((above ++ c :: below).map Prod.snd)).ranked d.2) :=
      List.map_congr_left fun d _ => Prod.ext rfl
        (ranked_congr (worst_eq hleast).symm (best_eq hgreatest).symm d.2)
    rw [hsame]
    exact (List.Sublist.append_left (List.sublist_cons_self c below) above).map _
  exact Stable.sublist_insertionSort hscored

/-- The laws of the order of a pool. -/
theorem rank_laws (candidates : List (α × Signals)) :
    ((rank candidates).map fun c => (c.1, c.2.signals)).Perm candidates ∧
    (rank candidates).Pairwise (fun a b => b.2.score ≤ a.2.score) ∧
    (∀ s, (rank candidates).filter (fun c => decide (c.2.score = s)) =
      (scored candidates).filter fun c => decide (c.2.score = s)) ∧
    (∀ c ∈ rank candidates, 0 ≤ c.2.rrfNormalized ∧ c.2.rrfNormalized ≤ 1) ∧
    (∀ a b, 0 < a → (∃ c ∈ candidates, 0 < c.2.rrf) →
      (∃ c ∈ candidates, 0 < a * c.2.rrf + b) →
      (rank (candidates.map (rescaled a b))).map (fun c => (c.1, c.2.score)) =
        (rank candidates).map fun c => (c.1, c.2.score)) ∧
    ∀ above c below, candidates = above ++ below → (∃ d ∈ candidates, d.2.rrf ≤ c.2.rrf) →
      (∃ d ∈ candidates, c.2.rrf ≤ d.2.rrf) →
      (rank candidates).Sublist (rank (above ++ c :: below)) := by
  refine ⟨rank_signals_perm candidates, rank_sorted candidates, rank_stable candidates,
    fun c hc => rank_normalized hc, fun a b ha h h' => rank_rescaled ha h h', ?_⟩
  rintro above c below rfl hlow hhigh
  exact rank_sublist hlow hhigh

end Agmem.Core.Scoring
