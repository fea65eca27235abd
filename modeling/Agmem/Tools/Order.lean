import Agmem.Ranking.Runs
import Agmem.Tools.Pages

/-! The order of a page. Each occupancy pass puts the rows past a quota last, in their order, so the
rows are at most four sorted runs, and a page is sorted exactly if the runs meet on it. The hop's
row has to score no more than the row before it. -/

namespace Agmem.Tools.Recall

open Core Store Scoring Ranking

/-- A row may stand before one that scores no more. -/
def Falls (a b : Hit × Ranked) : Prop := b.2.score ≤ a.2.score

instance : DecidableRel Falls := fun a b => inferInstanceAs (Decidable (b.2.score ≤ a.2.score))

instance : IsTrans (Hit × Ranked) Falls := ⟨fun _ _ _ h h' => h'.trans h⟩

/-- The rows as the source pass leaves them: the ones within their quotas, then the others. -/
def sourceRuns (k : ℕ) (ranked : List (Hit × Ranked)) : List (List (Hit × Ranked)) :=
  if Occupancy.Quiet ranked k (Occupancy.cap k) fun row => sourceKey row.1 then [ranked]
  else
    [Quota.taken (fun row => sourceKey row.1) (Occupancy.cap k) ranked,
      Quota.deferred (fun row => sourceKey row.1) (Occupancy.cap k) ranked]

/-- The rows as both passes leave them: of each run what the verbatim cap lets stand, and then of
each what it does not. -/
def runs (k : ℕ) (ranked : List (Hit × Ranked)) : List (List (Hit × Ranked)) :=
  let rows := sourceRuns k ranked
  if Occupancy.Quiet rows.flatten k Occupancy.VERBATIM_CAP fun row => verbatimKey row.1 then rows
  else
    let parts := Runs.split (fun row => verbatimKey row.1) Occupancy.VERBATIM_CAP (fun _ => 0) rows
    parts.1 ++ parts.2

/-- Where the page goes on from one run to the next, or to the row that takes the hop's place, what
follows scores no more than what is before it. -/
def InStep (k : ℕ) (hopped : List MemoryId) (ranked : List (Hit × Ranked)) : Prop :=
  match Hop.waiting (runs k ranked).flatten k fun row => isHopped hopped row.1 with
  | none => Runs.Meet Falls k (runs k ranked)
  | some row => Runs.Meet Falls (k - 1) (runs k ranked) ∧
      Runs.Joins Falls ((runs k ranked).flatten.take (k - 1)) [row]

variable {k : ℕ} {hopped : List MemoryId} {ranked : List (Hit × Ranked)}

theorem flatten_sourceRuns : (sourceRuns k ranked).flatten = (bySource k ranked).1 := by
  unfold sourceRuns bySource
  split_ifs with h
  · rw [Occupancy.apply_quiet h, List.flatten_cons, List.flatten_nil, List.append_nil]
  · rw [Occupancy.apply_fires h, List.flatten_cons, List.flatten_cons, List.flatten_nil,
      List.append_nil]
    rfl

theorem flatten_runs : (runs k ranked).flatten = occupied k ranked := by
  unfold runs occupied byVerbatim
  rw [← flatten_sourceRuns]
  dsimp only
  split_ifs with h
  · rw [Occupancy.apply_quiet h]
  · have hparts := Runs.flatten_split (fun row : Hit × Ranked => verbatimKey row.1)
      Occupancy.VERBATIM_CAP (fun _ => 0) (sourceRuns k ranked)
    rw [Occupancy.apply_fires h, List.flatten_append, hparts.1, hparts.2]
    rfl

theorem pairwise_sourceRuns (hsorted : ranked.Pairwise Falls) :
    ∀ run ∈ sourceRuns k ranked, run.Pairwise Falls := by
  intro run hrun
  unfold sourceRuns at hrun
  split_ifs at hrun
  · rw [List.mem_singleton.mp hrun]
    exact hsorted
  · rcases List.mem_pair.mp hrun with rfl | rfl
    · exact hsorted.sublist (Quota.taken_sublist _ _ ranked)
    · exact hsorted.sublist (Quota.deferred_sublist _ _ ranked)

theorem pairwise_runs (hsorted : ranked.Pairwise Falls) :
    ∀ run ∈ runs k ranked, run.Pairwise Falls := by
  intro run hrun
  unfold runs at hrun
  dsimp only at hrun
  split_ifs at hrun
  · exact pairwise_sourceRuns hsorted run hrun
  · exact Runs.pairwise_of_part (pairwise_sourceRuns hsorted) hrun

/-- A page of sorted rows is sorted exactly if its runs are in step. -/
theorem pairwise_page_iff (k : ℕ) (hopped : List MemoryId) (hsorted : ranked.Pairwise Falls) :
    (page k hopped ranked).Pairwise Falls ↔ InStep k hopped ranked := by
  have hruns := pairwise_runs (k := k) hsorted
  unfold page InStep
  rw [flatten_runs]
  cases h : Hop.waiting (occupied k ranked) k fun row => isHopped hopped row.1 with
  | none =>
    rw [Hop.reserveTail_none h, ← flatten_runs]
    exact Runs.pairwise_take_iff k _ hruns
  | some row =>
    rw [Hop.take_reserveTail h, ← flatten_runs]
    dsimp only
    rw [← Runs.pairwise_take_iff (k - 1) _ hruns]
    refine ⟨fun hpage => ?_, fun hstep => ?_⟩
    · have hstart := hpage.sublist (List.sublist_append_left ..)
      exact ⟨hstart, ((Runs.pairwise_append_iff hstart).mp hpage).2⟩
    · exact (Runs.pairwise_append_iff hstep.1).mpr ⟨List.pairwise_singleton _ _, hstep.2⟩

/-! ### The hits -/

/-- The scores of the hits are the scores of the page. -/
theorem scores_hits {db : Db} {rows : List (Hit × Ranked)} {result : List RecallHit}
    (h : hits db rows = .ok result) :
    result.map RecallHit.score = rows.map fun row => row.2.score := by
  induction rows generalizing result with
  | nil =>
    cases h
    rfl
  | cons row rows ih =>
    unfold hits at h
    split at h
    · cases h
    · split at h
      · cases h
      · rename_i doc _ _ rest hrest
        cases h
        have hscore : (RecallHit.new row.1 row.2 doc).score = row.2.score := by
          unfold RecallHit.new
          split <;> rfl
        simp only [List.map_cons, hscore, ih hrest]

theorem pairwise_hits_iff {db : Db} {rows : List (Hit × Ranked)} {result : List RecallHit}
    (h : hits db rows = .ok result) :
    result.Pairwise (fun a b => b.score ≤ a.score) ↔ rows.Pairwise Falls := by
  have hscores := scores_hits h
  have hleft : (result.map RecallHit.score).Pairwise (fun a b => b ≤ a) ↔
      result.Pairwise fun a b => b.score ≤ a.score := List.pairwise_map
  have hright : (rows.map fun row => row.2.score).Pairwise (fun a b => b ≤ a) ↔
      rows.Pairwise Falls := List.pairwise_map
  rw [← hleft, ← hright, hscores]

theorem cut_sublist (floor : ℚ) (isSearch : Bool) (byScore : List ℕ) (hopped : List MemoryId)
    (rows : List (Hit × Ranked)) : (cut floor isSearch byScore hopped rows).1.Sublist rows := by
  unfold cut
  split_ifs
  · exact Abstain.apply_sublist ..
  · exact List.Sublist.refl _

/-- Without a verdict nothing was cut. -/
theorem cut_none {floor : ℚ} {isSearch : Bool} {byScore : List ℕ} {rows : List (Hit × Ranked)}
    (h : (cut floor isSearch byScore hopped rows).2 = none) :
    (cut floor isSearch byScore hopped rows).1 = rows := by
  unfold cut at h ⊢
  split_ifs at h ⊢
  · exact Abstain.apply_none h
  · rfl

/-- What an answer carries of the page it was cut from. -/
theorem answer_ok {reader : Reader} {db : Db} {lookup : Lookup} {window : Option TemporalQuery}
    {isSearch : Bool} {candidates : List Candidate} {now : Now} {result : RecallResult}
    (h : (answer reader db lookup window k isSearch candidates hopped now).2 = .ok result) :
    ∃ kept : List (Hit × Ranked) × Option Abstain.Verdict,
      kept.1.Sublist (page k hopped (rescore reader.exp window now.ranked candidates)) ∧
      (kept.2 = none →
        kept.1 = page k hopped (rescore reader.exp window now.ranked candidates)) ∧
      (∃ db', hits db' kept.1 = .ok result.hits) ∧ result.cut = kept.2 := by
  unfold answer at h
  dsimp only at h
  split at h
  · cases h
  · rename_i hits hhits
    cases h
    exact ⟨_, cut_sublist .., cut_none, ⟨_, hhits⟩, rfl⟩

/-- A page is in the order of its scores exactly if it is in step, and then so are the hits; where
nothing was cut from the page, they are so exactly then. -/
theorem answer_sorted (reader : Reader) (db : Db) (lookup : Lookup)
    (window : Option TemporalQuery) (k : ℕ) (isSearch : Bool) (candidates : List Candidate)
    (hopped : List MemoryId) (now : Now) :
    ((page k hopped (rescore reader.exp window now.ranked candidates)).Pairwise Falls ↔
      InStep k hopped (rescore reader.exp window now.ranked candidates)) ∧
    ∀ result, (answer reader db lookup window k isSearch candidates hopped now).2 = .ok result →
      (InStep k hopped (rescore reader.exp window now.ranked candidates) →
        result.hits.Pairwise fun a b => b.score ≤ a.score) ∧
      (result.cut = none → (result.hits.Pairwise (fun a b => b.score ≤ a.score) ↔
        InStep k hopped (rescore reader.exp window now.ranked candidates))) := by
  have hiff := pairwise_page_iff k hopped
    (rank_sorted (candidates.map fun c => (c.hit, signalsOf reader.exp window now.ranked c)))
  refine ⟨hiff, fun result hresult => ?_⟩
  obtain ⟨kept, hsub, hnone, ⟨db', hhits⟩, hcut⟩ := answer_ok hresult
  rw [pairwise_hits_iff hhits]
  refine ⟨fun h => (hiff.mpr h).sublist hsub, fun h => ?_⟩
  rw [hnone (hcut ▸ h)]
  exact hiff

/-- Whether an answer is in the order of its scores. -/
def sortedAnswer : Except ErrorData RecallResult → Bool
  | .ok result => decide (result.hits.Pairwise fun a b => b.score ≤ a.score)
  | .error _ => true

/-- Three strong claims of a source, one of the agent, and a fourth of the source. -/
def flooded : List Candidate :=
  [⟨5, none, claim 0 (.episode ⟨3⟩)⟩, ⟨4, none, claim 1 (.episode ⟨3⟩)⟩,
    ⟨3, none, claim 2 (.episode ⟨3⟩)⟩, ⟨2, none, claim 3 .agent⟩,
    ⟨1, none, claim 4 (.episode ⟨3⟩)⟩]

/-- The third claim of the source comes after the weaker one of the agent. -/
theorem flooded_unsorted :
    sortedAnswer (answer (shell 64) (Db.empty 0) ⟨[.user], ⟨[], [], []⟩, .live, 64⟩ none 4 true
      flooded [] ⟨0, fun _ => 0⟩).2 = false := by
  decide +kernel

end Agmem.Tools.Recall
