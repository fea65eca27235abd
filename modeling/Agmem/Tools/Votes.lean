import Agmem.Store.Snapshots
import Agmem.Tools.Pages

/-! What the votes of the hop do to the order of a pool. A vote is added to the score that a row has
in the pool, so the row at the head keeps its place as long as no other row gets more votes than it
lies behind. -/

namespace Agmem.Tools.Hop

open Core Store Relational

/-- The hits of a pool. -/
def ids (candidates : List Candidate) : List HitId := candidates.map fun c => c.hit.id

/-- The fused score of a hit; one that is not in the pool has none. -/
def scoreOf (candidates : List Candidate) (id : HitId) : ℚ :=
  ((candidates.find? fun c => decide (c.hit.id = id)).map Candidate.rrf).getD 0

/-- All votes for a hit by rows that are ranked from `rank` on. -/
def votesFrom (rank : ℕ) (id : HitId) : List MemoryRecord → ℚ
  | [] => 0
  | row :: rows =>
    (if id = .memory row.id then contribution rank else 0) + votesFrom (rank + 1) id rows

def votes (rows : List MemoryRecord) (id : HitId) : ℚ := votesFrom 1 id rows

/-- No candidate has a higher score. -/
def Highest (candidates : List Candidate) (id : HitId) : Prop :=
  ∃ head ∈ candidates, head.hit.id = id ∧ ∀ c ∈ candidates, c.rrf ≤ head.rrf

instance (candidates : List Candidate) (id : HitId) : Decidable (Highest candidates id) :=
  inferInstanceAs (Decidable (∃ head ∈ candidates, _ ∧ _))

/-! ### One vote -/

theorem ids_cons (c : Candidate) (candidates : List Candidate) :
    ids (c :: candidates) = c.hit.id :: ids candidates := rfl

theorem scoreOf_cons (c : Candidate) (candidates : List Candidate) (id : HitId) :
    scoreOf (c :: candidates) id = if c.hit.id = id then c.rrf else scoreOf candidates id := by
  unfold scoreOf
  by_cases h : c.hit.id = id
  · simp [h]
  · simp [h]

theorem scoreOf_vote (weight : ℚ) (row : MemoryRecord) (candidates : List Candidate) (id : HitId) :
    scoreOf (vote weight row candidates) id =
      scoreOf candidates id + if id = .memory row.id then weight else 0 := by
  induction candidates with
  | nil =>
    rw [vote, scoreOf_cons]
    by_cases h : id = .memory row.id
    · simp [h, Hit.id, scoreOf]
    · simp [Ne.symm h, h, Hit.id, scoreOf]
  | cons c candidates ih =>
    rw [vote]
    split_ifs with hc hid hid
    · rw [scoreOf_cons, scoreOf_cons, hid, if_pos hc, if_pos hc]
    · rw [scoreOf_cons, scoreOf_cons, hc, if_neg (Ne.symm hid), if_neg (Ne.symm hid), add_zero]
    · have hne : c.hit.id ≠ id := hid ▸ hc
      rw [scoreOf_cons, scoreOf_cons, if_neg hne, if_neg hne, ih, if_pos hid]
    · rw [scoreOf_cons, scoreOf_cons, ih, if_neg hid, add_zero, add_zero]

/-- A row that is not in the pool comes last. -/
theorem ids_vote (weight : ℚ) (row : MemoryRecord) (candidates : List Candidate) :
    ids (vote weight row candidates) = if .memory row.id ∈ ids candidates then ids candidates
      else ids candidates ++ [.memory row.id] := by
  induction candidates with
  | nil => rfl
  | cons c candidates ih =>
    rw [vote]
    by_cases h : c.hit.id = .memory row.id
    · rw [if_pos h, ids_cons, ids_cons, if_pos (h ▸ List.mem_cons_self ..)]
    · rw [if_neg h, ids_cons, ids_cons, ih]
      by_cases hmem : .memory row.id ∈ ids candidates
      · rw [if_pos hmem, if_pos (List.mem_cons_of_mem _ hmem)]
      · rw [if_neg hmem, if_neg (List.not_mem_cons_of_ne_of_not_mem (Ne.symm h) hmem),
          List.cons_append]

theorem mem_ids_vote {weight : ℚ} {row : MemoryRecord} {candidates : List Candidate} {id : HitId} :
    id ∈ ids (vote weight row candidates) ↔ id ∈ ids candidates ∨ id = .memory row.id := by
  rw [ids_vote]
  split_ifs with h
  · exact ⟨.inl, fun hid => hid.elim (fun h => h) fun heq => heq ▸ h⟩
  · simp

theorem nodup_vote (weight : ℚ) (row : MemoryRecord) {candidates : List Candidate}
    (h : (ids candidates).Nodup) : (ids (vote weight row candidates)).Nodup := by
  rw [ids_vote]
  split_ifs with hmem
  · exact h
  · exact List.nodup_append.mpr ⟨h, List.nodup_singleton _, fun a ha b hb => by
      rintro rfl
      exact hmem (List.mem_singleton.mp hb ▸ ha)⟩

/-! ### All votes -/

theorem scoreOf_mergeFrom (rank : ℕ) (candidates : List Candidate) (rows : List MemoryRecord)
    (id : HitId) : scoreOf (mergeFrom rank candidates rows) id =
      scoreOf candidates id + votesFrom rank id rows := by
  induction rows generalizing rank candidates with
  | nil => rw [mergeFrom, votesFrom, add_zero]
  | cons row rows ih => rw [mergeFrom, ih, scoreOf_vote, votesFrom, add_assoc]

theorem mem_ids_mergeFrom {rank : ℕ} {candidates : List Candidate} {rows : List MemoryRecord}
    {id : HitId} : id ∈ ids (mergeFrom rank candidates rows) ↔
      id ∈ ids candidates ∨ ∃ row ∈ rows, id = .memory row.id := by
  induction rows generalizing rank candidates with
  | nil => simp [mergeFrom]
  | cons row rows ih => rw [mergeFrom, ih, mem_ids_vote, or_assoc, List.exists_mem_cons_iff]

theorem nodup_mergeFrom (rank : ℕ) {candidates : List Candidate} (rows : List MemoryRecord)
    (h : (ids candidates).Nodup) : (ids (mergeFrom rank candidates rows)).Nodup := by
  induction rows generalizing rank candidates with
  | nil => exact h
  | cons row rows ih => exact ih _ (nodup_vote _ row h)

theorem contribution_nonneg (rank : ℕ) : 0 ≤ contribution rank :=
  div_nonneg (by norm_num [HOP_WEIGHT]) (Nat.cast_nonneg _)

theorem votesFrom_nonneg (rank : ℕ) (id : HitId) (rows : List MemoryRecord) :
    0 ≤ votesFrom rank id rows := by
  induction rows generalizing rank with
  | nil => exact le_refl _
  | cons row rows ih =>
    rw [votesFrom]
    refine add_nonneg ?_ (ih _)
    split_ifs
    · exact contribution_nonneg rank
    · exact le_refl _

/-- A hit without a row among them gets no votes. -/
theorem votesFrom_eq_zero {rank : ℕ} {id : HitId} {rows : List MemoryRecord}
    (h : ∀ row ∈ rows, id ≠ .memory row.id) : votesFrom rank id rows = 0 := by
  induction rows generalizing rank with
  | nil => rfl
  | cons row rows ih =>
    obtain ⟨hrow, hrows⟩ := List.forall_mem_cons.mp h
    rw [votesFrom, if_neg hrow, ih hrows, zero_add]

/-! ### The head -/

/-- The score of a candidate, where no two are of one hit. -/
theorem scoreOf_eq {candidates : List Candidate} (h : (ids candidates).Nodup) {c : Candidate}
    (hc : c ∈ candidates) : scoreOf candidates c.hit.id = c.rrf := by
  induction candidates with
  | nil => cases hc
  | cons d candidates ih =>
    rw [ids_cons, List.nodup_cons] at h
    rw [scoreOf_cons]
    rcases List.mem_cons.mp hc with rfl | hc
    · rw [if_pos rfl]
    · have hne : d.hit.id ≠ c.hit.id := fun heq => h.1 (heq ▸ List.mem_map_of_mem hc)
      rw [if_neg hne, ih h.2 hc]

theorem highest_iff {candidates : List Candidate} (h : (ids candidates).Nodup) {id : HitId} :
    Highest candidates id ↔ id ∈ ids candidates ∧
      ∀ other ∈ ids candidates, scoreOf candidates other ≤ scoreOf candidates id := by
  constructor
  · rintro ⟨head, hhead, rfl, hmax⟩
    refine ⟨List.mem_map_of_mem hhead, fun other hother => ?_⟩
    obtain ⟨c, hc, rfl⟩ := List.mem_map.mp hother
    rw [scoreOf_eq h hc, scoreOf_eq h hhead]
    exact hmax c hc
  · rintro ⟨hid, hmax⟩
    obtain ⟨head, hhead, rfl⟩ := List.mem_map.mp hid
    refine ⟨head, hhead, rfl, fun c hc => ?_⟩
    rw [← scoreOf_eq h hc, ← scoreOf_eq h hhead]
    exact hmax _ (List.mem_map_of_mem hc)

/-- The head keeps its place exactly if no row gets more votes than the head gets and the row lies
behind it. -/
theorem head_stays_iff {candidates : List Candidate} (hdistinct : (ids candidates).Nodup)
    (rows : List MemoryRecord) {id : HitId} (hhead : Highest candidates id) :
    Highest (merge candidates rows).1 id ↔ ∀ row ∈ rows, votes rows (.memory row.id) ≤
      votes rows id + (scoreOf candidates id - scoreOf candidates (.memory row.id)) := by
  have hmerged := nodup_mergeFrom 1 rows hdistinct
  obtain ⟨hid, hmax⟩ := (highest_iff hdistinct).mp hhead
  rw [merge, highest_iff hmerged, and_iff_right (mem_ids_mergeFrom.mpr (.inl hid))]
  simp only [scoreOf_mergeFrom, votes]
  constructor
  · intro h row hrow
    have := h (.memory row.id) (mem_ids_mergeFrom.mpr (.inr ⟨row, hrow, rfl⟩))
    linarith
  · intro h other hother
    by_cases hvoted : ∃ row ∈ rows, other = .memory row.id
    · obtain ⟨row, hrow, rfl⟩ := hvoted
      have := h row hrow
      linarith
    · have hpool := (mem_ids_mergeFrom.mp hother).resolve_right hvoted
      have hnone : votesFrom 1 other rows = 0 :=
        votesFrom_eq_zero fun row hrow heq => hvoted ⟨row, hrow, heq⟩
      have := hmax other hpool
      have := votesFrom_nonneg 1 id rows
      linarith

/-- A pool of two rows whose second one gets the vote. -/
theorem second_stays_behind :
    Highest (merge [⟨1, none, Recall.claim 0 .agent⟩, ⟨1 / 2, none, Recall.claim 1 .agent⟩]
      [Recall.claimRow 1 .agent]).1 (.memory ⟨0⟩) :=
  (head_stays_iff (by decide) [Recall.claimRow 1 .agent] (by decide +kernel)).mpr
    (by decide +kernel)

/-- A memory that names these entities. -/
def naming (id : ℕ) (entities : List Text) : MemoryRecord :=
  { Recall.claimRow id .agent with entities := entities }

/-- Four memories, of which the last one leads onward. -/
def chained : Db :=
  { Db.empty 0 with
    memory := ⟨[naming 0 [['a']], naming 1 [['a']], naming 2 [['a']], naming 3 [['a'], ['b']]],
      by decide, by decide⟩ }

/-- What a search by words alone makes of them. -/
def chainedPool : List Candidate :=
  [⟨1 / 61, none, .memory (naming 0 [['a']])⟩, ⟨1 / 62, none, .memory (naming 1 [['a']])⟩,
    ⟨1 / 63, none, .memory (naming 2 [['a']])⟩, ⟨1 / 64, none, .memory (naming 3 [['a'], ['b']])⟩]

/-- The vote takes the fourth candidate over the first. -/
theorem fourth_overtakes : Highest chainedPool (.memory ⟨0⟩) ∧
    run chained [.user] ⟨[], [], []⟩ .live chainedPool =
      merge chainedPool [naming 3 [['a'], ['b']]] ∧
    ¬ Highest (merge chainedPool [naming 3 [['a'], ['b']]]).1 (.memory ⟨0⟩) :=
  ⟨by decide +kernel, by rfl, by decide +kernel⟩

/-! ### The pool of a search -/

/-- A pool has no hit twice: each takes its row out of those the engine returned. -/
theorem ids_nodup_of_candidates {db : Db} {note : SearchNote} {pool : List Candidate}
    (h : candidates db note = .ok pool) : (ids pool).Nodup := by
  unfold candidates at h
  split at h
  · cases h
  · rename_i hits htake
    cases h
    obtain ⟨hnodup, hids, -⟩ := (takeBy_ok_iff Snapshots.hits_unique).mp htake
    have hlen : note.fused.length = hits.length := by
      have := congrArg List.length hids
      simpa using this.symm
    have hpool : ids (List.zipWith (fun scored hit => (⟨scored.2,
        similarityOf note.nearest scored.1, hit⟩ : Candidate)) note.fused hits) =
        hits.map Hit.id := by
      refine List.ext_getElem (by simp [ids, hlen]) fun i hi hi' => ?_
      simp [ids]
    rw [hpool, hids]
    exact hnodup

theorem ids_nodup_of_search {alphabet : Alphabet} {rankings : Rankings} {search : Search} {db : Db}
    {pool : List Candidate} (h : (searchHybrid alphabet rankings search).alone db = .ok pool) :
    (ids pool).Nodup := by
  unfold searchHybrid at h
  dsimp only at h
  split_ifs at h
  · cases h
    exact List.nodup_nil
  · obtain ⟨note, hnote⟩ := Transition.Scripts.exists_answer_of_aloneFrom h
    exact ids_nodup_of_candidates hnote

end Agmem.Tools.Hop
