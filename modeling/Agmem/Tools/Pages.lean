import Agmem.Tools.Recall

/-! The page of a recall. The stages after the ranking only reorder the pool, so the page is as long
as it can be and repeats nothing, and the hop's row is on it. Verbatim text keeps to its cap; a
source does exactly if, of the rows that the verbatim pass brings up, there are no more of it than
places it has left. -/

namespace Agmem.Tools.Recall

open Core Store Scoring Ranking

/-! ### Nothing is lost -/

section Whole

variable {k : ℕ} {hopped : List MemoryId} {ranked : List (Hit × Ranked)}

theorem occupied_perm (k : ℕ) (ranked : List (Hit × Ranked)) : (occupied k ranked).Perm ranked :=
  (Occupancy.apply_perm ..).trans (Occupancy.apply_perm ..)

theorem page_subperm (k : ℕ) (hopped : List MemoryId) (ranked : List (Hit × Ranked)) :
    (page k hopped ranked).Subperm ranked :=
  ((List.take_sublist ..).subperm).trans
    ((Hop.reserveTail_perm ..).trans (occupied_perm k ranked)).subperm

theorem length_page : (page k hopped ranked).length = min k ranked.length := by
  rw [page, List.length_take, (Hop.reserveTail_perm ..).length_eq,
    (occupied_perm k ranked).length_eq]

/-- The hop's place is the last of the page; every other row stays where it was. -/
theorem getElem?_page {i : ℕ} (hi : i ≠ k - 1) :
    (page k hopped ranked)[i]? = ((occupied k ranked).take k)[i]? := by
  cases h : Hop.waiting (occupied k ranked) k fun row => isHopped hopped row.1 with
  | none => rw [page, Hop.reserveTail_none h]
  | some row =>
    obtain ⟨hk, hlen, -, -⟩ := Hop.waiting_full h
    have hplace : ((occupied k ranked).take (k - 1)).length = k - 1 := by
      rw [List.length_take]
      omega
    rw [page, Hop.take_reserveTail h]
    by_cases hlt : i < k - 1
    · rw [List.getElem?_append_left (by omega), List.getElem?_take_of_lt hlt,
        List.getElem?_take_of_lt (by omega)]
    · rw [List.getElem?_eq_none (by simp; omega), List.getElem?_eq_none (by simp; omega)]

theorem any_page (hk : 2 ≤ k) (hlen : k < ranked.length)
    (hany : ranked.any (fun row => isHopped hopped row.1) = true) :
    (page k hopped ranked).any (fun row => isHopped hopped row.1) = true := by
  have hperm := occupied_perm k ranked
  refine Hop.any_take_reserveTail hk (hperm.length_eq ▸ hlen) ?_
  rwa [hperm.any_eq]

end Whole

/-- The rows of the pool behind a ranking. -/
theorem rescore_perm (exp : ℚ → ℚ) (window : Option TemporalQuery) (now : Timestamp)
    (pool : List Candidate) :
    ((rescore exp window now pool).map Prod.fst).Perm (pool.map Candidate.hit) := by
  have h := rank_perm (pool.map fun c => (c.hit, signalsOf exp window now c))
  rwa [List.map_map] at h

/-! ### The page of a pool -/

section Pool

variable {exp : ℚ → ℚ} {window : Option TemporalQuery} {now : Timestamp} {pool : List Candidate}
  {k : ℕ} {hopped : List MemoryId}

theorem length_page_rescore :
    (page k hopped (rescore exp window now pool)).length = min pool.length k := by
  have hlen := (rescore_perm exp window now pool).length_eq
  rw [List.length_map, List.length_map] at hlen
  rw [length_page, hlen, Nat.min_comm]

theorem hit_of_page {row : Hit × Ranked}
    (h : row ∈ page k hopped (rescore exp window now pool)) : ∃ c ∈ pool, c.hit = row.1 := by
  have hrow := (page_subperm k hopped _).subset h
  exact List.mem_map.mp ((rescore_perm exp window now pool).subset (List.mem_map_of_mem hrow))

/-- A page of distinct hits shows none twice. -/
theorem nodup_page (hids : (pool.map fun c => c.hit.id).Nodup) :
    ((page k hopped (rescore exp window now pool)).map fun row => row.1.id).Nodup := by
  have hperm := (rescore_perm exp window now pool).map Hit.id
  rw [List.map_map, List.map_map] at hperm
  obtain ⟨rows, hrows, hrest⟩ := page_subperm k hopped (rescore exp window now pool)
  exact (hrows.map fun row => row.1.id).nodup_iff.mp
    ((hperm.nodup_iff.mpr hids).sublist (hrest.map _))

end Pool

/-- The page of a pool of distinct rows has as many rows as fit, all distinct and all of the pool;
a full page carries a hop-voted row if there is one, and only its last place bends. -/
theorem page_whole (exp : ℚ → ℚ) (window : Option TemporalQuery) (now : Timestamp)
    (pool : List Candidate) (k : ℕ) (hopped : List MemoryId)
    (hids : (pool.map fun c => c.hit.id).Nodup) :
    (page k hopped (rescore exp window now pool)).length = min pool.length k ∧
    (∀ row ∈ page k hopped (rescore exp window now pool), row.1 ∈ pool.map Candidate.hit) ∧
    ((page k hopped (rescore exp window now pool)).map fun row => row.1.id).Nodup ∧
    (2 ≤ k → k < pool.length → (∃ c ∈ pool, isHopped hopped c.hit = true) →
      ∃ row ∈ page k hopped (rescore exp window now pool), isHopped hopped row.1 = true) ∧
    ∃ place : ℕ, ∀ i : ℕ, i ≠ place → (page k hopped (rescore exp window now pool))[i]? =
      ((occupied k (rescore exp window now pool)).take k)[i]? := by
  have hperm := rescore_perm exp window now pool
  have hlen : (rescore exp window now pool).length = pool.length := by
    simpa using hperm.length_eq
  have hsub := page_subperm k hopped (rescore exp window now pool)
  refine ⟨?_, ?_, ?_, ?_, k - 1, fun i hi => getElem?_page hi⟩
  · rw [length_page, hlen, Nat.min_comm]
  · intro row hrow
    exact hperm.subset (List.mem_map_of_mem (hsub.subset hrow))
  · have hnodup : ((rescore exp window now pool).map fun row => row.1.id).Nodup := by
      have h := (hperm.map Hit.id).nodup_iff
      simp only [List.map_map] at h
      exact h.mpr hids
    obtain ⟨rows, hrows, hrest⟩ := hsub
    exact (hrows.map fun row => row.1.id).nodup_iff.mp (hnodup.sublist (hrest.map _))
  · rintro hk hfull ⟨c, hc, hvoted⟩
    obtain ⟨row, hrow, hhit⟩ := List.mem_map.mp (hperm.symm.subset (List.mem_map_of_mem hc))
    have hany : (rescore exp window now pool).any (fun row => isHopped hopped row.1) = true :=
      List.any_eq_true.mpr ⟨row, hrow, by rw [hhit]; exact hvoted⟩
    exact List.any_eq_true.mp (any_page hk (hlen ▸ hfull) hany)

/-- A claim of that source, of a content of its own. -/
def claimRow (id : ℕ) (source : Source) : MemoryRecord where
  id := ⟨id⟩
  space := .user
  kind := .fact
  content := List.replicate id 'a'
  contentHash := List.replicate id 'a'
  entities := []
  tags := []
  embedding := none
  decayClass := .normal
  strength := 1
  lastAccessed := 0
  accessCount := 0
  validFrom := 0
  invalidAt := none
  invalidReason := none
  supersedes := []
  supersededBy := none
  source := source
  writer := none
  novelty := none
  derivedFrom := []
  createdAt := 0

def claim (id : ℕ) (source : Source) : Hit := .memory (claimRow id source)

/-- A slice of that episode. -/
def slice (id episode : ℕ) : Hit := .chunk ⟨⟨id⟩, ⟨episode⟩, .user, [], 0, none, 0⟩

/-- Two slices and two claims, best first. -/
def ordinary : List Candidate :=
  [⟨4, none, slice 0 1⟩, ⟨3, none, slice 1 2⟩, ⟨2, none, claim 2 (.episode ⟨3⟩)⟩,
    ⟨1, none, claim 3 (.episode ⟨4⟩)⟩]

/-- The last of four has a vote and is on a page of two, which it is not without the vote. -/
theorem voted_on_page :
    (page 2 [⟨3⟩] (rescore (fun _ => 1) none 0 ordinary)).length = 2 ∧
      (∃ row ∈ page 2 [⟨3⟩] (rescore (fun _ => 1) none 0 ordinary),
        isHopped [⟨3⟩] row.1 = true) ∧
      ∀ row ∈ page 2 [] (rescore (fun _ => 1) none 0 ordinary), isHopped [⟨3⟩] row.1 = false := by
  have hids : (ordinary.map fun c => c.hit.id).Nodup := by decide
  have hvoted : ∃ c ∈ ordinary, isHopped [⟨3⟩] c.hit = true := by decide
  obtain ⟨hlen, -, -, hhop, -⟩ := page_whole (fun _ => 1) none 0 ordinary 2 [⟨3⟩] hids
  refine ⟨hlen, hhop le_rfl (by decide) hvoted, ?_⟩
  decide +kernel

/-! ### The caps -/

/-- A page that can be filled within both caps keeps them exactly if no source has more of the rows
that the verbatim pass brings up than places left. -/
theorem caps_kept_iff (k : ℕ) (ranked : List (Hit × Ranked))
    (hfill : Occupancy.Fillable ranked k (Occupancy.cap k) (fun row => sourceKey row.1)
      Occupancy.VERBATIM_CAP fun row => verbatimKey row.1) :
    (Quota.Within (fun row => sourceKey row.1) (Occupancy.cap k) ((occupied k ranked).take k) ∧
      Quota.Within (fun row => verbatimKey row.1) Occupancy.VERBATIM_CAP
        ((occupied k ranked).take k)) ↔
      Occupancy.Room ranked k (Occupancy.cap k) (fun row => sourceKey row.1)
        Occupancy.VERBATIM_CAP fun row => verbatimKey row.1 :=
  Occupancy.within_iff_room hfill

/-- A session of a shell without an embedder. -/
def shell (pool : ℕ) : Reader where
  service := ⟨.user, pool, .noop, ⟨fun _ _ _ => .ok [], fun _ _ => []⟩⟩
  maxK := 50
  embedQuery _ := .ok []
  alphabet := ⟨fun _ => true, fun text => text⟩
  rankings := ⟨fun _ _ => [], fun _ _ _ _ => [], fun _ _ => [], fun _ _ _ _ => [], fun _ _ _ => []⟩
  exp _ := 1

def scored (score : ℚ) : Ranked := ⟨⟨0, none, none, none, 0, 0⟩, 0, score⟩

/-- Two slices and two claims of a source on the page of four, a third claim below it. -/
def crowded : List (Hit × Ranked) :=
  [(slice 0 1, scored 6), (slice 1 2, scored 5), (claim 2 (.episode ⟨3⟩), scored 4),
    (claim 3 (.episode ⟨3⟩), scored 3), (claim 4 (.episode ⟨3⟩), scored 2),
    (claim 5 .agent, scored 1)]

/-- The source pass is quiet, and the verbatim pass brings up a third claim of the source. -/
theorem crowded_over_cap :
    Occupancy.Fillable crowded 4 (Occupancy.cap 4) (fun row => sourceKey row.1)
      Occupancy.VERBATIM_CAP (fun row => verbatimKey row.1) ∧
    ¬ Quota.Within (fun row => sourceKey row.1) (Occupancy.cap 4)
      ((occupied 4 crowded).take 4) := by
  refine ⟨⟨[(slice 0 1, scored 6), (claim 2 (.episode ⟨3⟩), scored 4),
    (claim 3 (.episode ⟨3⟩), scored 3), (claim 5 .agent, scored 1)], ?_, rfl, ?_, ?_⟩, ?_⟩
  · exact List.Sublist.subperm (by simp [crowded])
  · decide
  · decide
  · decide

/-- On a page of two the second slice leaves, and the first claim comes up. -/
theorem crowded_pair :
    (Quota.Within (fun row => sourceKey row.1) (Occupancy.cap 2) ((occupied 2 crowded).take 2) ∧
      Quota.Within (fun row => verbatimKey row.1) Occupancy.VERBATIM_CAP
        ((occupied 2 crowded).take 2)) ↔
      Occupancy.Room crowded 2 (Occupancy.cap 2) (fun row => sourceKey row.1)
        Occupancy.VERBATIM_CAP fun row => verbatimKey row.1 :=
  caps_kept_iff 2 crowded ⟨[(slice 0 1, scored 6), (claim 2 (.episode ⟨3⟩), scored 4)],
    List.Sublist.subperm (by simp [crowded]), rfl, by decide, by decide⟩

end Agmem.Tools.Recall
