import Agmem.Store.Search

/-! The hop that a search takes along the entities of its own strongest hits. The rows it fetches
vote weakly for the ones that lead onward, and one of these may take the last place of a full
page. -/

namespace Agmem.Tools.Hop

open Core Store

/-- How many of the strongest candidates lend their entities. -/
def SEED_HITS : ℕ := 3

def SEED_CAP : ℕ := 5

/-- The share of the pool from which on an entity is its topic. -/
def HUB_SHARE : ℚ := 5 / 10

def HUB_MIN_POOL : ℕ := 8

def HOP_SCAN : ℕ := 32

def HOP_LIMIT : ℕ := 8

def HOP_WEIGHT : ℚ := 5 / 10

/-- The entities the pool treats as its topic. -/
def hubs (pool : List (List Text)) : List Text :=
  if pool.length < HUB_MIN_POOL then []
  else pool.flatten.eraseDups.filter fun name =>
    decide (HUB_SHARE * pool.length ≤ (pool.countP fun list => decide (name ∈ list) : ℕ))

/-- One more hit that names the entity. -/
def credit (ranked : List (Text × ℕ)) (entity : Text) : List (Text × ℕ) :=
  if ranked.any fun entry => decide (entry.1 = entity) then
    ranked.map fun entry => if entry.1 = entity then (entry.1, entry.2 + 1) else entry
  else ranked ++ [(entity, 1)]

/-- The entities to hop on: those that most of the hits name, and of these the first seen. -/
def seeds (top : List (List Text)) (hubs : List Text) : List Text :=
  let ranked := top.foldl (fun ranked list => list.eraseDups.foldl credit ranked) []
  ((((ranked.filter fun entry => decide (entry.1 ∉ hubs)).insertionSort
    fun a b => b.2 ≤ a.2).take SEED_CAP).map Prod.fst)

/-- Whether a row names something that is neither a seed nor a hub. -/
def leadsOnward (entities seeds hubs : List Text) : Bool :=
  entities.any fun entity => decide (entity ∉ seeds) && decide (entity ∉ hubs)

/-- The vote for the row of that rank, counted from 1. -/
def contribution (rank : ℕ) : ℚ := HOP_WEIGHT / (RRF_K + rank : ℕ)

/-- Add the vote to the row where the pool has it, or the row with its vote to the pool. -/
def vote (weight : ℚ) (row : MemoryRecord) : List Candidate → List Candidate
  | [] => [⟨weight, none, .memory row⟩]
  | candidate :: candidates =>
    if candidate.hit.id = .memory row.id then
      { candidate with rrf := candidate.rrf + weight } :: candidates
    else candidate :: vote weight row candidates

/-- Fold hop rows into the pool, in hop-rank order. -/
def mergeFrom (rank : ℕ) (candidates : List Candidate) : List MemoryRecord → List Candidate
  | [] => candidates
  | row :: rows => mergeFrom (rank + 1) (vote (contribution rank) row candidates) rows

def merge (candidates : List Candidate) (rows : List MemoryRecord) :
    List Candidate × List MemoryId :=
  (mergeFrom 1 candidates rows, rows.map MemoryRecord.id)

/-- The entities of a memory hit. -/
def entitiesOf : Hit → Option (List Text)
  | .memory memory => some memory.entities
  | .chunk _ => none

/-- Widen the candidates by one entity hop, with the ids of the rows it voted for. -/
def run (db : Db) (spaces : List SpaceName) (filters : Filters) (liveness : Liveness)
    (candidates : List Candidate) : List Candidate × List MemoryId :=
  if filters.entities.isEmpty then
    let pool := candidates.filterMap fun candidate => entitiesOf candidate.hit
    let hubs := hubs pool
    let seeds := seeds (pool.take SEED_HITS) hubs
    if seeds.isEmpty then (candidates, [])
    else
      let lookup : Lookup := ⟨spaces, { filters with entities := seeds }, liveness, HOP_SCAN⟩
      let rows := directLookup db lookup
      merge candidates
        ((rows.filter fun row => leadsOnward row.entities seeds hubs).take HOP_LIMIT)
  else (candidates, [])

/-! ### The last place of a page -/

/-- Give the last place of a full page to the best hop-voted row below it, if the page carries
none. -/
def reserveTail {α : Type*} (ranked : List α) (k : ℕ) (isHopped : α → Bool) : List α :=
  if k < 2 ∨ ranked.length ≤ k ∨ (ranked.take k).any isHopped = true then ranked
  else
    match (ranked.drop k).findIdx? isHopped with
    | none => ranked
    | some waiting =>
      match ranked[k + waiting]? with
      | none => ranked
      | some row => (ranked.eraseIdx (k + waiting)).insertIdx (k - 1) row

/-- The row that waits below a full page for its last place. -/
def waiting {α : Type*} (ranked : List α) (k : ℕ) (isHopped : α → Bool) : Option α :=
  if k < 2 ∨ ranked.length ≤ k ∨ (ranked.take k).any isHopped = true then none
  else (ranked.drop k).find? isHopped

variable {α : Type*} {ranked : List α} {k : ℕ} {isHopped : α → Bool}

theorem reserveTail_none (h : waiting ranked k isHopped = none) :
    reserveTail ranked k isHopped = ranked := by
  unfold waiting at h
  unfold reserveTail
  split_ifs at h ⊢ with hk
  · rfl
  · rw [List.findIdx?_eq_none_iff.mpr fun x hx => by simpa using List.find?_eq_none.mp h x hx]

theorem insertIdx_length (l m : List α) (x : α) :
    (l ++ m).insertIdx l.length x = l ++ x :: m := by
  induction l with
  | nil => rfl
  | cons y l ih => simp [List.insertIdx_succ_cons, ih]

/-- The row that waits is moved up; nothing else changes its place in the order. -/
theorem reserveTail_some {row : α} (h : waiting ranked k isHopped = some row) :
    ∃ above below, ranked.drop k = above ++ row :: below ∧
      reserveTail ranked k isHopped =
        ranked.take (k - 1) ++ row :: ((ranked.drop (k - 1)).take 1 ++ (above ++ below)) := by
  unfold waiting at h
  unfold reserveTail
  split_ifs at h with hfull
  rw [if_neg hfull]
  obtain ⟨above, below, hsplit, hprior⟩ : ∃ above below, ranked.drop k = above ++ row :: below ∧
      ∀ a ∈ above, isHopped a = false := by
    obtain ⟨-, above, below, h1, h2⟩ := List.find?_eq_some_iff_append.mp h
    exact ⟨above, below, h1, fun a ha => by simpa using h2 a ha⟩
  have hrow : isHopped row = true := List.find?_some h
  refine ⟨above, below, hsplit, ?_⟩
  have hindex : (ranked.drop k).findIdx? isHopped = some above.length := by
    rw [hsplit, List.findIdx?_append, List.findIdx?_eq_none_iff.mpr fun a ha => by
      simpa using hprior a ha]
    simp [List.findIdx?_cons, hrow]
  have hget : ranked[k + above.length]? = some row := by
    rw [← List.getElem?_drop, hsplit]
    simp
  obtain ⟨hk2, hfull⟩ := not_or.mp hfull
  obtain ⟨hlen, -⟩ := not_or.mp hfull
  have herase : ranked.eraseIdx (k + above.length) = ranked.take k ++ (above ++ below) := by
    have hk : (ranked.take k).length = k := by
      rw [List.length_take]
      omega
    conv_lhs => rw [← List.take_append_drop k ranked, hsplit]
    rw [List.eraseIdx_append_of_length_le (by omega), hk, Nat.add_sub_cancel_left,
      List.eraseIdx_append_of_length_le (Nat.le_refl _), Nat.sub_self, List.eraseIdx_cons_zero]
  have htake : ranked.take k = ranked.take (k - 1) ++ (ranked.drop (k - 1)).take 1 := by
    rw [← List.take_add, Nat.sub_add_cancel (by omega)]
  have hplace : (ranked.take (k - 1)).length = k - 1 := by
    rw [List.length_take]
    omega
  have hinsert := insertIdx_length (ranked.take (k - 1))
    ((ranked.drop (k - 1)).take 1 ++ (above ++ below)) row
  rw [hplace] at hinsert
  simp only [hindex, hget, herase, htake, List.append_assoc]
  exact hinsert

theorem waiting_full {row : α} (h : waiting ranked k isHopped = some row) :
    2 ≤ k ∧ k < ranked.length ∧ (ranked.take k).any isHopped = false ∧ isHopped row = true := by
  unfold waiting at h
  split_ifs at h with hfull
  obtain ⟨hk, hfull⟩ := not_or.mp hfull
  obtain ⟨hlen, hany⟩ := not_or.mp hfull
  exact ⟨by omega, by omega, by simpa using hany, List.find?_some h⟩

theorem reserveTail_perm (ranked : List α) (k : ℕ) (isHopped : α → Bool) :
    (reserveTail ranked k isHopped).Perm ranked := by
  cases h : waiting ranked k isHopped with
  | none => rw [reserveTail_none h]
  | some row =>
    obtain ⟨above, below, hsplit, hrows⟩ := reserveTail_some h
    have hk : k - 1 + 1 = k := Nat.sub_add_cancel (by have := (waiting_full h).1; omega)
    have hwhole : ranked =
        ranked.take (k - 1) ++ ((ranked.drop (k - 1)).take 1 ++ (above ++ row :: below)) := by
      rw [← hsplit, ← List.append_assoc, ← List.take_add, hk, List.take_append_drop]
    have hmoved : (row :: ((ranked.drop (k - 1)).take 1 ++ (above ++ below))).Perm
        ((ranked.drop (k - 1)).take 1 ++ (above ++ row :: below)) := by
      rw [← List.append_assoc, ← List.append_assoc]
      exact List.perm_middle.symm
    rw [hrows]
    conv_rhs => rw [hwhole]
    exact List.Perm.append_left _ hmoved

/-- A page whose last place the hop's row took. -/
theorem take_reserveTail {row : α} (h : waiting ranked k isHopped = some row) :
    (reserveTail ranked k isHopped).take k = ranked.take (k - 1) ++ [row] := by
  obtain ⟨above, below, -, hrows⟩ := reserveTail_some h
  obtain ⟨hk, hlen, -, -⟩ := waiting_full h
  have hplace : (ranked.take (k - 1)).length = k - 1 := by
    rw [List.length_take]
    omega
  rw [hrows, List.take_append, hplace, List.take_of_length_le (by omega),
    show k - (k - 1) = 1 by omega]
  rfl

/-- A full page carries a hop-voted row if the pool has one. -/
theorem any_take_reserveTail (hk : 2 ≤ k) (hlen : k < ranked.length)
    (hany : ranked.any isHopped = true) :
    ((reserveTail ranked k isHopped).take k).any isHopped = true := by
  cases h : waiting ranked k isHopped with
  | some row =>
    rw [take_reserveTail h, List.any_append]
    simp [(waiting_full h).2.2.2]
  | none =>
    rw [reserveTail_none h]
    unfold waiting at h
    split_ifs at h with hfull
    · rcases hfull with hfull | hfull | hfull
      · omega
      · omega
      · exact hfull
    · rw [← List.take_append_drop k ranked, List.any_append, Bool.or_eq_true] at hany
      refine hany.resolve_right fun hbelow => ?_
      obtain ⟨x, hx, hvoted⟩ := List.any_eq_true.mp hbelow
      exact List.find?_eq_none.mp h x hx hvoted

end Agmem.Tools.Hop
