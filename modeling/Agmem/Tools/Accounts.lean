import Agmem.Tools.Rows
import Mathlib.Data.List.Sort

/-! The account a `remember` call gives. Every memory of the request is either blocked by the gate,
found in the store or created, and what the response lists goes by the position in the request: the
positions under duplicates, and in order of the rest the ids that were created. -/

namespace Agmem.Tools.Remember

open Core Relational Store

/-- The inputs that the response has no duplicate of, in the order of the request. -/
def unreported (params : RememberParams) (res : RememberResult) : List ℕ :=
  (List.range params.memories.length).filter fun i =>
    !res.duplicates.any fun d => decide (d.of_ = i)

/-- The id is that of a row which holds what the request has at a position, and is new. -/
def Makes (db db' : Db) (params : RememberParams) (id : MemoryId) (i : ℕ) : Prop :=
  (∀ r ∈ db.memory, r.id ≠ id) ∧ ∃ r ∈ db'.memory, r.id = id ∧
    ∃ input, params.memories[i]? = some input ∧ r.content = input.content

/-- Every input is reported once: under duplicates, or by the id of the row it made. -/
structure Accounts (db db' : Db) (params : RememberParams) (res : RememberResult) : Prop where
  created : List.Forall₂ (Makes db db' params) res.created (unreported params res)
  duplicates : ∀ d ∈ res.duplicates, d.of_ < params.memories.length
  related : ∀ r ∈ res.related, r.of_ ∈ unreported params res

/-! ### Positions -/

theorem keptFrom_eq (index : ℕ) (gates : List Gated) :
    keptFrom index gates = ((gates.zipIdx index).filter fun g => !g.1.blocked).map Prod.snd := by
  induction gates generalizing index with
  | nil => rfl
  | cons g gates ih =>
    rw [keptFrom, List.zipIdx_cons, List.filter_cons]
    cases g.blocked with
    | true => exact ih (index + 1)
    | false => exact congrArg (index :: ·) (ih (index + 1))

theorem mem_keptFrom {gates : List Gated} {i : ℕ} :
    i ∈ keptFrom 0 gates ↔ ∃ g, gates[i]? = some g ∧ g.blocked = false := by
  simp only [keptFrom_eq, List.mem_map, List.mem_filter, Bool.not_eq_true', Prod.exists,
    exists_eq_right, List.mem_zipIdx_iff_getElem?]

theorem keptFrom_pairwise (gates : List Gated) : (keptFrom 0 gates).Pairwise (· < ·) := by
  rw [keptFrom_eq]
  refine List.Pairwise.sublist (List.filter_sublist.map Prod.snd) ?_
  rw [List.zipIdx_map_snd]
  exact List.pairwise_lt_range'

theorem batchOf_memories (space : SpaceName) (gates : List Gated) (episode : Option NewEpisode)
    (writer : Writer) : (batchOf space gates episode writer).memories =
      ((gates.zipIdx 0).filter fun g => !g.1.blocked).map fun g => g.1.memory := by
  conv_lhs => rw [batchOf, ← List.zipIdx_map_fst 0 gates, List.filter_map, List.map_map]
  rfl

/-- The memory that a position of the request has in the batch. -/
theorem batchOf_getElem? {space : SpaceName} {gates : List Gated} {episode : Option NewEpisode}
    {writer : Writer} {i j : ℕ} (h : (keptFrom 0 gates)[j]? = some i) :
    ∃ g, gates[i]? = some g ∧
      (batchOf space gates episode writer).memories[j]? = some g.memory := by
  rw [keptFrom_eq, List.getElem?_map, Option.map_eq_some_iff] at h
  obtain ⟨⟨g, i'⟩, hj, rfl⟩ := h
  have hg := List.mem_zipIdx_iff_getElem?.mp (List.mem_filter.mp (List.mem_of_getElem? hj)).1
  refine ⟨g, hg, ?_⟩
  rw [batchOf_memories, List.getElem?_map, hj]
  rfl

/-! ### What became of the inputs -/

/-- What became of the inputs that passed the gate, each with its position. -/
def settled (gates : List Gated) (written : List (Written MemoryId)) :
    List (ℕ × Written MemoryId) :=
  (keptFrom 0 gates).zip written

variable {gates : List Gated} {written : List (Written MemoryId)}

theorem settled_fst (h : written.length = (keptFrom 0 gates).length) :
    (settled gates written).map Prod.fst = keptFrom 0 gates :=
  List.map_fst_zip h.ge

theorem settled_snd (h : written.length = (keptFrom 0 gates).length) :
    (settled gates written).map Prod.snd = written :=
  List.map_snd_zip h.le

theorem createdIds_eq (written : List (Written MemoryId)) :
    createdIds written = (written.filter Written.isCreated).map Written.id := by
  induction written with
  | nil => rfl
  | cons w written ih =>
    cases w with
    | created id => exact congrArg (id :: ·) ih
    | duplicate id => exact ih

/-- The positions of the inputs that made their row. -/
def made (gates : List Gated) (written : List (Written MemoryId)) : List ℕ :=
  ((settled gates written).filter fun w => w.2.isCreated).map Prod.fst

theorem createdIds_settled (h : written.length = (keptFrom 0 gates).length) :
    createdIds written =
      ((settled gates written).filter fun w => w.2.isCreated).map fun w => w.2.id := by
  conv_lhs => rw [createdIds_eq, ← settled_snd h, List.filter_map, List.map_map]
  rfl

theorem made_pairwise (h : written.length = (keptFrom 0 gates).length) :
    (made gates written).Pairwise (· < ·) := by
  refine List.Pairwise.sublist (List.filter_sublist.map Prod.fst) ?_
  rw [settled_fst h]
  exact keptFrom_pairwise gates

/-- What the response lists as duplicates: what the gate blocked on, and what the store found. -/
theorem mem_result_duplicates {outcome : BatchOutcome} {d : Duplicate} :
    d ∈ (result gates outcome).duplicates ↔ (∃ g ∈ gates, d ∈ g.duplicates) ∨
      d ∈ hashDuplicates gates outcome.memories := by
  rw [result]
  dsimp only
  rw [List.mem_insertionSort, List.mem_append, List.mem_flatMap]

theorem hashDuplicates_of {i : ℕ} :
    (∃ d ∈ hashDuplicates gates written, d.of_ = i) ↔
      ∃ w ∈ settled gates written, w.1 = i ∧ w.2.isCreated = false := by
  simp only [hashDuplicates, List.mem_filterMap, settled]
  constructor
  · rintro ⟨d, ⟨⟨j, w⟩, hw, hd⟩, rfl⟩
    cases w with
    | created id => cases hd
    | duplicate id =>
      cases hd
      exact ⟨_, hw, rfl, rfl⟩
  · rintro ⟨⟨j, w⟩, hw, rfl, hfound⟩
    cases w with
    | created id => cases hfound
    | duplicate id => exact ⟨_, ⟨_, hw, rfl⟩, rfl⟩

/-- An input that passed the gate made its row or did not, and not both. -/
theorem mem_made (h : written.length = (keptFrom 0 gates).length) {i : ℕ} :
    i ∈ made gates written ↔ i ∈ keptFrom 0 gates ∧
      ¬ ∃ w ∈ settled gates written, w.1 = i ∧ w.2.isCreated = false := by
  have hfst := settled_fst h
  have hnodup : ((settled gates written).map Prod.fst).Nodup :=
    hfst ▸ (keptFrom_pairwise gates).imp Nat.ne_of_lt
  simp only [made, List.mem_map, List.mem_filter]
  constructor
  · rintro ⟨w, ⟨hw, hcreated⟩, rfl⟩
    refine ⟨hfst ▸ List.mem_map_of_mem hw, ?_⟩
    rintro ⟨w', hw', hsame, hfound⟩
    rw [List.inj_on_of_nodup_map hnodup hw' hw hsame, hcreated] at hfound
    cases hfound
  · rintro ⟨hi, hnot⟩
    obtain ⟨w, hw, rfl⟩ := List.mem_map.mp (hfst.symm ▸ hi)
    refine ⟨w, ⟨hw, ?_⟩, rfl⟩
    by_contra hfound
    exact hnot ⟨w, hw, rfl, (Bool.not_eq_true _).mp hfound⟩

/-! ### The response -/

theorem mem_unreported {params : RememberParams} {res : RememberResult} {i : ℕ} :
    i ∈ unreported params res ↔
      i < params.memories.length ∧ ¬ ∃ d ∈ res.duplicates, d.of_ = i := by
  simp [unreported]

theorem kept_lt {i : ℕ} (hi : i ∈ keptFrom 0 gates) : i < gates.length := by
  obtain ⟨g, hg, -⟩ := mem_keptFrom.mp hi
  exact (List.getElem?_eq_some_iff.mp hg).1

section Gates

variable {params : RememberParams} (hlen : gates.length = params.memories.length)
  (hgates : ∀ i input g, params.memories[i]? = some input → gates[i]? = some g →
    ∃ m, Admits input m ∧ GatedAs i m g)
include hlen hgates

/-- The gate at a position of the request. -/
theorem gate_at {i : ℕ} {g : Gated} (hg : gates[i]? = some g) :
    ∃ input m, params.memories[i]? = some input ∧ Admits input m ∧ GatedAs i m g := by
  have hi : i < params.memories.length := hlen ▸ (List.getElem?_eq_some_iff.mp hg).1
  obtain ⟨m, ha, hgated⟩ := hgates i _ g (List.getElem?_eq_getElem hi) hg
  exact ⟨_, m, List.getElem?_eq_getElem hi, ha, hgated⟩

/-- The gate lists duplicates of exactly the inputs that it blocks. -/
theorem gate_duplicates_of {i : ℕ} : (∃ g ∈ gates, ∃ d ∈ g.duplicates, d.of_ = i) ↔
    i < params.memories.length ∧ i ∉ keptFrom 0 gates := by
  constructor
  · rintro ⟨g, hg, d, hd, rfl⟩
    obtain ⟨j, hj⟩ := List.mem_iff_getElem?.mp hg
    obtain ⟨input, m, hinput, -, hgated⟩ := gate_at hlen hgates hj
    rw [hgated.duplicates d hd]
    refine ⟨(List.getElem?_eq_some_iff.mp hinput).1, fun hkept => ?_⟩
    obtain ⟨g', hg', hopen⟩ := mem_keptFrom.mp hkept
    obtain rfl : g' = g := Option.some.inj (hg'.symm.trans hj)
    rw [hgated.blocked.mpr (List.ne_nil_of_mem hd)] at hopen
    cases hopen
  · rintro ⟨hi, hblocked⟩
    have hg : gates[i]? = some gates[i] := List.getElem?_eq_getElem (hlen.symm ▸ hi)
    obtain ⟨input, m, -, -, hgated⟩ := gate_at hlen hgates hg
    have hb : gates[i].blocked = true := by
      by_contra hopen
      exact hblocked (mem_keptFrom.mpr ⟨_, hg, (Bool.not_eq_true _).mp hopen⟩)
    obtain ⟨d, hd⟩ := List.exists_mem_of_ne_nil _ (hgated.blocked.mp hb)
    exact ⟨_, List.getElem_mem _, d, hd, hgated.duplicates d hd⟩

theorem reported_iff {outcome : BatchOutcome} {i : ℕ} :
    (∃ d ∈ (result gates outcome).duplicates, d.of_ = i) ↔
      i < params.memories.length ∧ i ∉ keptFrom 0 gates ∨
        ∃ w ∈ settled gates outcome.memories, w.1 = i ∧ w.2.isCreated = false := by
  rw [← gate_duplicates_of hlen hgates, ← hashDuplicates_of]
  constructor
  · rintro ⟨d, hd, hi⟩
    rcases mem_result_duplicates.mp hd with ⟨g, hg, hd⟩ | hd
    · exact .inl ⟨g, hg, d, hd, hi⟩
    · exact .inr ⟨d, hd, hi⟩
  · rintro (⟨g, hg, d, hd, hi⟩ | ⟨d, hd, hi⟩)
    · exact ⟨d, mem_result_duplicates.mpr (.inl ⟨g, hg, hd⟩), hi⟩
    · exact ⟨d, mem_result_duplicates.mpr (.inr hd), hi⟩

/-- The inputs without a duplicate are those that made their row. -/
theorem unreported_eq {outcome : BatchOutcome}
    (h : outcome.memories.length = (keptFrom 0 gates).length) :
    unreported params (result gates outcome) = made gates outcome.memories := by
  have hrange : (unreported params (result gates outcome)).Pairwise (· < ·) :=
    List.pairwise_lt_range.sublist List.filter_sublist
  refine hrange.eq_of_mem_iff (made_pairwise h) fun i => ?_
  rw [mem_unreported, reported_iff hlen hgates, mem_made h]
  constructor
  · rintro ⟨hi, hnot⟩
    refine ⟨?_, fun hfound => hnot (.inr hfound)⟩
    by_contra hblocked
    exact hnot (.inl ⟨hi, hblocked⟩)
  · rintro ⟨hkept, hnot⟩
    exact ⟨hlen ▸ kept_lt hkept, fun h => h.elim (fun hb => hb.2 hkept) hnot⟩

theorem duplicates_lt {outcome : BatchOutcome}
    (h : outcome.memories.length = (keptFrom 0 gates).length) :
    ∀ d ∈ (result gates outcome).duplicates, d.of_ < params.memories.length := by
  intro d hd
  rcases (reported_iff hlen hgates).mp ⟨d, hd, rfl⟩ with hb | ⟨w, hw, hi, -⟩
  · exact hb.1
  · have hkept : w.1 ∈ keptFrom 0 gates := settled_fst h ▸ List.mem_map_of_mem hw
    exact hi ▸ hlen ▸ kept_lt hkept

theorem related_unreported {outcome : BatchOutcome} :
    ∀ r ∈ (result gates outcome).related, r.of_ ∈ unreported params (result gates outcome) := by
  intro r hr
  rw [result] at hr
  dsimp only at hr
  rw [List.mem_insertionSort, List.mem_filter, List.mem_flatMap] at hr
  obtain ⟨⟨g, hg, hrel⟩, hnone⟩ := hr
  obtain ⟨i, hi⟩ := List.mem_iff_getElem?.mp hg
  obtain ⟨input, m, hinput, -, hgated⟩ := gate_at hlen hgates hi
  refine mem_unreported.mpr ⟨?_, ?_⟩
  · exact hgated.related r hrel ▸ (List.getElem?_eq_some_iff.mp hinput).1
  · rintro ⟨d, hd, hof⟩
    rw [Bool.not_eq_true', List.any_eq_false] at hnone
    exact hnone d hd (decide_eq_true hof)

end Gates

variable [Hashing] {db db' : Db} {service : Service} {space : SpaceName} {params : RememberParams}

/-- The response of a batch that goes through accounts for every input. -/
theorem result_accounts (hw : db.WellFormed) {episode : Option NewEpisode} {writer : Writer}
    {clock : ℕ → Clock} {outcome : BatchOutcome}
    (hp : prepared service db space params = .ok (gates, episode))
    (h : insertBatch db (batchOf space gates episode writer) clock = .ok (db', outcome)) :
    Accounts db db' params (result gates outcome) := by
  obtain ⟨hlen, hgates⟩ := prepared_gates hp
  obtain ⟨hlength, hcreated⟩ := insertBatch_created hw h
  have hkept : outcome.memories.length = (keptFrom 0 gates).length := by
    rw [hlength, batchOf_memories, keptFrom_eq, List.length_map, List.length_map]
  refine ⟨?_, duplicates_lt hlen hgates hkept, related_unreported hlen hgates⟩
  rw [unreported_eq hlen hgates hkept, made]
  have hids : (result gates outcome).created = createdIds outcome.memories := rfl
  rw [hids, createdIds_settled hkept, List.forall₂_map_left_iff, List.forall₂_map_right_iff,
    List.forall₂_same]
  intro w hw'
  obtain ⟨hmem, hmade⟩ := List.mem_filter.mp hw'
  obtain ⟨j, hj⟩ := List.mem_iff_getElem?.mp hmem
  obtain ⟨hi, hwritten⟩ := List.getElem?_zip_eq_some.mp hj
  obtain ⟨g, hg, hbatch⟩ := batchOf_getElem? hi
  obtain ⟨input, m, hinput, ha, hgated⟩ := gate_at hlen hgates hg
  cases hw'' : w.2 with
  | duplicate id =>
    rw [hw''] at hmade
    cases hmade
  | created id =>
    obtain ⟨hnew, r, hr, hid, hcontent⟩ := hcreated j g.memory id hbatch (hw'' ▸ hwritten)
    refine ⟨hnew, r, hr, hid, input, hinput, ?_⟩
    rw [hcontent, hgated.dressed]
    exact ha.content

omit [Hashing] in
/-- Where the gate blocks everything, so does the response that says so. -/
theorem blocked_accounts {episode : Option NewEpisode} (writer : Writer)
    (hp : prepared service db space params = .ok (gates, episode))
    (hnone : (batchOf space gates episode writer).memories = []) :
    Accounts db db params (blockedResult gates) := by
  obtain ⟨hlen, hgates⟩ := prepared_gates hp
  have hkept : keptFrom 0 gates = [] := by
    rw [batchOf_memories, List.map_eq_nil_iff] at hnone
    rw [keptFrom_eq, hnone, List.map_nil]
  have hduplicates (i : ℕ) : (∃ d ∈ (blockedResult gates).duplicates, d.of_ = i) ↔
      i < params.memories.length := by
    have hiff := gate_duplicates_of (i := i) hlen hgates
    rw [hkept, and_iff_left List.not_mem_nil] at hiff
    rw [← hiff]
    simp only [blockedResult, List.mem_insertionSort, List.mem_flatMap]
    exact ⟨fun ⟨d, ⟨g, hg, hd⟩, hi⟩ => ⟨g, hg, d, hd, hi⟩,
      fun ⟨g, hg, d, hd, hi⟩ => ⟨d, ⟨g, hg, hd⟩, hi⟩⟩
  have hnothing : unreported params (blockedResult gates) = [] := by
    refine List.eq_nil_iff_forall_not_mem.mpr fun i hi => ?_
    obtain ⟨hlt, hnot⟩ := mem_unreported.mp hi
    exact hnot ((hduplicates i).mpr hlt)
  refine ⟨?_, fun d hd => (hduplicates _).mp ⟨d, hd, rfl⟩, fun r hr => absurd hr List.not_mem_nil⟩
  rw [hnothing]
  exact .nil

/-- A call that succeeds accounts for every input. -/
theorem run_accounts (hdb : db.Reachable) {writer : Writer} {registered : Timestamp}
    {clock : ℕ → Clock} {res : RememberResult}
    (h : run service db params writer registered clock = (db', .ok res)) :
    Accounts db db' params res := by
  unfold run at h
  split at h
  · cases h
  · next db₁ space hspace =>
    have hw := (resolveSpace_reachable hdb hspace).wellFormed
    obtain ⟨t, rfl⟩ := resolveSpace_frame hspace
    unfold store at h
    split at h
    · cases h
    · next gates episode hp =>
      dsimp only at h
      split_ifs at h with hempty
      · cases h
        have hnone := List.isEmpty_iff.mp (Bool.and_eq_true_iff.mp hempty).1
        have := blocked_accounts writer hp hnone
        exact ⟨this.created, this.duplicates, this.related⟩
      · split at h
        · cases h
        · next db₂ outcome hins =>
          cases h
          have := result_accounts hw hp hins
          exact ⟨this.created, this.duplicates, this.related⟩

/-- A request with a claim, the same in capitals, and another one. -/
def repeated : RememberParams :=
  ⟨none, ['a', 'A', 'b'].map fun c => ⟨[c], none, [], [], none, [], none⟩, none⟩

omit [Hashing] in
theorem repeated_accounts : ∃ db' res,
    @run plain terminal (Db.empty 0) repeated agent 0 (ticking 0) = (db', .ok res) ∧
    res.created = [⟨0⟩, ⟨1⟩] ∧ res.duplicates.map Duplicate.of_ = [1] ∧
    Accounts (Db.empty 0) db' repeated res := by
  have hrun : ∃ u, (@run plain terminal (Db.empty 0) repeated agent 0 (ticking 0)).2 = .ok u ∧
      decide (u.created = [⟨0⟩, ⟨1⟩] ∧ u.duplicates.map Duplicate.of_ = [1]) = true :=
    exists_of_succeedsWith (by decide)
  obtain ⟨res, hres, hp⟩ := hrun
  obtain ⟨hcreated, hduplicates⟩ := of_decide_eq_true hp
  have h : @run plain terminal (Db.empty 0) repeated agent 0 (ticking 0) = (_, .ok res) :=
    Prod.ext rfl hres
  exact ⟨_, res, h, hcreated, hduplicates,
    @run_accounts plain (Db.empty 0) _ terminal repeated ⟨0, [], .nil _⟩ agent 0 (ticking 0) res h⟩

end Agmem.Tools.Remember
