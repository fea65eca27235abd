import Agmem.Store.Landing
import Agmem.Tools.Rows

/-! A summary and what it cites. The gate asks for a fixed number of neighbours and then passes over
those the summary cites, so where that many cited claims are nearest, a near-duplicate that the
summary does not cite is never looked at. -/

namespace Agmem.Tools.Reflect

open Core Relational Store

/-- The rows the gate measures. -/
def Comparable (db : Db) (space : SpaceName) (r : MemoryRecord) : Prop :=
  r ∈ db.memory ∧ r.space = space ∧ r.isLive = true ∧ r.embedding.isSome = true

/-- The search answers with the nearest of the rows, as many as it is asked for. -/
structure ExactNearest (engine : Engine) (db : Db) (space : SpaceName) (probe : Embedding)
    (similarity : MemoryRecord → ℚ) (ranked : List MemoryRecord) : Prop where
  complete : ∀ r, r ∈ ranked ↔ Comparable db space r
  sorted : ranked.Pairwise fun x y => similarity y ≤ similarity x
  answer : nearestLive engine db space [probe] =
    .ok [(ranked.take NEIGHBOURS).map fun r => ⟨r.id, r.content, similarity r⟩]

/-- A near-duplicate that the summary does not cite. -/
def Restates (bands : Thresholds) (similarity : MemoryRecord → ℚ) (cited : List Derivation)
    (r : MemoryRecord) : Prop :=
  .memory r.id ∉ cited ∧ bands.isNearDuplicate (similarity r) = true

/-- A row that was not there before holds the text. -/
def StoresText (db db' : Db) (text : Text) : Prop :=
  ∃ r ∈ db'.memory, (∀ q ∈ db.memory, q.id ≠ r.id) ∧ r.content = text

/-- The rows that are looked at are all cited, and a near-duplicate comes after them. -/
def Hidden (bands : Thresholds) (similarity : MemoryRecord → ℚ) (cited : List Derivation)
    (ranked : List MemoryRecord) : Prop :=
  (∃ r ∈ ranked, Restates bands similarity cited r) ∧
    ∀ r ∈ ranked.take NEIGHBOURS, .memory r.id ∈ cited

variable {bands : Thresholds} {similarity : MemoryRecord → ℚ} {cited : List Derivation}
  {ranked : List MemoryRecord}

/-- The nearest rows tell whether any row restates the summary, unless they hide one. -/
theorem nearest_iff (hsorted : ranked.Pairwise fun x y => similarity y ≤ similarity x) :
    ((∀ r ∈ ranked.take NEIGHBOURS, ¬ Restates bands similarity cited r) ↔
      ∀ r ∈ ranked, ¬ Restates bands similarity cited r) ↔
        ¬ Hidden bands similarity cited ranked := by
  constructor
  · rintro hiff ⟨⟨r, hr, hrestates⟩, hcited⟩
    exact hiff.mp (fun q hq hq' => hq'.1 (hcited q hq)) r hr hrestates
  · intro hopen
    refine ⟨fun hnear r hr hrestates => hopen ⟨⟨r, hr, hrestates⟩, fun q hq => ?_⟩,
      fun hall r hr => hall r (List.mem_of_mem_take hr)⟩
    by_contra huncited
    -- the row is after those that are looked at, so each of them is at least as near
    have hlast : r ∈ ranked.drop NEIGHBOURS := by
      rw [← List.take_append_drop NEIGHBOURS ranked, List.mem_append] at hr
      exact hr.resolve_left fun hr => hnear r hr hrestates
    rw [← List.take_append_drop NEIGHBOURS ranked, List.pairwise_append] at hsorted
    have hle := hsorted.2.2 q hq r hlast
    refine hnear q hq ⟨huncited, ?_⟩
    have hband := hrestates.2
    rw [Thresholds.isNearDuplicate, decide_eq_true_eq] at hband ⊢
    exact hband.trans hle

/-- The gate of a summary lets it through if no neighbour restates it. -/
theorem gate_summary (related : List Related) (ns : List Neighbour) :
    (∃ rest, gate bands .summary cited related ns = .inr rest) ↔
      ∀ n ∈ ns, .memory n.id ∉ cited → bands.isNearDuplicate n.similarity = false := by
  induction ns generalizing related with
  | nil => exact iff_of_true ⟨related, rfl⟩ fun n hn => absurd hn List.not_mem_nil
  | cons n ns ih =>
    rw [List.forall_mem_cons]
    unfold gate
    by_cases hcited : .memory n.id ∈ cited
    · rw [if_pos ⟨rfl, hcited⟩, ih]
      exact ⟨fun h => ⟨fun hn => absurd hcited hn, h⟩, And.right⟩
    rw [if_neg fun h => hcited h.2]
    cases hdup : bands.isNearDuplicate n.similarity with
    | true =>
      rw [if_pos rfl]
      refine iff_of_false (fun h => ?_) fun h => ?_
      · obtain ⟨rest, hrest⟩ := h
        cases hrest
      · cases h.1 hcited
    | false =>
      rw [if_neg Bool.false_ne_true, and_iff_right fun _ => rfl]
      split_ifs
      · exact ih _
      · exact ih _

/-! ### The call -/

section

variable {service : Service} {db : Db} {space : SpaceName} {params : ReflectParams}
  {probe : Embedding} {ns : List Neighbour}

/-- What the gate makes of a summary: it goes on, or a neighbour restates it. -/
theorem prepared_summary (hkind : params.kind = some .summary) (hnone : params.supersedes = [])
    (hblank : trim params.insight ≠ []) (hcited : resolve db space params.derivedFrom = .ok cited)
    (hdim : service.embedder.dim ≠ 0)
    (hembed : service.embedder.embedPassages [params.insight] = .ok [probe])
    (hnear : nearestLive service.engine db space [probe] = .ok [ns]) :
    (∃ m related, prepared service db space params = .ok (.inr (m, related)) ∧
        ∀ n ∈ ns, .memory n.id ∉ cited →
          service.embedder.thresholds.isNearDuplicate n.similarity = false) ∨
      (∃ n, prepared service db space params = .ok (.inl n)) ∧
        ¬ ∀ n ∈ ns, .memory n.id ∉ cited →
          service.embedder.thresholds.isNearDuplicate n.similarity = false := by
  have hmemory : embed service.embedder (memoryOf params cited []) =
      .ok { memoryOf params cited [] with embedding := some probe } := by
    unfold embed
    rw [if_neg hdim]
    have hcontent : (memoryOf params cited []).content = params.insight := rfl
    rw [hcontent, hembed]
    rfl
  have hsummary : (memoryOf params cited []).kind = .summary := by
    rw [memoryOf, hkind]
    rfl
  have hblank' : ¬ (trim params.insight).isEmpty = true := fun h =>
    hblank (List.isEmpty_iff.mp h)
  have hempty : (memoryOf params cited []).supersedes.isEmpty = true := rfl
  have hgate := @gate_summary service.embedder.thresholds cited [] ns
  unfold prepared
  rw [if_neg hblank', hcited, hnone]
  simp only [supersedesFrom, hmemory, hempty, hnear, hsummary, List.flatten_cons, List.flatten_nil,
    List.append_nil]
  cases hg : gate service.embedder.thresholds .summary cited [] ns with
  | inl n =>
    rw [hg] at hgate
    refine .inr ⟨⟨n, rfl⟩, fun hall => ?_⟩
    obtain ⟨rest, hrest⟩ := hgate.mpr hall
    cases hrest
  | inr related => exact .inl ⟨_, related, rfl, hgate.mp ⟨related, hg⟩⟩

variable [Hashing] {db₁ db' : Db} {writer : Writer} {registered : Timestamp} {clock : ℕ → Clock}
  {res : ReflectResult}

/-- A memory whose claim does not stand is stored. -/
theorem insertBatch_one (hw : db.WellFormed) {m : NewMemory} {clock : ℕ → Clock}
    {out : BatchOutcome} (h : insertBatch db ⟨space, none, [m], writer⟩ clock = .ok (db', out))
    (hclaim : ∀ r ∈ db.memory, r.space = space → r.isLive = true →
      r.contentHash ≠ contentHash m.content) :
    (∃ id, out.memories.head? = some (.created id)) ∧ StoresText db db' m.content := by
  obtain ⟨id, hid⟩ := (Landing.collapses hw h).created [] m [] rfl
    (fun ⟨r, hr, hs, hh, hl⟩ => hclaim r hr hs hl hh) fun p hp => absurd hp List.not_mem_nil
  obtain ⟨hnew, r, hr, rfl, hcontent⟩ := (insertBatch_created hw h).2 0 m id rfl hid
  exact ⟨⟨r.id, by rw [List.head?_eq_getElem?]; exact hid⟩, r, hr, hnew, hcontent⟩

/-- A summary of a claim that does not stand is written exactly if no neighbour that the gate looks
at restates it. -/
theorem summary_gated (hdb : db.Reachable)
    (hspace : resolveSpace service db params.space registered = .ok (db₁, space))
    (hkind : params.kind = some .summary) (hnone : params.supersedes = [])
    (hcited : resolve db₁ space params.derivedFrom = .ok cited)
    (hdim : service.embedder.dim ≠ 0)
    (hembed : service.embedder.embedPassages [params.insight] = .ok [probe])
    (hnear : nearestLive service.engine db₁ space [probe] = .ok [ns])
    (hclaim : ∀ r ∈ db₁.memory, r.space = space → r.isLive = true →
      r.contentHash ≠ contentHash params.insight)
    (h : run service db params writer registered clock = (db', .ok res)) :
    (res.created = true ∧ StoresText db db' params.insight ↔ ∀ n ∈ ns, .memory n.id ∉ cited →
        service.embedder.thresholds.isNearDuplicate n.similarity = false) ∧
      (res.created = true ↔ StoresText db db' params.insight) := by
  have hw := (resolveSpace_reachable hdb hspace).wellFormed
  unfold run at h
  rw [hspace] at h
  dsimp only at h
  unfold store at h
  by_cases hblank : trim params.insight = []
  · unfold prepared at h
    rw [hblank] at h
    cases h
  obtain ⟨t, rfl⟩ := resolveSpace_frame hspace
  rcases prepared_summary hkind hnone hblank hcited hdim hembed hnear with
    ⟨m, related, hp, hopen⟩ | ⟨⟨n, hp⟩, hblocked⟩
  · have hcontent := (prepared_admits hp).content
    rw [hp] at h
    dsimp only at h
    split at h
    · cases h
    · next db₂ out hins =>
      obtain ⟨⟨id, hid⟩, hstores⟩ := insertBatch_one hw hins (hcontent ▸ hclaim)
      rw [hid] at h
      cases h
      rw [hcontent] at hstores
      exact ⟨iff_of_true ⟨rfl, hstores⟩ hopen, iff_of_true rfl hstores⟩
  · rw [hp] at h
    cases h
    have hsame : ¬ StoresText db { db with space := t } params.insight := by
      rintro ⟨r, hr, hnew, -⟩
      exact hnew r hr rfl
    exact ⟨iff_of_false (fun h => hsame h.2) hblocked,
      iff_of_false Bool.false_ne_true hsame⟩

/-- A summary of a claim that does not stand is written exactly if no row restates it that it does
not cite, unless as many cited rows as the gate looks at are nearer than all that restate it. -/
theorem summary_written_iff (hdb : db.Reachable)
    (hspace : resolveSpace service db params.space registered = .ok (db₁, space))
    (hkind : params.kind = some .summary) (hnone : params.supersedes = [])
    (hcited : resolve db₁ space params.derivedFrom = .ok cited)
    (hdim : service.embedder.dim ≠ 0)
    (hembed : service.embedder.embedPassages [params.insight] = .ok [probe])
    (hexact : ExactNearest service.engine db₁ space probe similarity ranked)
    (hclaim : ∀ r ∈ db₁.memory, r.space = space → r.isLive = true →
      r.contentHash ≠ contentHash params.insight)
    (h : run service db params writer registered clock = (db', .ok res)) :
    (res.created = true ↔ StoresText db db' params.insight) ∧
      ((StoresText db db' params.insight ↔ ∀ r, Comparable db₁ space r →
          ¬ Restates service.embedder.thresholds similarity cited r) ↔
        ¬ Hidden service.embedder.thresholds similarity cited ranked) := by
  obtain ⟨hgated, hcreated⟩ := summary_gated hdb hspace hkind hnone hcited hdim hembed
    hexact.answer hclaim h
  refine ⟨hcreated, ?_⟩
  have hrows : (∀ r, Comparable db₁ space r →
      ¬ Restates service.embedder.thresholds similarity cited r) ↔
        ∀ r ∈ ranked, ¬ Restates service.embedder.thresholds similarity cited r :=
    forall_congr' fun r => by rw [hexact.complete]
  have hnear : StoresText db db' params.insight ↔ ∀ r ∈ ranked.take NEIGHBOURS,
      ¬ Restates service.embedder.thresholds similarity cited r := by
    rw [hcreated, and_self] at hgated
    rw [hgated, List.forall_mem_map]
    refine forall₂_congr fun r _ => ?_
    rw [Restates, not_and, Bool.not_eq_true]
  rw [hrows, hnear]
  exact nearest_iff hexact.sorted

end

/-! ### A crowd of cited claims -/

section

def dot (v w : Embedding) : ℚ := (List.zipWith (· * ·) v w).foldl (· + ·) 0

/-- A search that measures every row. -/
def exhaustive : Engine where
  knn db k v := .ok (((db.memory.rows.filterMap fun r => r.embedding.map fun w =>
    (r.id, 1 - dot v w)).insertionSort fun x y => x.2 ≤ y.2).take k)
  matching _ _ := []

/-- A session whose embedder makes the same of every text. -/
def flat : Service where
  space := agmem
  pool := 10
  embedder := ⟨2, Thresholds.BGE_SMALL, fun passages => .ok (passages.map fun _ => [1, 0])⟩
  engine := exhaustive

/-- Four claims with the vector of the session, and one very near them. -/
def crowd : Op :=
  .insertBatch (batchOf ((['a', 'b', 'c', 'd'].map fun letter =>
      { Store.claim letter [] none with embedding := some [1, 0] }) ++
    [{ Store.claim 'e' [] none with embedding := some [40 / 41, 9 / 41] }])) (ticking 0)

def toVector (r : MemoryRecord) : ℚ := dot [1, 0] (r.embedding.getD [])

/-- A summary of the claims with the given numbers. -/
def summaryOf (ids : List ℕ) : ReflectParams :=
  ⟨none, ['s'], ids.map fun id => .reads ⟨none, .reads id⟩, some .summary, [], [], []⟩

/-- What is checked of the crowd and a summary of some of it. -/
def crowded (ids : List ℕ) (db : Db) : Bool :=
  decide (∀ r ∈ db.memory.rows, r.space = agmem ∧ r.isLive = true ∧ r.embedding.isSome = true ∧
      r.contentHash ≠ @contentHash plain ['s']) &&
    decide (db.memory.rows.Pairwise fun x y => toVector y ≤ toVector x) &&
    succeedsWith (fun ns => decide (ns = [(db.memory.rows.take NEIGHBOURS).map fun r =>
      (⟨r.id, r.content, toVector r⟩ : Neighbour)])) (nearestLive exhaustive db agmem [[1, 0]]) &&
    succeedsWith (fun cited => decide (cited = ids.map fun id => .memory ⟨id⟩))
      (resolve db agmem (summaryOf ids).derivedFrom)

theorem crowded_exact {ids : List ℕ} {db : Db} (h : crowded ids db = true) :
    ExactNearest exhaustive db agmem [1, 0] toVector db.memory.rows ∧
      resolve db agmem (summaryOf ids).derivedFrom = .ok (ids.map fun id => .memory ⟨id⟩) ∧
      ∀ r ∈ db.memory, r.space = agmem → r.isLive = true →
        r.contentHash ≠ @contentHash plain ['s'] := by
  simp only [crowded, Bool.and_eq_true, decide_eq_true_eq] at h
  obtain ⟨⟨⟨hrows, hsorted⟩, hnear⟩, hcited⟩ := h
  obtain ⟨ns, hns, hp⟩ := exists_of_succeedsWith hnear
  obtain ⟨cited, hresolve, hq⟩ := exists_of_succeedsWith hcited
  rw [of_decide_eq_true hp] at hns
  rw [of_decide_eq_true hq] at hresolve
  refine ⟨⟨fun r => ⟨fun hr => ?_, And.left⟩, hsorted, hns⟩, hresolve, fun r hr _ _ => ?_⟩
  · obtain ⟨hs, hl, he, -⟩ := hrows r hr
    exact ⟨hr, hs, hl, he⟩
  · exact (hrows r hr).2.2.2

/-- A summary that cites the four is written next to the fifth, which restates it. -/
theorem cited_hide_restatement : ∃ db db' res, @Db.Reachable plain db ∧
    ExactNearest exhaustive db agmem [1, 0] toVector db.memory.rows ∧
    resolve db agmem (summaryOf [0, 1, 2, 3]).derivedFrom =
      .ok ([0, 1, 2, 3].map fun id => .memory ⟨id⟩) ∧
    (∀ r ∈ db.memory, r.space = agmem → r.isLive = true →
      r.contentHash ≠ @contentHash plain ['s']) ∧
    @run plain flat db (summaryOf [0, 1, 2, 3]) agent 9 (ticking 9) = (db', .ok res) ∧
    StoresText db db' ['s'] ∧
    ∃ r, Comparable db agmem r ∧
      Restates Thresholds.BGE_SMALL toVector ([0, 1, 2, 3].map fun id => .memory ⟨id⟩) r := by
  obtain ⟨steps, db, hrun, -, hp⟩ := Transition.exists_run_of_exec (@step plain) (Db.empty 2)
    [crowd] (fun u => crowded [0, 1, 2, 3] u.2 &&
      decide (∃ r ∈ u.2.memory.rows, Derivation.memory r.id ∉
          [0, 1, 2, 3].map (fun id => Derivation.memory ⟨id⟩) ∧
        Thresholds.BGE_SMALL.isNearDuplicate (toVector r) = true) &&
      succeedsWith (fun _ => decide (∃ r ∈ (@run plain flat u.2 (summaryOf [0, 1, 2, 3]) agent 9
          (ticking 9)).1.memory.rows, (∀ q ∈ u.2.memory.rows, q.id ≠ r.id) ∧ r.content = ['s']))
        (@run plain flat u.2 (summaryOf [0, 1, 2, 3]) agent 9 (ticking 9)).2) (by decide +kernel)
  obtain ⟨hp, hwritten⟩ := Bool.and_eq_true_iff.mp hp
  obtain ⟨hcrowded, hnear⟩ := Bool.and_eq_true_iff.mp hp
  obtain ⟨hexact, hcited, hclaim⟩ := crowded_exact hcrowded
  obtain ⟨r, hr, hrestates⟩ := of_decide_eq_true hnear
  obtain ⟨res, hres, hp⟩ := exists_of_succeedsWith hwritten
  have hstores := of_decide_eq_true hp
  exact ⟨db, _, res, ⟨2, steps, hrun⟩, hexact, hcited, hclaim, Prod.ext rfl hres, hstores, r,
    (hexact.complete r).mp hr, hrestates⟩

/-- A summary that cites all five is written, and nothing else restates it. -/
theorem crowd_written : ∃ db db' res, @Db.Reachable plain db ∧
    @run plain flat db (summaryOf [0, 1, 2, 3, 4]) agent 9 (ticking 9) = (db', .ok res) ∧
    (res.created = true ↔ StoresText db db' ['s']) ∧
    ((StoresText db db' ['s'] ↔ ∀ r, Comparable db agmem r → ¬ Restates Thresholds.BGE_SMALL
        toVector ([0, 1, 2, 3, 4].map fun id => .memory ⟨id⟩) r) ↔
      ¬ Hidden Thresholds.BGE_SMALL toVector ([0, 1, 2, 3, 4].map fun id => .memory ⟨id⟩)
        db.memory.rows) := by
  obtain ⟨steps, db, hrun, -, hp⟩ := Transition.exists_run_of_exec (@step plain) (Db.empty 2)
    [crowd] (fun u => crowded [0, 1, 2, 3, 4] u.2 && succeedsWith (fun _ => true)
      (@run plain flat u.2 (summaryOf [0, 1, 2, 3, 4]) agent 9 (ticking 9)).2) (by decide +kernel)
  obtain ⟨hcrowded, hp⟩ := Bool.and_eq_true_iff.mp hp
  obtain ⟨hexact, hcited, hclaim⟩ := crowded_exact hcrowded
  obtain ⟨res, hres, -⟩ := exists_of_succeedsWith hp
  have hreach : @Db.Reachable plain db := ⟨2, steps, hrun⟩
  have h : @run plain flat db (summaryOf [0, 1, 2, 3, 4]) agent 9 (ticking 9) = (_, .ok res) :=
    Prod.ext rfl hres
  have hdim : flat.embedder.dim ≠ 0 := by decide
  let _ : Hashing := plain
  exact ⟨db, _, res, hreach, h,
    summary_written_iff hreach rfl rfl rfl hcited hdim rfl hexact hclaim h⟩

end

end Agmem.Tools.Reflect
