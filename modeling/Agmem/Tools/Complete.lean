import Mathlib.Data.Sym.Sym2
import Agmem.Store.Snapshots
import Agmem.Tools.Clusters
import Agmem.Tools.Evidence

/-! What a report of `consolidate` covers. A space that fills less than a pass is compared whole,
and the note says when clusters, pairs or tags were left out. It says nothing of the two cuts made
before that: the rows of one cluster and the lessons of one lookup. A report without a note is
complete exactly if those cuts take nothing away. -/

namespace Agmem.Tools.Consolidate

open Core Relational Store Links Transition Scripts

/-! ### The rows of a scan -/

variable {db : Db} {space : SpaceName}

/-- The rows that are compared, strongest first. -/
def scanned (db : Db) (space : SpaceName) : List MemoryRecord :=
  (strongestFirst (db.memory.rows.filter fun r =>
    decide (r.space = space) && r.isLive && r.embedding.isSome)).take (clampPool MAX_POOL)

theorem mem_of_scanned {r : MemoryRecord} (h : r ∈ scanned db space) :
    r ∈ liveRows db space ∧ r.embedding.isSome = true := by
  have hmem := (List.mem_insertionSort _).mp (List.mem_of_mem_take h)
  simpa [liveRows, and_assoc] using hmem

theorem scanned_nodup (db : Db) (space : SpaceName) :
    ((scanned db space).map MemoryRecord.id).Nodup :=
  Snapshots.embeddedIds_nodup space MAX_POOL db

/-- A space that fills less than a pass is scanned whole. -/
theorem mem_scanned (h : (scanned db space).length ≠ MAX_POOL) {r : MemoryRecord} :
    r ∈ scanned db space ↔ r ∈ liveRows db space ∧ r.embedding.isSome = true := by
  refine ⟨mem_of_scanned, fun hr => ?_⟩
  have hpool : clampPool MAX_POOL = MAX_POOL := rfl
  rw [scanned, hpool] at h ⊢
  rw [List.length_take] at h
  rw [List.take_of_length_le (by omega), strongestFirst, List.mem_insertionSort]
  simpa [liveRows, and_assoc] using hr

theorem scanned_unique {r q : MemoryRecord} (hr : r ∈ scanned db space) (hq : q ∈ scanned db space)
    (h : r.id = q.id) : r = q :=
  Table.eq_of_key (mem_liveRows.mp (mem_of_scanned hr).1).1
    (mem_liveRows.mp (mem_of_scanned hq).1).1 h

/-- The rows and their own vectors. -/
theorem liveVectors_alone (db : Db) (space : SpaceName) :
    (liveVectors space MAX_POOL).alone db = .ok ((scanned db space).map embedded) := by
  have hids : embeddedIds space MAX_POOL db = (scanned db space).map MemoryRecord.id := rfl
  have hmemories : ((scanned db space).map MemoryRecord.id).filterMap db.memory.get? =
      scanned db space := by
    have hget : ∀ r ∈ scanned db space, (db.memory.get? ∘ MemoryRecord.id) r = some r :=
      fun r hr => Table.get?_eq_some.mpr ⟨(mem_liveRows.mp (mem_of_scanned hr).1).1, rfl⟩
    rw [List.filterMap_map, List.filterMap_congr hget, List.filterMap_some]
  have hvectors : ((scanned db space).filterMap fun r => r.embedding.map fun v => (r.id, v)) =
      (scanned db space).map fun r => (r.id, r.embedding.getD []) := by
    rw [← List.filterMap_eq_map]
    refine List.filterMap_congr fun r hr => ?_
    obtain ⟨v, hv⟩ := Option.isSome_iff_exists.mp (mem_of_scanned hr).2
    simp [hv]
  have htake : takeBy Prod.fst
      (StoreError.unexpectedResponse "a selected memory came back without its vector")
      ((scanned db space).map fun r => (r.id, r.embedding.getD []))
      ((scanned db space).map MemoryRecord.id) =
        .ok ((scanned db space).map fun r => (r.id, r.embedding.getD [])) := by
    refine (takeBy_ok_iff fun v hv v' hv' heq => ?_).mpr
      ⟨scanned_nodup db space, by simp [Function.comp_def], fun _ h => h⟩
    obtain ⟨r, hr, rfl⟩ := List.mem_map.mp hv
    obtain ⟨q, hq, rfl⟩ := List.mem_map.mp hv'
    rw [scanned_unique hr hq heq]
  change pairVectors db (embeddedIds space MAX_POOL db) = _
  rw [hids, pairVectors]
  simp only [hmemories, hvectors, htake]
  rw [List.zipWith_map_right, List.zipWith_self]
  rfl

theorem scanned_rows (db : Db) (space : SpaceName) : Rows (scanned db space) where
  embedded _ hr := (mem_of_scanned hr).2
  ids := scanned_nodup db space

variable {sqrt : ℚ → ℚ} {bands : Thresholds} {p q : MemoryRecord}

/-- What is measured has vectors. -/
theorem embedded_of_measured {s : ℚ} (h : measured sqrt p q = some s) :
    p.embedding.isSome = true ∧ q.embedding.isSome = true := by
  obtain ⟨a, ha, hmap⟩ := Option.bind_eq_some_iff.mp h
  obtain ⟨b, hb, -⟩ := Option.map_eq_some_iff.mp hmap
  obtain ⟨v, hv, -⟩ := Option.bind_eq_some_iff.mp ha
  obtain ⟨w, hw, -⟩ := Option.bind_eq_some_iff.mp hb
  exact ⟨Option.isSome_of_mem hv, Option.isSome_of_mem hw⟩

theorem Alike.embedded (h : Alike sqrt bands p q) :
    p.embedding.isSome = true ∧ q.embedding.isSome = true := by
  obtain ⟨s, hs, -⟩ := h
  exact embedded_of_measured hs

/-- Among the live rows the rows without a vector link nothing. -/
theorem linked_scanned (h : (scanned db space).length ≠ MAX_POOL) :
    Linked sqrt bands (scanned db space) = Linked sqrt bands (liveRows db space) := by
  unfold Linked
  congr 1
  funext p q
  refine propext ⟨fun ⟨hp, hq, halike⟩ => ?_, fun ⟨hp, hq, halike⟩ => ?_⟩
  · exact ⟨(mem_of_scanned hp).1, (mem_of_scanned hq).1, halike⟩
  · obtain ⟨hvp, hvq⟩ := halike.embedded
    exact ⟨(mem_scanned h).mpr ⟨hp, hvp⟩, (mem_scanned h).mpr ⟨hq, hvq⟩, halike⟩

/-- A row without a vector is linked to itself alone. -/
theorem ncard_linked_le_iff (h : (scanned db space).length ≠ MAX_POOL) :
    (∀ p ∈ scanned db space,
        {q | Linked sqrt bands (scanned db space) p q}.ncard ≤ MAX_CLUSTER_MEMBERS) ↔
      ∀ p ∈ liveRows db space,
        {q | Linked sqrt bands (liveRows db space) p q}.ncard ≤ MAX_CLUSTER_MEMBERS := by
  rw [linked_scanned h]
  refine ⟨fun hsmall p hp => ?_, fun hsmall p hp => hsmall p (mem_of_scanned hp).1⟩
  by_cases hvector : p.embedding.isSome = true
  · exact hsmall p ((mem_scanned h).mpr ⟨hp, hvector⟩)
  · have halone : {q | Linked sqrt bands (liveRows db space) p q} ⊆ {p} := by
      intro q hq
      rcases eqvGen_touched hq with rfl | ⟨⟨c, hc | hc⟩, -⟩
      · rfl
      · exact absurd hc.2.2.embedded.1 hvector
      · exact absurd hc.2.2.embedded.2 hvector
    have hle := Set.ncard_le_ncard halone (Set.finite_singleton p)
    rw [Set.ncard_singleton] at hle
    exact hle.trans (by decide)

/-! ### Contradictions -/

section

variable [Hashing]

/-- Two rows close enough to be about one subject, with a subject that both name. -/
structure Disputed (sqrt : ℚ → ℚ) (bands : Thresholds) (p q : MemoryRecord) : Prop where
  close : ∃ s, measured sqrt p q = some s ∧ bands.isContradictionCandidate s = true
  shared : sharedEntities p q ≠ []

theorem Disputed.symm (h : Disputed sqrt bands p q) : Disputed sqrt bands q p where
  close := by
    rw [measured_comm]
    exact h.close
  shared := by
    obtain ⟨a, ha, b, hb, heq⟩ := sharedEntities_ne_nil.mp h.shared
    exact sharedEntities_ne_nil.mpr ⟨b, hb, a, ha, heq.symm⟩

variable {rows : List MemoryRecord} {outside : Outside} {i j : ℕ}

theorem contradiction_of_lt (h : Rows rows) (hlt : i < j) (hp : rows[i]? = some p)
    (hq : rows[j]? = some q) (hdisputed : Disputed outside.sqrt bands p q) :
    ∃ c ∈ contradictionsOf outside space (rows.map embedded) bands,
      c.a.id = p.id ∧ c.b.id = q.id := by
  obtain ⟨s, hs, hband⟩ := hdisputed.close
  have hscore := mem_scores.mpr ⟨hlt, (similarityAt_eq_some h).mpr ⟨p, q, hp, hq, hs⟩⟩
  have hshared : (sharedEntities (MemoryRecord.read p) (MemoryRecord.read q)).isEmpty = false :=
    List.isEmpty_eq_false_iff.mpr hdisputed.shared
  refine ⟨⟨space, sharedEntities (MemoryRecord.read p) (MemoryRecord.read q),
    MemoryRecord.read p, MemoryRecord.read q, s⟩, List.mem_filterMap.mpr ⟨_, hscore, ?_⟩, rfl, rfl⟩
  simp only [contradictionOf, hband, if_true, List.getElem?_map, hp, hq, Option.map_some,
    Option.bind_some, embedded, hshared, Bool.false_eq_true, if_false]

/-- Every disputed pair is offered. -/
def Offers (sqrt : ℚ → ℚ) (bands : Thresholds) (rows : List MemoryRecord)
    (contradictions : List Contradiction) : Prop :=
  ∀ p ∈ rows, ∀ q ∈ rows, p.id ≠ q.id → Disputed sqrt bands p q →
    ∃ c ∈ contradictions, s(c.a.id, c.b.id) = s(p.id, q.id)

theorem contradictionsOf_offers (h : Rows rows) :
    Offers outside.sqrt bands rows (contradictionsOf outside space (rows.map embedded) bands) := by
  intro p hp q hq hne hdisputed
  obtain ⟨i, hi, hpi⟩ := List.mem_iff_getElem.mp hp
  obtain ⟨j, hj, hqj⟩ := List.mem_iff_getElem.mp hq
  have hp := List.getElem?_eq_some_iff.mpr ⟨hi, hpi⟩
  have hq := List.getElem?_eq_some_iff.mpr ⟨hj, hqj⟩
  rcases lt_trichotomy i j with hlt | rfl | hlt
  · obtain ⟨c, hc, ha, hb⟩ := contradiction_of_lt h hlt hp hq hdisputed
    exact ⟨c, hc, by rw [ha, hb]⟩
  · exact absurd (congrArg MemoryRecord.id (Option.some.inj (hp.symm.trans hq))) hne
  · obtain ⟨c, hc, ha, hb⟩ := contradiction_of_lt h hlt hq hp hdisputed.symm
    exact ⟨c, hc, by rw [ha, hb, Sym2.eq_swap]⟩

end

/-! ### Tags -/

/-- The live lessons of a space. -/
def liveLessons (db : Db) (space : SpaceName) : List MemoryRecord :=
  (liveRows db space).filter fun r => decide (r.kind = .lesson)

/-- The tags of the strongest live lessons, as often as they are named. -/
def namings (db : Db) (space : SpaceName) : List Text :=
  ((strongestFirst (liveLessons db space)).take MAX_POOL).flatMap MemoryRecord.tags

theorem lessonsRead_tags (db : Db) (space : SpaceName) :
    (lessonsRead db space).flatMap MemoryRecord.tags = namings db space := by
  have hselected : (⟨[space], ⟨[.lesson], [], []⟩, .live, MAX_POOL⟩ : Lookup).selected db =
      liveLessons db space := by
    rw [liveLessons, liveRows, List.filter_filter]
    refine List.filter_congr fun r _ => ?_
    simp [memoryWhere, containsAny, Bool.and_comm]
  rw [lessonsRead, directLookup, hselected, List.flatMap_map]
  rfl

theorem length_filter_named (tags : List Text) (tag : Text) :
    (tags.filter fun named => decide (named = tag)).length = tags.count tag := by
  rw [List.count, List.countP_eq_length_filter]
  refine congrArg List.length (List.filter_congr fun named _ => ?_)
  exact (beq_eq_decide named tag).symm

theorem length_lessonsOf (lessons : List MemoryRecord) (tag : Text) :
    (lessonsOf lessons tag).length = (lessons.flatMap MemoryRecord.tags).count tag := by
  induction lessons with
  | nil => rfl
  | cons lesson rest ih =>
    rw [lessonsOf, List.flatMap_cons, List.length_append, List.length_map, length_filter_named,
      List.flatMap_cons, List.count_append, ← ih]
    rfl

theorem space_of_mem_overFullTags {lessons : List MemoryRecord} {t : OverFullTag}
    (h : t ∈ overFullTags space lessons) : t.space = space := by
  rw [overFullTags, List.mem_insertionSort, List.mem_map] at h
  obtain ⟨_, -, rfl⟩ := h
  rfl

/-- A tag is reported exactly if the lessons name it too often. -/
theorem mem_overFullTags {lessons : List MemoryRecord} {tag : Text} :
    (∃ t ∈ overFullTags space lessons, t.space = space ∧ t.tag = tag) ↔
      Context.LESSONS_PER_TAG < (lessons.flatMap MemoryRecord.tags).count tag := by
  simp only [overFullTags, List.mem_insertionSort, List.mem_map, List.mem_filter, List.mem_dedup,
    decide_eq_true_eq]
  constructor
  · rintro ⟨_, ⟨_, ⟨⟨named, -, rfl⟩, hmany⟩, rfl⟩, -, rfl⟩
    rwa [length_lessonsOf] at hmany
  · intro hmany
    have hmem : tag ∈ lessons.flatMap MemoryRecord.tags :=
      List.count_pos_iff.mp (Nat.zero_lt_of_lt hmany)
    exact ⟨_, ⟨(tag, lessonsOf lessons tag), ⟨⟨tag, hmem, rfl⟩, by rwa [length_lessonsOf]⟩, rfl⟩,
      rfl, rfl⟩

/-! ### What each space gives the report -/

theorem exists_of_forall₂ {α β : Type*} {R : α → β → Prop} {as : List α} {bs : List β}
    (h : List.Forall₂ R as bs) {P : β → Prop} {Q : α → Prop} (hR : ∀ a b, R a b → (P b ↔ Q a)) :
    (∃ b ∈ bs, P b) ↔ ∃ a ∈ as, Q a := by
  induction h with
  | nil => simp
  | cons hab _ ih => simp [hR _ _ hab, ih]

theorem mem_capped {α : Type*} {r : α → α → Prop} [DecidableRel r] {l : List α} {n : ℕ} {a : α}
    (h : ¬ n < l.length) : a ∈ (l.insertionSort r).take n ↔ a ∈ l := by
  rw [List.take_of_length_le, List.mem_insertionSort]
  rw [List.length_insertionSort]
  exact not_lt.mp h

variable {service : Service}

theorem eq_nil_of_note {reasons : List String} {text : String}
    (h : (if reasons.isEmpty then none else some text) = none) : reasons = [] := by
  split_ifs at h with hreasons
  exact List.isEmpty_iff.mp hreasons

theorem of_reason_eq_nil {limited : Bool} {reason : String}
    (h : (if limited then [reason] else []) = []) : limited = false := by
  cases limited with
  | false => rfl
  | true => cases h

/-- An answer without a note was not limited where the note looks. -/
theorem of_note_eq_none {truncated capped tagsCapped : Bool}
    (h : note service truncated capped tagsCapped = none) :
    truncated = false ∧ capped = false ∧ tagsCapped = false := by
  have hreasons := eq_nil_of_note h
  rw [List.append_eq_nil_iff, List.append_eq_nil_iff, List.append_eq_nil_iff] at hreasons
  obtain ⟨⟨⟨-, htruncated⟩, hcapped⟩, htags⟩ := hreasons
  exact ⟨of_reason_eq_nil htruncated, of_reason_eq_nil hcapped, of_reason_eq_nil htags⟩

variable [Hashing] {outside : Outside} {clock : SpaceName → Readings}
  {scope : List SpaceName} {requested : Option Text} {report : ConsolidateResult}

/-- What was found in a space, as far as it comes from the memories. -/
structure Compared (outside : Outside) (bands : Thresholds) (db : Db) (space : SpaceName)
    (found : Found) : Prop where
  truncated : found.scan.truncated = decide ((scanned db space).length = MAX_POOL)
  clusters : found.clusters = clustersOf outside space ((scanned db space).map embedded) bands
  contradictions : found.contradictions =
    contradictionsOf outside space ((scanned db space).map embedded) bands
  overFull : found.overFull = overFullTags space (lessonsRead db space)

theorem examine_compared {found : Found} (h : examine outside service db clock space = .ok found) :
    Compared outside service.embedder.thresholds db space found := by
  unfold examine at h
  rw [liveVectors_alone] at h
  simp only at h
  split at h
  · cases h
  · cases h
    exact ⟨by simp, rfl, rfl, rfl⟩

theorem examineAll_compared {found : List Found}
    (h : examineAll outside service db clock scope = .ok found) :
    List.Forall₂ (Compared outside service.embedder.thresholds db) scope found := by
  induction scope generalizing found with
  | nil =>
    cases h
    exact .nil
  | cons space rest ih =>
    unfold examineAll at h
    split at h
    · cases h
    · next hfound =>
      split at h
      · cases h
      · next hrest =>
        cases h
        exact .cons (examine_compared hfound) (ih hrest)

/-- A report without a note: it leaves out nothing that was found in a space. -/
structure Uncut (outside : Outside) (bands : Thresholds) (db : Db) (scope : List SpaceName)
    (report : ConsolidateResult) : Prop where
  spaces : report.spaces = scope
  whole : ∀ space ∈ scope, (scanned db space).length ≠ MAX_POOL
  clusters : ∀ c, c ∈ report.nearDuplicates ↔
    ∃ space ∈ scope, c ∈ clustersOf outside space ((scanned db space).map embedded) bands
  contradictions : ∀ c, c ∈ report.contradictions ↔
    ∃ space ∈ scope, c ∈ contradictionsOf outside space ((scanned db space).map embedded) bands
  overFull : ∀ t, t ∈ report.overFullTags ↔
    ∃ space ∈ scope, t ∈ overFullTags space (lessonsRead db space)

theorem run_uncut (hscope : spaces service db (some (requested.getD keywordCurrent)) = .ok scope)
    (hrun : run outside service db clock requested = .ok report) (hnote : report.note = none) :
    Uncut outside service.embedder.thresholds db scope report := by
  unfold run at hrun
  rw [hscope] at hrun
  simp only at hrun
  split at hrun
  · cases hrun
  · next found hfound =>
    cases hrun
    have hcompared := examineAll_compared hfound
    obtain ⟨htruncated, hcapped, htags⟩ := of_note_eq_none hnote
    simp only [Bool.or_eq_false_iff, decide_eq_false_iff_not] at hcapped htags
    refine ⟨rfl, fun space hspace hfull => ?_, fun c => ?_, fun c => ?_, fun t => ?_⟩
    · have hany : ∃ f ∈ found, f.scan.truncated = true :=
        (exists_of_forall₂ hcompared fun space f hf => by rw [hf.truncated, decide_eq_true_eq]).mpr
          ⟨space, hspace, hfull⟩
      rw [List.any_eq_false] at htruncated
      obtain ⟨f, hf, htrue⟩ := hany
      exact htruncated f hf htrue
    · exact (mem_capped hcapped.1).trans (List.mem_flatMap.trans
        (exists_of_forall₂ hcompared fun space f hf => by rw [hf.clusters]))
    · exact (mem_capped hcapped.2).trans (List.mem_flatMap.trans
        (exists_of_forall₂ hcompared fun space f hf => by rw [hf.contradictions]))
    · exact (mem_capped htags).trans (List.mem_flatMap.trans
        (exists_of_forall₂ hcompared fun space f hf => by rw [hf.overFull]))

/-! ### Complete reports -/

omit [Hashing] in
/-- How many live lessons of a space carry a tag. -/
def carriers (db : Db) (space : SpaceName) (tag : Text) : ℕ :=
  ((liveLessons db space).filter fun r => decide (tag ∈ r.tags)).length

/-- What there is to clean up in the spaces of a report is in it: the pairs that are alike, the
disputed pairs, and the tags with too many lessons. -/
structure Complete (outside : Outside) (bands : Thresholds) (db : Db)
    (report : ConsolidateResult) : Prop where
  clusters : ∀ space ∈ report.spaces,
    Shows outside.sqrt bands (liveRows db space) report.nearDuplicates
  contradictions : ∀ space ∈ report.spaces,
    Offers outside.sqrt bands (liveRows db space) report.contradictions
  tags : ∀ space ∈ report.spaces, ∀ tag, Context.LESSONS_PER_TAG < carriers db space tag →
    ∃ t ∈ report.overFullTags, t.space = space ∧ t.tag = tag

/-- What the caps without a note have room for: no memory is linked to more than a cluster lists,
and no tag is over-full only for lessons that a lookup does not return. -/
structure Fits (outside : Outside) (bands : Thresholds) (db : Db) (scope : List SpaceName) :
    Prop where
  members : ∀ space ∈ scope, ∀ p ∈ liveRows db space,
    {q | Linked outside.sqrt bands (liveRows db space) p q}.ncard ≤ MAX_CLUSTER_MEMBERS
  lessons : ∀ space ∈ scope, ∀ tag, Context.LESSONS_PER_TAG < carriers db space tag →
    Context.LESSONS_PER_TAG < (namings db space).count tag

omit [Hashing] in
/-- A cluster holds memories of its own space alone. -/
theorem space_of_shown {other : SpaceName} {c : Cluster} (hp : p ∈ liveRows db space)
    (hc : c ∈ clustersOf outside other ((scanned db other).map embedded) bands)
    (hmem : p.id ∈ c.members.map MemoryRecord.id) : other = space := by
  obtain ⟨i, -, -, hcluster⟩ := mem_clustersOf.mp hc
  rw [List.length_map] at hcluster
  obtain ⟨k, -, r, hr, hid⟩ := (mem_clusterOf hcluster).mp hmem
  have hlive := mem_liveRows.mp (mem_of_scanned (List.mem_of_getElem? hr)).1
  obtain rfl : r = p := Table.eq_of_key hlive.1 (mem_liveRows.mp hp).1 hid
  exact hlive.2.1.symm.trans (mem_liveRows.mp hp).2.1

/-- The report shows the alike pairs of a space exactly if the space's own clusters do. -/
theorem Uncut.shows_iff (h : Uncut outside bands db scope report) (hspace : space ∈ scope) :
    Shows outside.sqrt bands (liveRows db space) report.nearDuplicates ↔
      Shows outside.sqrt bands (scanned db space)
        (clustersOf outside space ((scanned db space).map embedded) bands) := by
  constructor
  · intro hshows p hp q hq hne halike
    have hlive := (mem_of_scanned hp).1
    obtain ⟨c, hc, hpc, hqc⟩ := hshows p hlive q (mem_of_scanned hq).1 hne halike
    obtain ⟨other, -, hother⟩ := (h.clusters c).mp hc
    obtain rfl := space_of_shown hlive hother hpc
    exact ⟨c, hother, hpc, hqc⟩
  · intro hshows p hp q hq hne halike
    obtain ⟨hvp, hvq⟩ := halike.embedded
    have hwhole := h.whole space hspace
    obtain ⟨c, hc, hpair⟩ := hshows p ((mem_scanned hwhole).mpr ⟨hp, hvp⟩) q
      ((mem_scanned hwhole).mpr ⟨hq, hvq⟩) hne halike
    exact ⟨c, (h.clusters c).mpr ⟨space, hspace, hc⟩, hpair⟩

/-- Every disputed pair of a space is in the report. -/
theorem Uncut.offers (h : Uncut outside bands db scope report) (hspace : space ∈ scope) :
    Offers outside.sqrt bands (liveRows db space) report.contradictions := by
  intro p hp q hq hne hdisputed
  obtain ⟨s, hs, -⟩ := hdisputed.close
  obtain ⟨hvp, hvq⟩ := embedded_of_measured hs
  have hwhole := h.whole space hspace
  have hoffers : Offers outside.sqrt bands (scanned db space)
      (contradictionsOf outside space ((scanned db space).map embedded) bands) :=
    contradictionsOf_offers (scanned_rows db space)
  obtain ⟨c, hc, hpair⟩ := hoffers p ((mem_scanned hwhole).mpr ⟨hp, hvp⟩) q
    ((mem_scanned hwhole).mpr ⟨hq, hvq⟩) hne hdisputed
  exact ⟨c, (h.contradictions c).mpr ⟨space, hspace, hc⟩, hpair⟩

/-- A tag is in the report exactly if the lessons that were read name it too often. -/
theorem Uncut.mem_overFull (h : Uncut outside bands db scope report) (hspace : space ∈ scope)
    {tag : Text} : (∃ t ∈ report.overFullTags, t.space = space ∧ t.tag = tag) ↔
      Context.LESSONS_PER_TAG < (namings db space).count tag := by
  have hown : (∃ t ∈ overFullTags space (lessonsRead db space), t.space = space ∧ t.tag = tag) ↔
      Context.LESSONS_PER_TAG < ((lessonsRead db space).flatMap MemoryRecord.tags).count tag :=
    mem_overFullTags
  rw [← lessonsRead_tags, ← hown]
  constructor
  · rintro ⟨t, ht, hts, htag⟩
    obtain ⟨other, -, hother⟩ := (h.overFull t).mp ht
    obtain rfl : other = space := (space_of_mem_overFullTags hother).symm.trans hts
    exact ⟨t, hother, hts, htag⟩
  · rintro ⟨t, ht, hts⟩
    exact ⟨t, (h.overFull t).mpr ⟨space, hspace, ht⟩, hts⟩

/-- A report without a note is complete exactly if the caps that set none have room. -/
theorem report_complete_iff
    (hscope : spaces service db (some (requested.getD keywordCurrent)) = .ok scope)
    (hrun : run outside service db clock requested = .ok report) (hnote : report.note = none) :
    Complete outside service.embedder.thresholds db report ↔
      Fits outside service.embedder.thresholds db scope := by
  have huncut := run_uncut hscope hrun hnote
  have hclusters : ∀ space ∈ scope,
      (Shows outside.sqrt service.embedder.thresholds (liveRows db space) report.nearDuplicates ↔
        ∀ p ∈ liveRows db space,
          {q | Linked outside.sqrt service.embedder.thresholds (liveRows db space) p q}.ncard ≤
            MAX_CLUSTER_MEMBERS) := fun space hspace =>
    (huncut.shows_iff hspace).trans ((shows_iff_ncard (scanned_rows db space)).trans
      (ncard_linked_le_iff (huncut.whole space hspace)))
  constructor
  · rintro ⟨hshows, -, htags⟩
    rw [huncut.spaces] at hshows htags
    exact ⟨fun space hspace => (hclusters space hspace).mp (hshows space hspace),
      fun space hspace tag hmany => (huncut.mem_overFull hspace).mp (htags space hspace tag hmany)⟩
  · rintro ⟨hmembers, hlessons⟩
    constructor <;> rw [huncut.spaces]
    · exact fun space hspace => (hclusters space hspace).mpr (hmembers space hspace)
    · exact fun space hspace => huncut.offers hspace
    · exact fun space hspace tag hmany =>
        (huncut.mem_overFull hspace).mpr (hlessons space hspace tag hmany)

/-! ### Nine of a kind -/

omit [Hashing]

/-- The root and the logarithm where they are taken, and a hash table that keeps its order. -/
def exact : Outside := ⟨id, fun _ => -2995732 / 10 ^ 6, id, List.Perm.refl⟩

def atInstant (now : Timestamp) : SpaceName → Readings := fun _ => ⟨now, fun _ => now, now, now⟩

/-- Nine claims with one vector. -/
def nine : Op :=
  .insertBatch (batchOf (['a', 'b', 'c', 'd', 'e', 'f', 'g', 'h', 'i'].map fun letter =>
    { Store.claim letter [] none with embedding := some [1, 0] })) (ticking 0)

/-- The weakest of the nine is in no cluster, and the report has no note. -/
theorem ninth_hidden : ∃ db report, @Db.Reachable plain db ∧
    @run plain exact Reflect.flat db (atInstant 9) none = .ok report ∧ report.note = none ∧
      ¬ @Complete plain exact Thresholds.BGE_SMALL db report := by
  obtain ⟨steps, db, hrun, -, hp⟩ := Transition.exists_run_of_exec (@step plain) (Db.empty 2) [nine]
    (fun u => succeedsWith (fun report : ConsolidateResult =>
        decide (report.note = none ∧ report.spaces = [agmem] ∧
          ∀ c ∈ report.nearDuplicates, (⟨0⟩ : MemoryId) ∉ c.members.map MemoryRecord.id))
        (@run plain exact Reflect.flat u.2 (atInstant 9) none) &&
      decide (∃ p ∈ liveRows u.2 agmem, p.id = ⟨0⟩ ∧
        ∃ q ∈ liveRows u.2 agmem, q.id ≠ ⟨0⟩ ∧ measured id p q = some 1)) (by decide +kernel)
  obtain ⟨hp, hpair⟩ := Bool.and_eq_true_iff.mp hp
  obtain ⟨report, hreport, hp⟩ := exists_of_succeedsWith hp
  obtain ⟨hnote, hspaces, hhidden⟩ := of_decide_eq_true hp
  obtain ⟨p, hpl, hid, q, hql, hne, hone⟩ := of_decide_eq_true hpair
  refine ⟨db, report, ⟨2, steps, hrun⟩, hreport, hnote, fun hcomplete => ?_⟩
  have hagmem : agmem ∈ report.spaces := hspaces ▸ List.mem_singleton_self agmem
  have hshows := @Complete.clusters plain _ _ _ _ hcomplete agmem hagmem
  have halike : Alike id Thresholds.BGE_SMALL p q := ⟨1, hone, by decide +kernel⟩
  obtain ⟨c, hc, hpc, -⟩ := hshows p hpl q hql (fun heq => hne (heq ▸ hid)) halike
  exact hhidden c hc (hid ▸ hpc)

/-- The report on five claims near each other has no note. -/
theorem crowd_complete_iff : ∃ db report, @Db.Reachable plain db ∧
    @run plain exact Reflect.flat db (atInstant 9) none = .ok report ∧ report.note = none ∧
      (@Complete plain exact Thresholds.BGE_SMALL db report ↔
        Fits exact Thresholds.BGE_SMALL db [agmem]) := by
  obtain ⟨steps, db, hrun, -, hp⟩ := Transition.exists_run_of_exec (@step plain) (Db.empty 2)
    [Reflect.crowd] (fun u => succeedsWith
      (fun report : ConsolidateResult => decide (report.note = none))
      (@run plain exact Reflect.flat u.2 (atInstant 9) none)) (by decide +kernel)
  obtain ⟨report, hreport, hp⟩ := exists_of_succeedsWith hp
  have hnote := of_decide_eq_true hp
  have hscope : spaces Reflect.flat db (some (none.getD keywordCurrent)) = .ok [agmem] := rfl
  exact ⟨db, report, ⟨2, steps, hrun⟩, hreport, hnote,
    @report_complete_iff db Reflect.flat plain exact (atInstant 9) [agmem] none report hscope
      hreport hnote⟩

end Agmem.Tools.Consolidate
