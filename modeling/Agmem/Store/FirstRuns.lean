import Agmem.Store.Processes

/-! First runs on one store. Each of them redefines the indexes at its own width before the guarded
write that lets only one of them record its embedder, so a run that is going to lose can still undo
what the winner has. If no reset statement runs once the record is there, and the record is written
over indexes of its own width, the winner keeps its indexes and its vectors. -/

namespace Agmem.Store.FirstRuns

open Core Transition Batch VectorSpace Startup Processes

variable {ι : Type*} [DecidableEq ι]

/-- A record, with both indexes at its width. -/
def Recorded (s : Vectors) : Prop :=
  ∃ stored, storedEmbedder s = some stored ∧ ∀ t, s.index t = stored.dim

/-- The row is there, with a vector. -/
def Holds (s : Vectors) (p : Place) : Prop :=
  ∃ r ∈ s.rows p.1, r.id = p.2 ∧ r.embedding.isSome = true

/-- Once a call of an embedder that has vectors is through, both indexes are of the recorded width,
and the rows it has given a vector have one. -/
def Safe (S : State ι) : Prop :=
  ∀ i, (S.process i).embedder.dim ≠ 0 → (S.process i).stage = .ready →
    Recorded S.vectors ∧ ∀ p ∈ (S.process i).stored, Holds S.vectors p

/-- What the next statement asks of the store: a reset, that nothing is recorded; a record that is
going to be written, that both indexes are of its width. -/
def Calm (s : Vectors) : Stage → Prop
  | .reset (_ :: _) _ _ => s.embedder.unrecorded = true
  | .record (.recordEmbedder e) => s.embedder.unrecorded = true → ∀ t, s.index t = e.dim
  | _ => True

/-- Resets run before the record is there, and the record is written over indexes of its width. -/
def Undisturbed (ev : Step (State ι) (Action ι)) : Prop :=
  ∀ i, ev.action = .advance i → Calm ev.source.vectors (ev.source.process i).stage

/-- The stages of a call of `ensure_embedder`. -/
def Guarded (e : Embedder) : Stage → Prop
  | .model query | .dim query _ | .revision query _ _ => query ≠ .resolve
  | .reset left _ moving => moving = false ∧ ∀ st ∈ left, st.resets = true
  | .record st => st = .recordEmbedder e ∨ ∃ revision, st = .recordRevision revision
  | .ready | .failed _ => True

/-- A process while there is no record: it has read none, and has stored no vector. -/
def Early (p : Process) : Prop :=
  p.drain = .idle ∧ p.stored = [] ∧
    match p.stage with
    | .dim _ model | .revision _ model _ => model = none
    | .record st => st = .recordEmbedder p.embedder
    | .ready => p.embedder.dim = 0
    | _ => True

/-- The invariant: either nothing is recorded and every call is still at its beginning, or the
winner's record stands. -/
def Inv (S : State ι) : Prop :=
  (∀ i, Guarded (S.process i).embedder (S.process i).stage) ∧
    ((S.vectors.embedder.unrecorded = true ∧ ∀ i, Early (S.process i)) ∨
      (Recorded S.vectors ∧ ∀ i, ∀ p ∈ (S.process i).stored, Holds S.vectors p))

variable {s s' : Vectors} {e : Embedder} {t : Vectored} {stage stage' : Stage}

theorem not_unrecorded (h : Recorded s) : ¬ s.embedder.unrecorded = true := by
  obtain ⟨stored, hstored, -⟩ := h
  unfold storedEmbedder Meta.stored at hstored
  split at hstored
  · next hmodel _ => simp [Meta.unrecorded, hmodel]
  · cases hstored

theorem guarded_found (e : Embedder) {query : Query} (hq : query ≠ .resolve)
    (stored : Option StoredEmbedder) : Guarded e (found e query stored) := by
  cases query with
  | resolve => exact absurd rfl hq
  | ensure =>
    cases stored with
    | none =>
      simp only [found]
      split
      · exact .inl rfl
      · exact ⟨rfl, fun st hst => resets_of_mem_resetScript hst⟩
    | some stored =>
      simp only [found]
      split
      · split
        · exact .inr ⟨_, rfl⟩
        · trivial
      · trivial
  | confirm =>
    cases stored with
    | none => trivial
    | some stored =>
      simp only [found]
      split <;> trivial

theorem guarded_advance (h : advance e s stage = some (s', stage')) (hg : Guarded e stage) :
    Guarded e stage' := by
  cases stage with
  | ready | failed _ => cases h
  | model query =>
    cases h
    exact hg
  | dim query model =>
    cases h
    exact hg
  | revision query model dim =>
    cases h
    exact guarded_found e hg _
  | record st =>
    cases h
    obtain rfl | ⟨revision, rfl⟩ := hg
    · exact fun h => nomatch h
    · trivial
  | reset left error moving =>
    obtain ⟨rfl, hleft⟩ := hg
    cases left with
    | nil =>
      cases h
      cases error with
      | none => exact .inl rfl
      | some error => trivial
    | cons st left =>
      cases h
      exact ⟨rfl, (List.forall_mem_cons.mp hleft).2⟩

/-- The record, once there, keeps its width. -/
theorem recorded_advance (h : advance e s stage = some (s', stage')) (hg : Guarded e stage)
    (hq : Calm s stage) (hs : Recorded s) : Recorded s' ∧ s'.rows = s.rows := by
  have hfree := not_unrecorded hs
  cases stage with
  | ready | failed _ => cases h
  | model query =>
    cases h
    exact ⟨hs, rfl⟩
  | dim query model =>
    cases h
    exact ⟨hs, rfl⟩
  | revision query model dim =>
    cases h
    exact ⟨hs, rfl⟩
  | reset left error moving =>
    cases left with
    | nil =>
      cases h
      exact ⟨hs, rfl⟩
    | cons st left => exact absurd hq hfree
  | record st =>
    cases h
    obtain rfl | ⟨revision, rfl⟩ := hg
    · rw [after_recordEmbedder, if_neg hfree]
      exact ⟨hs, rfl⟩
    · refine ⟨?_, (after_records rfl).1⟩
      obtain ⟨stored, hstored, hindex⟩ := hs
      rw [after_recordRevision]
      split
      · refine ⟨⟨stored.model, stored.dim, some revision⟩, ?_, hindex⟩
        unfold storedEmbedder Meta.stored at *
        split at hstored
        · next hmodel hdim =>
          cases hstored
          simp only [hmodel, hdim]
        · cases hstored
      · exact ⟨stored, hstored, hindex⟩

theorem embedderModel_eq_none (h : s.embedder.unrecorded = true) :
    s.embedder.embedderModel = none :=
  Option.isNone_iff_eq_none.mp (Bool.and_eq_true_iff.mp h).1

theorem early_found {p : Process} (hp : Early p) {query : Query} (hq : query ≠ .resolve) :
    Early { p with stage := found p.embedder query none } := by
  obtain ⟨hdrain, hstored, -⟩ := hp
  cases query with
  | resolve => exact absurd rfl hq
  | ensure =>
    simp only [found]
    split
    · exact ⟨hdrain, hstored, rfl⟩
    · exact ⟨hdrain, hstored, trivial⟩
  | confirm => exact ⟨hdrain, hstored, trivial⟩

/-- While nothing is recorded a call stays at its beginning, or writes the record. -/
theorem early_advance {p : Process} (h : advance p.embedder s p.stage = some (s', stage'))
    (hg : Guarded p.embedder p.stage) (hq : Calm s p.stage) (hfree : s.embedder.unrecorded = true)
    (hp : Early p) : (s'.embedder.unrecorded = true ∧ Early { p with stage := stage' }) ∨
      Recorded s' := by
  obtain ⟨e, stage, drain, stored⟩ := p
  obtain ⟨hdrain, hstored, hstage⟩ := id hp
  cases stage with
  | ready | failed _ => cases h
  | model query =>
    cases h
    exact .inl ⟨hfree, hdrain, hstored, embedderModel_eq_none hfree⟩
  | dim query model =>
    cases h
    exact .inl ⟨hfree, hdrain, hstored, hstage⟩
  | revision query model dim =>
    cases h
    cases hstage
    exact .inl ⟨hfree, early_found hp hg⟩
  | reset left error moving =>
    obtain ⟨rfl, hleft⟩ := hg
    cases left with
    | nil =>
      cases h
      cases error with
      | none => exact .inl ⟨hfree, hdrain, hstored, rfl⟩
      | some error => exact .inl ⟨hfree, hdrain, hstored, trivial⟩
    | cons st left =>
      cases h
      refine .inl ⟨?_, hdrain, hstored, trivial⟩
      rw [after_resets (hleft st List.mem_cons_self)]
      exact hfree
  | record st =>
    cases h
    obtain rfl : st = .recordEmbedder e := hstage
    refine .inr ⟨⟨e.modelId, width e.dim, e.revision⟩, ?_, ?_⟩
    · rw [storedEmbedder, after_recordEmbedder, if_pos hfree]
      rfl
    · intro t
      rw [(after_records rfl).2, hq hfree t, width_dim]

/-! ### Rows that have a vector -/

theorem Holds.insert {p : Place} {count : ℕ} (h : insert s e t count = .ok s') (hp : Holds s p) :
    Holds s' p := by
  obtain ⟨r, hr, hid, hvector⟩ := hp
  refine ⟨r, ?_, hid, hvector⟩
  rw [insert_eq h]
  by_cases ht : p.1 = t
  · subst ht
    simp [hr]
  · simpa [Function.update_of_ne ht] using hr

theorem holds_newRows {count : ℕ} (h : insert s e t count = .ok s') (hd : e.dim ≠ 0) :
    ∀ p ∈ (newRows s e count).map fun r => (t, r.id), Holds s' p := by
  intro p hp
  obtain ⟨r, hr, rfl⟩ := List.mem_map.mp hp
  refine ⟨r, ?_, rfl, ?_⟩
  · rw [insert_eq h]
    simp [hr]
  · rw [(mem_newRows hr).1, vectorOf, if_neg hd]
    rfl

theorem giveVector_id (batch : List Place) (r : VectorRow) :
    (giveVector e batch t r).id = r.id := by
  unfold giveVector
  split <;> rfl

theorem Holds.writeVectors {p : Place} {batch : List Place} (h : writeVectors s e batch = .ok s')
    (hp : Holds s p) : Holds s' p := by
  obtain ⟨r, hr, hid, hvector⟩ := hp
  rw [writeVectors_eq h]
  refine ⟨giveVector e batch p.1 r, List.mem_map_of_mem hr, ?_, ?_⟩
  · rw [giveVector_id, hid]
  · unfold giveVector
    split
    · rfl
    · exact hvector

theorem holds_present {batch : List Place} (h : writeVectors s e batch = .ok s') :
    ∀ p ∈ present s batch, Holds s' p := by
  rintro ⟨t, id⟩ hp
  obtain ⟨hin, hany⟩ := List.mem_filter.mp hp
  obtain ⟨r, hr, hid⟩ := List.any_eq_true.mp hany
  have hid : r.id = id := by simpa using hid
  subst hid
  rw [writeVectors_eq h]
  refine ⟨giveVector e batch t r, List.mem_map_of_mem hr, giveVector_id batch r, ?_⟩
  rw [giveVector, if_pos hin]
  rfl

/-! ### Runs -/

/-- The rows that have a vector keep one, the rows newly given one have it, and so the record
stands. -/
theorem inv_put_recorded {S : State ι} {p : Process} {i : ι} (hg : Guarded p.embedder p.stage)
    (hI : ∀ i, Guarded (S.process i).embedder (S.process i).stage) (hs : Recorded s')
    (hkept : ∀ j, ∀ q ∈ (S.process j).stored, Holds s' q) (hnew : ∀ q ∈ p.stored, Holds s' q) :
    Inv (S.put i s' p) :=
  ⟨forall_put (P := fun p => Guarded p.embedder p.stage) hg hI,
    .inr ⟨hs, forall_put (P := fun p => ∀ q ∈ p.stored, Holds s' q) hnew hkept⟩⟩

theorem inv_put_early {S : State ι} {p : Process} {i : ι} (hg : Guarded p.embedder p.stage)
    (hI : ∀ i, Guarded (S.process i).embedder (S.process i).stage)
    (hfree : s'.embedder.unrecorded = true) (hearly : ∀ j, Early (S.process j)) (hp : Early p) :
    Inv (S.put i s' p) :=
  ⟨forall_put (P := fun p => Guarded p.embedder p.stage) hg hI,
    .inl ⟨hfree, forall_put (P := Early) hp hearly⟩⟩

theorem insert_record {count : ℕ} (h : insert s e t count = .ok s') :
    s'.embedder = s.embedder ∧ s'.index = s.index := by
  rw [insert_eq h]
  exact ⟨rfl, rfl⟩

theorem recorded_of_eq (hembedder : s'.embedder = s.embedder) (hindex : s'.index = s.index)
    (h : Recorded s) : Recorded s' := by
  unfold Recorded storedEmbedder at *
  rwa [hembedder, hindex]

/-- While nothing is recorded, a step leaves every call at its beginning or records the winner. -/
theorem inv_step_early {S : State ι} {a : Action ι} {p : Process} {i : ι} (hacts : Acts S a i s' p)
    (hq : a = .advance i → Calm S.vectors (S.process i).stage)
    (hg : ∀ i, Guarded (S.process i).embedder (S.process i).stage)
    (hfree : S.vectors.embedder.unrecorded = true) (hearly : ∀ j, Early (S.process j)) :
    Inv (S.put i s' p) := by
  cases hacts with
  | advance _ hadvance =>
    have hg' := guarded_advance hadvance (hg i)
    obtain ⟨hfree', hp⟩ | hs' :=
      early_advance hadvance (hg i) (hq rfl) hfree (hearly i)
    · exact inv_put_early hg' hg hfree' hearly hp
    · have hnone : ∀ j, ∀ q ∈ (S.process j).stored, Holds s' q := by
        intro j q hmem
        rw [(hearly j).2.1] at hmem
        cases hmem
      exact inv_put_recorded hg' hg hs' hnone (hnone i)
  | remember _ t count hready hinsert =>
    obtain ⟨hdrain, hstored, hstage⟩ := hearly i
    rw [hready] at hstage
    refine inv_put_early (hg i) hg ?_ hearly ⟨hdrain, ?_, ?_⟩
    · rwa [(insert_record hinsert).1]
    · simp only [hstored, if_pos hstage, List.append_nil]
    · simpa only [hready] using hstage
  | pending _ hready hdim hread =>
    obtain ⟨-, -, hstage⟩ := hearly i
    rw [hready] at hstage
    exact absurd hstage hdim
  | embed _ hbatch hwrite =>
    rw [(hearly i).1] at hbatch
    cases hbatch
  | refused _ hbatch =>
    rw [(hearly i).1] at hbatch
    cases hbatch

/-- Once the winner's record stands, a step leaves it, and the vectors it has. -/
theorem inv_step_recorded {S : State ι} {a : Action ι} {p : Process} {i : ι}
    (hacts : Acts S a i s' p) (hq : a = .advance i → Calm S.vectors (S.process i).stage)
    (hg : ∀ i, Guarded (S.process i).embedder (S.process i).stage) (hs : Recorded S.vectors)
    (hholds : ∀ j, ∀ q ∈ (S.process j).stored, Holds S.vectors q) : Inv (S.put i s' p) := by
  cases hacts with
  | advance _ hadvance =>
    have hg' := guarded_advance hadvance (hg i)
    obtain ⟨hs', hrows⟩ := recorded_advance hadvance (hg i) (hq rfl) hs
    have hkept : ∀ j, ∀ q ∈ (S.process j).stored, Holds s' q := by
      intro j q hmem
      have hq := hholds j q hmem
      unfold Holds at *
      rwa [hrows]
    exact inv_put_recorded hg' hg hs' hkept (hkept i)
  | remember _ t count hready hinsert =>
    obtain ⟨hembedder, hindex⟩ := insert_record hinsert
    refine inv_put_recorded (hg i) hg (recorded_of_eq hembedder hindex hs)
      (fun j q hmem => (hholds j q hmem).insert hinsert) fun q hmem => ?_
    obtain hmem | hmem := List.mem_append.mp hmem
    · exact (hholds i q hmem).insert hinsert
    · split_ifs at hmem with hd
      · cases hmem
      · exact holds_newRows hinsert hd q hmem
  | pending _ hready hdim hread => exact inv_put_recorded (hg i) hg hs hholds (hholds i)
  | embed _ hbatch hwrite =>
    have hs' : Recorded s' := by
      rw [writeVectors_eq hwrite]
      exact hs
    refine inv_put_recorded (hg i) hg hs'
      (fun j q hmem => (hholds j q hmem).writeVectors hwrite) fun q hmem => ?_
    obtain hmem | hmem := List.mem_append.mp hmem
    · exact (hholds i q hmem).writeVectors hwrite
    · exact holds_present hwrite q hmem
  | refused _ hbatch => exact inv_put_recorded (hg i) hg hs hholds (hholds i)

theorem inv_step {S T : State ι} {a : Action ι} (h : Processes.step S a = some T)
    (hq : Undisturbed ⟨S, a, T⟩) (hI : Inv S) : Inv T := by
  obtain ⟨i, s', p, hacts, rfl⟩ := step_acts h
  obtain ⟨hg, ⟨hfree, hearly⟩ | ⟨hs, hholds⟩⟩ := hI
  · exact inv_step_early hacts (hq i) hg hfree hearly
  · exact inv_step_recorded hacts (hq i) hg hs hholds

omit [DecidableEq ι] in
theorem safe_of_inv {S : State ι} (hI : Inv S) : Safe S := by
  obtain ⟨-, ⟨-, hearly⟩ | ⟨hs, hholds⟩⟩ := hI
  · intro i hdim hready
    obtain ⟨-, -, hstage⟩ := hearly i
    rw [hready] at hstage
    exact absurd hstage hdim
  · exact fun i _ _ => ⟨hs, hholds i⟩

omit [DecidableEq ι] in
theorem inv_opening (e : ι → Embedder) (hs : s.embedder.unrecorded = true) :
    Inv (opening s e .ensure) := by
  have hstart : ∀ i, Guarded (e i) (start (e i) .ensure) ∧
      Early ⟨e i, start (e i) .ensure, .idle, []⟩ := by
    intro i
    unfold start
    split
    · next hd => exact ⟨trivial, rfl, rfl, hd⟩
    · exact ⟨(fun h => nomatch h), rfl, rfl, trivial⟩
  exact ⟨fun i => (hstart i).1, .inl ⟨hs, fun i => (hstart i).2⟩⟩

/-- Where no reset runs once the record is there, and the record is written over indexes of its own
width, a call that is through keeps its indexes and its vectors, whatever the other calls do. -/
theorem safe_of_undisturbed (s : Vectors) (hs : s.embedder.unrecorded = true) (e : ι → Embedder)
    (steps : List (Step (State ι) (Action ι))) (S : State ι)
    (h : Run Processes.step (opening s e .ensure) steps S) (hq : ∀ ev ∈ steps, Undisturbed ev) :
    Safe S ∧ ∀ ev ∈ steps, Safe ev.source ∧ Safe ev.target := by
  obtain ⟨hS, hsteps⟩ := h.invariant (I := Inv) (Q := Undisturbed)
    (fun S a T hs hq hI => inv_step hs hq hI) hq (inv_opening e hs)
  exact ⟨safe_of_inv hS, fun ev hev =>
    ⟨safe_of_inv (hsteps ev hev).1, safe_of_inv (hsteps ev hev).2⟩⟩

def models : Bool → Embedder
  | true => nomic
  | false => bge

/-- A store that no run has recorded anything in. -/
def fresh : Vectors := ⟨fun _ => [], fun _ => EMBEDDING_DIM, fun _ => by decide, .empty, 0⟩

/-- The wider call finds nothing recorded, and does the rest when it has lost. -/
def overtaken : List (Action Bool) :=
  List.replicate 3 (.advance true) ++ List.replicate 7 (.advance false) ++
    [.remember false .memory 1] ++ List.replicate 9 (.advance true)

/-- One call goes through before the other begins, which is then refused. -/
theorem safe_of_undisturbed_after : ∃ steps S,
    Run Processes.step (opening fresh models .ensure) steps S ∧
    (S.process false).stage = .ready ∧ (S.process false).stored = [(.memory, 0)] ∧
    (S.process true).stage = .failed (.embedderMismatch ⟨['b'], 384, none⟩ nomic) ∧ Safe S := by
  obtain ⟨steps, S, hrun, -, hend⟩ := exists_run_of_exec Processes.step
    (opening fresh models .ensure)
    (List.replicate 7 (.advance false) ++ [.remember false .memory 1] ++
      List.replicate 3 (.advance true))
    (fun r => decide ((r.2.process false).stage = .ready ∧
        (r.2.process false).stored = [(.memory, 0)] ∧
        (r.2.process true).stage = .failed (.embedderMismatch ⟨['b'], 384, none⟩ nomic)) &&
      r.1.all fun ev => match ev.action with
        | .advance i => match (ev.source.process i).stage with
          | .reset _ _ _ => false
          | .record _ => decide (i = false ∧ (ev.source.process i).stage =
              .record (.recordEmbedder bge) ∧ ev.source.vectors.index .memory = bge.dim ∧
              ev.source.vectors.index .episodeChunk = bge.dim)
          | _ => true
        | _ => true) (by decide)
  obtain ⟨hend, hsteps⟩ := Bool.and_eq_true_iff.mp hend
  obtain ⟨hready, hstored, hfailed⟩ := of_decide_eq_true hend
  have hq : ∀ ev ∈ steps, Undisturbed ev := by
    intro ev hev i hact
    have h := List.all_eq_true.mp hsteps ev hev
    rw [hact] at h
    cases hstage : (ev.source.process i).stage with
    | reset left error moving => simp [hstage] at h
    | record st =>
      simp only [hstage] at h
      obtain ⟨-, hst, hmemory, hchunk⟩ := of_decide_eq_true h
      cases hst
      intro _ t
      cases t
      · exact hmemory
      · exact hchunk
    | model _ | dim _ _ | revision _ _ _ | ready | failed _ => trivial
  exact ⟨steps, S, hrun, hready, hstored, hfailed,
    (safe_of_undisturbed fresh rfl models steps S hrun hq).1⟩

/-- The call that is through is left with indexes of the other's width, and without its vector. -/
theorem undone : ∃ steps S, Run Processes.step (opening fresh models .ensure) steps S ∧
    (S.process false).stage = .ready ∧
    storedEmbedder S.vectors = some ⟨['b'], 384, none⟩ ∧ (∀ t, S.vectors.index t = 768) ∧
    (S.process false).stored = [(.memory, 0)] ∧ S.vectors.rows .memory = [⟨0, none⟩] ∧
    ¬ Safe S := by
  obtain ⟨steps, S, hrun, -, hend⟩ := exists_run_of_exec Processes.step
    (opening fresh models .ensure)
    overtaken (fun r => decide ((r.2.process false).stage = .ready ∧
      (r.2.process false).embedder = bge ∧
      storedEmbedder r.2.vectors = some ⟨['b'], 384, none⟩ ∧
      r.2.vectors.index .memory = 768 ∧ r.2.vectors.index .episodeChunk = 768 ∧
      (r.2.process false).stored = [(.memory, 0)] ∧ r.2.vectors.rows .memory = [⟨0, none⟩]))
    (by decide)
  obtain ⟨hready, hbge, hstored, hmemory, hchunk, hplaces, hrows⟩ := of_decide_eq_true hend
  refine ⟨steps, S, hrun, hready, hstored, ?_, hplaces, hrows, fun h => ?_⟩
  · intro t
    cases t
    · exact hmemory
    · exact hchunk
  · obtain ⟨⟨stored, hrecord, hindex⟩, -⟩ := h false (by rw [hbge]; decide) hready
    cases hstored.symm.trans hrecord
    have hwidth := hindex .memory
    rw [hmemory] at hwidth
    exact absurd hwidth (by decide)

end Agmem.Store.FirstRuns
