import Agmem.Store.Processes

/-! Two models in one store. A start checks the record once, and nothing checks it afterwards: a
process goes on writing vectors of its own embedder after another has moved the store, and while a
move is under way. If a vector is written only while the record names its embedder, and never into a
table that a move has cleared before it writes the record, then every vector in the store is of the
recorded embedder. -/

namespace Agmem.Store.Mixture

open Core Transition Batch VectorSpace Startup Processes

variable {ι : Type*} [DecidableEq ι]

/-- The record is of this embedder, its revision included where it has one. -/
def Names (m : Meta) (e : Embedder) : Prop :=
  m.embedderModel = some e.modelId ∧ m.embedderDim = some e.dim ∧
    (e.revision = none ∨ m.embedderRevision = e.revision)

/-- Every vector is of the recorded embedder. -/
def Uniform (s : Vectors) : Prop :=
  ∀ t, ∀ r ∈ s.rows t, ∀ e, r.embedding = some e → Names s.embedder e

/-- A table without vectors. -/
def Bare (s : Vectors) (t : Vectored) : Prop := ∀ r ∈ s.rows t, r.embedding = none

/-- A move that has cleared the table and has not written the record. -/
def PastClear (t : Vectored) : Stage → Prop
  | .reset left _ true => Statement.clear t ∉ left
  | .record (.setEmbedder _) => True
  | _ => False

variable {s : Vectors} {e : Embedder} {t : Vectored} {st : Statement}

theorem Names.matches (h : Names s.embedder e) :
    ∃ stored, storedEmbedder s = some stored ∧ stored.matches e = true := by
  obtain ⟨hmodel, hdim, hrevision⟩ := h
  refine ⟨⟨e.modelId, e.dim, s.embedder.embedderRevision⟩, ?_, ?_⟩
  · simp only [storedEmbedder, Meta.stored, hmodel, hdim]
  · simp only [StoredEmbedder.matches, decide_true, width_dim, Bool.true_and]
    obtain h | h := hrevision
    · rw [h]
      split <;> simp_all
    · rw [h]
      cases e.revision <;> simp

theorem Bare.after (h : Bare s t) : Bare (after run s st) t := by
  intro r hr
  obtain hr | hr := mem_after_rows hr
  · exact h r hr
  · exact hr

/-- A statement of a reset keeps what vectors there are as they are recorded. -/
theorem Uniform.after_resets (h : Uniform s) (hst : st.resets = true) :
    Uniform (Batch.after run s st) := by
  intro t r hr e he
  rw [VectorSpace.after_resets hst]
  obtain hr | hr := mem_after_rows hr
  · exact h t r hr e he
  · rw [hr] at he
    cases he

/-- Without vectors any record will do. -/
theorem uniform_of_bare (h : ∀ t, Bare s t) : Uniform s := by
  intro t r hr e he
  rw [h t r hr] at he
  cases he

/-- A write to the record is in order if it is guarded, or if no vector is left. -/
theorem Uniform.after_record (h : Uniform s) (hst : st.resets = false)
    (hbare : ∀ e, st = .setEmbedder e → ∀ t, Bare s t) : Uniform (Batch.after run s st) := by
  cases st with
  | clear _ | redefine _ _ => cases hst
  | setEmbedder e => exact uniform_of_bare fun t => (hbare e rfl t).after
  | recordEmbedder e =>
    rw [after_recordEmbedder]
    split
    · next hfree =>
      -- no vector is named by an empty record
      refine uniform_of_bare fun t r hr => ?_
      cases he : r.embedding with
      | none => rfl
      | some e' =>
        have hnamed := (h t r hr e' he).1
        simp [Meta.unrecorded, hnamed] at hfree
    · exact h
  | recordRevision revision =>
    rw [after_recordRevision]
    split
    · next hfree =>
      intro t r hr e he
      obtain ⟨hmodel, hdim, hrevision⟩ := h t r hr e he
      refine ⟨hmodel, hdim, .inl ?_⟩
      obtain hrevision | hrevision := hrevision
      · exact hrevision
      · rw [← hrevision]
        exact Option.isNone_iff_eq_none.mp hfree
    · exact h

/-! ### Processes -/

/-- The step gives a row of the table a vector of the process. -/
def Writes (ev : Step (State ι) (Action ι)) (i : ι) (t : Vectored) : Prop :=
  (∃ count, ev.action = .remember i t count ∧ (ev.source.process i).embedder.dim ≠ 0 ∧ 0 < count) ∨
    ev.action = .embed i ∧ ∃ rows s, (ev.source.process i).drain = .batch rows ∧
      writeVectors ev.source.vectors (ev.source.process i).embedder rows = .ok s ∧
      ∃ p ∈ present ev.source.vectors rows, p.1 = t

/-- A vector is written while the record names its embedder, and into no table that a move has
cleared before its record. -/
def InOrder (ev : Step (State ι) (Action ι)) : Prop :=
  ∀ i t, Writes ev i t → Names ev.source.vectors.embedder (ev.source.process i).embedder ∧
    ∀ j, ¬ PastClear t (ev.source.process j).stage

/-- What a start relies on: a reset holds statements of a reset, and the tables a move has cleared
stay without vectors. -/
def Sound (s : Vectors) : Stage → Prop
  | .reset left _ moving => (∀ st ∈ left, st.resets = true) ∧
      (moving = true → ∀ t, Statement.clear t ∉ left → Bare s t)
  | .record st => st.resets = false ∧ ∀ e, st = .setEmbedder e → ∀ t, Bare s t
  | _ => True

theorem Sound.mono {s' : Vectors} {stage : Stage}
    (hkeep : ∀ t, PastClear t stage → Bare s t → Bare s' t) (h : Sound s stage) :
    Sound s' stage := by
  cases stage with
  | reset left error moving =>
    refine ⟨h.1, fun hmoving t ht => hkeep t ?_ (h.2 hmoving t ht)⟩
    subst hmoving
    exact ht
  | record st =>
    refine ⟨h.1, fun e he t => hkeep t ?_ (h.2 e he t)⟩
    subst he
    trivial
  | model _ | dim _ _ | revision _ _ _ | ready | failed _ => trivial

theorem sound_start (s : Vectors) (e : Embedder) (query : Query) : Sound s (start e query) := by
  unfold start
  split <;> trivial

theorem sound_resetScript (s : Vectors) (dim : ℕ) (error : Option Refusal) (moving : Bool) :
    Sound s (.reset (resetScript dim) error moving) := by
  refine ⟨fun st hst => resets_of_mem_resetScript hst, fun _ t ht => absurd ?_ ht⟩
  cases t <;> simp [resetScript, VECTORED]

theorem sound_found (s : Vectors) (e : Embedder) (query : Query) (stored : Option StoredEmbedder) :
    Sound s (found e query stored) := by
  unfold found
  split
  · split
    · trivial
    · exact sound_resetScript s e.dim none true
  · trivial
  · split
    · split
      · exact ⟨rfl, fun e he => nomatch he⟩
      · trivial
    · trivial
  · split
    · exact ⟨rfl, fun e he => nomatch he⟩
    · exact sound_resetScript s e.dim none false
  · split <;> trivial
  · trivial

/-- A step of a start keeps the vectors as they are recorded, and bare what is bare. -/
theorem advance_sound {s' : Vectors} {stage stage' : Stage}
    (h : advance e s stage = some (s', stage')) (hsound : Sound s stage) (hs : Uniform s) :
    Uniform s' ∧ Sound s' stage' ∧ ∀ t, Bare s t → Bare s' t := by
  cases stage with
  | ready | failed _ => cases h
  | model query =>
    cases h
    exact ⟨hs, trivial, fun t ht => ht⟩
  | dim query model =>
    cases h
    exact ⟨hs, trivial, fun t ht => ht⟩
  | revision query model dim =>
    cases h
    exact ⟨hs, sound_found s e query _, fun t ht => ht⟩
  | record st =>
    cases h
    refine ⟨hs.after_record hsound.1 hsound.2, ?_, fun t ht => ht.after⟩
    cases st <;> trivial
  | reset left error moving =>
    cases left with
    | nil =>
      cases h
      refine ⟨hs, ?_, fun t ht => ht⟩
      cases error with
      | some error => trivial
      | none =>
        cases moving with
        | false => exact ⟨rfl, fun e he => nomatch he⟩
        | true => exact ⟨rfl, fun _ _ t => hsound.2 rfl t (by simp)⟩
    | cons st left =>
      cases h
      obtain ⟨hresets, hbare⟩ := hsound
      obtain ⟨hst, hleft⟩ := List.forall_mem_cons.mp hresets
      refine ⟨hs.after_resets hst, ⟨hleft, fun hmoving t ht => ?_⟩, fun t ht => ht.after⟩
      -- either the table was bare before, or this statement has just cleared it
      by_cases hclear : st = .clear t
      · subst hclear
        exact fun r hr => mem_after_clear hr
      · refine (hbare hmoving t ?_).after
        rw [List.mem_cons, not_or]
        exact ⟨fun h => hclear h.symm, ht⟩

/-- The invariant of the processes. -/
def Inv (S : State ι) : Prop :=
  Uniform S.vectors ∧ ∀ i, Sound S.vectors (S.process i).stage

/-- A write of vectors keeps the invariant if the vectors it adds are of the recorded embedder and
no move has cleared their table. -/
theorem inv_put_write {S : State ι} {s' : Vectors} {p : Process} {i : ι} {W : Vectored → Prop}
    (hI : Inv S) (hstage : p.stage = (S.process i).stage)
    (hmeta : s'.embedder = S.vectors.embedder)
    (hrows : ∀ t, ∀ r ∈ s'.rows t,
      r ∈ S.vectors.rows t ∨ r.embedding = none ∨ W t ∧ r.embedding = some e)
    (hW : ∀ t, W t → Names S.vectors.embedder e ∧ ∀ j, ¬ PastClear t (S.process j).stage) :
    Inv (S.put i s' p) := by
  obtain ⟨hs, hsound⟩ := hI
  constructor
  · intro t r hr e' he'
    show Names s'.embedder e'
    rw [hmeta]
    obtain hold | hnone | ⟨ht, hnew⟩ := hrows t r hr
    · exact hs t r hold e' he'
    · rw [hnone] at he'
      cases he'
    · rw [hnew] at he'
      cases he'
      exact (hW t ht).1
  · have hall : ∀ j, Sound s' (S.process j).stage := by
      intro j
      refine (hsound j).mono fun t hpast hbare r hr => ?_
      obtain hold | hnone | ⟨ht, -⟩ := hrows t r hr
      · exact hbare r hold
      · exact hnone
      · exact absurd hpast ((hW t ht).2 j)
    exact forall_put (P := fun p => Sound s' p.stage) (hstage ▸ hall i) hall

theorem inv_step {S T : State ι} {a : Action ι} (h : Processes.step S a = some T)
    (hq : InOrder ⟨S, a, T⟩) (hI : Inv S) : Inv T := by
  obtain ⟨i, s', p, hacts, rfl⟩ := step_acts h
  cases hacts with
  | advance _ hadvance =>
    obtain ⟨hs, hsound, hbare⟩ := advance_sound hadvance (hI.2 i) hI.1
    exact ⟨hs, forall_put (P := fun p => Sound s' p.stage) hsound fun j =>
      (hI.2 j).mono fun t _ => hbare t⟩
  | remember _ t count hready hinsert =>
    refine inv_put_write (e := (S.process i).embedder)
      (W := fun t' => t' = t ∧ (S.process i).embedder.dim ≠ 0 ∧ 0 < count) hI rfl ?_ ?_ ?_
    · rw [insert_eq hinsert]
      rfl
    · intro t' r hr
      obtain hr | hr | ⟨ht, hd, hcount, hr⟩ := mem_insert hinsert hr
      · exact .inl hr
      · exact .inr (.inl hr)
      · exact .inr (.inr ⟨⟨ht, hd, hcount⟩, hr⟩)
    · rintro t' ⟨rfl, hd, hcount⟩
      exact hq i t' (.inl ⟨count, rfl, hd, hcount⟩)
  | pending _ hready hdim hread =>
    exact inv_put_write (e := (S.process i).embedder) (W := fun _ => False) hI rfl rfl
      (fun t r hr => .inl hr) (fun t ht => ht.elim)
  | @embed _ rows _ hbatch hwrite =>
    refine inv_put_write (e := (S.process i).embedder)
      (W := fun t => ∃ p ∈ present S.vectors rows, p.1 = t) hI rfl ?_ ?_ ?_
    · rw [writeVectors_eq hwrite]
    · intro t r hr
      obtain hr | hr := mem_writeVectors hwrite hr
      · exact .inl hr
      · exact .inr (.inr hr)
    · intro t ht
      exact hq i t (.inr ⟨rfl, rows, s', hbatch, hwrite, ht⟩)
  | refused _ hbatch =>
    exact inv_put_write (e := (S.process i).embedder) (W := fun _ => False) hI rfl rfl
      (fun t r hr => .inl hr) (fun t ht => ht.elim)

omit [DecidableEq ι] in
theorem inv_opening (e : ι → Embedder) (hs : Uniform s) : Inv (opening s e .resolve) :=
  ⟨hs, fun i => sound_start s (e i) .resolve⟩

/-- Started on a store of one model, processes of whatever models keep it so, as long as each writes
its vectors while the record names its embedder and no move has cleared the table. -/
theorem uniform_of_inOrder (s : Vectors) (hs : Uniform s) (e : ι → Embedder)
    (steps : List (Step (State ι) (Action ι))) (S : State ι)
    (h : Run Processes.step (opening s e .resolve) steps S) (hq : ∀ ev ∈ steps, InOrder ev) :
    Uniform S.vectors ∧ ∀ ev ∈ steps, Uniform ev.source.vectors ∧ Uniform ev.target.vectors := by
  obtain ⟨hS, hsteps⟩ := h.invariant (I := Inv) (Q := InOrder)
    (fun S a T hs hq hI => inv_step hs hq hI) hq (inv_opening e hs)
  exact ⟨hS.1, fun ev hev => ⟨(hsteps ev hev).1.1, (hsteps ev hev).2.1⟩⟩

def one : Embedder := ⟨['1'], 2, none, by decide⟩

def other : Embedder := ⟨['2'], 2, none, by decide⟩

def models : Bool → Embedder
  | true => other
  | false => one

/-- A store without rows, recorded for the first model. -/
def recordedOne : Vectors := ⟨fun _ => [], fun _ => 2, fun _ => by decide, .of one, 0⟩

theorem recordedOne_uniform : Uniform recordedOne := uniform_of_bare fun _ _ hr => nomatch hr

instance (m : Meta) (e : Embedder) : Decidable (Names m e) :=
  inferInstanceAs (Decidable (_ ∧ _ ∧ _))

instance (t : Vectored) : DecidablePred (PastClear t)
  | .reset left _ true => inferInstanceAs (Decidable (Statement.clear t ∉ left))
  | .record (.setEmbedder _) => isTrue trivial
  | .reset _ _ false | .record (.clear _) | .record (.redefine _ _) | .record (.recordEmbedder _)
  | .record (.recordRevision _) | .model _ | .dim _ _ | .revision _ _ _ | .ready | .failed _ =>
    isFalse id

/-- Whoever writes is recorded, and nobody is past clearing a table. -/
def orderly (ev : Step (State Bool) (Action Bool)) : Bool :=
  match ev.action with
  | .advance _ | .pending _ => true
  | .remember i _ _ | .embed i =>
    decide (Names ev.source.vectors.embedder (ev.source.process i).embedder ∧
      ∀ t ∈ VECTORED, ∀ j, ¬ PastClear t (ev.source.process j).stage)

theorem inOrder_of_orderly {ev : Step (State Bool) (Action Bool)} (h : orderly ev = true) :
    InOrder ev := by
  have hall (t : Vectored) : t ∈ VECTORED := by cases t <;> decide
  rintro i t (⟨count, hact, -⟩ | ⟨hact, -⟩) <;>
  · rw [orderly, hact] at h
    exact (of_decide_eq_true h).imp_right fun hclear => hclear t (hall t)

/-- The first process opens the store and stores a memory, and the second moves the store to its own
model and embeds the memory anew. -/
theorem uniform_of_inOrder_moved : ∃ steps S,
    Run Processes.step (opening recordedOne models .resolve) steps S ∧
      (∃ ev ∈ steps, ev.target.vectors.rows .memory = [⟨0, some one⟩]) ∧
      S.vectors.rows .memory = [⟨0, some other⟩] ∧ Uniform S.vectors := by
  obtain ⟨steps, S, hrun, -, hend⟩ := exists_run_of_exec Processes.step
    (opening recordedOne models .resolve)
    (List.replicate 6 (.advance false) ++ [.remember false .memory 1] ++
      List.replicate 9 (.advance true) ++ [.pending true, .pending true, .embed true])
    (fun r => decide (r.2.vectors.rows .memory = [⟨0, some other⟩]) && r.1.all orderly &&
      r.1.any fun ev => decide (ev.target.vectors.rows .memory = [⟨0, some one⟩])) (by decide)
  simp only [Bool.and_eq_true, List.all_eq_true, List.any_eq_true, decide_eq_true_eq] at hend
  obtain ⟨⟨hrows, hq⟩, hstored⟩ := hend
  exact ⟨steps, S, hrun, hstored, hrows, (uniform_of_inOrder recordedOne recordedOne_uniform models
    steps S hrun fun ev hev => inOrder_of_orderly (hq ev hev)).1⟩

/-- One process opens the store, the other moves it to its own model of the same width, and the
first stores a memory. -/
def movedUnder : List (Action Bool) :=
  List.replicate 6 (.advance false) ++ List.replicate 9 (.advance true) ++
    [.remember false .memory 1]

theorem mixed : ∃ steps S, Run Processes.step (opening recordedOne models .resolve) steps S ∧
    (S.process true).stage = .ready ∧ ¬ Uniform S.vectors := by
  obtain ⟨steps, S, hrun, -, hend⟩ := exists_run_of_exec Processes.step
    (opening recordedOne models .resolve)
    movedUnder (fun r => decide ((r.2.process true).stage = .ready ∧
      r.2.vectors.rows .memory = [⟨0, some one⟩] ∧ r.2.vectors.embedder = .of other)) (by decide)
  obtain ⟨hready, hrows, hmeta⟩ := of_decide_eq_true hend
  refine ⟨steps, S, hrun, hready, fun h => ?_⟩
  have hnames := h .memory ⟨0, some one⟩ (by rw [hrows]; simp) one rfl
  rw [hmeta] at hnames
  exact absurd hnames.1 (by decide)

end Agmem.Store.Mixture
