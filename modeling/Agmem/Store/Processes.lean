import Agmem.Store.Startup

/-! Any number of processes on one store, in any order of their steps. A process that is up writes
rows with the vectors of its embedder, a transaction to a table, and its drain reads the rows
without a vector, one table after the other, embeds them and writes the vectors back. -/

namespace Agmem.Store.Processes

open Core Transition Batch VectorSpace Startup

variable {ι : Type*}

/-- Rows a drain takes at a time. -/
def DRAIN_BATCH : ℕ := 16

/-- A row of one of the tables. -/
abbrev Place := Vectored × ℕ

/-! ### Writes of vectors -/

/-- The vector an embedder gives a row, if it gives any. -/
def vectorOf (e : Embedder) : Option Embedder := if e.dim = 0 then none else some e

def newRows (s : Vectors) (e : Embedder) (count : ℕ) : List VectorRow :=
  (List.range count).map fun i => ⟨s.minted + i, vectorOf e⟩

/-- Rows of a `remember`, in one transaction. -/
def insert (s : Vectors) (e : Embedder) (t : Vectored) (count : ℕ) : Except Refusal Vectors :=
  if (newRows s e count).all (VectorRow.fits (s.index t)) then
    .ok { s.setRows t (s.rows t ++ newRows s e count) with minted := s.minted + count }
  else .error .width

/-- The next rows of a table without a vector. -/
def pending (s : Vectors) (t : Vectored) (limit : ℕ) : List Place :=
  (((s.rows t).filter fun r => r.embedding.isNone).take limit).map fun r => (t, r.id)

def giveVector (e : Embedder) (batch : List Place) (t : Vectored) (r : VectorRow) : VectorRow :=
  if (t, r.id) ∈ batch then { r with embedding := some e } else r

/-- One vector of the wrong width fails the batch, and a row that is gone is passed over. -/
def writeVectors (s : Vectors) (e : Embedder) (batch : List Place) : Except Refusal Vectors :=
  if VECTORED.all fun t => (s.rows t).all fun r => !((t, r.id) ∈ batch) || s.index t == e.dim then
    .ok { s with rows := fun t => (s.rows t).map (giveVector e batch t) }
  else .error .width

variable {s s' : Vectors} {e : Embedder} {t : Vectored} {count : ℕ} {batch : List Place}

theorem insert_eq (h : insert s e t count = .ok s') : s' =
    { s.setRows t (s.rows t ++ newRows s e count) with minted := s.minted + count } := by
  unfold insert at h
  split_ifs at h
  exact (Except.ok.inj h).symm

theorem mem_newRows {r : VectorRow} (h : r ∈ newRows s e count) :
    r.embedding = vectorOf e ∧ 0 < count := by
  obtain ⟨i, hi, rfl⟩ := List.mem_map.mp h
  have hcount := List.mem_range.mp hi
  exact ⟨rfl, by omega⟩

theorem mem_insert {r : VectorRow} {t' : Vectored} (h : insert s e t count = .ok s')
    (hr : r ∈ s'.rows t') : r ∈ s.rows t' ∨ r.embedding = none ∨
      t' = t ∧ e.dim ≠ 0 ∧ 0 < count ∧ r.embedding = some e := by
  rw [insert_eq h] at hr
  by_cases ht : t' = t
  · subst ht
    simp only [setRows_rows, Function.update_self, List.mem_append] at hr
    obtain hr | hr := hr
    · exact .inl hr
    · obtain ⟨hvector, hcount⟩ := mem_newRows hr
      unfold vectorOf at hvector
      split_ifs at hvector with hd
      · exact .inr (.inl hvector)
      · exact .inr (.inr ⟨rfl, hd, hcount, hvector⟩)
  · simp only [setRows_rows, Function.update_of_ne ht] at hr
    exact .inl hr

theorem writeVectors_eq (h : writeVectors s e batch = .ok s') :
    s' = { s with rows := fun t => (s.rows t).map (giveVector e batch t) } := by
  unfold writeVectors at h
  split_ifs at h
  exact (Except.ok.inj h).symm

/-- The rows of a batch that are there to take their vectors. -/
def present (s : Vectors) (batch : List Place) : List Place :=
  batch.filter fun p => (s.rows p.1).any fun r => r.id == p.2

theorem mem_present {r : VectorRow} (hr : r ∈ s.rows t) (h : (t, r.id) ∈ batch) :
    (t, r.id) ∈ present s batch :=
  List.mem_filter.mpr ⟨h, List.any_eq_true.mpr ⟨r, hr, by simp⟩⟩

theorem mem_writeVectors {r : VectorRow} (h : writeVectors s e batch = .ok s')
    (hr : r ∈ s'.rows t) :
    r ∈ s.rows t ∨ (∃ p ∈ present s batch, p.1 = t) ∧ r.embedding = some e := by
  rw [writeVectors_eq h] at hr
  obtain ⟨q, hq, rfl⟩ := List.mem_map.mp hr
  unfold giveVector
  split
  · next hin => exact .inr ⟨⟨_, mem_present hq hin, rfl⟩, rfl⟩
  · exact .inl hq

/-! ### Processes -/

/-- A batch is read from one table, then from the other. -/
inductive Drain where
  | idle
  | half (rows : List Place)
  | batch (rows : List Place)
deriving DecidableEq

structure Process where
  embedder : Embedder
  stage : Stage
  drain : Drain
  /-- The rows it has given a vector. -/
  stored : List Place
deriving DecidableEq

structure State (ι : Type*) where
  vectors : Vectors
  process : ι → Process

inductive Action (ι : Type*) where
  | advance (i : ι)
  | remember (i : ι) (table : Vectored) (count : ℕ)
  | pending (i : ι)
  | embed (i : ι)

/-- Processes that have not begun, at the read they begin with. -/
def opening (s : Vectors) (e : ι → Embedder) (query : Query) : State ι :=
  ⟨s, fun i => ⟨e i, start (e i) query, .idle, []⟩⟩

section Step

variable [DecidableEq ι]

def State.put (S : State ι) (i : ι) (s : Vectors) (p : Process) : State ι :=
  ⟨s, Function.update S.process i p⟩

@[simp] theorem put_vectors (S : State ι) (i : ι) (s : Vectors) (p : Process) :
    (S.put i s p).vectors = s := rfl

@[simp] theorem put_process (S : State ι) (i : ι) (s : Vectors) (p : Process) :
    (S.put i s p).process = Function.update S.process i p := rfl

theorem forall_put {S : State ι} {i : ι} {s : Vectors} {p : Process} {P : Process → Prop} (hp : P p)
    (h : ∀ j, P (S.process j)) (j : ι) : P ((S.put i s p).process j) := by
  rw [put_process]
  by_cases hj : j = i
  · subst hj
    rwa [Function.update_self]
  · rw [Function.update_of_ne hj]
    exact h j

/-- What a drain reads next. -/
def readPending (s : Vectors) : Drain → Option Drain
  | .idle => some (.half (pending s .memory DRAIN_BATCH))
  | .half rows => some (.batch ((rows ++ pending s .episodeChunk DRAIN_BATCH).take DRAIN_BATCH))
  | .batch _ => none

def step (S : State ι) : Action ι → Option (State ι)
  | .advance i =>
    let p := S.process i
    (advance p.embedder S.vectors p.stage).map fun r => S.put i r.1 { p with stage := r.2 }
  | .remember i t count =>
    let p := S.process i
    if p.stage = .ready then
      match insert S.vectors p.embedder t count with
      | .ok s => some (S.put i s { p with
          stored := p.stored ++ if p.embedder.dim = 0 then [] else
            (newRows S.vectors p.embedder count).map fun r => (t, r.id) })
      | .error _ => none
    else none
  | .pending i =>
    let p := S.process i
    if p.stage = .ready ∧ p.embedder.dim ≠ 0 then
      (readPending S.vectors p.drain).map fun d => S.put i S.vectors { p with drain := d }
    else none
  | .embed i =>
    let p := S.process i
    match p.drain with
    | .batch rows =>
      match writeVectors S.vectors p.embedder rows with
      | .ok s => some (S.put i s { p with
          drain := .idle, stored := p.stored ++ present S.vectors rows })
      | .error _ => some (S.put i S.vectors { p with drain := .idle })
    | _ => none

/-- What an action can do: the process it is of, and the store and the process it leaves. -/
inductive Acts (S : State ι) : Action ι → ι → Vectors → Process → Prop
  | advance (i : ι) {s : Vectors} {stage : Stage}
      (h : advance (S.process i).embedder S.vectors (S.process i).stage = some (s, stage)) :
      Acts S (.advance i) i s { S.process i with stage }
  | remember (i : ι) (t : Vectored) (count : ℕ) {s : Vectors}
      (hready : (S.process i).stage = .ready)
      (h : insert S.vectors (S.process i).embedder t count = .ok s) :
      Acts S (.remember i t count) i s { S.process i with
        stored := (S.process i).stored ++ if (S.process i).embedder.dim = 0 then [] else
          (newRows S.vectors (S.process i).embedder count).map fun r => (t, r.id) }
  | pending (i : ι) {d : Drain} (hready : (S.process i).stage = .ready)
      (hdim : (S.process i).embedder.dim ≠ 0)
      (h : readPending S.vectors (S.process i).drain = some d) :
      Acts S (.pending i) i S.vectors { S.process i with drain := d }
  | embed (i : ι) {rows : List Place} {s : Vectors} (hbatch : (S.process i).drain = .batch rows)
      (h : writeVectors S.vectors (S.process i).embedder rows = .ok s) :
      Acts S (.embed i) i s { S.process i with
        drain := .idle, stored := (S.process i).stored ++ present S.vectors rows }
  | refused (i : ι) {rows : List Place} (hbatch : (S.process i).drain = .batch rows) :
      Acts S (.embed i) i S.vectors { S.process i with drain := .idle }

theorem step_acts {S T : State ι} {a : Action ι} (h : step S a = some T) :
    ∃ i s p, Acts S a i s p ∧ T = S.put i s p := by
  cases a with
  | advance i =>
    obtain ⟨⟨s, stage⟩, hadvance, rfl⟩ := Option.map_eq_some_iff.mp h
    exact ⟨i, s, _, .advance i hadvance, rfl⟩
  | remember i t count =>
    simp only [step] at h
    split at h
    · next hready =>
      split at h
      · next s hinsert =>
        cases h
        exact ⟨i, s, _, .remember i t count hready hinsert, rfl⟩
      · cases h
    · cases h
  | pending i =>
    simp only [step] at h
    split at h
    · next hready =>
      obtain ⟨d, hd, rfl⟩ := Option.map_eq_some_iff.mp h
      exact ⟨i, _, _, .pending i hready.1 hready.2 hd, rfl⟩
    · cases h
  | embed i =>
    simp only [step] at h
    split at h
    · next rows hbatch =>
      split at h
      · next s hwrite =>
        cases h
        exact ⟨i, s, _, .embed i hbatch hwrite, rfl⟩
      · cases h
        exact ⟨i, _, _, .refused i hbatch, rfl⟩
    · cases h

end Step

end Agmem.Store.Processes
