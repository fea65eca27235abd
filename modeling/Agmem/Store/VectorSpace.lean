import Agmem.Core.Dedup
import Agmem.Transition.Batch
import Mathlib.Logic.Function.Basic

/-! The vector space of a store. Two tables carry vectors, each with an index of one width, and
`meta` records the embedder the vectors belong to. A first run records its own, a later one is
checked against the record, and one that does not match moves the store: the vectors of both tables
are cleared, both indexes redefined, and the record written last. Of a vector only the embedder that
produced it is kept here, which says its width. -/

namespace Agmem.Store.VectorSpace

open Core Transition.Batch

def I64_MAX : ℕ := 2 ^ 63 - 1

/-- The width the schema defines its indexes with. -/
def EMBEDDING_DIM : ℕ := 384

/-- A backend. One of width 0 produces no vectors; a vector is longer than no `i64` counts. -/
structure Embedder where
  modelId : Text
  dim : ℕ
  revision : Option Text
  dim_le : dim ≤ I64_MAX
deriving DecidableEq

/-! A built-in model, and one that an API serves. -/

def bge : Embedder := ⟨['b'], 384, none, by decide⟩

def nomic : Embedder := ⟨['n'], 768, none, by decide⟩

/-- A width as `meta` stores it. -/
def width (dim : ℕ) : ℕ := min dim I64_MAX

@[simp] theorem width_dim (e : Embedder) : width e.dim = e.dim := min_eq_left e.dim_le

structure StoredEmbedder where
  model : Text
  dim : ℕ
  revision : Option Text
deriving DecidableEq

/-- The id and the width must agree; the revision is compared only when both sides carry one. -/
def StoredEmbedder.matches (stored : StoredEmbedder) (e : Embedder) : Bool :=
  decide (stored.model = e.modelId) && decide (stored.dim = width e.dim) &&
    match stored.revision, e.revision with
    | some stored, some configured => decide (stored = configured)
    | _, _ => true

/-- The columns of `meta:main` that say whose the vectors are. -/
structure Meta where
  embedderModel : Option Text
  embedderDim : Option ℕ
  embedderRevision : Option Text
deriving DecidableEq

def Meta.empty : Meta := ⟨none, none, none⟩

/-- The record an embedder leaves. -/
def Meta.of (e : Embedder) : Meta := ⟨some e.modelId, some (width e.dim), e.revision⟩

/-- Without a model or without a width there is no record. -/
def Meta.stored (m : Meta) : Option StoredEmbedder :=
  match m.embedderModel, m.embedderDim with
  | some model, some dim => some ⟨model, dim, m.embedderRevision⟩
  | _, _ => none

/-- What a guarded write of the record asks for. -/
def Meta.unrecorded (m : Meta) : Bool := m.embedderModel.isNone && m.embedderDim.isNone

/-- The tables that carry vectors. -/
inductive Vectored where
  | memory
  | episodeChunk
deriving DecidableEq

def VECTORED : List Vectored := [.memory, .episodeChunk]

structure VectorRow where
  id : ℕ
  embedding : Option Embedder
deriving DecidableEq

/-- What a store holds of vectors, and how many row ids it has minted. -/
structure Vectors where
  rows : Vectored → List VectorRow
  /-- The width of the index over each table. -/
  index : Vectored → ℕ
  index_pos : ∀ t, 0 < index t
  embedder : Meta
  minted : ℕ

/-- What the engine refuses: a vector of another width than its index, an index of width 0. -/
inductive Refusal where
  | width
  | dimension
deriving DecidableEq

/-- The writes to the vector space, each of them one statement. -/
inductive Statement where
  /-- `UPDATE table SET embedding = NONE` -/
  | clear (table : Vectored)
  /-- `DEFINE INDEX OVERWRITE … HNSW DIMENSION dim` -/
  | redefine (table : Vectored) (dim : ℕ)
  /-- `UPSERT meta:main SET …` -/
  | setEmbedder (e : Embedder)
  /-- `UPDATE meta:main SET … WHERE embedder_model IS NONE AND embedder_dim IS NONE` -/
  | recordEmbedder (e : Embedder)
  /-- `UPDATE meta:main SET embedder_revision = … WHERE embedder_revision IS NONE` -/
  | recordRevision (revision : Text)
deriving DecidableEq

def VectorRow.clear (r : VectorRow) : VectorRow := { r with embedding := none }

def VectorRow.fits (dim : ℕ) (r : VectorRow) : Bool := r.embedding.all fun e => e.dim == dim

def Vectors.setRows (s : Vectors) (t : Vectored) (rows : List VectorRow) : Vectors :=
  { s with rows := Function.update s.rows t rows }

def Vectors.setIndex (s : Vectors) (t : Vectored) (dim : ℕ) (h : 0 < dim) : Vectors where
  __ := s
  index := Function.update s.index t dim
  index_pos t' := by
    rw [Function.update_apply]
    split
    · exact h
    · exact s.index_pos t'

/-- An index is rebuilt against the rows as they stand, and the old one survives a failure. -/
def run (s : Vectors) : Statement → Except Refusal Vectors
  | .clear t => .ok (s.setRows t ((s.rows t).map VectorRow.clear))
  | .redefine t dim =>
    if h : 0 < dim then
      if (s.rows t).all (VectorRow.fits dim) then .ok (s.setIndex t dim h) else .error .width
    else .error .dimension
  | .setEmbedder e => .ok { s with embedder := .of e }
  | .recordEmbedder e => .ok (if s.embedder.unrecorded then { s with embedder := .of e } else s)
  | .recordRevision revision =>
    .ok (if s.embedder.embedderRevision.isNone then
      { s with embedder := { s.embedder with embedderRevision := some revision } } else s)

@[simp] theorem clear_embedding (r : VectorRow) : r.clear.embedding = none := rfl

@[simp] theorem setRows_rows (s : Vectors) (t : Vectored) (rows : List VectorRow) :
    (s.setRows t rows).rows = Function.update s.rows t rows := rfl

@[simp] theorem setRows_index (s : Vectors) (t : Vectored) (rows : List VectorRow) :
    (s.setRows t rows).index = s.index := rfl

@[simp] theorem setRows_embedder (s : Vectors) (t : Vectored) (rows : List VectorRow) :
    (s.setRows t rows).embedder = s.embedder := rfl

section SetIndex

variable (s : Vectors) (t : Vectored) {dim : ℕ} (h : 0 < dim)

@[simp] theorem setIndex_rows : (s.setIndex t dim h).rows = s.rows := rfl

@[simp] theorem setIndex_index :
    (s.setIndex t dim h).index = Function.update s.index t dim := rfl

@[simp] theorem setIndex_embedder : (s.setIndex t dim h).embedder = s.embedder := rfl

end SetIndex

variable {s : Vectors} {e : Embedder} {t : Vectored} {dim : ℕ}

@[simp] theorem run_clear : run s (.clear t) = .ok (s.setRows t ((s.rows t).map VectorRow.clear)) :=
  rfl

theorem run_redefine (h : 0 < dim) (hfits : ∀ r ∈ s.rows t, r.fits dim = true) :
    run s (.redefine t dim) = .ok (s.setIndex t dim h) := by
  rw [run, dif_pos h, if_pos (List.all_eq_true.mpr hfits)]

@[simp] theorem run_setEmbedder : run s (.setEmbedder e) = .ok { s with embedder := .of e } := rfl

@[simp] theorem after_setEmbedder : after run s (.setEmbedder e) = { s with embedder := .of e } :=
  rfl

theorem fits_of_clear {rows : List VectorRow} :
    ∀ r ∈ rows.map VectorRow.clear, r.fits dim = true := by
  intro r hr
  obtain ⟨q, -, rfl⟩ := List.mem_map.mp hr
  rfl

/-- The script of `reset_vectors`. -/
def resetScript (dim : ℕ) : List Statement :=
  VECTORED.map .clear ++ VECTORED.map (.redefine · dim)

/-- Drop every vector and rebuild both indexes. -/
def resetVectors (s : Vectors) (dim : ℕ) : Vectors × Option Refusal :=
  (finish run s (resetScript dim), check run s (resetScript dim))

/-- A store without vectors. -/
def Vectors.cleared (s : Vectors) : Vectors :=
  { s with rows := fun t => (s.rows t).map VectorRow.clear }

/-- The store a reset leaves. -/
def Vectors.reset (s : Vectors) (dim : ℕ) (h : 0 < dim) : Vectors :=
  { s.cleared with index := fun _ => dim, index_pos := fun _ => h }

theorem finish_clear : finish run s (VECTORED.map .clear) = s.cleared := by
  show (s.setRows .memory _).setRows .episodeChunk _ = s.cleared
  simp only [Vectors.setRows, Vectors.cleared, Vectors.mk.injEq, and_self, and_true]
  funext t
  cases t <;> rfl

theorem check_clear : check run s (VECTORED.map .clear) = none := rfl

/-- Without vectors a table takes an index of any width. -/
theorem run_redefine_cleared (h : 0 < dim) {q : Vectors} (hq : q.rows = s.cleared.rows) :
    run q (.redefine t dim) = .ok (q.setIndex t dim h) :=
  run_redefine h (by rw [hq]; exact fits_of_clear)

theorem setIndex_both (h : 0 < dim) :
    (s.setIndex .memory dim h).setIndex .episodeChunk dim h =
      { s with index := fun _ => dim, index_pos := fun _ => h } := by
  simp only [Vectors.setIndex, Vectors.mk.injEq, and_self, and_true, true_and]
  funext t
  cases t <;> rfl

/-- Cleared first, the tables let both indexes be redefined. -/
theorem resetVectors_eq (h : 0 < dim) : resetVectors s dim = (s.reset dim h, none) := by
  have hmemory := run_redefine_cleared (s := s) (t := .memory) h (q := s.cleared) rfl
  have hchunk := run_redefine_cleared (s := s) (t := .episodeChunk) h
    (q := s.cleared.setIndex .memory dim h) rfl
  rw [resetVectors, resetScript, finish_append, check_append, finish_clear, check_clear]
  simp only [VECTORED, List.map_cons, List.map_nil, finish_cons, finish_nil, check_cons, check_nil,
    after_ok hmemory, outcome_ok hmemory, after_ok hchunk, outcome_ok hchunk, setIndex_both,
    Option.none_or, Vectors.reset]

def storedEmbedder (s : Vectors) : Option StoredEmbedder := s.embedder.stored

def setEmbedder (s : Vectors) (e : Embedder) : Vectors := after run s (.setEmbedder e)

inductive SpaceError where
  | db (error : Refusal)
  | embedderMismatch (stored : StoredEmbedder) (configured : Embedder)
  | unexpectedResponse (message : String)
deriving DecidableEq

/-- A store that predates revisions gets that of the first run to know one. -/
def backfill (s : Vectors) (stored : StoredEmbedder) (e : Embedder) : Vectors :=
  match stored.revision, e.revision with
  | none, some revision => after run s (.recordRevision revision)
  | _, _ => s

/-- What the read after the guarded write says of who won. -/
def confirmEmbedder (s : Vectors) (e : Embedder) : Except SpaceError Unit :=
  match storedEmbedder s with
  | some stored => if stored.matches e then .ok () else .error (.embedderMismatch stored e)
  | none => .error (.unexpectedResponse "no embedder pair recorded after writing one")

def recordEmbedder (s : Vectors) (e : Embedder) : Vectors × Except SpaceError Unit :=
  (after run s (.recordEmbedder e), confirmEmbedder (after run s (.recordEmbedder e)) e)

/-- Record the embedder, or refuse to run. -/
def ensureEmbedder (s : Vectors) (e : Embedder) : Vectors × Except SpaceError Unit :=
  if e.dim = 0 then (s, .ok ())
  else
    match storedEmbedder s with
    | some stored =>
      if stored.matches e then (backfill s stored e, .ok ())
      else (s, .error (.embedderMismatch stored e))
    | none =>
      if e.dim = EMBEDDING_DIM then recordEmbedder s e
      else
        match resetVectors s e.dim with
        | (s, some error) => (s, .error (.db error))
        | (s, none) => recordEmbedder s e

/-- How many rows have no vector. -/
def pendingCount (s : Vectors) : ℕ :=
  VECTORED.foldl (fun total t => total + (s.rows t).countP fun r => r.embedding.isNone) 0

structure VectorState where
  pending : ℕ
  movedFrom : Option StoredEmbedder
deriving DecidableEq

/-- Settle the vector space when a process opens the store: the configured model wins. -/
def resolve (s : Vectors) (e : Embedder) : Vectors × Except SpaceError VectorState :=
  if e.dim = 0 then (s, .ok ⟨0, none⟩)
  else
    let ensured : Vectors × Except SpaceError VectorState :=
      match ensureEmbedder s e with
      | (s, .error error) => (s, .error error)
      | (s, .ok ()) => (s, .ok ⟨pendingCount s, none⟩)
    match storedEmbedder s with
    | some stored =>
      if stored.matches e then ensured
      else
        match resetVectors s e.dim with
        | (s, some error) => (s, .error (.db error))
        | (s, none) => (setEmbedder s e, .ok ⟨pendingCount (setEmbedder s e), some stored⟩)
    | none => ensured

/-! ### What a statement changes -/

/-- The statements of a reset, which leave the record alone. -/
def Statement.resets : Statement → Bool
  | .clear _ | .redefine _ _ => true
  | _ => false

theorem resets_of_mem_resetScript {st : Statement} (h : st ∈ resetScript dim) :
    st.resets = true := by
  obtain h | h := List.mem_append.mp h
  · obtain ⟨t, -, rfl⟩ := List.mem_map.mp h
    rfl
  · obtain ⟨t, -, rfl⟩ := List.mem_map.mp h
    rfl

theorem after_redefine (s : Vectors) (t : Vectored) (dim : ℕ) :
    after run s (.redefine t dim) = s ∨
      ∃ h, after run s (.redefine t dim) = s.setIndex t dim h := by
  simp only [after, run]
  split
  · next q hq =>
    split_ifs at hq with h
    · exact .inr ⟨h, (Except.ok.inj hq).symm⟩
  · exact .inl rfl

theorem after_recordEmbedder : after run s (.recordEmbedder e) =
    if s.embedder.unrecorded then { s with embedder := .of e } else s := rfl

theorem after_recordRevision (revision : Text) : after run s (.recordRevision revision) =
    if s.embedder.embedderRevision.isNone then
      { s with embedder := { s.embedder with embedderRevision := some revision } } else s := rfl

theorem after_resets {st : Statement} (h : st.resets = true) :
    (after run s st).embedder = s.embedder := by
  cases st with
  | clear t => rfl
  | redefine t dim =>
    obtain hs | ⟨_, hs⟩ := after_redefine s t dim
    · rw [hs]
    · rw [hs, setIndex_embedder]
  | setEmbedder _ | recordEmbedder _ | recordRevision _ => cases h

theorem after_records {st : Statement} (h : st.resets = false) :
    (after run s st).rows = s.rows ∧ (after run s st).index = s.index := by
  cases st with
  | clear _ | redefine _ _ => cases h
  | setEmbedder e => exact ⟨rfl, rfl⟩
  | recordEmbedder e =>
    rw [after_recordEmbedder]
    split <;> exact ⟨rfl, rfl⟩
  | recordRevision revision =>
    rw [after_recordRevision]
    split <;> exact ⟨rfl, rfl⟩

/-- No statement gives a row a vector. -/
theorem mem_after_rows {st : Statement} {r : VectorRow} (h : r ∈ (after run s st).rows t) :
    r ∈ s.rows t ∨ r.embedding = none := by
  cases st with
  | clear t' =>
    by_cases ht : t = t'
    · subst ht
      simp only [after, run, setRows_rows, Function.update_self, List.mem_map] at h
      obtain ⟨q, -, rfl⟩ := h
      exact .inr rfl
    · simp only [after, run, setRows_rows, Function.update_of_ne ht] at h
      exact .inl h
  | redefine t' dim =>
    obtain hs | ⟨_, hs⟩ := after_redefine s t' dim
    · exact .inl (hs ▸ h)
    · rw [hs, setIndex_rows] at h
      exact .inl h
  | setEmbedder _ | recordEmbedder _ | recordRevision _ =>
    rw [(after_records rfl).1] at h
    exact .inl h

theorem mem_after_clear {r : VectorRow} (h : r ∈ (after run s (.clear t)).rows t) :
    r.embedding = none := by
  simp only [after, run, setRows_rows, Function.update_self, List.mem_map] at h
  obtain ⟨q, -, rfl⟩ := h
  rfl

/-! ### What a start leaves -/

variable {stored : StoredEmbedder}

theorem matches_dim (h : stored.matches e = true) : stored.dim = e.dim := by
  simp only [StoredEmbedder.matches, Bool.and_eq_true, decide_eq_true_eq, width_dim] at h
  exact h.1.2

theorem storedEmbedder_dim (h : storedEmbedder s = some stored) :
    s.embedder.embedderDim = some stored.dim := by
  unfold storedEmbedder Meta.stored at h
  split at h
  · next model dim _ hdim =>
    cases h
    exact hdim
  · cases h

theorem backfill_kept (s : Vectors) (stored : StoredEmbedder) (e : Embedder) :
    (backfill s stored e).rows = s.rows ∧ (backfill s stored e).index = s.index ∧
      (backfill s stored e).embedder.embedderDim = s.embedder.embedderDim := by
  unfold backfill
  split
  · simp only [after, run]
    split <;> exact ⟨rfl, rfl, rfl⟩
  · exact ⟨rfl, rfl, rfl⟩

theorem ensureEmbedder_stored (hd : e.dim ≠ 0) (h : storedEmbedder s = some stored) :
    ensureEmbedder s e = if stored.matches e then (backfill s stored e, .ok ())
      else (s, .error (.embedderMismatch stored e)) := by
  simp only [ensureEmbedder, if_neg hd, h]

theorem ensureEmbedder_fresh (hd : 0 < e.dim) (h : storedEmbedder s = none) :
    ensureEmbedder s e = if e.dim = EMBEDDING_DIM then recordEmbedder s e
      else recordEmbedder (s.reset e.dim hd) e := by
  simp only [ensureEmbedder, if_neg hd.ne', h, resetVectors_eq hd]

/-- A start moves nothing unless it finds a record of another embedder. -/
theorem resolve_ensuring (hd : e.dim ≠ 0)
    (h : ∀ stored, storedEmbedder s = some stored → stored.matches e = true) :
    resolve s e = ((ensureEmbedder s e).1,
      (ensureEmbedder s e).2.map fun _ => ⟨pendingCount (ensureEmbedder s e).1, none⟩) := by
  have hensured : (match ensureEmbedder s e with
      | (s, .error error) => (s, .error error)
      | (s, .ok ()) => (s, .ok ⟨pendingCount s, none⟩) : Vectors × Except SpaceError VectorState) =
      ((ensureEmbedder s e).1,
        (ensureEmbedder s e).2.map fun _ => ⟨pendingCount (ensureEmbedder s e).1, none⟩) := by
    rcases ensureEmbedder s e with ⟨q, error | ⟨⟩⟩ <;> rfl
  unfold resolve
  rw [if_neg hd]
  cases hstored : storedEmbedder s with
  | none => exact hensured
  | some stored => simp only [h stored hstored, if_true, hensured]

/-- A start that matches the record adds a revision at most. -/
theorem resolve_matching (hd : e.dim ≠ 0) (h : storedEmbedder s = some stored)
    (hm : stored.matches e = true) : ∃ v, resolve s e = (backfill s stored e, .ok v) := by
  have hensure : ensureEmbedder s e = (backfill s stored e, .ok ()) := by
    rw [ensureEmbedder_stored hd h, if_pos hm]
  refine ⟨⟨pendingCount (backfill s stored e), none⟩, ?_⟩
  rw [resolve_ensuring hd fun stored' h' => by rwa [← Option.some.inj (h.symm.trans h')], hensure]
  rfl

/-- A start that does not match the record moves the store. -/
theorem resolve_mismatching (hd : 0 < e.dim) (h : storedEmbedder s = some stored)
    (hm : stored.matches e = false) : ∃ v,
      resolve s e = ({ s.reset e.dim hd with embedder := .of e }, .ok v) := by
  refine ⟨⟨pendingCount (setEmbedder (s.reset e.dim hd) e), some stored⟩, ?_⟩
  simp only [resolve, if_neg hd.ne', h, hm, resetVectors_eq hd, setEmbedder, after_setEmbedder,
    Bool.false_eq_true, if_false]

end Agmem.Store.VectorSpace
