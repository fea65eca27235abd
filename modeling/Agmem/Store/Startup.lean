import Agmem.Store.VectorSpace
import Agmem.Transition.Run
import Mathlib.Logic.Relation

/-! Processes on one store. A start settles the vector space statement by statement, and every
statement is a commit of its own, those of one query too: each of the three columns of the record is
read in its turn. A process that is up stores memories with the vectors of its own embedder and lets
a drain embed the rows that have none. The record is not looked at again. -/

namespace Agmem.Store.Startup

open Core Transition Batch VectorSpace

/-- What a start reads the record for: to decide on a move, to check, to see who won. -/
inductive Query where
  | resolve
  | ensure
  | confirm
deriving DecidableEq

inductive Stage where
  | model (query : Query)
  | dim (query : Query) (model : Option Text)
  | revision (query : Query) (model : Option Text) (dim : Option ℕ)
  /-- Within the script of `reset_vectors`, with the first error so far. -/
  | reset (left : List Statement) (error : Option Refusal) (moving : Bool)
  /-- Before the write to the record. -/
  | record (statement : Statement)
  | ready
  | failed (error : SpaceError)
deriving DecidableEq

/-- A backend of width 0 claims no vector space and asks for nothing. -/
def start (e : Embedder) (query : Query) : Stage := if e.dim = 0 then .ready else .model query

/-- What the record, once read, leads to. -/
def found (e : Embedder) : Query → Option StoredEmbedder → Stage
  | .resolve, some stored =>
    if stored.matches e then .model .ensure else .reset (resetScript e.dim) none true
  | .resolve, none => .model .ensure
  | .ensure, some stored =>
    if stored.matches e then
      match stored.revision, e.revision with
      | none, some revision => .record (.recordRevision revision)
      | _, _ => .ready
    else .failed (.embedderMismatch stored e)
  | .ensure, none =>
    if e.dim = EMBEDDING_DIM then .record (.recordEmbedder e)
    else .reset (resetScript e.dim) none false
  | .confirm, some stored =>
    if stored.matches e then .ready else .failed (.embedderMismatch stored e)
  | .confirm, none =>
    .failed (.unexpectedResponse "no embedder pair recorded after writing one")

/-- The answer to a script of `reset_vectors`, checked. -/
def resetDone (e : Embedder) (moving : Bool) : Option Refusal → Stage
  | some error => .failed (.db error)
  | none => .record (if moving then .setEmbedder e else .recordEmbedder e)

/-- A guarded write of the record is read back. -/
def recorded : Statement → Stage
  | .recordEmbedder _ => .model .confirm
  | _ => .ready

/-- The next statement of a start. -/
def advance (e : Embedder) (s : Vectors) : Stage → Option (Vectors × Stage)
  | .model query => some (s, .dim query s.embedder.embedderModel)
  | .dim query model => some (s, .revision query model s.embedder.embedderDim)
  | .revision query model dim =>
    some (s, found e query (Meta.stored ⟨model, dim, s.embedder.embedderRevision⟩))
  | .reset (st :: left) error moving =>
    some (after run s st, .reset left (error.or (outcome run s st)) moving)
  | .reset [] error moving => some (s, resetDone e moving error)
  | .record st => some (after run s st, recorded st)
  | .ready | .failed _ => none

/-! ### A start on its own -/

/-- The statements of one start, with the store to itself. -/
def Alone (e : Embedder) : Vectors × Stage → Vectors × Stage → Prop :=
  Relation.ReflTransGen fun c d => advance e c.1 c.2 = some d

/-- The stage in which a start ends. -/
def ended {α : Type*} : Except SpaceError α → Stage
  | .ok _ => .ready
  | .error error => .failed error

variable {e : Embedder} {s : Vectors}

theorem alone_read (query : Query) :
    Alone e (s, .model query) (s, found e query (storedEmbedder s)) :=
  .tail (.tail (.single rfl) rfl) rfl

theorem alone_reset (moving : Bool) : ∀ (script : List Statement) (s : Vectors)
    (error : Option Refusal), Alone e (s, .reset script error moving)
      (finish run s script, resetDone e moving (error.or (check run s script)))
  | [], s, error => by
    rw [check_nil, Option.or_none]
    exact .single rfl
  | st :: script, s, error => by
    have hrest := alone_reset moving script (after run s st) (error.or (outcome run s st))
    rw [Option.or_assoc] at hrest
    exact .head rfl hrest

theorem alone_resetVectors (hd : e.dim ≠ 0) (moving : Bool) :
    Alone e (s, .reset (resetScript e.dim) none moving)
      (s.reset e.dim (Nat.pos_of_ne_zero hd), resetDone e moving none) := by
  have hreset := resetVectors_eq (s := s) (Nat.pos_of_ne_zero hd)
  have hrun := alone_reset (e := e) moving (resetScript e.dim) s none
  simp only [resetVectors, Prod.mk.injEq] at hreset
  rwa [hreset.1, hreset.2] at hrun

theorem found_confirm (s : Vectors) (e : Embedder) :
    found e .confirm (storedEmbedder s) = ended (confirmEmbedder s e) := by
  unfold confirmEmbedder
  cases storedEmbedder s with
  | none => rfl
  | some stored => cases hm : stored.matches e <;> simp [found, hm, ended]

theorem alone_recordEmbedder (e : Embedder) (s : Vectors) :
    Alone e (s, .record (.recordEmbedder e))
      ((recordEmbedder s e).1, ended (recordEmbedder s e).2) := by
  simp only [recordEmbedder, ← found_confirm]
  exact .head rfl (alone_read .confirm)

theorem alone_backfill (s : Vectors) {stored : StoredEmbedder} (hm : stored.matches e = true) :
    Alone e (s, found e .ensure (some stored)) (backfill s stored e, .ready) := by
  simp only [found, hm, if_true, backfill]
  cases stored.revision with
  | some _ => exact .refl
  | none =>
    cases e.revision with
    | none => exact .refl
    | some revision => exact .single rfl

/-- With the store to itself, a call of `ensure_embedder` goes as it is written. -/
theorem alone_ensure (e : Embedder) (s : Vectors) : Alone e (s, start e .ensure)
    ((ensureEmbedder s e).1, ended (ensureEmbedder s e).2) := by
  unfold start
  split
  · next hd =>
    rw [ensureEmbedder, if_pos hd]
    exact .refl
  next hd =>
  refine Relation.ReflTransGen.trans (alone_read .ensure) ?_
  cases hstored : storedEmbedder s with
  | some stored =>
    rw [ensureEmbedder_stored hd hstored]
    cases hm : stored.matches e with
    | true => exact alone_backfill s hm
    | false =>
      simp only [found, hm]
      exact .refl
  | none =>
    rw [ensureEmbedder_fresh (Nat.pos_of_ne_zero hd) hstored]
    simp only [found]
    split
    · exact alone_recordEmbedder e s
    · exact Relation.ReflTransGen.trans (alone_resetVectors hd false) (alone_recordEmbedder e _)

/-- With the store to itself, a start settles the vector space as `resolve` does. -/
theorem alone_resolve (e : Embedder) (s : Vectors) : Alone e (s, start e .resolve)
    ((resolve s e).1, ended (resolve s e).2) := by
  have hensure := alone_ensure e s
  unfold start at *
  split
  · next hd =>
    rw [resolve, if_pos hd]
    exact .refl
  next hd =>
  rw [if_neg hd] at hensure
  refine Relation.ReflTransGen.trans (alone_read .resolve) ?_
  by_cases h : ∀ stored, storedEmbedder s = some stored → stored.matches e = true
  · have hfound : found e .resolve (storedEmbedder s) = .model .ensure := by
      cases hstored : storedEmbedder s with
      | none => rfl
      | some stored => simp only [found, h stored hstored, if_true]
    have hended : ended ((ensureEmbedder s e).2.map fun _ =>
        (⟨pendingCount (ensureEmbedder s e).1, none⟩ : VectorState)) =
        ended (ensureEmbedder s e).2 := by
      cases (ensureEmbedder s e).2 <;> rfl
    rw [hfound, resolve_ensuring hd h]
    simp only [hended]
    exact hensure
  · push Not at h
    obtain ⟨stored, hstored, hm⟩ := h
    rw [ne_eq, Bool.not_eq_true] at hm
    obtain ⟨v, hv⟩ := resolve_mismatching (Nat.pos_of_ne_zero hd) hstored hm
    rw [hv, hstored]
    simp only [found, hm, Bool.false_eq_true, if_false]
    exact Relation.ReflTransGen.tail (alone_resetVectors hd true) rfl

end Agmem.Store.Startup
