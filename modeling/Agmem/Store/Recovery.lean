import Agmem.Store.VectorSpace

/-! A move that is cut off. Its record is the last of its statements, so a store that is left
halfway still names the embedder it is moved away from, with its vectors gone and its indexes
redefined in part. A start with a third embedder, or with the new one again, finds a mismatch and
moves the store afresh; a start with the old one matches the record and leaves the indexes as they
are. -/

namespace Agmem.Store.Recovery

open Core Transition.Batch VectorSpace

variable {s : Vectors} {e old : Embedder} {stored : StoredEmbedder} {k : ℕ}

/-- The statements of a move, in their order. -/
def moveScript (e : Embedder) : List Statement := resetScript e.dim ++ [.setEmbedder e]

/-- The store when a move stops after `k` statements. -/
def interrupted (s : Vectors) (e : Embedder) (k : ℕ) : Vectors :=
  finish run s ((moveScript e).take k)

theorem moveScript_eq (e : Embedder) : moveScript e = [.clear .memory, .clear .episodeChunk,
    .redefine .memory e.dim, .redefine .episodeChunk e.dim, .setEmbedder e] := rfl

/-- Uninterrupted, these are the statements a start runs. -/
theorem finish_moveScript (hd : 0 < e.dim) (h : storedEmbedder s = some stored)
    (hm : stored.matches e = false) : (resolve s e).1 = finish run s (moveScript e) := by
  obtain ⟨v, hv⟩ := resolve_mismatching hd h hm
  have hreset := congrArg Prod.fst (resetVectors_eq (s := s) hd)
  simp only [resetVectors] at hreset
  rw [hv, moveScript, finish_append, hreset, finish_cons, finish_nil, after_setEmbedder]

/-- What the first statements of a move leave behind. -/
theorem interrupted_eq (hd : 0 < e.dim) : interrupted s e k =
    match k with
    | 0 => s
    | 1 => s.setRows .memory ((s.rows .memory).map VectorRow.clear)
    | 2 => s.cleared
    | 3 => s.cleared.setIndex .memory e.dim hd
    | 4 => s.reset e.dim hd
    | _ + 5 => { s.reset e.dim hd with embedder := .of e } := by
  have hclear : after run (after run s (.clear .memory)) (.clear .episodeChunk) = s.cleared :=
    finish_clear
  have hmemory := run_redefine_cleared (s := s) (t := .memory) hd (q := s.cleared) rfl
  have hchunk := run_redefine_cleared (s := s) (t := .episodeChunk) hd
    (q := s.cleared.setIndex .memory e.dim hd) rfl
  unfold interrupted
  rw [moveScript_eq]
  match k with
  | 0 => rfl
  | 1 => rfl
  | 2 => exact hclear
  | 3 =>
    simp only [List.take_succ_cons, List.take_zero, finish_cons, finish_nil, hclear,
      after_ok hmemory]
  | 4 =>
    simp only [List.take_succ_cons, List.take_zero, finish_cons, finish_nil, hclear,
      after_ok hmemory, after_ok hchunk, setIndex_both, Vectors.reset]
  | k + 5 =>
    simp only [List.take_succ_cons, List.take_nil, finish_cons, finish_nil, hclear,
      after_ok hmemory, after_ok hchunk, setIndex_both, after_setEmbedder, Vectors.reset]

theorem interrupted_embedder (hd : 0 < e.dim) :
    (interrupted s e k).embedder = if k ≤ 4 then s.embedder else .of e := by
  rw [interrupted_eq hd]
  match k with
  | 0 | 1 | 2 | 3 | 4 => rfl
  | k + 5 => rw [if_neg (by omega)]

theorem interrupted_memory (hd : 0 < e.dim) :
    (interrupted s e k).index .memory = if k ≤ 2 then s.index .memory else e.dim := by
  rw [interrupted_eq hd]
  match k with
  | 0 | 1 | 2 | 3 | 4 => rfl
  | k + 5 => rw [if_neg (by omega)]; rfl

theorem interrupted_chunk (hd : 0 < e.dim) :
    (interrupted s e k).index .episodeChunk = if k ≤ 3 then s.index .episodeChunk else e.dim := by
  rw [interrupted_eq hd]
  match k with
  | 0 | 1 | 2 | 3 | 4 => rfl
  | k + 5 => rw [if_neg (by omega)]; rfl

/-! ### The next start -/

/-- Both indexes, the record and the embedder are of one width. -/
def OneWidth (s : Vectors) (e : Embedder) : Prop :=
  (∀ t, s.index t = e.dim) ∧ s.embedder.embedderDim = some e.dim

/-- If the next start goes through, the store has the width of its embedder; one of width 0 is no
model and has no vectors to fit. -/
def Recovers (s : Vectors) (e : Embedder) : Prop :=
  e.dim ≠ 0 → ∀ v, (resolve s e).2 = .ok v → OneWidth (resolve s e).1 e

theorem recovers_mismatching (hd : 0 < e.dim) (h : storedEmbedder s = some stored)
    (hm : stored.matches e = false) : Recovers s e := by
  obtain ⟨v, hv⟩ := resolve_mismatching hd h hm
  intro _ _ _
  rw [hv]
  refine ⟨fun t => rfl, ?_⟩
  show some (width e.dim) = some e.dim
  rw [width_dim]

theorem recovers_matching_iff (hd : e.dim ≠ 0) (h : storedEmbedder s = some stored)
    (hm : stored.matches e = true) : Recovers s e ↔ ∀ t, s.index t = e.dim := by
  obtain ⟨v, hv⟩ := resolve_matching hd h hm
  obtain ⟨-, hindex, hdim⟩ := backfill_kept s stored e
  simp only [Recovers, forall_prop_of_true hd, hv, Except.ok.injEq, forall_eq', OneWidth, hindex,
    hdim, storedEmbedder_dim h, matches_dim hm, and_true]

/-- Stopped anywhere in a move, a store is brought to one width by the next start that goes through,
unless that start is with the embedder the record still names and the move has already redefined an
index at another width. -/
theorem recovers_iff (s : Vectors) (stored : StoredEmbedder) (h : storedEmbedder s = some stored)
    (e : Embedder) (hd : 0 < e.dim) (k : ℕ) (next : Embedder) :
    Recovers (interrupted s e k) next ↔
      (next.dim ≠ 0 → k ≤ 4 → stored.matches next = true →
        (if k ≤ 2 then s.index .memory else e.dim) = next.dim ∧
          (if k ≤ 3 then s.index .episodeChunk else e.dim) = next.dim) := by
  have hwidths : (∀ t, (interrupted s e k).index t = next.dim) ↔
      (if k ≤ 2 then s.index .memory else e.dim) = next.dim ∧
        (if k ≤ 3 then s.index .episodeChunk else e.dim) = next.dim := by
    rw [← interrupted_memory hd, ← interrupted_chunk hd]
    constructor
    · intro h
      exact ⟨h .memory, h .episodeChunk⟩
    · rintro ⟨hmemory, hchunk⟩ t
      cases t
      · exact hmemory
      · exact hchunk
  by_cases hnext : next.dim = 0
  · exact iff_of_true (fun h => absurd hnext h) fun h => absurd hnext h
  rw [forall_prop_of_true hnext]
  by_cases hk : k ≤ 4
  · have hstored : storedEmbedder (interrupted s e k) = some stored := by
      rw [storedEmbedder, interrupted_embedder hd, if_pos hk]
      exact h
    cases hmatch : stored.matches next with
    | true => rw [recovers_matching_iff hnext hstored hmatch, hwidths]; simp [hk]
    | false =>
      exact iff_of_true (recovers_mismatching (Nat.pos_of_ne_zero hnext) hstored hmatch) (by simp)
  · have hstored : storedEmbedder (interrupted s e k) =
        some ⟨e.modelId, width e.dim, e.revision⟩ := by
      rw [storedEmbedder, interrupted_embedder hd, if_neg hk]
      rfl
    refine iff_of_true ?_ fun h => absurd h hk
    cases hmatch : StoredEmbedder.matches ⟨e.modelId, width e.dim, e.revision⟩ next with
    | false => exact recovers_mismatching (Nat.pos_of_ne_zero hnext) hstored hmatch
    | true =>
      rw [recovers_matching_iff hnext hstored hmatch, hwidths, if_neg (by omega), if_neg (by omega)]
      have hdim := matches_dim hmatch
      rw [width_dim] at hdim
      exact ⟨hdim, hdim⟩

/-- A store of one memory, recorded for `bge`. -/
def oneMemory : Vectors where
  rows
    | .memory => [⟨0, some bge⟩]
    | .episodeChunk => []
  index _ := bge.dim
  index_pos _ := by decide
  embedder := .of bge
  minted := 1

theorem recovers_iff_back : storedEmbedder oneMemory = some ⟨['b'], 384, none⟩ ∧ 0 < nomic.dim ∧
    (Recovers (interrupted oneMemory nomic 4) bge ↔
      (bge.dim ≠ 0 → 4 ≤ 4 → StoredEmbedder.matches ⟨['b'], 384, none⟩ bge = true →
        (if 4 ≤ 2 then oneMemory.index .memory else nomic.dim) = bge.dim ∧
          (if 4 ≤ 3 then oneMemory.index .episodeChunk else nomic.dim) = bge.dim)) :=
  ⟨by decide, by decide,
    recovers_iff oneMemory ⟨['b'], 384, none⟩ (by decide) nomic (by decide) 4 bge⟩

/-- Moved to another width and stopped before the record, the store opens with its old embedder: one
row is pending, and neither index takes its vector. -/
theorem opens_at_another_width :
    StoredEmbedder.matches ⟨['b'], 384, none⟩ nomic = false ∧
    (resolve (interrupted oneMemory nomic 4) bge).2 = .ok ⟨1, none⟩ ∧
    (∀ t, (resolve (interrupted oneMemory nomic 4) bge).1.index t = nomic.dim) ∧
    ¬ Recovers (interrupted oneMemory nomic 4) bge := by
  have hok : (resolve (interrupted oneMemory nomic 4) bge).2 = .ok ⟨1, none⟩ := by decide
  have hindex : ∀ t, (resolve (interrupted oneMemory nomic 4) bge).1.index t = nomic.dim := by
    intro t
    cases t <;> decide
  refine ⟨by decide, hok, hindex, ?_⟩
  intro h
  have hwidth := (h (by decide) _ hok).1 .memory
  rw [hindex] at hwidth
  exact absurd hwidth (by decide)

end Agmem.Store.Recovery
