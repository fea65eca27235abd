import Agmem.Core.Model
import Agmem.Ranking.Packing

/-! What the backends share: passages reach a backend some at a time, and each backend brings its
vectors to unit length. -/

namespace Agmem.Embed

open Core Ranking

/-- How many passages reach the backend per call. -/
def BATCH : ℕ := 128

/-- `slice::chunks` -/
def chunks {α : Type} (size : ℕ) (items : List α) : List (List α) :=
  pack (fun group _ => group.length == size) [] items

/-- Embed passages, a slice at a time. -/
def embedPassages {F ε : Type} (embedder : List Text → Except ε (List (List F)))
    (passages : List Text) : Except ε (List (List F)) :=
  extendAll embedder [] (chunks BATCH passages)

/-- A backend that treats each passage by itself gives the slices what it gives the passages. -/
theorem embedPassages_eq_ok_iff {F ε : Type} {embedder : List Text → Except ε (List (List F))}
    {R : Text → List F → Prop} {passages : List Text} {vectors : List (List F)}
    (h : ∀ slice vectors, embedder slice = .ok vectors ↔ List.Forall₂ R slice vectors) :
    embedPassages embedder passages = .ok vectors ↔ List.Forall₂ R passages vectors := by
  rw [embedPassages, extendAll_eq_ok_iff fun slice _ => h slice, chunks, flatten_pack]
  simp

section Scalars

variable {F : Type} [Zero F] [Add F] [Mul F] [Div F] [LT F] [DecidableLT F] (sqrt : F → F)

/-- Unit length, unless the vector has none. -/
def unitLength (vector : List F) : List F :=
  let norm := sqrt ((vector.map fun x => x * x).foldl (· + ·) 0)
  if 0 < norm then vector.map fun x => x / norm else vector

theorem length_unitLength (vector : List F) :
    (unitLength sqrt vector).length = vector.length := by
  unfold unitLength
  dsimp only
  split_ifs
  · exact List.length_map _
  · rfl

end Scalars

end Agmem.Embed
