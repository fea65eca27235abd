import Mathlib.Algebra.Order.Ring.Rat
import Mathlib.Tactic.SplitIfs
import Agmem.Core.Dedup

/-! Vectors prepared for repeated comparison. Scaled to unit length, their cosine is a plain dot
product; a vector without a direction has none. The square root is taken from outside. -/

namespace Agmem.Core

/-- Whether two live memories are close enough to offer as the same claim. -/
def Thresholds.isClusterCandidate (bands : Thresholds) (similarity : ℚ) : Bool :=
  decide (bands.cluster ≤ similarity)

/-- Whether two live memories are close enough to be about one subject at all. -/
def Thresholds.isContradictionCandidate (bands : Thresholds) (similarity : ℚ) : Bool :=
  decide (bands.correctionFloor ≤ similarity)

/-- `dedup::Unit` -/
structure UnitVector where
  components : List ℚ

namespace UnitVector

def dot (v w : List ℚ) : ℚ := (List.zipWith (· * ·) v w).foldl (· + ·) 0

def new? (sqrt : ℚ → ℚ) (vector : List ℚ) : Option UnitVector :=
  let norm := sqrt (dot vector vector)
  if norm = 0 then none else some ⟨vector.map (· / norm)⟩

/-- Two vectors of different widths are reported as zero rather than refused. -/
def similarity (v w : UnitVector) : ℚ :=
  if v.components.length ≠ w.components.length then 0 else dot v.components w.components

theorem dot_comm (v w : List ℚ) : dot v w = dot w v := by
  rw [dot, dot, List.zipWith_comm]
  congr 2
  funext a b
  exact mul_comm b a

theorem similarity_comm (v w : UnitVector) : v.similarity w = w.similarity v := by
  by_cases h : v.components.length = w.components.length
  · simp [similarity, h, dot_comm v.components]
  · simp [similarity, h, Ne.symm h]

end UnitVector

end Agmem.Core
