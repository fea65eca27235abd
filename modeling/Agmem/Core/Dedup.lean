import Mathlib.Data.List.Basic
import Mathlib.Algebra.Order.Ring.Rat

/-! The two gates against storing a claim twice. The exact one is identity of content:
case and whitespace carry no meaning for "have I already stored this?", so a text is
folded before it is hashed, and lower-casing and the hash itself are the two primitives
taken from outside. The other one compares the cosine similarity of a neighbour with the
bands of the model that measured it. -/

namespace Agmem.Core

abbrev Text := List Char

instance : LawfulBEq Text := List.instLawfulBEq

/-- The code points with the Unicode property `White_Space`. -/
def isWhitespace (c : Char) : Bool :=
  (9 ≤ c.toNat && c.toNat ≤ 13) || c.toNat == 0x20 || c.toNat == 0x85 || c.toNat == 0xA0 ||
    c.toNat == 0x1680 || (0x2000 ≤ c.toNat && c.toNat ≤ 0x200A) || c.toNat == 0x2028 ||
    c.toNat == 0x2029 || c.toNat == 0x202F || c.toNat == 0x205F || c.toNat == 0x3000

/-- Close the word being read, if there is one. -/
def flush (word : Text) (words : List Text) : List Text :=
  if word.isEmpty then words else word :: words

def splitFrom (word : Text) : Text → List Text
  | [] => flush word []
  | c :: cs => if isWhitespace c then flush word (splitFrom [] cs) else splitFrom (word ++ [c]) cs

/-- The maximal runs of non-whitespace, in order. -/
def splitWhitespace (content : Text) : List Text := splitFrom [] content

/-- Unicode lower-casing and blake3 in hex. -/
class Hashing where
  toLowercase : Text → Text
  blake3 : Text → Text

variable [Hashing]

def normalize (content : Text) : Text :=
  Hashing.toLowercase (List.intercalate [Char.ofNat 0x20] (splitWhitespace content))

/-- The value behind the unique `(space, content_hash)` index. -/
def contentHash (content : Text) : Text := Hashing.blake3 (normalize content)

omit [Hashing]

/-- Cosine distance is 0 for identical vectors. -/
def similarityFromDistance (distance : ℚ) : ℚ := 1 - distance

/-- What a write adds over the nearest live neighbour. -/
def novelty (bestSimilarity : ℚ) : ℚ := max 0 (min (1 - bestSimilarity) 1)

/-- The cosine bands one embedding model's vectors are read against. -/
structure Thresholds where
  nearDup : ℚ
  correctionFloor : ℚ
  cluster : ℚ
  abstention : ℚ

def Thresholds.isNearDuplicate (bands : Thresholds) (similarity : ℚ) : Bool :=
  decide (bands.nearDup ≤ similarity)

def Thresholds.isCorrectionCandidate (bands : Thresholds) (similarity : ℚ) : Bool :=
  decide (bands.correctionFloor ≤ similarity) && decide (similarity < bands.nearDup)

/-- The bands of bge-small-en-v1.5. -/
def Thresholds.BGE_SMALL : Thresholds := ⟨95 / 100, 75 / 100, 90 / 100, 62 / 100⟩

end Agmem.Core
