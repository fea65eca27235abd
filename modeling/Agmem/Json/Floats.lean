import Agmem.Json.RoundTrip
import Mathlib.Algebra.Group.Nat.Defs
import Mathlib.Algebra.Group.Int.Defs

/-! A value that is held, not skipped: integers of 64 bits are kept as they are written, and every
other number becomes a float, which is printed in its own way and need not be the number that was
read. -/

namespace Agmem.Json

/-- An integer that `u64` or `i64` has room for; there is no negative zero among them. -/
def Number.isInteger (n : Number) : Bool :=
  match readMinus n.text with
  | (sign, magnitude) =>
    magnitude.all Char.isDigit &&
      if sign = [] then decide (Nat.ofDigitChars 10 magnitude 0 < 2 ^ 64)
      else decide (0 < Nat.ofDigitChars 10 magnitude 0 ∧
        Nat.ofDigitChars 10 magnitude 0 ≤ 2 ^ 63)

/-- How floats are read: the number that one is printed as, and none where it is out of range. -/
class Floats where
  read : Number → Option Number

section Held

variable [Floats]

def Number.held (n : Number) : Option Number := if n.isInteger then some n else Floats.read n

mutual

def held : Json → Option Json
  | .num n => n.held.map .num
  | .arr elements => (heldElements elements).map .arr
  | .obj members => (heldMembers members).map .obj
  | v => some v

def heldElements : List Json → Option (List Json)
  | [] => some []
  | v :: elements =>
    match held v, heldElements elements with
    | some v, some elements => some (v :: elements)
    | _, _ => none

def heldMembers : List (Chars × Json) → Option (List (Chars × Json))
  | [] => some []
  | (key, v) :: members =>
    match held v, heldMembers members with
    | some v, some members => some ((key, v) :: members)
    | _, _ => none

end

/-- `serde_json::from_str::<Value>` -/
def fromStr (text : Chars) : Option Json := (parse text).bind held

mutual

/-- No number of the value is changed by being read. -/
def Exact : Json → Prop
  | .num n => n.isInteger = true ∨ Floats.read n = some n
  | .arr elements => ExactElements elements
  | .obj members => ExactMembers members
  | _ => True

def ExactElements : List Json → Prop
  | [] => True
  | v :: elements => Exact v ∧ ExactElements elements

def ExactMembers : List (Chars × Json) → Prop
  | [] => True
  | (_, v) :: members => Exact v ∧ ExactMembers members

end

theorem Number.held_exact {n : Number} (h : n.isInteger = true ∨ Floats.read n = some n) :
    n.held = some n := by
  unfold Number.held
  split_ifs with hint
  · rfl
  · exact h.resolve_left hint

mutual

theorem held_exact : ∀ {v : Json}, Exact v → held v = some v
  | .num n, h => by
    rw [Exact] at h
    rw [held, n.held_exact h, Option.map_some]
  | .arr elements, h => by
    rw [Exact] at h
    rw [held, heldElements_exact h, Option.map_some]
  | .obj members, h => by
    rw [Exact] at h
    rw [held, heldMembers_exact h, Option.map_some]
  | .null, _ => rfl
  | .bool _, _ => rfl
  | .str _, _ => rfl

theorem heldElements_exact : ∀ {elements : List Json}, ExactElements elements →
    heldElements elements = some elements
  | [], _ => rfl
  | v :: elements, h => by
    rw [ExactElements] at h
    rw [heldElements, held_exact h.1, heldElements_exact h.2]

theorem heldMembers_exact : ∀ {members : List (Chars × Json)}, ExactMembers members →
    heldMembers members = some members
  | [], _ => rfl
  | (key, v) :: members, h => by
    rw [ExactMembers] at h
    rw [heldMembers, held_exact h.1, heldMembers_exact h.2]

end

/-- A value comes back from its text if its numbers do. -/
theorem fromStr_print {v : Json} {rest : Chars} (hdepth : depth v < RECURSION_LIMIT)
    (hexact : Exact v) (hs : skip rest = []) : fromStr (print v ++ rest) = some v := by
  rw [fromStr, parse_print hdepth hs, Option.bind_some, held_exact hexact]

end Held

end Agmem.Json
