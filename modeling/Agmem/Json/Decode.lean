import Agmem.Json.RoundTrip
import Mathlib.Algebra.Group.Nat.Defs
import Mathlib.Algebra.Group.Int.Defs
import Mathlib.Data.List.Basic

/-! Values as the types of a program: natural numbers in decimals, the fields of a structure, and
the look into a value whose shape is not known. -/

namespace Agmem.Json

/-! ### Natural numbers -/

theorem toDigits_head (n : ℕ) : ∃ c cs, Nat.toDigits 10 n = c :: cs ∧ (c = '0' → n = 0) := by
  induction n using Nat.strong_induction_on with
  | _ n ih =>
    by_cases h : n < 10
    · refine ⟨n.digitChar, [], Nat.toDigits_of_lt_base h, ?_⟩
      have hdigit : ∀ n < 10, n.digitChar = '0' → n = 0 := by decide
      exact hdigit n h
    · obtain ⟨c, cs, hcs, hc⟩ := ih (n / 10) (by omega)
      refine ⟨c, cs ++ [(n % 10).digitChar], ?_, fun h0 => ?_⟩
      · rw [Nat.toDigits_of_base_le (by omega) (by omega), hcs, List.cons_append]
      · have := hc h0
        omega

theorem digits_toDigits (n : ℕ) : digits (Nat.toDigits 10 n) = (Nat.toDigits 10 n, []) := by
  have hall : ∀ c ∈ Nat.toDigits 10 n, c.isDigit = true := fun c hc =>
    Nat.isDigit_of_mem_toDigits (by omega) (by omega) hc
  exact Prod.ext (List.takeWhile_eq_self_iff.mpr hall) (List.dropWhile_eq_nil_iff.mpr hall)

theorem readNumber_toDigits (n : ℕ) :
    readNumber (Nat.toDigits 10 n) = some (Nat.toDigits 10 n, []) := by
  obtain ⟨c, cs, hcs, hzero⟩ := toDigits_head n
  have hc : c.isDigit = true :=
    Nat.isDigit_of_mem_toDigits (by omega) (by omega) (hcs ▸ List.mem_cons_self)
  have hminus : readMinus (Nat.toDigits 10 n) = ([], Nat.toDigits 10 n) := by
    rw [hcs, readMinus, if_neg]
    rintro rfl
    cases hc
  have hint : readInt (Nat.toDigits 10 n) = some (Nat.toDigits 10 n, []) := by
    unfold readInt
    rw [digits_toDigits, if_neg (by simp [hcs]), if_neg]
    rintro ⟨hhead, hne⟩
    rw [hcs] at hhead
    have hn : n = 0 := hzero (Option.some.inj hhead)
    subst hn
    exact hne rfl
  rw [readNumber, hminus]
  dsimp only
  rw [hint]
  simp [readFraction, readExponent]

def Number.ofNat (n : ℕ) : Number := ⟨Nat.toDigits 10 n, readNumber_toDigits n⟩

/-- An integer without a sign. -/
def Number.nat? (n : Number) : Option ℕ :=
  if n.text.all Char.isDigit then some (Nat.ofDigitChars 10 n.text 0) else none

theorem Number.nat?_ofNat (n : ℕ) : (Number.ofNat n).nat? = some n := by
  have hall : (Nat.toDigits 10 n).all Char.isDigit = true := List.all_eq_true.mpr fun c hc =>
    Nat.isDigit_of_mem_toDigits (by omega) (by omega) hc
  rw [Number.nat?, Number.ofNat, if_pos hall, Nat.ofDigitChars_ten_toDigits]

/-- An unsigned integer of the given width. -/
def uint? (bits : ℕ) : Json → Option ℕ
  | .num n => n.nat?.filter fun k => decide (k < 2 ^ bits)
  | _ => none

theorem uint?_ofNat {bits n : ℕ} (h : n < 2 ^ bits) : uint? bits (.num (.ofNat n)) = some n := by
  simp [uint?, Number.nat?_ofNat, h]

/-- `as_i64` -/
def int? : Json → Option ℤ
  | .num n =>
    match readMinus n.text with
    | (sign, magnitude) =>
      if magnitude.all Char.isDigit then
        (some (if sign = [] then (Nat.ofDigitChars 10 magnitude 0 : ℤ)
          else -(Nat.ofDigitChars 10 magnitude 0 : ℤ))).filter fun k =>
            decide (-2 ^ 63 ≤ k ∧ k < 2 ^ 63)
      else none
  | _ => none

/-! ### Looking into a value -/

/-- A member of an object; of several with one key the last counts. -/
def get (key : Chars) : Json → Option Json
  | .obj members => (members.reverse.find? fun member => decide (member.1 = key)).map Prod.snd
  | _ => none

def str? : Json → Option Chars
  | .str text => some text
  | _ => none

def bool? : Json → Option Bool
  | .bool b => some b
  | _ => none

def array? : Json → Option (List Json)
  | .arr elements => some elements
  | _ => none

/-! ### The fields of a structure -/

/-- What is read of one field: it may be missing, but not stand there twice. -/
def field (key : Chars) (members : List (Chars × Json)) : Option (Option Json) :=
  match members.filter fun member => decide (member.1 = key) with
  | [] => some none
  | [member] => some (some member.2)
  | _ :: _ :: _ => none

/-- A field that must be there. -/
def required {α : Type*} (read : Json → Option α) (key : Chars) (members : List (Chars × Json)) :
    Option α :=
  match field key members with
  | some (some v) => read v
  | _ => none

/-- A field that has a default. -/
def withDefault {α : Type*} (read : Json → Option α) (default : α) (key : Chars)
    (members : List (Chars × Json)) : Option α :=
  match field key members with
  | none => none
  | some none => some default
  | some (some v) => read v

section Fields

variable {α : Type*} {read : Json → Option α} {default : α} {key : Chars} {v : Json}
  {members : List (Chars × Json)}

theorem field_of_mem (hnodup : (members.map Prod.fst).Nodup) (h : (key, v) ∈ members) :
    field key members = some (some v) := by
  have hfilter : (members.filter fun member => decide (member.1 = key)) = [(key, v)] := by
    induction members with
    | nil => cases h
    | cons member members ih =>
      obtain ⟨hfresh, hnodup⟩ := List.nodup_cons.mp hnodup
      rcases List.mem_cons.mp h with rfl | h
      · have hnone : (members.filter fun member => decide (member.1 = key)) = [] := by
          refine List.filter_eq_nil_iff.mpr fun other hother heq => hfresh ?_
          exact List.mem_map.mpr ⟨other, hother, of_decide_eq_true heq⟩
        rw [List.filter_cons_of_pos (by simp), hnone]
      · have hne : member.1 ≠ key := fun heq =>
          hfresh (heq ▸ List.mem_map.mpr ⟨(key, v), h, rfl⟩)
        rw [List.filter_cons_of_neg (by simp [hne]), ih hnodup h]
  rw [field, hfilter]

theorem field_of_notMem (h : key ∉ members.map Prod.fst) : field key members = some none := by
  have hfilter : (members.filter fun member => decide (member.1 = key)) = [] := by
    refine List.filter_eq_nil_iff.mpr fun other hother heq => h ?_
    exact List.mem_map.mpr ⟨other, hother, of_decide_eq_true heq⟩
  rw [field, hfilter]

theorem required_of_mem (hnodup : (members.map Prod.fst).Nodup) (h : (key, v) ∈ members) :
    required read key members = read v := by
  rw [required, field_of_mem hnodup h]

theorem withDefault_of_mem (hnodup : (members.map Prod.fst).Nodup) (h : (key, v) ∈ members) :
    withDefault read default key members = read v := by
  rw [withDefault, field_of_mem hnodup h]

theorem withDefault_of_notMem (h : key ∉ members.map Prod.fst) :
    withDefault read default key members = some default := by
  rw [withDefault, field_of_notMem h]

end Fields

end Agmem.Json
