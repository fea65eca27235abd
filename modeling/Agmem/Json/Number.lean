import Mathlib.Data.List.TakeWhile
import Mathlib.Tactic.Common

/-! The numbers of JSON, as they are written: a sign, digits, perhaps a fraction and an exponent.
The reader is local: what it has read it reads again with more text after it, unless that text goes
on with the number. -/

namespace Agmem.Json

abbrev Chars := List Char

/-- The digits that a text begins with, and what follows them. -/
def digits (text : Chars) : Chars × Chars :=
  (text.takeWhile Char.isDigit, text.dropWhile Char.isDigit)

/-- `0`, or digits that do not begin with it. -/
def readInt (text : Chars) : Option (Chars × Chars) :=
  if (digits text).1 = [] then none
  else if (digits text).1.head? = some '0' ∧ (digits text).1 ≠ ['0'] then none
  else some (digits text)

/-- A point and digits, if there is a point. -/
def readFraction : Chars → Option (Chars × Chars)
  | [] => some ([], [])
  | c :: text =>
    if c = '.' then
      if (digits text).1 = [] then none else some (c :: (digits text).1, (digits text).2)
    else some ([], c :: text)

def readSign : Chars → Chars × Chars
  | [] => ([], [])
  | c :: text => if c = '+' ∨ c = '-' then ([c], text) else ([], c :: text)

/-- An `e`, a sign and digits, if there is an `e`. -/
def readExponent : Chars → Option (Chars × Chars)
  | [] => some ([], [])
  | c :: text =>
    if c = 'e' ∨ c = 'E' then
      if (digits (readSign text).2).1 = [] then none
      else some (c :: (readSign text).1 ++ (digits (readSign text).2).1,
        (digits (readSign text).2).2)
    else some ([], c :: text)

def readMinus : Chars → Chars × Chars
  | [] => ([], [])
  | c :: text => if c = '-' then ([c], text) else ([], c :: text)

def readNumber (text : Chars) : Option (Chars × Chars) :=
  match readInt (readMinus text).2 with
  | none => none
  | some (int, text') =>
    match readFraction text' with
    | none => none
    | some (fraction, text') =>
      match readExponent text' with
      | none => none
      | some (exponent, text') => some ((readMinus text).1 ++ int ++ fraction ++ exponent, text')

/-! ### Locality -/

/-- The text does not go on with digits. -/
def NoDigit (text : Chars) : Prop := ∀ c, text.head? = some c → c.isDigit = false

/-- The text does not go on with a number. -/
def Stops (text : Chars) : Prop :=
  ∀ c, text.head? = some c → c.isDigit = false ∧ c ∉ ['.', 'e', 'E', '+', '-']

theorem Stops.noDigit {text : Chars} (h : Stops text) : NoDigit text := fun c hc => (h c hc).1

theorem stops_cons {c : Char} {text : Chars} (hd : c.isDigit = false)
    (hc : c ∉ ['.', 'e', 'E', '+', '-']) : Stops (c :: text) := by
  rintro d hd'
  cases hd'
  exact ⟨hd, hc⟩

variable {text rest : Chars}

theorem digits_append (h : NoDigit rest) (text : Chars) :
    digits (text ++ rest) = ((digits text).1, (digits text).2 ++ rest) := by
  induction text with
  | nil =>
    cases rest with
    | nil => rfl
    | cons c rest => simp [digits, h c rfl]
  | cons c text ih =>
    simp only [digits, Prod.mk.injEq] at ih ⊢
    cases hc : c.isDigit <;> simp [hc, ih]

theorem digits_eq (text : Chars) : (digits text).1 ++ (digits text).2 = text :=
  List.takeWhile_append_dropWhile

theorem isDigit_of_mem_digits {c : Char} (h : c ∈ (digits text).1) : c.isDigit = true :=
  List.mem_takeWhile_imp h

theorem digits_self (text : Chars) : digits (digits text).1 = ((digits text).1, []) := by
  have hall : ∀ c ∈ (digits text).1, c.isDigit = true := fun c => isDigit_of_mem_digits
  exact Prod.ext (List.takeWhile_eq_self_iff.mpr hall) (List.dropWhile_eq_nil_iff.mpr hall)

theorem readInt_append (h : NoDigit rest) {int after : Chars}
    (hr : readInt text = some (int, after)) :
    readInt (text ++ rest) = some (int, after ++ rest) := by
  unfold readInt at hr ⊢
  rw [digits_append h]
  split_ifs at hr ⊢ with hnil hzero
  cases hr
  rfl

theorem readInt_self {int after : Chars} (hr : readInt text = some (int, after)) :
    readInt int = some (int, []) := by
  unfold readInt at hr
  split_ifs at hr with hnil hzero
  have hint : int = (digits text).1 := congrArg Prod.fst (Option.some.inj hr).symm
  rw [hint, readInt, digits_self, if_neg hnil, if_neg hzero]

theorem readFraction_append (h : NoDigit rest) (hpoint : rest.head? ≠ some '.')
    {fraction after : Chars} (hr : readFraction text = some (fraction, after)) :
    readFraction (text ++ rest) = some (fraction, after ++ rest) := by
  cases text with
  | nil =>
    cases hr
    cases rest with
    | nil => rfl
    | cons c rest =>
      have hc : c ≠ '.' := fun hc => hpoint (by rw [hc]; rfl)
      simp [readFraction, hc]
  | cons c text =>
    rw [List.cons_append, readFraction]
    rw [readFraction] at hr
    rw [digits_append h]
    split_ifs at hr ⊢ with hc hnil
    · cases hr
      rfl
    · cases hr
      rfl

theorem readFraction_self {fraction after : Chars}
    (hr : readFraction text = some (fraction, after)) :
    readFraction fraction = some (fraction, []) ∧ NoDigit fraction := by
  cases text with
  | nil =>
    cases hr
    exact ⟨rfl, nofun⟩
  | cons c text =>
    rw [readFraction] at hr
    split_ifs at hr with hc hnil
    · cases hr
      constructor
      · rw [readFraction, if_pos hc, digits_self, if_neg hnil]
      · rintro d hd
        cases hd
        rw [hc]
        rfl
    · cases hr
      exact ⟨rfl, nofun⟩

theorem readSign_append (h : Stops rest) (text : Chars) :
    readSign (text ++ rest) = ((readSign text).1, (readSign text).2 ++ rest) := by
  cases text with
  | nil =>
    cases rest with
    | nil => rfl
    | cons c rest =>
      have hc := (h c rfl).2
      simp only [List.mem_cons, List.not_mem_nil, or_false, not_or] at hc
      simp [readSign, hc]
  | cons c text =>
    simp only [List.cons_append, readSign]
    split_ifs <;> rfl

theorem readExponent_append (h : Stops rest) {exponent after : Chars}
    (hr : readExponent text = some (exponent, after)) :
    readExponent (text ++ rest) = some (exponent, after ++ rest) := by
  cases text with
  | nil =>
    cases hr
    cases rest with
    | nil => rfl
    | cons c rest =>
      have hc := (h c rfl).2
      simp only [List.mem_cons, List.not_mem_nil, or_false, not_or] at hc
      simp [readExponent, hc]
  | cons c text =>
    rw [List.cons_append, readExponent, readSign_append h, digits_append h.noDigit]
    rw [readExponent] at hr
    split_ifs at hr ⊢ with hc hnil
    · cases hr
      rfl
    · cases hr
      rfl

/-- The digits of an exponent do not begin with a sign. -/
theorem readSign_digits (text : Chars) (h : (digits (readSign text).2).1 ≠ []) :
    readSign ((readSign text).1 ++ (digits (readSign text).2).1) =
      ((readSign text).1, (digits (readSign text).2).1) := by
  cases text with
  | nil => exact absurd rfl h
  | cons c text =>
    rw [readSign] at h ⊢
    split_ifs at h ⊢ with hc
    · rw [List.singleton_append, readSign, if_pos hc]
    · obtain ⟨d, ds, hds⟩ := List.exists_cons_of_ne_nil h
      have hd : d.isDigit = true := isDigit_of_mem_digits (hds ▸ List.mem_cons_self)
      dsimp only at hds ⊢
      rw [List.nil_append, hds, readSign, if_neg]
      rintro (rfl | rfl) <;> cases hd

theorem readExponent_self {exponent after : Chars}
    (hr : readExponent text = some (exponent, after)) :
    readExponent exponent = some (exponent, []) ∧ NoDigit exponent ∧ exponent.head? ≠ some '.' := by
  cases text with
  | nil =>
    cases hr
    exact ⟨rfl, nofun, nofun⟩
  | cons c text =>
    rw [readExponent] at hr
    split_ifs at hr with hc hnil
    · cases hr
      refine ⟨?_, fun d hd => ?_, fun hd => ?_⟩
      · rw [List.cons_append, readExponent, if_pos hc, readSign_digits text hnil, digits_self,
          if_neg hnil]
        rfl
      · cases hd
        rcases hc with rfl | rfl <;> rfl
      · cases hd
        rcases hc with hc | hc <;> cases hc
    · cases hr
      exact ⟨rfl, nofun, nofun⟩

theorem readMinus_append (text : Chars) (h : text ≠ [] ∨ rest.head? ≠ some '-') :
    readMinus (text ++ rest) = ((readMinus text).1, (readMinus text).2 ++ rest) := by
  cases text with
  | nil =>
    cases rest with
    | nil => rfl
    | cons c rest =>
      have hc : c ≠ '-' := fun hc => h.elim (fun h => h rfl) fun h => h (by rw [hc]; rfl)
      simp [readMinus, hc]
  | cons c text =>
    simp only [List.cons_append, readMinus]
    split_ifs <;> rfl

theorem readInt_head {int after : Chars} (hr : readInt text = some (int, after)) :
    ∃ c cs, int = c :: cs ∧ text.head? = some c ∧ c.isDigit = true := by
  unfold readInt at hr
  split_ifs at hr with hnil hzero
  have hint : int = (digits text).1 := congrArg Prod.fst (Option.some.inj hr).symm
  obtain ⟨c, cs, hcs⟩ := List.exists_cons_of_ne_nil hnil
  refine ⟨c, cs, hint.trans hcs, ?_, isDigit_of_mem_digits (hcs ▸ List.mem_cons_self)⟩
  rw [← digits_eq text, hcs]
  rfl

/-- The sign of a number is read off it again. -/
theorem readMinus_self {int after : Chars} (hr : readInt (readMinus text).2 = some (int, after))
    (more : Chars) : readMinus ((readMinus text).1 ++ int ++ more) =
      ((readMinus text).1, int ++ more) := by
  obtain ⟨c, cs, rfl, -, hc⟩ := readInt_head hr
  have hplain : readMinus (c :: cs ++ more) = ([], c :: cs ++ more) := by
    rw [List.cons_append, readMinus, if_neg]
    rintro rfl
    cases hc
  cases text with
  | nil => exact hplain
  | cons d text =>
    rw [readMinus]
    split_ifs with hd
    · rw [List.append_assoc, List.singleton_append, readMinus, if_pos hd]
    · exact hplain

/-- The parts that a number is read in. -/
theorem readNumber_eq_some {number after : Chars} : readNumber text = some (number, after) ↔
    ∃ int fraction exponent, readInt (readMinus text).2 = some int ∧
      readFraction int.2 = some fraction ∧ readExponent fraction.2 = some exponent ∧
      (readMinus text).1 ++ int.1 ++ fraction.1 ++ exponent.1 = number ∧ exponent.2 = after := by
  constructor
  · intro h
    unfold readNumber at h
    split at h
    · cases h
    · next hint =>
      split at h
      · cases h
      · next hfraction =>
        split at h
        · cases h
        · next hexponent =>
          cases h
          exact ⟨_, _, _, hint, hfraction, hexponent, rfl, rfl⟩
  · rintro ⟨int, fraction, exponent, hint, hfraction, hexponent, rfl, rfl⟩
    simp only [readNumber, hint, hfraction, hexponent]

/-- A number is read as itself where nothing goes on with it. -/
theorem readNumber_append (h : Stops rest) {number after : Chars}
    (hr : readNumber text = some (number, after)) :
    readNumber (text ++ rest) = some (number, after ++ rest) := by
  have hminus : rest.head? ≠ some '-' := fun hc => (h _ hc).2 (by decide)
  have hpoint : rest.head? ≠ some '.' := fun hc => (h _ hc).2 (by decide)
  obtain ⟨int, fraction, exponent, hint, hfraction, hexponent, hnumber, hafter⟩ :=
    readNumber_eq_some.mp hr
  rw [readNumber_eq_some, readMinus_append text (.inr hminus)]
  exact ⟨_, _, _, readInt_append h.noDigit hint, readFraction_append h.noDigit hpoint hfraction,
    readExponent_append h hexponent, hnumber, congrArg (· ++ rest) hafter⟩

/-- What is read as a number is one. -/
theorem readNumber_self {number after : Chars} (hr : readNumber text = some (number, after)) :
    readNumber number = some (number, []) := by
  obtain ⟨int, fraction, exponent, hint, hfraction, hexponent, rfl, -⟩ := readNumber_eq_some.mp hr
  obtain ⟨hexponent', hdigit', hpoint'⟩ := readExponent_self hexponent
  obtain ⟨hfraction', hdigit⟩ := readFraction_self hfraction
  have hint' := readInt_self hint
  have hafter : NoDigit (fraction.1 ++ exponent.1) := by
    intro c hc
    cases hf : fraction.1 with
    | nil => exact hdigit' c (by simpa [hf] using hc)
    | cons d ds => exact hdigit c (by simpa [hf] using hc)
  have htail := readInt_append hafter hint'
  have hpart := readFraction_append hdigit' hpoint' hfraction'
  rw [List.append_assoc]
  refine readNumber_eq_some.mpr ⟨(int.1, fraction.1 ++ exponent.1), (fraction.1, exponent.1),
    (exponent.1, []), ?_, hpart, hexponent', ?_, rfl⟩
  · rw [readMinus_self hint]
    exact htail
  · rw [readMinus_self hint, List.append_assoc]

/-- A number as it is written. -/
structure Number where
  text : Chars
  reads : readNumber text = some (text, [])
deriving DecidableEq

end Agmem.Json
