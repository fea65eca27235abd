import Agmem.Core.Model
import Mathlib.Data.List.Induction

/-! Record ids as texts: 26 digits or upper-case letters. The store counts its records,
and a text stands for the number it writes in base 36; no two texts write the same one. -/

namespace Agmem.Core

def ULID_LEN : ℕ := 26

def isUlidChar (c : Char) : Bool :=
  (0x30 ≤ c.toNat && c.toNat ≤ 0x39) || (0x41 ≤ c.toNat && c.toNat ≤ 0x5A)

/-- ULIDs are 26 characters of uppercase Crockford base32. -/
def isUlid (candidate : Text) : Bool :=
  decide (candidate.length = ULID_LEN) && candidate.all isUlidChar

structure Ulid where
  text : Text
  ulid : isUlid text = true
deriving DecidableEq

def Ulid.new? (text : Text) : Option Ulid :=
  if h : isUlid text = true then some ⟨text, h⟩ else none

/-- The digits first, then the letters. -/
def ulidDigit (c : Char) : ℕ := if c.toNat ≤ 0x39 then c.toNat - 0x30 else c.toNat - 0x37

def Ulid.number (id : Ulid) : ℕ := id.text.foldl (fun n c => 36 * n + ulidDigit c) 0

theorem ulidDigit_lt {c : Char} (h : isUlidChar c = true) : ulidDigit c < 36 := by
  simp only [isUlidChar, Bool.or_eq_true, Bool.and_eq_true, decide_eq_true_eq] at h
  unfold ulidDigit
  split_ifs <;> omega

theorem ulidDigit_inj {c d : Char} (hc : isUlidChar c = true) (hd : isUlidChar d = true)
    (h : ulidDigit c = ulidDigit d) : c = d := by
  simp only [isUlidChar, Bool.or_eq_true, Bool.and_eq_true, decide_eq_true_eq] at hc hd
  have hn : c.toNat = d.toNat := by
    unfold ulidDigit at h
    split_ifs at h <;> omega
  exact Char.toNat_inj.mp hn

/-- Digits of one length that write one number are the same digits. -/
theorem foldl_ulidDigit_inj {s t : Text} (hlen : s.length = t.length) (hs : s.all isUlidChar = true)
    (ht : t.all isUlidChar = true) {m n : ℕ}
    (h : s.foldl (fun n c => 36 * n + ulidDigit c) m =
      t.foldl (fun n c => 36 * n + ulidDigit c) n) :
    m = n ∧ s = t := by
  induction s generalizing t m n with
  | nil =>
    cases t with
    | nil => exact ⟨h, rfl⟩
    | cons d t => simp at hlen
  | cons c s ih =>
    cases t with
    | nil => simp at hlen
    | cons d t =>
      simp only [List.length_cons, Nat.add_right_cancel_iff] at hlen
      simp only [List.all_cons, Bool.and_eq_true] at hs ht
      obtain ⟨hmn, rfl⟩ := ih hlen hs.2 ht.2 h
      have hmn : 36 * m + ulidDigit c = 36 * n + ulidDigit d := hmn
      have hc := ulidDigit_lt hs.1
      have hd := ulidDigit_lt ht.1
      have hdigit : ulidDigit c = ulidDigit d := by omega
      exact ⟨by omega, by rw [ulidDigit_inj hs.1 ht.1 hdigit]⟩

theorem Ulid.number_inj {a b : Ulid} (h : a.number = b.number) : a = b := by
  obtain ⟨s, hs⟩ := a
  obtain ⟨t, ht⟩ := b
  have hs' := Bool.and_eq_true_iff.mp hs
  have ht' := Bool.and_eq_true_iff.mp ht
  have hlen : s.length = t.length :=
    (of_decide_eq_true hs'.1).trans (of_decide_eq_true ht'.1).symm
  obtain ⟨-, rfl⟩ := foldl_ulidDigit_inj hlen hs'.2 ht'.2 h
  rfl

/-! ### Ids as they are written -/

def ulidChar (digit : ℕ) : Char :=
  if digit < 10 then Char.ofNat (0x30 + digit) else Char.ofNat (0x37 + digit)

/-- The last digits of a number, as many as there is room for. -/
def ulidDigits : ℕ → ℕ → Text
  | 0, _ => []
  | width + 1, n => ulidDigits width (n / 36) ++ [ulidChar (n % 36)]

def ulidText (n : ℕ) : Text := ulidDigits ULID_LEN n

@[simp] theorem length_ulidDigits (width n : ℕ) : (ulidDigits width n).length = width := by
  induction width generalizing n with
  | zero => rfl
  | succ width ih => rw [ulidDigits, List.length_append, ih, List.length_singleton]

theorem ulidChar_ulidDigit {c : Char} (h : isUlidChar c = true) : ulidChar (ulidDigit c) = c := by
  simp only [isUlidChar, Bool.or_eq_true, Bool.and_eq_true, decide_eq_true_eq] at h
  unfold ulidChar ulidDigit
  have hnat : Char.ofNat c.toNat = c := Char.ofNat_toNat c
  split_ifs with hc hd hd
  · rwa [show 0x30 + (c.toNat - 0x30) = c.toNat by omega]
  · omega
  · omega
  · rwa [show 0x37 + (c.toNat - 0x37) = c.toNat by omega]

theorem ulidDigits_foldl {text : Text} (h : text.all isUlidChar = true) :
    ulidDigits text.length (text.foldl (fun n c => 36 * n + ulidDigit c) 0) = text := by
  induction text using List.reverseRecOn with
  | nil => rfl
  | append_singleton text c ih =>
    rw [List.all_append, List.all_cons, List.all_nil, Bool.and_true, Bool.and_eq_true] at h
    have hlt := ulidDigit_lt h.2
    rw [List.foldl_append, List.foldl_cons, List.foldl_nil, List.length_append,
      List.length_singleton, ulidDigits, Nat.mul_add_div (by decide), Nat.div_eq_of_lt hlt,
      Nat.add_zero, ih h.1, Nat.mul_add_mod, Nat.mod_eq_of_lt hlt, ulidChar_ulidDigit h.2]

/-- The number of an id is written as the id. -/
theorem ulidText_number (id : Ulid) : ulidText id.number = id.text := by
  obtain ⟨text, h⟩ := id
  obtain ⟨hlen, hall⟩ := Bool.and_eq_true_iff.mp h
  rw [ulidText, ← of_decide_eq_true hlen]
  exact ulidDigits_foldl hall

/-- An id has no whitespace in it. -/
theorem not_isWhitespace_of_isUlidChar {c : Char} (h : isUlidChar c = true) :
    isWhitespace c = false := by
  simp only [isUlidChar, Bool.or_eq_true, Bool.and_eq_true, decide_eq_true_eq] at h
  simp only [isWhitespace, Bool.or_eq_false_iff, Bool.and_eq_false_iff, decide_eq_false_iff_not,
    beq_eq_false_iff_ne]
  omega

end Agmem.Core
