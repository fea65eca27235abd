import Agmem.Core.Dedup
import Mathlib.Data.List.Basic

/-! Lower-casing a text. A character becomes one or more, by the table alone but for the capital
sigma, which is final where a letter stands before it and none after it; characters that casing
ignores are skipped both ways. A space ends that look-around, so texts on both sides of it are
lower-cased apart. -/

namespace Agmem.Core

/-- The tables of Unicode that lower-casing and splitting read, with the entries that the code
relies on. -/
structure Unicode where
  toLower : Char → Text
  isCased : Char → Bool
  isCaseIgnorable : Char → Bool
  isAlphanumeric : Char → Bool
  toLower_ne_nil : ∀ c, toLower c ≠ []
  toLower_sigma : toLower 'Σ' = ['σ']
  sigma_alphanumeric : isAlphanumeric 'σ' = true
  finalSigma_alphanumeric : isAlphanumeric 'ς' = true
  toLower_space : toLower ' ' = [' ']
  space_uncased : isCased ' ' = false
  space_heeded : isCaseIgnorable ' ' = false

namespace Unicode

variable (u : Unicode)

/-- Whether the first character that casing heeds is cased. -/
def caseIgnorableThenCased (text : Text) : Bool :=
  match text.dropWhile u.isCaseIgnorable with
  | [] => false
  | c :: _ => u.isCased c

/-- The small sigma between what was read, from the end, and what follows. -/
def mapUppercaseSigma (before after : Text) : Char :=
  if u.caseIgnorableThenCased before && !u.caseIgnorableThenCased after then 'ς' else 'σ'

/-- The text in lower case, after what was read, from the end. -/
def lowerFrom (before : Text) : Text → Text
  | [] => []
  | c :: cs =>
    (if c = 'Σ' then [u.mapUppercaseSigma before cs] else u.toLower c) ++ lowerFrom (c :: before) cs

/-- `str::to_lowercase` -/
def toLowercase (text : Text) : Text := u.lowerFrom [] text

variable {u} {c d : Char} {text before after : Text}

@[simp] theorem toLowercase_nil : u.toLowercase [] = [] := rfl

theorem lowerFrom_ne_nil (before : Text) (h : text ≠ []) : u.lowerFrom before text ≠ [] := by
  cases text with
  | nil => exact absurd rfl h
  | cons c cs =>
    rw [lowerFrom]
    split_ifs
    · exact List.cons_ne_nil _ _
    · exact fun hnil => u.toLower_ne_nil c (List.append_eq_nil_iff.mp hnil).1

/-- No character vanishes. -/
theorem toLowercase_ne_nil (h : text ≠ []) : u.toLowercase text ≠ [] := lowerFrom_ne_nil [] h

/-! ### Where a text may be cut -/

/-- The look-around ends at a space. -/
theorem caseIgnorableThenCased_space (before after : Text) :
    u.caseIgnorableThenCased (before ++ ' ' :: after) = u.caseIgnorableThenCased before := by
  unfold caseIgnorableThenCased
  induction before with
  | nil => simp [u.space_heeded, u.space_uncased]
  | cons c cs ih =>
    cases hc : u.isCaseIgnorable c with
    | true => simpa [hc] using ih
    | false => simp [hc]

theorem mapUppercaseSigma_behind (read before after : Text) :
    u.mapUppercaseSigma (read ++ ' ' :: before) after = u.mapUppercaseSigma read after := by
  simp only [mapUppercaseSigma, caseIgnorableThenCased_space]

theorem mapUppercaseSigma_ahead (before text after : Text) :
    u.mapUppercaseSigma before (text ++ ' ' :: after) = u.mapUppercaseSigma before text := by
  simp only [mapUppercaseSigma, caseIgnorableThenCased_space]

/-- What was read before a space does not matter behind it. -/
theorem lowerFrom_behind (read before text : Text) :
    u.lowerFrom (read ++ ' ' :: before) text = u.lowerFrom read text := by
  induction text generalizing read with
  | nil => rfl
  | cons c cs ih =>
    rw [lowerFrom, lowerFrom, mapUppercaseSigma_behind]
    exact congrArg _ (ih (c :: read))

theorem lowerFrom_space (read text after : Text) :
    u.lowerFrom read (text ++ ' ' :: after) =
      u.lowerFrom read text ++ ' ' :: u.toLowercase after := by
  induction text generalizing read with
  | nil =>
    have hspace : u.lowerFrom read (' ' :: after) = [' '] ++ u.lowerFrom (' ' :: read) after := by
      rw [lowerFrom, if_neg (by decide), u.toLower_space]
    exact hspace.trans (congrArg (' ' :: ·) (lowerFrom_behind [] read after))
  | cons c cs ih =>
    rw [List.cons_append, lowerFrom, lowerFrom, mapUppercaseSigma_ahead, ih, List.append_assoc]

/-- Both sides of a space are lower-cased apart. -/
theorem toLowercase_space (text after : Text) :
    u.toLowercase (text ++ ' ' :: after) = u.toLowercase text ++ ' ' :: u.toLowercase after :=
  lowerFrom_space [] text after

/-! ### What a text may turn into -/

/-- Each character of a text in lower case comes from one of the text. -/
theorem mem_lowerFrom (h : d ∈ u.lowerFrom before text) :
    ∃ c ∈ text, d ∈ u.toLower c ∨ c = 'Σ' ∧ d = 'ς' := by
  induction text generalizing before with
  | nil => exact absurd h List.not_mem_nil
  | cons c cs ih =>
    rw [lowerFrom] at h
    rcases List.mem_append.mp h with h | h
    · refine ⟨c, List.mem_cons_self, ?_⟩
      split_ifs at h with hc
      · have hd := List.mem_singleton.mp h
        unfold mapUppercaseSigma at hd
        split_ifs at hd
        · exact .inr ⟨hc, hd⟩
        · rw [hc, u.toLower_sigma, hd]
          exact .inl (List.mem_singleton_self _)
      · exact .inl h
    · obtain ⟨e, he, hd⟩ := ih h
      exact ⟨e, List.mem_cons_of_mem c he, hd⟩

theorem mem_lowerFrom_of_mem (hc : c ∈ text) (hsigma : c ≠ 'Σ') (hd : d ∈ u.toLower c)
    (before : Text) : d ∈ u.lowerFrom before text := by
  induction text generalizing before with
  | nil => exact absurd hc List.not_mem_nil
  | cons e es ih =>
    rw [lowerFrom]
    rcases List.mem_cons.mp hc with rfl | hc
    · rw [if_neg hsigma]
      exact List.mem_append_left _ hd
    · exact List.mem_append_right _ (ih hc (e :: before))

/-- A text stays alphanumeric exactly if each of its characters does. -/
theorem toLowercase_alphanumeric_iff (text : Text) :
    (∀ d ∈ u.toLowercase text, u.isAlphanumeric d = true) ↔
      ∀ c ∈ text, ∀ d ∈ u.toLower c, u.isAlphanumeric d = true := by
  constructor
  · intro h c hc d hd
    by_cases hsigma : c = 'Σ'
    · rw [hsigma, u.toLower_sigma] at hd
      rw [List.mem_singleton.mp hd]
      exact u.sigma_alphanumeric
    · exact h d (mem_lowerFrom_of_mem hc hsigma hd [])
  · intro h d hd
    obtain ⟨c, hc, hd | ⟨-, rfl⟩⟩ := mem_lowerFrom hd
    · exact h c hc d hd
    · exact u.finalSigma_alphanumeric

/-- A text that the tables leave alone. -/
theorem toLowercase_eq_self (h : ∀ c ∈ text, c ≠ 'Σ' ∧ u.toLower c = [c]) :
    u.toLowercase text = text := by
  have hfrom (before : Text) : u.lowerFrom before text = text := by
    induction text generalizing before with
    | nil => rfl
    | cons c cs ih =>
      obtain ⟨⟨hsigma, hc⟩, hcs⟩ := List.forall_mem_cons.mp h
      rw [lowerFrom, if_neg hsigma, hc, ih hcs]
      rfl
  exact hfrom []

/-! ### An excerpt of the tables -/

/-- The ASCII characters, the sigmas, and the dotted capital I with what it becomes. -/
def excerpt : Unicode where
  toLower c :=
    if c = 'Σ' then ['σ'] else if c = '\u0130' then ['i', '\u0307'] else [c.toLower]
  isCased c := c.isAlpha || ['Σ', 'σ', 'ς', '\u0130'].contains c
  isCaseIgnorable c := ['\'', '.', ':', '^', Char.ofNat 96, '\u0307'].contains c
  isAlphanumeric c := c.isAlphanum || ['Σ', 'σ', 'ς', '\u0130'].contains c
  toLower_ne_nil c := by split_ifs <;> exact List.cons_ne_nil _ _
  toLower_sigma := rfl
  sigma_alphanumeric := by decide
  finalSigma_alphanumeric := by decide
  toLower_space := by decide
  space_uncased := by decide
  space_heeded := by decide

/-- An ASCII capital becomes a small letter, and no other character changes. -/
theorem toLower_ascii (c : Char) : c.toLower = c ∧ ¬(65 ≤ c.toNat ∧ c.toNat ≤ 90) ∨
    c.toLower.toNat = c.toNat + 32 ∧ 65 ≤ c.toNat ∧ c.toNat ≤ 90 := by
  have hcapital : c.val ≥ 'A'.val ∧ c.val ≤ 'Z'.val ↔ 65 ≤ c.toNat ∧ c.toNat ≤ 90 := by
    simp only [ge_iff_le, UInt32.le_iff_toNat_le]
    exact Iff.rfl
  unfold Char.toLower
  split_ifs with h
  · obtain ⟨hlow, hhigh⟩ := hcapital.mp h
    refine .inr ⟨?_, hlow, hhigh⟩
    have hsum : (c.val + ('a'.val - 'A'.val)).toNat = (c.val.toNat + 32) % 2 ^ 32 :=
      UInt32.toNat_add ..
    have hval : c.val.toNat = c.toNat := rfl
    exact hsum.trans (Nat.mod_eq_of_lt (by omega))
  · exact .inl ⟨rfl, mt hcapital.mpr h⟩

/-- What the excerpt makes of a character, it leaves alone. -/
theorem excerpt_fixed (h : d ∈ excerpt.toLower c ∨ d = 'ς') :
    d ≠ 'Σ' ∧ excerpt.toLower d = [d] := by
  rcases h with h | rfl
  · simp only [excerpt] at h
    split_ifs at h with hsigma hdotted
    · rw [List.mem_singleton.mp h]
      decide
    · simp only [List.mem_cons, List.not_mem_nil, or_false] at h
      rcases h with rfl | rfl <;> decide
    · have hd := List.mem_singleton.mp h
      have hplain : d ≠ 'Σ' ∧ d ≠ '\u0130' ∧ d.toLower = d := by
        rcases toLower_ascii c with ⟨hsame, -⟩ | ⟨hlow, hcapital⟩
        · rw [hd, hsame]
          exact ⟨hsigma, hdotted, hsame⟩
        · rw [← hd] at hlow
          refine ⟨?_, ?_, ?_⟩
          · rintro rfl
            exact absurd hlow (by simp; omega)
          · rintro rfl
            exact absurd hlow (by simp; omega)
          · rcases toLower_ascii d with ⟨hsame, -⟩ | ⟨-, hagain⟩
            · exact hsame
            · omega
      refine ⟨hplain.1, ?_⟩
      simp only [excerpt]
      rw [if_neg hplain.1, if_neg hplain.2.1, hplain.2.2]
  · decide

theorem excerpt_idempotent (text : Text) :
    excerpt.toLowercase (excerpt.toLowercase text) = excerpt.toLowercase text := by
  refine toLowercase_eq_self fun d hd => ?_
  obtain ⟨c, -, h⟩ := mem_lowerFrom hd
  exact excerpt_fixed (h.imp id And.right)

/-- The excerpt makes whitespace of whitespace only. -/
theorem excerpt_run (h : ∀ c ∈ text, isWhitespace c = false) :
    ∀ d ∈ excerpt.toLowercase text, isWhitespace d = false := by
  intro d hd
  obtain ⟨c, hc, hmem | ⟨-, rfl⟩⟩ := mem_lowerFrom hd
  · have hplain := h c hc
    simp only [excerpt] at hmem
    split_ifs at hmem
    · rw [List.mem_singleton.mp hmem]
      decide
    · simp only [List.mem_cons, List.not_mem_nil, or_false] at hmem
      rcases hmem with rfl | rfl <;> decide
    · rw [List.mem_singleton.mp hmem]
      rcases toLower_ascii c with ⟨hsame, -⟩ | ⟨hlow, hcapital⟩
      · rwa [hsame]
      · unfold isWhitespace
        simp only [hlow, Bool.or_eq_false_iff, Bool.and_eq_false_iff, decide_eq_false_iff_not,
          beq_eq_false_iff_ne]
        omega
  · decide

end Unicode

end Agmem.Core
