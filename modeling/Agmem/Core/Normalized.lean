import Agmem.Core.Casing
import Agmem.Core.Pieces

/-! What identity depends on. A normalized text is its words in lower case with single spaces in
between, so the words in lower case can be read off it: the layout and the case of a text are lost
in it, and nothing else is. -/

namespace Agmem.Core

open Chunk

variable (u : Unicode) {words : List Text}

/-- Hashing with that lower-casing. -/
abbrev Unicode.hashing (blake3 : Text → Text) : Hashing := ⟨u.toLowercase, blake3⟩

/-- Words are lower-cased apart. -/
theorem toLowercase_intercalate (words : List Text) :
    u.toLowercase (List.intercalate [' '] words) =
      List.intercalate [' '] (words.map u.toLowercase) := by
  induction words with
  | nil => rfl
  | cons word words ih =>
    cases words with
    | nil => rw [List.intercalate_singleton, List.map_singleton, List.intercalate_singleton]
    | cons next rest =>
      rw [List.intercalate_cons_cons, List.append_assoc, List.singleton_append,
        Unicode.toLowercase_space, ih]
      simp only [List.map_cons, List.intercalate_cons_cons, List.append_assoc,
        List.singleton_append]

/-- Runs joined by spaces are the words of what they are joined to. -/
theorem split_intercalate_runs
    (h : ∀ word ∈ words, word ≠ [] ∧ ∀ c ∈ word, isWhitespace c = false) :
    splitWhitespace (List.intercalate [' '] words) = words := by
  rw [split_intercalate rfl (List.cons_ne_nil _ _)]
  induction words with
  | nil => rfl
  | cons word words ih =>
    obtain ⟨hword, hwords⟩ := List.forall_mem_cons.mp h
    rw [wordsOf_cons, split_run hword.1 hword.2, ih hwords, List.singleton_append]

variable {u} {blake3 : Text → Text}

theorem normalize_eq (text : Text) : @normalize (u.hashing blake3) text =
    List.intercalate [' '] ((splitWhitespace text).map u.toLowercase) :=
  toLowercase_intercalate u _

/-- The words of a normalized text are those of the text, in lower case. -/
theorem split_normalize
    (hrun : ∀ t : Text, (∀ c ∈ t, isWhitespace c = false) →
      ∀ c ∈ u.toLowercase t, isWhitespace c = false) (text : Text) :
    splitWhitespace (@normalize (u.hashing blake3) text) =
      (splitWhitespace text).map u.toLowercase := by
  rw [normalize_eq]
  refine split_intercalate_runs fun word hword => ?_
  obtain ⟨w, hw, rfl⟩ := List.mem_map.mp hword
  obtain ⟨hne, hplain⟩ := run_of_mem_split hw
  exact ⟨Unicode.toLowercase_ne_nil hne, hrun w hplain⟩

/-- Where lower-casing is idempotent and puts no whitespace into a run, normalizing is idempotent,
and two texts are normalized to the same exactly if they have the same words in lower case. -/
theorem normalize_identity (u : Unicode) (blake3 : Text → Text)
    (hidem : ∀ t, u.toLowercase (u.toLowercase t) = u.toLowercase t)
    (hrun : ∀ t : Text, (∀ c ∈ t, isWhitespace c = false) →
      ∀ c ∈ u.toLowercase t, isWhitespace c = false) :
    (∀ t, @normalize (u.hashing blake3) (@normalize (u.hashing blake3) t) =
        @normalize (u.hashing blake3) t) ∧
      ∀ s t, @normalize (u.hashing blake3) s = @normalize (u.hashing blake3) t ↔
        (splitWhitespace s).map u.toLowercase = (splitWhitespace t).map u.toLowercase := by
  refine ⟨fun t => ?_, fun s t => ⟨fun h => ?_, fun h => ?_⟩⟩
  · rw [normalize_eq, split_normalize hrun, List.map_map, normalize_eq]
    exact congrArg (List.intercalate [' ']) (List.map_congr_left fun word _ => hidem word)
  · rw [← @split_normalize u blake3 hrun, h, split_normalize hrun]
  · rw [normalize_eq, normalize_eq, h]

/-- The tables that are read here meet both conditions, so layout and case are lost. -/
theorem normalize_identity_sigma :
    @normalize (Unicode.excerpt.hashing id) [' ', 'A', 'Σ', '\t', ' ', 'B'] =
      @normalize (Unicode.excerpt.hashing id) ['a', 'ς', ' ', 'b', '\n'] :=
  ((normalize_identity Unicode.excerpt id Unicode.excerpt_idempotent
    fun _ => Unicode.excerpt_run).2 _ _).mpr (by decide)

end Agmem.Core
