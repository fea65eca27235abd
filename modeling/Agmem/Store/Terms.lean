import Agmem.Core.Casing
import Agmem.Ranking.Stable
import Agmem.Store.Search

/-! The words a fulltext arm searches for: the first twelve that differ, in lower case and in the
order of the query. The query is split before it is lower-cased, so a word is one token for the
engine only where lower-casing makes letters and digits of its letters and digits. -/

namespace Agmem.Store

open Core Ranking

/-- Letters and digits, and lower-casing, by the tables. -/
def alphabetOf (u : Unicode) : Alphabet := ⟨u.isAlphanumeric, u.toLowercase⟩

variable (u : Unicode)

/-- The runs of letters and digits of a query. -/
def tokens (text : Text) : List Text :=
  (text.splitOnP fun c => !u.isAlphanumeric c).filter fun token => decide (token ≠ [])

/-- What the query says, word by word, in lower case. -/
def spoken (text : Text) : List Text := (tokens u text).map u.toLowercase

/-- Some character of the token has more than letters and digits in lower case. -/
def Breaks (token : Text) : Prop := ∃ c ∈ token, ∃ d ∈ u.toLower c, u.isAlphanumeric d = false

/-- What can be searched for: few terms that differ, each one run of letters and digits, in the
order in which the query says them first. -/
structure Searchable (text : Text) (terms : List Text) : Prop where
  few : terms.length ≤ MAX_TERMS
  distinct : terms.Nodup
  nonempty : ∀ term ∈ terms, term ≠ []
  alphanumeric : ∀ term ∈ terms, ∀ c ∈ term, u.isAlphanumeric c = true
  said : ∀ term ∈ terms, term ∈ spoken u text
  ordered : terms.Pairwise fun s t => (spoken u text).idxOf s < (spoken u text).idxOf t

variable {u} {text : Text}

/-- What is kept of the words so far is their first occurrences. -/
theorem eraseDups_concat (words : List Text) (term : Text) :
    (if term ∈ words.eraseDups then words.eraseDups else words.eraseDups ++ [term]) =
      (words ++ [term]).eraseDups := by
  simp only [List.mem_eraseDups]
  split_ifs with h
  · exact (Stable.eraseDups_concat_of_mem h).symm
  · exact (Stable.eraseDups_concat_of_not_mem h).symm

theorem length_eraseDups_concat_le (words : List Text) (term : Text) :
    (words ++ [term]).eraseDups.length ≤ words.eraseDups.length + 1 := by
  rw [← eraseDups_concat]
  split_ifs
  · exact Nat.le_succ _
  · rw [List.length_append, List.length_singleton]

theorem eraseDups_start (words more : List Text) :
    words.eraseDups <+: (words ++ more).eraseDups := by
  rw [List.eraseDups_append]
  exact List.prefix_append _ _

theorem termsFrom_eq {words : List Text} (h : words.eraseDups.length < MAX_TERMS)
    (pieces : List Text) : termsFrom (alphabetOf u) words.eraseDups pieces =
      ((words ++ (pieces.filter fun token => decide (token ≠ [])).map
        u.toLowercase).eraseDups).take MAX_TERMS := by
  induction pieces generalizing words with
  | nil =>
    rw [termsFrom, List.filter_nil, List.map_nil, List.append_nil,
      List.take_of_length_le h.le]
  | cons token pieces ih =>
    rw [termsFrom]
    by_cases hempty : token = []
    · rw [if_pos hempty, ih h, List.filter_cons_of_neg (by simpa using hempty)]
    · rw [if_neg hempty, List.filter_cons_of_pos (by simpa using hempty), List.map_cons]
      dsimp only [alphabetOf]
      rw [List.append_cons words, eraseDups_concat]
      have hlength := length_eraseDups_concat_le words (u.toLowercase token)
      split_ifs with hfull
      · have hstart := eraseDups_start (words ++ [u.toLowercase token])
          ((pieces.filter fun token => decide (token ≠ [])).map u.toLowercase)
        rw [← hfull]
        exact List.prefix_iff_eq_take.mp hstart
      · exact ih (by omega)

/-- The terms are the first twelve of the words that differ. -/
theorem terms_eq (u : Unicode) (text : Text) :
    terms (alphabetOf u) text = (spoken u text).eraseDups.take MAX_TERMS :=
  @termsFrom_eq u [] (by decide) _

theorem tokens_ne_nil {token : Text} (h : token ∈ tokens u text) : token ≠ [] :=
  of_decide_eq_true (List.mem_filter.mp h).2

theorem breaks_iff {token : Text} :
    Breaks u token ↔ ¬∀ c ∈ u.toLowercase token, u.isAlphanumeric c = true := by
  rw [Unicode.toLowercase_alphanumeric_iff]
  simp [Breaks]

/-- Where a word comes among the terms: behind the words that differ before it. -/
theorem mem_terms_of_few {before after : List Text} {token : Text}
    (h : tokens u text = before ++ token :: after)
    (hfew : (before.map u.toLowercase).eraseDups.length < MAX_TERMS) :
    u.toLowercase token ∈ terms (alphabetOf u) text := by
  have hspoken : spoken u text =
      (before.map u.toLowercase ++ [u.toLowercase token]) ++ after.map u.toLowercase := by
    simp [spoken, h]
  have hstart := eraseDups_start (before.map u.toLowercase ++ [u.toLowercase token])
    (after.map u.toLowercase)
  have hmem : u.toLowercase token ∈
      (before.map u.toLowercase ++ [u.toLowercase token]).eraseDups := by
    simp
  have hlength := (length_eraseDups_concat_le (before.map u.toLowercase)
    (u.toLowercase token)).trans hfew
  rw [terms_eq, hspoken]
  exact (List.prefix_take_iff.mpr ⟨hstart, hlength⟩).subset hmem

/-- A term is a word that is said while fewer than twelve words that differ were said. -/
theorem few_of_mem_terms {term : Text} (h : term ∈ terms (alphabetOf u) text) :
    ∃ before token after, tokens u text = before ++ token :: after ∧ u.toLowercase token = term ∧
      (before.map u.toLowercase).eraseDups.length < MAX_TERMS := by
  rw [terms_eq] at h
  have hsaid : term ∈ spoken u text := List.mem_eraseDups.mp (List.mem_of_mem_take h)
  obtain ⟨words, more, hwords, hfirst⟩ := List.eq_append_cons_of_mem hsaid
  obtain ⟨before, rest, hsplit, rfl, hrest⟩ := List.map_eq_append_iff.mp hwords
  obtain ⟨token, after, rfl, hterm, -⟩ := List.map_eq_cons_iff.mp hrest
  refine ⟨before, token, after, hsplit, hterm, ?_⟩
  by_contra hmany
  -- twelve words that differ stand before it, so the cut leaves no room for it
  have hstart := eraseDups_start (before.map u.toLowercase) (term :: more)
  rw [← hwords, List.prefix_iff_eq_take] at hstart
  have hearly : term ∈ (before.map u.toLowercase).eraseDups := by
    rw [hstart]
    exact (List.take_subset_take_left _ (not_lt.mp hmany)) h
  exact hfirst (List.mem_eraseDups.mp hearly)

/-- The terms of a query can be searched for exactly if its words stay letters and digits in lower
case, up to the place where twelve words that differ were said. -/
theorem terms_searchable_iff (u : Unicode) (text : Text) :
    Searchable u text (terms (alphabetOf u) text) ↔
      ∀ before token after, tokens u text = before ++ token :: after → Breaks u token →
        MAX_TERMS ≤ (before.map u.toLowercase).eraseDups.length := by
  have hsub : (terms (alphabetOf u) text).Sublist (spoken u text).eraseDups := by
    rw [terms_eq]
    exact List.take_sublist _ _
  constructor
  · intro h before token after hsplit hbreaks
    by_contra hfew
    exact breaks_iff.mp hbreaks (h.alphanumeric _ (mem_terms_of_few hsplit (not_le.mp hfew)))
  · intro h
    refine ⟨?_, (Stable.nodup_eraseDups _).sublist hsub, fun term hterm => ?_, fun term hterm => ?_,
      fun term hterm => List.mem_eraseDups.mp (hsub.subset hterm),
      (Stable.pairwise_eraseDups _).sublist hsub⟩
    · rw [terms_eq]
      exact List.length_take_le _ _
    · obtain ⟨before, token, after, hsplit, rfl, -⟩ := few_of_mem_terms hterm
      have hmem : token ∈ tokens u text := by
        rw [hsplit]
        exact List.mem_append_right before List.mem_cons_self
      exact Unicode.toLowercase_ne_nil (tokens_ne_nil hmem)
    · obtain ⟨before, token, after, hsplit, rfl, hfew⟩ := few_of_mem_terms hterm
      by_contra hbreaks
      exact absurd hfew (not_lt.mpr (h before token after hsplit (breaks_iff.mpr hbreaks)))

/-- The dotted capital I is a letter, and a letter and a combining dot in lower case. -/
theorem dotted_breaks :
    ¬ Searchable Unicode.excerpt ['\u0130'] (terms (alphabetOf Unicode.excerpt) ['\u0130']) := by
  intro h
  exact absurd (h.alphanumeric ['i', '\u0307'] (by decide) '\u0307' (by decide)) (by decide)

end Agmem.Store
