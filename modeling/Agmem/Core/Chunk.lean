import Agmem.Core.Dedup

/-! Cutting verbatim text into retrieval-sized pieces: at paragraphs first, at sentences
where a paragraph is too long, and at words where a sentence is. Offsets count
characters. -/

namespace Agmem.Core

/-- `str::trim` -/
def trim (text : Text) : Text :=
  ((text.dropWhile isWhitespace).reverse.dropWhile isWhitespace).reverse

/-- No whitespace at either end. -/
structure Trimmed (text : Text) : Prop where
  head : ∀ c, text.head? = some c → isWhitespace c = false
  last : ∀ c, text.getLast? = some c → isWhitespace c = false

theorem dropWhile_of_head {p : Char → Bool} {text : Text}
    (h : ∀ c, text.head? = some c → p c = false) : text.dropWhile p = text := by
  cases text with
  | nil => rfl
  | cons c cs => simp [h c rfl]

theorem trim_of_trimmed {text : Text} (h : Trimmed text) : trim text = text := by
  have hlast : ∀ c, text.reverse.head? = some c → isWhitespace c = false :=
    fun c hc => h.last c (by simpa using hc)
  rw [trim, dropWhile_of_head h.head, dropWhile_of_head hlast, List.reverse_reverse]

theorem trim_trimmed (text : Text) : Trimmed (trim text) := by
  have hfirst (t : Text) :
      ∀ c, (t.dropWhile isWhitespace).head? = some c → isWhitespace c = false := by
    intro c hc
    have := List.head?_dropWhile_not isWhitespace t
    simpa [hc] using this
  refine ⟨fun c hc => ?_, fun c hc => ?_⟩
  · -- what the second cut leaves starts where the first cut stopped
    obtain ⟨cut, hcut⟩ := List.dropWhile_suffix (l := (text.dropWhile isWhitespace).reverse)
      isWhitespace
    have hpre : text.dropWhile isWhitespace = trim text ++ cut.reverse := by
      have := congrArg List.reverse hcut
      simpa [trim] using this.symm
    apply hfirst text
    rw [hpre, List.head?_append, hc]
    rfl
  · rw [trim, List.getLast?_reverse] at hc
    exact hfirst _ c hc

/-- Whitespace around a text is trimmed away. -/
theorem trim_surrounded {before text after : Text} (hb : before.all isWhitespace = true)
    (ha : after.all isWhitespace = true) (h : Trimmed text) (hne : text ≠ []) :
    trim (before ++ text ++ after) = text := by
  obtain ⟨c, cs, rfl⟩ := List.exists_cons_of_ne_nil hne
  have hc : isWhitespace c = false := h.head c rfl
  have hfront : (before ++ (c :: cs) ++ after).dropWhile isWhitespace = (c :: cs) ++ after := by
    rw [List.append_assoc, List.dropWhile_append_of_pos (List.all_eq_true.mp hb)]
    simp [hc]
  have hback : after.reverse.all isWhitespace = true := by simpa using ha
  have hlast : ∀ d, (c :: cs).reverse.head? = some d → isWhitespace d = false :=
    fun d hd => h.last d (by rwa [List.head?_reverse] at hd)
  rw [trim, hfront, List.reverse_append, List.dropWhile_append_of_pos (List.all_eq_true.mp hback),
    dropWhile_of_head hlast, List.reverse_reverse]

/-- A text is its trimmed part between two runs of whitespace. -/
theorem exists_trim (text : Text) : ∃ before after, before.all isWhitespace = true ∧
    after.all isWhitespace = true ∧ text = before ++ trim text ++ after := by
  refine ⟨text.takeWhile isWhitespace,
    ((text.dropWhile isWhitespace).reverse.takeWhile isWhitespace).reverse, ?_, ?_, ?_⟩
  · exact List.all_takeWhile
  · rw [List.all_reverse]
    exact List.all_takeWhile
  · have hback := congrArg List.reverse
      (List.takeWhile_append_dropWhile (p := isWhitespace)
        (l := (text.dropWhile isWhitespace).reverse))
    rw [List.reverse_append, List.reverse_reverse] at hback
    rw [List.append_assoc, trim, hback, List.takeWhile_append_dropWhile]

namespace Chunk

/-- Chunk size to aim for, in characters. -/
def TARGET_CHARS : ℕ := 1500

def isNewline (c : Char) : Bool := c.toNat == 0x0A

/-- The slice between two offsets. -/
def slice (text : Text) (start stop : ℕ) : Text := (text.take stop).drop start

/-- Whitespace-separated words with their offsets; `start` is the word being read. -/
def wordsFrom (index : ℕ) (start : Option (ℕ × Text)) : Text → List (ℕ × Text)
  | [] => start.toList
  | c :: cs =>
    if isWhitespace c then start.toList ++ wordsFrom (index + 1) none cs
    else
      match start with
      | none => wordsFrom (index + 1) (some (index, [c])) cs
      | some (offset, word) => wordsFrom (index + 1) (some (offset, word ++ [c])) cs

def words (text : Text) : List (ℕ × Text) := wordsFrom 0 none text

/-- Pack words into pieces of `text`, from the piece that started at `start`, ends at `stop` and
holds `taken` characters. -/
def wrapFrom (text : Text) : List (ℕ × Text) → (start : Option ℕ) → (stop taken : ℕ) → List Text
  | [], none, _, _ => []
  | [], some start, stop, _ => [slice text start stop]
  | (offset, word) :: rest, none, _, _ =>
    wrapFrom text rest (some offset) (offset + word.length) word.length
  | (offset, word) :: rest, some start, stop, taken =>
    let gap := offset - stop
    if TARGET_CHARS < taken + gap + word.length then
      slice text start stop :: wrapFrom text rest (some offset) (offset + word.length) word.length
    else wrapFrom text rest (some start) (offset + word.length) (taken + (gap + word.length))

/-- Last resort: pack whole words up to the budget, the whitespace between them as it stands. -/
def wrapWords (text : Text) : List Text := wrapFrom text (words text) none 0 0

def isMark (c : Char) : Bool := c.toNat == 0x2E || c.toNat == 0x21 || c.toNat == 0x3F

/-- A piece, unless nothing is left of it. -/
def keep (piece : Text) : List Text := if piece.isEmpty then [] else [piece]

/-- `current` is what was read since the last cut. -/
def sentencesFrom (current : Text) : Text → List Text
  | [] => keep (trim current)
  | c :: cs =>
    match cs with
    | next :: _ =>
      if isMark c && isWhitespace next then keep (trim (current ++ [c])) ++ sentencesFrom [] cs
      else sentencesFrom (current ++ [c]) cs
    | [] => sentencesFrom (current ++ [c]) cs

/-- Split after `.`, `!` or `?` when whitespace follows. -/
def sentences (paragraph : Text) : List Text := sentencesFrom [] paragraph

/-- `str::split_inclusive('\n')`; `line` is the line being read. -/
def linesFrom (line : Text) : Text → List Text
  | [] => keep line
  | c :: cs => if isNewline c then (line ++ [c]) :: linesFrom [] cs else linesFrom (line ++ [c]) cs

/-- `current` is the run of non-blank lines being read. -/
def paragraphsFrom (current : Option Text) : List Text → List Text
  | [] => (current.map trim).toList
  | line :: lines =>
    if (trim line).isEmpty then (current.map trim).toList ++ paragraphsFrom none lines
    else paragraphsFrom (some (current.getD [] ++ line)) lines

/-- Runs of consecutive non-blank lines, trimmed. -/
def paragraphs (text : Text) : List Text :=
  (paragraphsFrom none (linesFrom [] text)).filter fun paragraph => !paragraph.isEmpty

/-- The pieces chunks get packed from. -/
def units (text : Text) : List Text :=
  (paragraphs text).flatMap fun paragraph =>
    if paragraph.length ≤ TARGET_CHARS then [paragraph]
    else (sentences paragraph).flatMap fun sentence =>
      if sentence.length ≤ TARGET_CHARS then [sentence] else wrapWords sentence

/-- Pack units into chunks; `current` is the chunk being filled, of `taken` characters. -/
def packFrom (current : Text) (taken : ℕ) : List Text → List Text
  | [] => keep current
  | unit :: rest =>
    if 0 < taken ∧ TARGET_CHARS < taken + 1 + unit.length then
      current :: packFrom unit unit.length rest
    else if 0 < taken then
      packFrom (current ++ Char.ofNat 0x20 :: unit) (taken + 1 + unit.length) rest
    else packFrom (current ++ unit) (taken + unit.length) rest

/-- Cut `text` into ordered chunks. -/
def chunk (text : Text) : List Text := packFrom [] 0 (units text)

end Chunk

end Agmem.Core
