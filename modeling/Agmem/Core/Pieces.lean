import Agmem.Core.Words

/-! What chunking keeps. Each level cuts next to whitespace, so the words of a text are the words of
its chunks, in their order; and a chunk is over the budget only where one word is. -/

namespace Agmem.Core.Chunk

variable {text : Text}

/-- The words of some texts, one text after the other. -/
def wordsOf (texts : List Text) : List Text := texts.flatMap splitWhitespace

@[simp]
theorem wordsOf_nil : wordsOf [] = [] := rfl

@[simp]
theorem wordsOf_cons (text : Text) (texts : List Text) :
    wordsOf (text :: texts) = splitWhitespace text ++ wordsOf texts := rfl

@[simp]
theorem wordsOf_append (texts others : List Text) :
    wordsOf (texts ++ others) = wordsOf texts ++ wordsOf others := List.flatMap_append

theorem wordsOf_keep (piece : Text) : wordsOf (keep piece) = splitWhitespace piece := by
  unfold keep
  split_ifs with h
  · rw [List.isEmpty_iff.mp h]
    rfl
  · rw [wordsOf_cons, wordsOf_nil, List.append_nil]

/-- A piece as it is packed: something is in it, no whitespace is around it, and it is within the
budget unless it is one word. -/
structure Piece (text : Text) : Prop where
  nonempty : text ≠ []
  trimmed : Trimmed text
  fits : text.length ≤ TARGET_CHARS ∨ ∀ c ∈ text, isWhitespace c = false

/-! ### Lines and paragraphs -/

theorem isWhitespace_of_isNewline {c : Char} (h : isNewline c = true) : isWhitespace c = true := by
  simp only [isNewline, beq_iff_eq] at h
  simp [isWhitespace, h]

theorem linesFrom_flatten (line text : Text) : (linesFrom line text).flatten = line ++ text := by
  induction text generalizing line with
  | nil =>
    rw [linesFrom, keep]
    split_ifs with h
    · rw [List.isEmpty_iff.mp h]
      rfl
    · rw [List.flatten_singleton, List.append_nil]
  | cons c cs ih =>
    rw [linesFrom]
    split_ifs
    · rw [List.flatten_cons, ih, List.append_assoc]
      rfl
    · rw [ih, List.append_assoc]
      rfl

/-- Only the last line may lack its mark. -/
theorem linesFrom_endsWord (line text : Text) :
    ∀ l ∈ (linesFrom line text).dropLast, EndsWord l := by
  induction text generalizing line with
  | nil =>
    rw [linesFrom, keep]
    split_ifs <;> exact List.forall_mem_nil _
  | cons c cs ih =>
    rw [linesFrom]
    split_ifs with hc
    · cases hrest : linesFrom [] cs with
      | nil => exact List.forall_mem_nil _
      | cons next rest =>
        rw [List.dropLast_cons_cons, ← hrest]
        exact List.forall_mem_cons.mpr ⟨endsWord_concat line (isWhitespace_of_isNewline hc), ih []⟩
    · exact ih _

theorem split_flatten {lines : List Text} (h : ∀ l ∈ lines.dropLast, EndsWord l) :
    splitWhitespace lines.flatten = wordsOf lines := by
  induction lines with
  | nil => rfl
  | cons line lines ih =>
    cases lines with
    | nil => rw [List.flatten_singleton, wordsOf_cons, wordsOf_nil, List.append_nil]
    | cons next rest =>
      rw [List.dropLast_cons_cons] at h
      obtain ⟨hline, hrest⟩ := List.forall_mem_cons.mp h
      rw [List.flatten_cons, hline, ih hrest]
      rfl

/-- The lines of a paragraph are read together, a blank line holds no word. -/
theorem paragraphsFrom_words {current : Option Text} {lines : List Text}
    (hlines : ∀ l ∈ lines.dropLast, EndsWord l)
    (hcurrent : lines ≠ [] → ∀ text, current = some text → EndsWord text) :
    wordsOf (paragraphsFrom current lines) =
      splitWhitespace (current.getD []) ++ wordsOf lines := by
  have hclose (current : Option Text) :
      wordsOf (current.map trim).toList = splitWhitespace (current.getD []) := by
    cases current with
    | none => rfl
    | some text =>
      rw [Option.map_some, Option.toList_some, wordsOf_cons, wordsOf_nil, List.append_nil,
        split_trim, Option.getD_some]
  induction lines generalizing current with
  | nil => rw [paragraphsFrom, hclose, wordsOf_nil, List.append_nil]
  | cons line lines ih =>
    have hrest : ∀ l ∈ lines.dropLast, EndsWord l := by
      cases lines with
      | nil => exact List.forall_mem_nil _
      | cons next rest =>
        rw [List.dropLast_cons_cons] at hlines
        exact (List.forall_mem_cons.mp hlines).2
    have hends : EndsWord (current.getD []) := by
      cases current with
      | none => exact endsWord_nil
      | some text => exact hcurrent (List.cons_ne_nil _ _) text rfl
    rw [paragraphsFrom, wordsOf_cons]
    split_ifs with hblank
    · have hnone : splitWhitespace line = [] := by
        rw [← split_trim, List.isEmpty_iff.mp hblank]
        rfl
      rw [wordsOf_append, hclose, ih hrest (by simp), hnone]
      rfl
    · rw [ih hrest, Option.getD_some, hends, List.append_assoc]
      rintro hne _ ⟨⟩
      refine hends.append (hlines line ?_)
      obtain ⟨next, rest, rfl⟩ := List.exists_cons_of_ne_nil hne
      exact List.mem_cons_self

theorem paragraphs_words (text : Text) : wordsOf (paragraphs text) = splitWhitespace text := by
  have hfilter (texts : List Text) :
      wordsOf (texts.filter fun text => !text.isEmpty) = wordsOf texts := by
    induction texts with
    | nil => rfl
    | cons text texts ih =>
      cases text with
      | nil => exact ih
      | cons c cs => exact congrArg (splitWhitespace (c :: cs) ++ ·) ih
  rw [paragraphs, hfilter, paragraphsFrom_words (linesFrom_endsWord [] text) (by simp),
    ← split_flatten (linesFrom_endsWord [] text), linesFrom_flatten]
  rfl

/-- A paragraph is trimmed, and something is in it. -/
theorem mem_paragraphs {paragraph : Text} (h : paragraph ∈ paragraphs text) :
    paragraph ≠ [] ∧ Trimmed paragraph := by
  have htrimmed {current : Option Text} {lines : List Text} {p : Text}
      (hp : p ∈ paragraphsFrom current lines) : Trimmed p := by
    have hclose {current : Option Text} (hp : p ∈ (current.map trim).toList) : Trimmed p := by
      obtain ⟨text, -, rfl⟩ := Option.map_eq_some_iff.mp (Option.mem_toList.mp hp)
      exact trim_trimmed text
    induction lines generalizing current with
    | nil => exact hclose hp
    | cons line lines ih =>
      rw [paragraphsFrom] at hp
      split_ifs at hp with hblank
      · rcases List.mem_append.mp hp with hp | hp
        · exact hclose hp
        · exact ih hp
      · exact ih hp
  obtain ⟨hmem, hne⟩ := List.mem_filter.mp h
  exact ⟨by simpa using hne, htrimmed hmem⟩

/-! ### Sentences -/

theorem sentencesFrom_words (current text : Text) :
    wordsOf (sentencesFrom current text) = splitWhitespace (current ++ text) := by
  induction text generalizing current with
  | nil => rw [sentencesFrom, wordsOf_keep, split_trim, List.append_nil]
  | cons c cs ih =>
    cases cs with
    | nil => rw [sentencesFrom, ih, List.append_assoc, List.singleton_append]
    | cons next rest =>
      rw [sentencesFrom]
      split_ifs with hmark
      · obtain ⟨-, hnext⟩ := Bool.and_eq_true_iff.mp hmark
        rw [wordsOf_append, wordsOf_keep, split_trim, ih, List.nil_append, split_cons_space hnext,
          ← split_append_space _ hnext, List.append_assoc, List.singleton_append]
      · rw [ih, List.append_assoc, List.singleton_append]

theorem mem_keep {piece p : Text} : p ∈ keep piece ↔ p = piece ∧ piece ≠ [] := by
  unfold keep
  split_ifs with h
  · simp [List.isEmpty_iff.mp h]
  · simp [List.isEmpty_iff.not.mp h]

theorem mem_sentencesFrom {current text sentence : Text}
    (h : sentence ∈ sentencesFrom current text) : sentence ≠ [] ∧ Trimmed sentence := by
  have hkeep {t : Text} (h : sentence ∈ keep (trim t)) : sentence ≠ [] ∧ Trimmed sentence := by
    obtain ⟨rfl, hne⟩ := mem_keep.mp h
    exact ⟨hne, trim_trimmed t⟩
  induction text generalizing current with
  | nil => exact hkeep h
  | cons c cs ih =>
    cases cs with
    | nil => exact ih h
    | cons next rest =>
      rw [sentencesFrom] at h
      split_ifs at h with hmark
      · rcases List.mem_append.mp h with h | h
        · exact hkeep h
        · exact ih h
      · exact ih h

/-! ### Words -/

/-- The text from `stop` on holds these words, each after whitespace, unless nothing is before
it. -/
def Spells (rest : Text) (stop : ℕ) : List (ℕ × Text) → Prop
  | [] => True
  | (offset, word) :: words => ∃ gap after, rest = gap ++ (word ++ after) ∧
      gap.all isWhitespace = true ∧ (0 < stop → gap ≠ []) ∧ offset = stop + gap.length ∧
      word ≠ [] ∧ (∀ c ∈ word, isWhitespace c = false) ∧ Spells after (offset + word.length) words

/-- What is being read when `index` is reached, with the text from `stop` on read so far. -/
def Reading (read : Text) (stop index : ℕ) : Option (ℕ × Text) → Prop
  | none => read.all isWhitespace = true ∧ (0 < stop → read ≠ []) ∧ index = stop + read.length
  | some (offset, word) => ∃ gap, read = gap ++ word ∧ gap.all isWhitespace = true ∧
      (0 < stop → gap ≠ []) ∧ offset = stop + gap.length ∧ index = offset + word.length ∧
      word ≠ [] ∧ ∀ c ∈ word, isWhitespace c = false

theorem wordsFrom_spells {read rest : Text} {stop index : ℕ} {start : Option (ℕ × Text)}
    (h : Reading read stop index start) :
    Spells (read ++ rest) stop (wordsFrom index start rest) := by
  induction rest generalizing read stop index start with
  | nil =>
    cases start with
    | none => trivial
    | some entry =>
      obtain ⟨gap, rfl, hgap, hne, hoffset, -, hword, hrun⟩ := h
      exact ⟨gap, [], by rw [List.append_nil, List.append_nil], hgap, hne, hoffset, hword, hrun,
        trivial⟩
  | cons c cs ih =>
    cases start with
    | none =>
      obtain ⟨hread, hne, hindex⟩ := h
      rw [wordsFrom]
      split_ifs with hc
      · have hnext : Reading (read ++ [c]) stop (index + 1) none :=
          ⟨by simpa [hc] using hread, by simp, by simp [hindex, Nat.add_assoc]⟩
        simpa using ih hnext
      · have hnext : Reading (read ++ [c]) stop (index + 1) (some (index, [c])) :=
          ⟨read, rfl, hread, hne, hindex, rfl, List.cons_ne_nil _ _, by simpa using hc⟩
        simpa using ih hnext
    | some entry =>
      obtain ⟨gap, rfl, hgap, hne, hoffset, hindex, hword, hrun⟩ := h
      rw [wordsFrom]
      split_ifs with hc
      · have hnext : Reading [c] (entry.1 + entry.2.length) (index + 1) none :=
          ⟨by simp [hc], by simp, by simp [hindex]⟩
        exact ⟨gap, c :: cs, by rw [List.append_assoc], hgap, hne, hoffset, hword, hrun, ih hnext⟩
      · have hrun' : ∀ d ∈ entry.2 ++ [c], isWhitespace d = false := by
          intro d hd
          rcases List.mem_append.mp hd with hd | hd
          · exact hrun d hd
          · rw [List.mem_singleton.mp hd]
            simpa using hc
        have hnext : Reading (gap ++ entry.2 ++ [c]) stop (index + 1)
            (some (entry.1, entry.2 ++ [c])) :=
          ⟨gap, List.append_assoc .., hgap, hne, hoffset,
            by rw [List.length_append, hindex]; rfl, by simp, hrun'⟩
        simpa using ih hnext

theorem words_spells (text : Text) : Spells text 0 (words text) := by
  have hstart : Reading [] 0 0 none := ⟨rfl, fun h => absurd h (lt_irrefl 0), rfl⟩
  exact wordsFrom_spells hstart

theorem words_eq (text : Text) : (words text).map Prod.snd = splitWhitespace text := by
  have hfrom (text : Text) (index : ℕ) (start : Option (ℕ × Text))
      (hne : ∀ entry, start = some entry → entry.2 ≠ []) :
      (wordsFrom index start text).map Prod.snd =
        splitFrom (start.elim [] Prod.snd) text := by
    induction text generalizing index start with
    | nil =>
      cases start with
      | none => rfl
      | some entry => simp [wordsFrom, splitFrom, flush, hne entry rfl]
    | cons c cs ih =>
      cases start with
      | none =>
        rw [wordsFrom, splitFrom]
        split_ifs
        · exact ih _ none (by simp)
        · exact ih _ (some (index, [c])) (by simp)
      | some entry =>
        rw [wordsFrom, splitFrom]
        split_ifs
        · simp [ih _ none, flush, hne entry rfl]
        · exact ih _ (some (entry.1, entry.2 ++ [c])) (by simp)
  exact hfrom text 0 none (by simp)

/-! ### Wrapping -/

theorem slice_eq (before piece after : Text) :
    slice (before ++ (piece ++ after)) before.length (before.length + piece.length) = piece := by
  rw [slice, ← List.append_assoc, ← List.length_append, List.take_left, List.drop_left]

theorem trimmed_run {word : Text} (h : ∀ c ∈ word, isWhitespace c = false) : Trimmed word :=
  ⟨fun c hc => h c (List.mem_of_head? hc), fun c hc => h c (List.mem_of_getLast? hc)⟩

theorem piece_run {word : Text} (hne : word ≠ []) (h : ∀ c ∈ word, isWhitespace c = false) :
    Piece word := ⟨hne, trimmed_run h, .inr h⟩

/-- A piece grows by a gap and what follows it, as long as it stays within the budget. -/
theorem Piece.grow {piece gap next : Text} (hp : Piece piece) (hn : Piece next)
    (hlen : piece.length + gap.length + next.length ≤ TARGET_CHARS) :
    Piece (piece ++ (gap ++ next)) where
  nonempty := fun h => hp.nonempty (List.append_eq_nil_iff.mp h).1
  trimmed := by
    refine ⟨fun c hc => hp.trimmed.head c ?_, fun c hc => hn.trimmed.last c ?_⟩
    · rwa [List.head?_append_of_ne_nil _ hp.nonempty] at hc
    · rwa [List.getLast?_append_of_ne_nil _ (fun h => hn.nonempty (List.append_eq_nil_iff.mp h).2),
        List.getLast?_append_of_ne_nil _ hn.nonempty] at hc
  fits := .inl (by simpa [Nat.add_assoc] using hlen)

/-- Where a piece stands while it is wrapped: `rest` is the text behind it. -/
structure Standing (text before piece rest : Text) (start stop taken : ℕ) : Prop where
  text_eq : text = before ++ (piece ++ rest)
  start_eq : start = before.length
  stop_eq : stop = start + piece.length
  taken_eq : taken = piece.length
  piece : Piece piece

namespace Standing

variable {before piece rest : Text} {start stop taken : ℕ}

theorem slice_eq (h : Standing text before piece rest start stop taken) :
    slice text start stop = piece := by
  rw [h.stop_eq, h.start_eq, h.text_eq, Chunk.slice_eq]

theorem stop_pos (h : Standing text before piece rest start stop taken) : 0 < stop := by
  have hpos := List.length_pos_iff.mpr h.piece.nonempty
  have hstop := h.stop_eq
  omega

variable {gap word after : Text} {offset : ℕ}

/-- The next word starts a piece of its own. -/
theorem next (h : Standing text before piece (gap ++ (word ++ after)) start stop taken)
    (hoffset : offset = stop + gap.length) (hword : Piece word) :
    Standing text (before ++ (piece ++ gap)) word after offset (offset + word.length)
      word.length where
  text_eq := by simp [h.text_eq]
  start_eq := by simp [hoffset, h.stop_eq, h.start_eq, Nat.add_assoc]
  stop_eq := rfl
  taken_eq := rfl
  piece := hword

/-- The next word is taken into the piece. -/
theorem join (h : Standing text before piece (gap ++ (word ++ after)) start stop taken)
    (hoffset : offset = stop + gap.length) (hword : Piece word)
    (hfits : ¬TARGET_CHARS < taken + (offset - stop) + word.length) :
    Standing text before (piece ++ (gap ++ word)) after start (offset + word.length)
      (taken + (offset - stop + word.length)) where
  text_eq := by simp [h.text_eq]
  start_eq := h.start_eq
  stop_eq := by
    have hstop := h.stop_eq
    simp only [List.length_append]
    omega
  taken_eq := by
    have htaken := h.taken_eq
    simp only [List.length_append]
    omega
  piece := by
    have htaken := h.taken_eq
    exact h.piece.grow hword (by omega)

end Standing

/-- Wrapping keeps the words and makes pieces. -/
theorem wrapFrom_some {words : List (ℕ × Text)} {before piece rest : Text} {start stop taken : ℕ}
    (h : Standing text before piece rest start stop taken) (hspells : Spells rest stop words) :
    wordsOf (wrapFrom text words (some start) stop taken) =
        splitWhitespace piece ++ words.map Prod.snd ∧
      ∀ p ∈ wrapFrom text words (some start) stop taken, Piece p := by
  induction words generalizing before piece rest start stop taken with
  | nil =>
    rw [wrapFrom, h.slice_eq]
    exact ⟨rfl, List.forall_mem_singleton.mpr h.piece⟩
  | cons entry words ih =>
    obtain ⟨gap, after, rfl, hgap, hne, hoffset, hword, hrun, hafter⟩ := hspells
    have hpiece := piece_run hword hrun
    have hone : splitWhitespace entry.2 = [entry.2] := split_run hword hrun
    rw [wrapFrom]
    split_ifs with hfull
    · obtain ⟨hwords, hpieces⟩ := ih (h.next hoffset hpiece) hafter
      refine ⟨?_, List.forall_mem_cons.mpr ⟨h.slice_eq ▸ h.piece, hpieces⟩⟩
      rw [wordsOf_cons, hwords, h.slice_eq, hone]
      rfl
    · obtain ⟨hwords, hpieces⟩ := ih (h.join hoffset hpiece hfull) hafter
      refine ⟨?_, hpieces⟩
      rw [hwords, split_append_gap piece hgap (hne h.stop_pos), hone, List.append_assoc]
      rfl

theorem wrapWords_spec (text : Text) : wordsOf (wrapWords text) = splitWhitespace text ∧
    ∀ p ∈ wrapWords text, Piece p := by
  rw [← words_eq text, wrapWords]
  have hspells := words_spells text
  cases hwords : words text with
  | nil => exact ⟨rfl, List.forall_mem_nil _⟩
  | cons entry rest =>
    rw [hwords] at hspells
    obtain ⟨gap, after, htext, -, -, hoffset, hword, hrun, hafter⟩ := hspells
    rw [Nat.zero_add] at hoffset
    have hstanding : Standing text gap entry.2 after entry.1 (entry.1 + entry.2.length)
        entry.2.length := ⟨htext, hoffset, rfl, rfl, piece_run hword hrun⟩
    obtain ⟨hkept, hpieces⟩ := wrapFrom_some hstanding hafter
    rw [split_run hword hrun] at hkept
    exact ⟨hkept, hpieces⟩

/-! ### Units and chunks -/

theorem wordsOf_flatMap {f : Text → List Text} {texts : List Text}
    (h : ∀ t ∈ texts, wordsOf (f t) = splitWhitespace t) :
    wordsOf (texts.flatMap f) = wordsOf texts := by
  rw [wordsOf, List.flatMap_assoc]
  exact List.flatMap_congr h

theorem units_words (text : Text) : wordsOf (units text) = splitWhitespace text := by
  have hone (t : Text) : wordsOf [t] = splitWhitespace t := List.append_nil _
  rw [← paragraphs_words text, units]
  refine wordsOf_flatMap fun paragraph _ => ?_
  split_ifs
  · exact hone paragraph
  · have hsentences : wordsOf (sentences paragraph) = splitWhitespace paragraph :=
      sentencesFrom_words [] paragraph
    rw [← hsentences]
    refine wordsOf_flatMap fun sentence _ => ?_
    split_ifs
    · exact hone sentence
    · exact (wrapWords_spec sentence).1

theorem piece_of_mem_units {unit : Text} (h : unit ∈ units text) : Piece unit := by
  obtain ⟨paragraph, hparagraph, h⟩ := List.mem_flatMap.mp h
  split_ifs at h with hlen
  · obtain rfl := List.mem_singleton.mp h
    obtain ⟨hne, htrimmed⟩ := mem_paragraphs hparagraph
    exact ⟨hne, htrimmed, .inl hlen⟩
  · obtain ⟨sentence, hsentence, h⟩ := List.mem_flatMap.mp h
    split_ifs at h with hlen
    · obtain rfl := List.mem_singleton.mp h
      obtain ⟨hne, htrimmed⟩ := mem_sentencesFrom hsentence
      exact ⟨hne, htrimmed, .inl hlen⟩
    · exact (wrapWords_spec sentence).2 unit h

/-- Packing keeps the words. -/
theorem packFrom_words {current : Text} {taken : ℕ} {units : List Text}
    (htaken : taken = current.length) :
    wordsOf (packFrom current taken units) = splitWhitespace current ++ wordsOf units := by
  induction units generalizing current taken with
  | nil => rw [packFrom, wordsOf_keep, wordsOf_nil, List.append_nil]
  | cons unit rest ih =>
    rw [packFrom]
    split_ifs with hfull hsome
    · rw [wordsOf_cons, ih rfl]
      rfl
    · rw [ih (by rw [List.length_append, List.length_cons, htaken]; omega),
        split_append_space current (by decide), List.append_assoc]
      rfl
    · obtain rfl : current = [] := List.length_eq_zero_iff.mp (by omega)
      rw [ih (by simpa using htaken)]
      rfl

/-- Packing makes pieces of pieces: an oversized one is closed before the next is taken. -/
theorem packFrom_pieces {current : Text} {taken : ℕ} {units : List Text}
    (htaken : taken = current.length) (hcurrent : current ≠ [] → Piece current)
    (hunits : ∀ u ∈ units, Piece u) : ∀ p ∈ packFrom current taken units, Piece p := by
  induction units generalizing current taken with
  | nil =>
    intro p hp
    obtain ⟨rfl, hne⟩ := mem_keep.mp hp
    exact hcurrent hne
  | cons unit rest ih =>
    obtain ⟨hunit, hrest⟩ := List.forall_mem_cons.mp hunits
    have hpiece (hsome : 0 < taken) : Piece current :=
      hcurrent (List.length_pos_iff.mp (htaken ▸ hsome))
    rw [packFrom]
    split_ifs with hfull hsome
    · exact List.forall_mem_cons.mpr ⟨hpiece hfull.1, ih rfl (fun _ => hunit) hrest⟩
    · refine ih (by rw [List.length_append, List.length_cons, htaken]; omega) (fun _ => ?_) hrest
      have hlen : ¬TARGET_CHARS < taken + 1 + unit.length := fun h => hfull ⟨hsome, h⟩
      have hgap : current.length + [Char.ofNat 0x20].length + unit.length ≤ TARGET_CHARS := by
        rw [List.length_singleton]
        omega
      exact (hpiece hsome).grow hunit hgap
    · obtain rfl : current = [] := List.length_eq_zero_iff.mp (by omega)
      exact ih (by simpa using htaken) (fun _ => hunit) hrest

theorem split_intercalate {separator : Text} (hblank : separator.all isWhitespace = true)
    (hne : separator ≠ []) (texts : List Text) :
    splitWhitespace (List.intercalate separator texts) = wordsOf texts := by
  induction texts with
  | nil => rfl
  | cons text texts ih =>
    cases texts with
    | nil => rw [List.intercalate_singleton, wordsOf_cons, wordsOf_nil, List.append_nil]
    | cons next rest =>
      rw [List.intercalate_cons_cons, List.append_assoc, split_append_gap text hblank hne, ih]
      rfl

/-- Chunking loses and repeats no word: the chunks, joined by any whitespace, hold the words of the
text in their order. -/
theorem chunk_words {separator : Text} (hblank : separator.all isWhitespace = true)
    (hne : separator ≠ []) (text : Text) :
    splitWhitespace (List.intercalate separator (chunk text)) = splitWhitespace text := by
  have hpack : wordsOf (chunk text) = wordsOf (units text) := packFrom_words rfl
  rw [split_intercalate hblank hne, hpack, units_words]

theorem chunk_words_paragraphs :
    splitWhitespace (List.intercalate ['\n'] (chunk ['a', '\n', '\n', 'b', ' ', 'c'])) =
      [['a'], ['b'], ['c']] :=
  (chunk_words rfl (by decide) ['a', '\n', '\n', 'b', ' ', 'c']).trans (by decide)

/-- Every chunk holds something, has no whitespace around it, and is within the budget unless it is
one run without whitespace that is longer. -/
theorem chunk_fits {piece : Text} (h : piece ∈ chunk text) :
    piece ≠ [] ∧ Trimmed piece ∧ (piece.length ≤ TARGET_CHARS ∨
      TARGET_CHARS < piece.length ∧ ∀ c ∈ piece, isWhitespace c = false) := by
  have hpieces : ∀ p ∈ chunk text, Piece p :=
    packFrom_pieces rfl (fun hne => absurd rfl hne) fun _ hunit => piece_of_mem_units hunit
  have hpiece := hpieces piece h
  refine ⟨hpiece.nonempty, hpiece.trimmed, ?_⟩
  by_cases hlen : piece.length ≤ TARGET_CHARS
  · exact .inl hlen
  · exact .inr ⟨not_le.mp hlen, hpiece.fits.resolve_left hlen⟩

theorem chunk_fits_paragraphs : ['a', ' ', 'b'] ∈ chunk ['a', '\n', '\n', 'b'] ∧
    Trimmed ['a', ' ', 'b'] := by
  have hmem : ['a', ' ', 'b'] ∈ chunk ['a', '\n', '\n', 'b'] := by decide
  exact ⟨hmem, (chunk_fits hmem).2.1⟩

end Agmem.Core.Chunk
