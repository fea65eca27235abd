import Agmem.Core.Chunk

/-! The words of a text, its maximal runs without whitespace. A cut next to whitespace cuts none of
them, so the words of the parts are the words of the whole, in their order. -/

namespace Agmem.Core

variable {text before after : Text} {c : Char}

theorem splitFrom_append (word before : Text) (hc : isWhitespace c = true) (after : Text) :
    splitFrom word (before ++ c :: after) = splitFrom word before ++ splitWhitespace after := by
  have hflush (w : Text) (ws : List Text) : flush w ws = flush w [] ++ ws := by
    unfold flush
    split_ifs <;> rfl
  induction before generalizing word with
  | nil =>
    simp only [List.nil_append, splitFrom, hc, if_true]
    exact hflush word _
  | cons d ds ih =>
    rw [List.cons_append, splitFrom, splitFrom]
    split_ifs with hd
    · rw [ih, hflush, hflush word (splitFrom [] ds), List.append_assoc]
    · exact ih _

/-- A cut at whitespace cuts no word. -/
theorem split_append_space (before : Text) (hc : isWhitespace c = true) (after : Text) :
    splitWhitespace (before ++ c :: after) = splitWhitespace before ++ splitWhitespace after :=
  splitFrom_append [] before hc after

theorem split_cons_space (hc : isWhitespace c = true) (after : Text) :
    splitWhitespace (c :: after) = splitWhitespace after :=
  split_append_space [] hc after

theorem split_blank_append (h : before.all isWhitespace = true) (text : Text) :
    splitWhitespace (before ++ text) = splitWhitespace text := by
  induction before with
  | nil => rfl
  | cons c cs ih =>
    obtain ⟨hc, hcs⟩ := Bool.and_eq_true_iff.mp h
    rw [List.cons_append, split_cons_space hc, ih hcs]

/-- Whitespace holds no word. -/
theorem split_blank (h : text.all isWhitespace = true) : splitWhitespace text = [] := by
  have hsplit := split_blank_append h []
  rwa [List.append_nil] at hsplit

theorem split_append_blank (text : Text) (h : after.all isWhitespace = true) :
    splitWhitespace (text ++ after) = splitWhitespace text := by
  cases after with
  | nil => rw [List.append_nil]
  | cons c cs =>
    obtain ⟨hc, hcs⟩ := Bool.and_eq_true_iff.mp h
    rw [split_append_space text hc, split_blank hcs, List.append_nil]

/-- What is trimmed away holds no word. -/
theorem split_trim (text : Text) : splitWhitespace (trim text) = splitWhitespace text := by
  obtain ⟨before, after, hb, ha, htext⟩ := exists_trim text
  conv_rhs => rw [htext]
  rw [split_append_blank _ ha, split_blank_append hb]

/-- A run without whitespace is one word. -/
theorem split_run (hne : text ≠ []) (h : ∀ c ∈ text, isWhitespace c = false) :
    splitWhitespace text = [text] := by
  have hrun (word text : Text) (h : ∀ c ∈ text, isWhitespace c = false) :
      splitFrom word text = flush (word ++ text) [] := by
    induction text generalizing word with
    | nil => rw [splitFrom, List.append_nil]
    | cons c cs ih =>
      obtain ⟨hc, hcs⟩ := List.forall_mem_cons.mp h
      rw [splitFrom, hc, if_neg Bool.false_ne_true, ih _ hcs, List.append_assoc]
      rfl
  rw [splitWhitespace, hrun [] text h, List.nil_append, flush,
    List.isEmpty_eq_false_iff.mpr hne]
  rfl

/-- Words are runs without whitespace. -/
theorem run_of_mem_split {word : Text} (h : word ∈ splitWhitespace text) :
    word ≠ [] ∧ ∀ c ∈ word, isWhitespace c = false := by
  have hflush {read : Text} {words : List Text} (hread : ∀ c ∈ read, isWhitespace c = false)
      (hmem : word ∈ flush read words) :
      (word ≠ [] ∧ ∀ c ∈ word, isWhitespace c = false) ∨ word ∈ words := by
    unfold flush at hmem
    split_ifs at hmem with hempty
    · exact .inr hmem
    · rcases List.mem_cons.mp hmem with rfl | hmem
      · exact .inl ⟨fun hnil => hempty (List.isEmpty_iff.mpr hnil), hread⟩
      · exact .inr hmem
  have hfrom (text read : Text) (hread : ∀ c ∈ read, isWhitespace c = false)
      (hmem : word ∈ splitFrom read text) : word ≠ [] ∧ ∀ c ∈ word, isWhitespace c = false := by
    induction text generalizing read with
    | nil => exact (hflush hread hmem).resolve_right List.not_mem_nil
    | cons c cs ih =>
      rw [splitFrom] at hmem
      split_ifs at hmem with hc
      · exact (hflush hread hmem).elim id (ih [] (fun d hd => absurd hd List.not_mem_nil))
      · refine ih (read ++ [c]) (fun d hd => ?_) hmem
        rcases List.mem_append.mp hd with hd | hd
        · exact hread d hd
        · rw [List.mem_singleton.mp hd]
          exact (Bool.not_eq_true _).mp hc
  exact hfrom text [] (fun d hd => absurd hd List.not_mem_nil) h

/-- A word that follows whitespace is a word of its own. -/
theorem split_append_gap {gap : Text} (text : Text) (hgap : gap.all isWhitespace = true)
    (hne : gap ≠ []) (after : Text) :
    splitWhitespace (text ++ (gap ++ after)) = splitWhitespace text ++ splitWhitespace after := by
  obtain ⟨c, cs, rfl⟩ := List.exists_cons_of_ne_nil hne
  obtain ⟨hc, hcs⟩ := Bool.and_eq_true_iff.mp hgap
  rw [List.cons_append, split_append_space text hc, split_blank_append hcs]

/-! ### Where a text may be cut -/

/-- No word of a text goes on in what follows it. -/
def EndsWord (text : Text) : Prop :=
  ∀ after, splitWhitespace (text ++ after) = splitWhitespace text ++ splitWhitespace after

theorem endsWord_nil : EndsWord [] := fun _ => rfl

theorem endsWord_concat (text : Text) (hc : isWhitespace c = true) : EndsWord (text ++ [c]) := by
  intro after
  have hnil : splitWhitespace ([] : Text) = [] := rfl
  rw [List.append_assoc, List.singleton_append, split_append_space text hc,
    split_append_space text hc, hnil, List.append_nil]

theorem EndsWord.append (hb : EndsWord before) (ht : EndsWord text) :
    EndsWord (before ++ text) := by
  intro after
  rw [List.append_assoc, hb, ht, hb, List.append_assoc]

end Agmem.Core
