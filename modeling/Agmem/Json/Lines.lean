import Agmem.Json.Value

/-! Records kept one to a line. A file of them is read line by line, and a line that is no record is
passed over. Records that are added behind whole lines are read back as they are, whatever these
lines hold. -/

namespace Agmem.Json

/-- A line ending in a carriage return loses it with its newline. -/
def stripReturn (line : Chars) : Chars :=
  if line.getLast? = some '\r' then line.dropLast else line

/-- `line` is the line being read. -/
def linesFrom (line : Chars) : Chars → List Chars
  | [] => if line = [] then [] else [line]
  | c :: text =>
    if c = '\n' then stripReturn line :: linesFrom [] text else linesFrom (line ++ [c]) text

/-- `str::lines` -/
def lines (text : Chars) : List Chars := linesFrom [] text

/-- Every line has its end. -/
def Whole (text : Chars) : Prop := ∀ c ∈ text.getLast?, c = '\n'

instance : DecidablePred Whole := fun text =>
  inferInstanceAs (Decidable (∀ c ∈ text.getLast?, c = '\n'))

/-- A way to write a record on one line, and to read it. -/
structure Format (α : Type*) where
  print : α → Chars
  read : Chars → Option α
  oneLine : ∀ a, ∀ c ∈ print a, c ≠ '\n' ∧ c ≠ '\r'
  reads : ∀ a, read (print a) = some a

namespace Format

variable {α : Type*} (F : Format α)

def line (a : α) : Chars := F.print a ++ ['\n']

def text (as : List α) : Chars := as.flatMap F.line

def entries (content : Chars) : List α := (lines content).filterMap F.read

end Format

variable {text rest line : Chars}

theorem linesFrom_newline (h : '\n' ∉ text) :
    linesFrom line (text ++ '\n' :: rest) = stripReturn (line ++ text) :: lines rest := by
  induction text generalizing line with
  | nil => simp [linesFrom, lines]
  | cons c text ih =>
    obtain ⟨hc, htext⟩ := not_or.mp (mt List.mem_cons.mpr h)
    rw [List.cons_append, linesFrom, if_neg (Ne.symm hc), ih htext]
    simp

theorem lines_newline (h : '\n' ∉ text) :
    lines (text ++ '\n' :: rest) = stripReturn text :: lines rest := linesFrom_newline h

theorem whole_nil : Whole [] := by simp [Whole]

theorem whole_tail {c : Char} (h : Whole (c :: text)) : Whole text := by
  cases text with
  | nil => nofun
  | cons d text =>
    rw [Whole, List.getLast?_cons_cons] at h
    exact h

/-- Behind whole lines the reading begins anew. -/
theorem linesFrom_append (h : Whole text) (hline : text = [] → line = []) :
    linesFrom line (text ++ rest) = linesFrom line text ++ lines rest := by
  induction text generalizing line with
  | nil => simp [hline rfl, linesFrom, lines]
  | cons c text ih =>
    have htext : Whole text := whole_tail h
    rw [List.cons_append, linesFrom, linesFrom]
    split_ifs with hc
    · rw [ih htext fun _ => rfl, List.cons_append]
    · refine ih htext fun hnil => ?_
      subst hnil
      exact absurd (h c rfl) hc

theorem lines_append (h : Whole text) : lines (text ++ rest) = lines text ++ lines rest :=
  linesFrom_append h fun _ => rfl

namespace Format

variable {α : Type*} (F : Format α)

theorem newline_notMem (a : α) : '\n' ∉ F.print a := fun h => (F.oneLine a _ h).1 rfl

theorem stripReturn_print (a : α) : stripReturn (F.print a) = F.print a :=
  if_neg fun h => (F.oneLine a '\r' (List.mem_of_getLast? h)).2 rfl

theorem entries_line (a : α) (rest : Chars) :
    F.entries (F.line a ++ rest) = a :: F.entries rest := by
  have hlines : lines (F.line a ++ rest) = F.print a :: lines rest := by
    rw [line, List.append_assoc, List.singleton_append, lines_newline (F.newline_notMem a),
      stripReturn_print]
  rw [entries, hlines, List.filterMap_cons, F.reads]
  rfl

theorem entries_text (as : List α) : F.entries (F.text as) = as := by
  induction as with
  | nil => rfl
  | cons a as ih => rw [text, List.flatMap_cons, entries_line, ← text, ih]

/-- Records added to whole lines are read back behind what was there. -/
theorem entries_append {content : Chars} (h : Whole content) (as : List α) :
    F.entries (content ++ F.text as) = F.entries content ++ as := by
  rw [entries, lines_append h, List.filterMap_append]
  exact congrArg _ (F.entries_text as)

theorem whole_line (content : Chars) (a : α) : Whole (content ++ F.line a) := by
  simp [Whole, line]

end Format

end Agmem.Json
