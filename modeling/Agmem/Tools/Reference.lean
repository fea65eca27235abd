import Agmem.Core.Ulid
import Agmem.Tools.Common

/-! The grammar of `inspect`: one text names a claim, a text, a subject, a title in a
space, a listing, or the counts. A title may hold slashes and colons; the space in front of
it may not, so the first slash ends the space. -/

namespace Agmem.Tools.Inspect

open Core

/-- What a `ref` named. -/
inductive Reference where
  | memory (id : Ulid)
  | episode (id : Ulid)
  | entity (name : Text)
  | stats
  /-- The newest document under a title in one space. -/
  | doc (space title : Text)
  /-- The documents in one space, or in the searched spaces when unnamed. -/
  | docs (space : Option Text)
  | unqualified (id : Ulid)
deriving DecidableEq

/-- `str::split_once` -/
def splitOnce (mark : Char) : Text → Option (Text × Text)
  | [] => none
  | c :: cs => if c = mark then some ([], cs) else (splitOnce mark cs).map fun p => (c :: p.1, p.2)

/-- Whether the space part of a reference is something `space` would accept; `all` is not a place
a title can be looked up in. -/
def spaceToken (raw : Text) : Bool :=
  let raw := trim raw
  decide (raw ≠ keywordAll) &&
    (decide (raw = keywordCurrent) || decide (raw = SpaceName.user.name) ||
    (SpaceName.new? raw).isSome)

namespace Reference

def wordMemory : Text := ['m', 'e', 'm', 'o', 'r', 'y']

def wordEpisode : Text := ['e', 'p', 'i', 's', 'o', 'd', 'e']

def wordEntity : Text := ['e', 'n', 't', 'i', 't', 'y']

def wordStats : Text := ['s', 't', 'a', 't', 's']

def wordDocs : Text := ['d', 'o', 'c', 's']

def wordDoc : Text := ['d', 'o', 'c']

/-- A reference, or nothing where the text is outside the grammar. -/
def parse (text : Text) : Option Reference :=
  let raw := trim text
  if raw = wordStats then some .stats
  else if raw = wordDocs then some (.docs none)
  else
    match splitOnce ':' raw with
    | none => (Ulid.new? raw).map .unqualified
    | some (word, rest) =>
      if word = wordMemory then (Ulid.new? rest).map .memory
      else if word = wordEpisode then (Ulid.new? rest).map .episode
      else if word = wordEntity ∧ trim rest ≠ [] then some (.entity (trim rest))
      else if word = wordDocs ∧ spaceToken rest = true then some (.docs (some (trim rest)))
      else if word = wordDoc then
        match splitOnce '/' rest with
        | none => none
        | some (space, title) =>
          if spaceToken space = true ∧ trim title ≠ [] then some (.doc (trim space) (trim title))
          else none
      else (Ulid.new? raw).map .unqualified

/-- The space a reference looks in: its own, or the one asked for. -/
def requested (space : Option Text) : Reference → Option Text
  | .doc own _ => some own
  | .docs (some own) => some own
  | .stats => some (space.getD keywordAll)
  | _ => space

end Reference

/-! ### How a title is found by its reference -/

theorem splitOnce_append {mark : Char} {front back : Text} (h : mark ∉ front) :
    splitOnce mark (front ++ mark :: back) = some (front, back) := by
  induction front with
  | nil => simp [splitOnce]
  | cons c cs ih =>
    rw [List.mem_cons, not_or] at h
    simp [splitOnce, Ne.symm h.1, ih h.2]

theorem isSlugChar_of_mem {name : Text} (h : isSlug name = true) {c : Char} (hc : c ∈ name) :
    isSlugChar c = true := by
  simp only [isSlug, Bool.and_eq_true, List.all_eq_true] at h
  exact h.2 c hc

/-- A slug holds neither whitespace nor a slash. -/
theorem slug_plain {c : Char} (h : isSlugChar c = true) : isWhitespace c = false ∧ c ≠ '/' := by
  simp only [isSlugChar, Bool.or_eq_true, Bool.and_eq_true, decide_eq_true_eq, beq_iff_eq] at h
  refine ⟨?_, ?_⟩
  · simp only [isWhitespace, Bool.or_eq_false_iff, Bool.and_eq_false_iff, decide_eq_false_iff_not,
      beq_eq_false_iff_ne]
    omega
  · rintro rfl
    simp at h

theorem trimmed_of_plain {text : Text} (h : ∀ c ∈ text, isWhitespace c = false) : Trimmed text :=
  ⟨fun c hc => h c (List.mem_of_head? hc), fun c hc => h c (List.mem_of_getLast? hc)⟩

/-- A place a write lands in: no space named, an alias, or a slug. -/
def Place (token : Text) : Prop := token ≠ keywordAll ∧ isSlug token = true

theorem Place.plain {token : Text} (h : Place token) {c : Char} (hc : c ∈ token) :
    isWhitespace c = false ∧ c ≠ '/' := slug_plain (isSlugChar_of_mem h.2 hc)

theorem Place.trim_eq {token : Text} (h : Place token) : trim token = token :=
  trim_of_trimmed (trimmed_of_plain fun _ hc => (h.plain hc).1)

theorem Place.spaceToken_eq {token : Text} (h : Place token) : spaceToken token = true := by
  have hnew : (SpaceName.new? token).isSome = true := by simp [SpaceName.new?, h.2]
  simp [spaceToken, h.trim_eq, h.1, hnew]

namespace Reference

/-- A title under a space is read back, less the whitespace around it. -/
theorem parse_doc {space title : Text} (hs : Place space) (ht : trim title ≠ []) :
    parse (wordDoc ++ ':' :: (space ++ '/' :: title)) = some (.doc space (trim title)) := by
  obtain ⟨before, after, hb, ha, htitle⟩ := exists_trim title
  let front : Text := wordDoc ++ ':' :: (space ++ '/' :: before)
  have hraw : trim (wordDoc ++ ':' :: (space ++ '/' :: title)) = front ++ trim title := by
    have htrimmed : Trimmed (front ++ trim title) := by
      refine ⟨fun c hc => ?_, fun c hc => ?_⟩
      · have hd : c = 'd' := by simpa [front, wordDoc] using hc.symm
        rw [hd]
        decide
      · rw [List.getLast?_append_of_ne_nil _ ht] at hc
        exact (trim_trimmed title).last c hc
    have hsplit :
        wordDoc ++ ':' :: (space ++ '/' :: title) = [] ++ (front ++ trim title) ++ after := by
      conv_lhs => rw [htitle]
      simp [front]
    rw [hsplit]
    exact trim_surrounded rfl ha htrimmed (by simp [front])
  have hcolon : splitOnce ':' (front ++ trim title) =
      some (wordDoc, space ++ '/' :: (before ++ trim title)) := by
    have hdoc : splitOnce ':' (wordDoc ++ ':' :: (space ++ '/' :: (before ++ trim title))) =
        some (wordDoc, space ++ '/' :: (before ++ trim title)) := splitOnce_append (by decide)
    simpa [front] using hdoc
  have hslash : splitOnce '/' (space ++ '/' :: (before ++ trim title)) =
      some (space, before ++ trim title) :=
    splitOnce_append fun hc => (hs.plain hc).2 rfl
  have hrest : trim (before ++ trim title) = trim title := by
    have htrim : trim (before ++ trim title ++ []) = trim title :=
      trim_surrounded hb rfl (trim_trimmed title) ht
    simpa using htrim
  have hstats : front ++ trim title ≠ wordStats := by simp [front, wordDoc, wordStats]
  have hdocs : front ++ trim title ≠ wordDocs := by simp [front, wordDoc, wordDocs]
  have hwords : wordDoc ≠ wordMemory ∧ wordDoc ≠ wordEpisode ∧ wordDoc ≠ wordEntity ∧
      wordDoc ≠ wordDocs := by decide
  simp [parse, hraw, hstats, hdocs, hcolon, hwords, hslash, hrest, hs.spaceToken_eq, hs.trim_eq, ht]

/-- An episode is named by its id. -/
theorem parse_episode (id : Ulid) : parse (wordEpisode ++ ':' :: id.text) = some (.episode id) := by
  have hid := Bool.and_eq_true_iff.mp id.ulid
  have hword : wordEpisode.all (fun c => !isWhitespace c) = true := by decide
  have hplain : ∀ c ∈ wordEpisode ++ ':' :: id.text, isWhitespace c = false := by
    intro c hc
    rw [List.mem_append, List.mem_cons] at hc
    rcases hc with hc | rfl | hc
    · simpa using List.all_eq_true.mp hword c hc
    · decide
    · exact not_isWhitespace_of_isUlidChar (List.all_eq_true.mp hid.2 c hc)
  have hcolon : splitOnce ':' (wordEpisode ++ ':' :: id.text) = some (wordEpisode, id.text) :=
    splitOnce_append (by decide)
  have hstats : wordEpisode ++ ':' :: id.text ≠ wordStats := by simp [wordEpisode, wordStats]
  have hdocs : wordEpisode ++ ':' :: id.text ≠ wordDocs := by simp [wordEpisode, wordDocs]
  have hword : wordEpisode ≠ wordMemory := by decide
  have hnew : Ulid.new? id.text = some id := dif_pos id.ulid
  simp [parse, trim_of_trimmed (trimmed_of_plain hplain), hstats, hdocs, hcolon, hword, hnew]

end Reference

end Agmem.Tools.Inspect
