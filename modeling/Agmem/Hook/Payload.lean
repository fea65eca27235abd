import Agmem.Json.Decode
import Agmem.Json.Floats
import Agmem.Core.Dedup

/-! What a hook reads off its payload: whether a command pushed, which tool of the server was
called, and the answer of that tool, whatever wrapping it comes in. -/

namespace Agmem.Hook

open Core Json

/-! ### Commands -/

/-- What is between quotes is dropped, with the quotes; `mark` is the one that is open. -/
def stripFrom : Option Char → Text → Text
  | _, [] => []
  | some mark, c :: text => if c = mark then stripFrom none text else stripFrom (some mark) text
  | none, c :: text =>
    if c = quote ∨ c = Char.ofNat 39 then stripFrom (some c) text else c :: stripFrom none text

def stripQuoted (command : Text) : Text := stripFrom none command

def GIT : Text := ['g', 'i', 't']

def PUSH_COMMAND : Text := ['p', 'u', 's', 'h']

def isGit (word : Text) : Bool := decide (word = GIT) || ('/' :: GIT).isSuffixOf word

/-- The words from the first that is not a global option; `-C` and `-c` take a value. -/
def skipOptions : List Text → List Text
  | [] => []
  | [word] => if word.head? = some '-' then [] else [word]
  | word :: value :: words =>
    if word = ['-', 'C'] ∨ word = ['-', 'c'] then skipOptions words
    else if word.head? = some '-' then skipOptions (value :: words)
    else word :: value :: words

def isParen (word : Text) : Bool := decide (word = ['('])

def isPushSegment (segment : Text) : Bool :=
  match (splitWhitespace segment).dropWhile isParen with
  | [] => false
  | word :: words => isGit word && decide ((skipOptions words).head? = some PUSH_COMMAND)

def isSeparator (c : Char) : Bool := decide (c = '|' ∨ c = ';' ∨ c = '&' ∨ c = '\n')

/-- A real `git push`, not the word inside a commit message or an echo. -/
def isPush (command : Text) : Bool :=
  ((stripQuoted command).splitOnP isSeparator).any isPushSegment

/-! ### Tools -/

/-- `str::rsplit_once("__")`, on the text read backwards. -/
def splitLast : Text → Option (Text × Text)
  | '_' :: '_' :: before => some (before, [])
  | c :: before => (splitLast before).map fun parts => (parts.1, c :: parts.2)
  | [] => none

/-- The server and the tool that an MCP tool name names. -/
def mcpParts (tool : Text) : Option (Text × Text) :=
  if ['m', 'c', 'p', '_', '_'].isPrefixOf tool then
    (splitLast (tool.drop 5).reverse).map fun parts => (parts.1.reverse, parts.2.reverse)
  else none

/-! ### Answers -/

/-- The first block whose text is JSON. -/
def parseBlocks [Floats] : Json → Option Json
  | .arr blocks =>
    blocks.findSome? fun block => ((block.get "text".toList).bind str?).bind fromStr
  | _ => none

/-- The structured answer of a tool, whatever wrapping the payload gave it. -/
def responseBody [Floats] (response : Json) : Json :=
  match response with
  | .obj _ => ((response.get "content".toList).bind parseBlocks).getD response
  | .str text => (fromStr text).getD .null
  | .arr _ => (parseBlocks response).getD .null
  | _ => .null

/-- The string field `key` of every object in the array under `step`. -/
def stringsAt (body : Json) (step key : Text) : List Text :=
  match (body.get step).bind array? with
  | none => []
  | some items => items.filterMap fun item => (item.get key).bind str?

/-- The ids of what a `remember` created. -/
def createdIds (body : Json) : List Text :=
  match (body.get "created".toList).bind array? with
  | none => []
  | some created => created.filterMap fun c =>
    match str? c with
    | some id => some id
    | none => (c.get "id".toList).bind str?

/-- The strings of an array under `key`. -/
def textsAt (value : Json) (key : Text) : List Text :=
  match (value.get key).bind array? with
  | none => []
  | some items => items.filterMap str?

/-! ### What counts as a push -/

/-- A text without what is quoted in it; the last quote may be left open. -/
inductive Unquoted : Text → Text → Prop
  | nil : Unquoted [] []
  | plain {c : Char} {text out : Text} (bare : ¬ (c = quote ∨ c = Char.ofNat 39))
      (h : Unquoted text out) : Unquoted (c :: text) (c :: out)
  | quoted {mark : Char} {inside text out : Text} (opens : mark = quote ∨ mark = Char.ofNat 39)
      (clear : mark ∉ inside) (h : Unquoted text out) :
      Unquoted (mark :: inside ++ mark :: text) out
  | unclosed {mark : Char} {inside : Text} (opens : mark = quote ∨ mark = Char.ofNat 39)
      (clear : mark ∉ inside) : Unquoted (mark :: inside) []

/-- A simple command of a line: it reaches from one separator to the next. -/
def Segment (text segment : Text) : Prop :=
  (∀ c ∈ segment, isSeparator c = false) ∧ ∃ before after, text = before ++ segment ++ after ∧
    (∀ c ∈ before.getLast?, isSeparator c = true) ∧ (∀ c ∈ after.head?, isSeparator c = true)

/-- Global options of `git`, with the values of those that take one. -/
inductive Options : List Text → Prop
  | nil : Options []
  | value {word value : Text} {words : List Text} (takes : word = ['-', 'C'] ∨ word = ['-', 'c'])
      (h : Options words) : Options (word :: value :: words)
  | flag {word : Text} {words : List Text} (dash : word.head? = some '-')
      (alone : ¬ (word = ['-', 'C'] ∨ word = ['-', 'c'])) (h : Options words) :
      Options (word :: words)

/-- The words of a command that pushes: it may stand in parentheses, and `git` may be told where to
run. -/
inductive Pushes : List Text → Prop
  | intro {parens options rest : List Text} {git : Text} (group : ∀ w ∈ parens, w = ['('])
      (program : isGit git = true) (global : Options options) :
      Pushes (parens ++ git :: (options ++ PUSH_COMMAND :: rest))

section Push

variable {command text out segment : Text} {words : List Text}

/-- Up to the closing quote all is dropped. -/
theorem stripFrom_quoted {mark : Char} {inside : Text} (clear : mark ∉ inside) (text : Text) :
    stripFrom (some mark) (inside ++ mark :: text) = stripFrom none text := by
  induction inside with
  | nil => rw [List.nil_append, stripFrom, if_pos rfl]
  | cons c inside ih =>
    obtain ⟨hc, hinside⟩ := not_or.mp (mt List.mem_cons.mpr clear)
    rw [List.cons_append, stripFrom, if_neg (Ne.symm hc), ih hinside]

theorem stripFrom_unclosed {mark : Char} {inside : Text} (clear : mark ∉ inside) :
    stripFrom (some mark) inside = [] := by
  induction inside with
  | nil => rfl
  | cons c inside ih =>
    obtain ⟨hc, hinside⟩ := not_or.mp (mt List.mem_cons.mpr clear)
    rw [stripFrom, if_neg (Ne.symm hc), ih hinside]

theorem unquoted_stripFrom (text : Text) : Unquoted text (stripFrom none text) := by
  induction hlen : text.length using Nat.strong_induction_on generalizing text with
  | _ n ih =>
    cases text with
    | nil => exact .nil
    | cons c text =>
      subst hlen
      rw [stripFrom]
      split_ifs with hopens
      · by_cases hclosed : c ∈ text
        · obtain ⟨inside, rest, rfl, clear⟩ := List.eq_append_cons_of_mem hclosed
          rw [stripFrom_quoted clear]
          exact .quoted hopens clear (ih _ (by simp; omega) rest rfl)
        · rw [stripFrom_unclosed hclosed]
          exact .unclosed hopens hclosed
      · exact .plain hopens (ih _ (by simp) text rfl)

theorem Unquoted.eq_stripQuoted (h : Unquoted text out) : out = stripQuoted text := by
  unfold stripQuoted
  induction h with
  | nil => rfl
  | plain bare h ih => rw [stripFrom, if_neg bare, ← ih]
  | quoted opens clear h ih =>
    rw [List.cons_append, stripFrom, if_pos opens, stripFrom_quoted clear, ih]
  | unclosed opens clear => rw [stripFrom, if_pos opens, stripFrom_unclosed clear]

theorem Segment.mem_splitOnP (h : Segment text segment) : segment ∈ text.splitOnP isSeparator := by
  obtain ⟨hclear, before, after, rfl, hbefore, hafter⟩ := h
  have hfirst : segment ∈ (segment ++ after).splitOnP isSeparator := by
    cases after with
    | nil => simp [List.splitOnP_eq_singleton hclear]
    | cons sep after =>
      rw [List.splitOnP_append_cons_of_forall_mem hclear _ (hafter sep rfl)]
      exact List.mem_cons_self
  rcases List.eq_nil_or_concat before with rfl | ⟨before, sep, rfl⟩
  · exact hfirst
  · have hsep : isSeparator sep = true := hbefore sep (by simp)
    rw [List.concat_eq_append, List.append_assoc, List.append_assoc, List.singleton_append,
      List.splitOnP_append_cons _ _ hsep]
    exact List.mem_append_right _ hfirst

/-- A segment on either side of a separator. -/
theorem Segment.append_left (h : Segment text segment) {sep : Char} (hsep : isSeparator sep = true)
    (rest : Text) : Segment (text ++ sep :: rest) segment := by
  obtain ⟨hclear, before, after, rfl, hbefore, hafter⟩ := h
  refine ⟨hclear, before, after ++ sep :: rest, by simp, hbefore, ?_⟩
  cases after with
  | nil => simpa using hsep
  | cons c after => exact hafter

theorem Segment.append_right (h : Segment text segment) {sep : Char} (hsep : isSeparator sep = true)
    (first : Text) : Segment (first ++ sep :: text) segment := by
  obtain ⟨hclear, before, after, rfl, hbefore, hafter⟩ := h
  refine ⟨hclear, first ++ sep :: before, after, by simp, ?_, hafter⟩
  cases before with
  | nil => simpa using hsep
  | cons c before =>
    rw [List.getLast?_append_cons, List.getLast?_cons_cons]
    exact hbefore

theorem segment_of_mem (h : segment ∈ text.splitOnP isSeparator) : Segment text segment := by
  induction hlen : text.length using Nat.strong_induction_on generalizing text with
  | _ n ih =>
    subst hlen
    by_cases hclear : ∀ c ∈ text, isSeparator c = false
    · rw [List.splitOnP_eq_singleton hclear, List.mem_singleton] at h
      subst h
      exact ⟨hclear, [], [], by simp, nofun, nofun⟩
    · push Not at hclear
      obtain ⟨sep, hmem, hsep⟩ := hclear
      obtain ⟨first, rest, rfl⟩ := List.append_of_mem hmem
      replace hsep : isSeparator sep = true := Bool.eq_true_of_not_eq_false hsep
      rw [List.splitOnP_append_cons _ _ hsep] at h
      rcases List.mem_append.mp h with h | h
      · exact (ih _ (by simp) h rfl).append_left hsep rest
      · exact (ih _ (by simp; omega) h rfl).append_right hsep first

theorem skipOptions_options {options : List Text} (h : Options options) (rest : List Text) :
    skipOptions (options ++ PUSH_COMMAND :: rest) = PUSH_COMMAND :: rest := by
  induction h with
  | nil => cases rest <;> rfl
  | value takes h ih => rw [List.cons_append, List.cons_append, skipOptions, if_pos takes, ih]
  | @flag word words dash alone h ih =>
    rw [List.cons_append]
    cases hrest : words ++ PUSH_COMMAND :: rest with
    | nil => exact absurd hrest (List.append_ne_nil_of_right_ne_nil _ (List.cons_ne_nil _ _))
    | cons value words => rw [skipOptions, if_neg alone, if_pos dash, ← hrest, ih]

theorem options_skipOptions {w : Text} {rest : List Text} (h : skipOptions words = w :: rest) :
    ∃ options, Options options ∧ words = options ++ w :: rest := by
  fun_induction skipOptions words with
  | case1 => cases h
  | case2 word hdash => cases h
  | case3 word hdash =>
    cases h
    exact ⟨[], .nil, rfl⟩
  | case4 word value words takes ih =>
    obtain ⟨options, hoptions, rfl⟩ := ih h
    exact ⟨word :: value :: options, .value takes hoptions, rfl⟩
  | case5 word value words takes hdash ih =>
    obtain ⟨options, hoptions, hwords⟩ := ih h
    exact ⟨word :: options, .flag hdash takes hoptions, by rw [hwords]; rfl⟩
  | case6 word value words takes hdash =>
    cases h
    exact ⟨[], .nil, rfl⟩

theorem isPushSegment_iff :
    isPushSegment segment = true ↔ Pushes (splitWhitespace segment) := by
  unfold isPushSegment
  generalize splitWhitespace segment = words
  constructor
  · intro h
    cases hwords : words.dropWhile isParen with
    | nil =>
      rw [hwords] at h
      cases h
    | cons git words' =>
      rw [hwords] at h
      obtain ⟨hgit, hpush⟩ := Bool.and_eq_true_iff.mp h
      obtain ⟨rest, hrest⟩ := List.head?_eq_some_iff.mp (of_decide_eq_true hpush)
      obtain ⟨options, hoptions, rfl⟩ := options_skipOptions hrest
      rw [← List.takeWhile_append_dropWhile (p := isParen) (l := words),
        hwords]
      refine .intro (fun w hw => ?_) hgit hoptions
      exact of_decide_eq_true (List.mem_takeWhile_imp (p := isParen) hw)
  · rintro ⟨hparens, hgit, hoptions⟩
    rename_i parens options rest git
    have hopen : ¬ isParen git = true := by
      intro h
      rw [of_decide_eq_true h] at hgit
      exact absurd hgit (by decide)
    have hparen : ∀ w ∈ parens, isParen w = true := fun w hw => decide_eq_true (hparens w hw)
    rw [List.dropWhile_append_of_pos hparen, List.dropWhile_cons_of_neg hopen]
    simp [hgit, skipOptions_options hoptions]

/-- A command counts as a push exactly if one of its simple commands is `git push`, whatever stands
in its quotes. -/
theorem isPush_iff : isPush command = true ↔
    ∃ out segment, Unquoted command out ∧ Segment out segment ∧
      Pushes (splitWhitespace segment) := by
  rw [isPush, List.any_eq_true]
  constructor
  · rintro ⟨segment, hmem, hpush⟩
    exact ⟨_, segment, unquoted_stripFrom command, segment_of_mem hmem, isPushSegment_iff.mp hpush⟩
  · rintro ⟨out, segment, hout, hsegment, hpush⟩
    rw [hout.eq_stripQuoted] at hsegment
    exact ⟨segment, hsegment.mem_splitOnP, isPushSegment_iff.mpr hpush⟩

end Push

/-! ### Wrappings -/

section Wrappings

variable [Floats]

/-- An object with nothing under `content` that could be taken for its blocks. -/
def Plain (body : Json) : Prop :=
  (∃ members, body = .obj members) ∧ (body.get "content".toList).bind parseBlocks = none

/-- A block whose text says nothing. -/
def Mute (block : Json) : Prop := ((block.get "text".toList).bind str?).bind fromStr = none

/-- The ways an answer comes in: as it is, as its text, as the blocks that carry the text, and as an
object around those. -/
inductive Wraps (body : Json) : Json → Prop
  | itself : Wraps body body
  | text {rest : Text} (blank : skip rest = []) : Wraps body (.str (print body ++ rest))
  | blocks {before after : List Json} {block : Json} {rest : Text}
      (mute : ∀ b ∈ before, Mute b) (blank : skip rest = [])
      (carries : (block.get "text".toList).bind str? = some (print body ++ rest)) :
      Wraps body (.arr (before ++ block :: after))
  | content {members : List (Text × Json)} {before after : List Json} {block : Json} {rest : Text}
      (mute : ∀ b ∈ before, Mute b) (blank : skip rest = [])
      (carries : (block.get "text".toList).bind str? = some (print body ++ rest))
      (holds : (Json.obj members).get "content".toList = some (.arr (before ++ block :: after))) :
      Wraps body (.obj members)

variable {body response : Json}

theorem parseBlocks_carries {before after : List Json} {block : Json} {rest : Text}
    (hdepth : depth body < RECURSION_LIMIT) (hexact : Exact body) (mute : ∀ b ∈ before, Mute b)
    (blank : skip rest = [])
    (carries : (block.get "text".toList).bind str? = some (print body ++ rest)) :
    parseBlocks (.arr (before ++ block :: after)) = some body := by
  have hbefore : before.findSome? (fun block =>
      ((block.get "text".toList).bind str?).bind fromStr) = none :=
    List.findSome?_eq_none_iff.mpr mute
  rw [parseBlocks, List.findSome?_append, hbefore, Option.none_or, List.findSome?_cons, carries,
    Option.bind_some, fromStr_print hdepth hexact blank]

/-- The answer of a tool is found in each of its wrappings, unless it is nested too deep or has a
float that is not read as it was printed. -/
theorem responseBody_wraps (hplain : Plain body) (hdepth : depth body < RECURSION_LIMIT)
    (hexact : Exact body) (h : Wraps body response) : responseBody response = body := by
  obtain ⟨⟨members, rfl⟩, hcontent⟩ := hplain
  cases h with
  | itself => rw [responseBody, hcontent, Option.getD_none]
  | text blank => rw [responseBody, fromStr_print hdepth hexact blank, Option.getD_some]
  | blocks mute blank carries =>
    rw [responseBody, parseBlocks_carries hdepth hexact mute blank carries, Option.getD_some]
  | content mute blank carries holds =>
    rw [responseBody, holds, Option.bind_some,
      parseBlocks_carries hdepth hexact mute blank carries, Option.getD_some]

end Wrappings

/-- `0.5`, which is a float exactly. -/
def half : Json.Number := ⟨['0', '.', '5'], by decide⟩

/-- Only `0.5` is read. -/
@[reducible]
def halves : Floats := ⟨fun n => if n = half then some n else none⟩

/-- What a `recall` that found one claim answers. -/
def oneFound : Json :=
  .obj [("hits".toList, .arr [.obj [("id".toList, .str "a".toList), ("score".toList, .num half)]]),
    ("total".toList, .num (.ofNat 1))]

/-- A block that is no text stands before the one with the answer. -/
theorem responseBody_wraps_blocks : @responseBody halves (.obj [("content".toList,
    .arr [.null, .obj [("text".toList, .str (print oneFound ++ ['\n']))]])]) = oneFound :=
  @responseBody_wraps halves _ _ ⟨⟨_, rfl⟩, rfl⟩ (by decide)
    ⟨⟨⟨trivial, .inr rfl, trivial⟩, trivial⟩, .inl rfl, trivial⟩
    (@Wraps.content halves _ _ [.null] [] _ ['\n'] (List.forall_mem_singleton.mpr rfl) rfl rfl rfl)

end Agmem.Hook
