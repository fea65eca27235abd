import Agmem.Json.Lines
import Agmem.Json.Decode
import Agmem.Hook.Log

/-! The log as it stands in its file, one JSON object a line. Every hook reads the whole file anew
and passes over what it cannot read, and what it writes goes to the end in one piece. -/

namespace Agmem.Hook.Lines

open Core Json

/-! ### Lines -/

/-- One line of the session log. -/
structure Line where
  /-- When it happened, RFC 3339. -/
  at_ : Text
  kind : Text
  name : Text
  ids : List Text
  cites : List Text
deriving DecidableEq

def textsJson (texts : List Text) : Json := .arr (texts.map .str)

def readTexts : Json → Option (List Text)
  | .arr items => items.mapM str?
  | _ => none

/-- `skip_serializing_if = "Vec::is_empty"` -/
def unlessEmpty (key : Text) (texts : List Text) : List (Text × Json) :=
  if texts = [] then [] else [(key, textsJson texts)]

def AT : Text := "at".toList

def KIND : Text := "kind".toList

def NAME : Text := "name".toList

def IDS : Text := "ids".toList

def CITES : Text := "cites".toList

def Line.members (line : Line) : List (Text × Json) :=
  (AT, .str line.at_) :: (KIND, .str line.kind) :: (NAME, .str line.name) ::
    (unlessEmpty IDS line.ids ++ unlessEmpty CITES line.cites)

/-- An array stands for the fields in their order, and may leave out the last two. -/
def readSeq : List Json → Option Line
  | [.str at_, .str kind, .str name] => some ⟨at_, kind, name, [], []⟩
  | [.str at_, .str kind, .str name, ids] =>
    (readTexts ids).map fun ids => ⟨at_, kind, name, ids, []⟩
  | [.str at_, .str kind, .str name, ids, cites] =>
    match readTexts ids, readTexts cites with
    | some ids, some cites => some ⟨at_, kind, name, ids, cites⟩
    | _, _ => none
  | _ => none

def Line.read : Json → Option Line
  | .obj members =>
    match required str? AT members, required str? KIND members, required str? NAME members,
        withDefault readTexts [] IDS members, withDefault readTexts [] CITES members with
    | some at_, some kind, some name, some ids, some cites => some ⟨at_, kind, name, ids, cites⟩
    | _, _, _, _, _ => none
  | .arr elements => readSeq elements
  | _ => none

variable {line : Line} {texts : List Text}

theorem readTexts_json (texts : List Text) : readTexts (textsJson texts) = some texts := by
  show (texts.map Json.str).mapM str? = some texts
  induction texts with
  | nil => rfl
  | cons text texts ih => simp [List.mapM_cons, str?, ih]

theorem key_of_mem {key other : Text} {v : Json} (h : (other, v) ∈ unlessEmpty key texts) :
    other = key := by
  unfold unlessEmpty at h
  split_ifs at h
  · cases h
  · exact (Prod.mk.inj (List.mem_singleton.mp h)).1

/-- The keys of a line are in their order, and the last two may be missing. -/
theorem keys_sublist (line : Line) :
    List.Sublist (line.members.map Prod.fst) [AT, KIND, NAME, IDS, CITES] := by
  have hkeys (key : Text) (texts : List Text) :
      List.Sublist ((unlessEmpty key texts).map Prod.fst) [key] := by
    unfold unlessEmpty
    split_ifs
    · exact List.nil_sublist _
    · exact .refl _
  simp only [Line.members, List.map_cons, List.map_append]
  have hlists := (hkeys IDS line.ids).append (hkeys CITES line.cites)
  exact ((hlists.cons_cons _).cons_cons _).cons_cons _

theorem members_nodup (line : Line) : (line.members.map Prod.fst).Nodup :=
  (keys_sublist line).nodup (by decide)

/-- Texts that are left out when there are none are read as none. -/
theorem withDefault_unlessEmpty {key : Text} {members : List (Text × Json)}
    (hnodup : (members.map Prod.fst).Nodup)
    (hmem : ∀ v, (key, v) ∈ members ↔ (key, v) ∈ unlessEmpty key texts) :
    withDefault readTexts [] key members = some texts := by
  by_cases hempty : texts = []
  · subst hempty
    refine withDefault_of_notMem fun h => ?_
    obtain ⟨⟨_, v⟩, hv, rfl⟩ := List.mem_map.mp h
    simpa [unlessEmpty] using (hmem v).mp hv
  · have hthere : (key, textsJson texts) ∈ members := (hmem _).mpr (by simp [unlessEmpty, hempty])
    rw [withDefault_of_mem hnodup hthere, readTexts_json]

theorem read_json (line : Line) : Line.read (.obj line.members) = some line := by
  have hnodup := members_nodup line
  have hids : withDefault readTexts [] IDS line.members = some line.ids := by
    refine withDefault_unlessEmpty hnodup fun v => ?_
    have hother : (IDS, v) ∉ unlessEmpty CITES line.cites := fun h =>
      absurd (key_of_mem h) (by decide)
    have hkeys : IDS ≠ AT ∧ IDS ≠ KIND ∧ IDS ≠ NAME := by decide
    simp [Line.members, hother, hkeys]
  have hcites : withDefault readTexts [] CITES line.members = some line.cites := by
    refine withDefault_unlessEmpty hnodup fun v => ?_
    have hother : (CITES, v) ∉ unlessEmpty IDS line.ids := fun h =>
      absurd (key_of_mem h) (by decide)
    have hkeys : CITES ≠ AT ∧ CITES ≠ KIND ∧ CITES ≠ NAME := by decide
    simp [Line.members, hother, hkeys]
  have hat : (AT, Json.str line.at_) ∈ line.members := List.mem_cons_self
  have hkind : (KIND, Json.str line.kind) ∈ line.members :=
    List.mem_cons_of_mem _ List.mem_cons_self
  have hname : (NAME, Json.str line.name) ∈ line.members :=
    List.mem_cons_of_mem _ (List.mem_cons_of_mem _ List.mem_cons_self)
  rw [Line.read, required_of_mem hnodup hat, required_of_mem hnodup hkind,
    required_of_mem hnodup hname, hids, hcites]
  rfl

theorem depth_json (line : Line) : depth (.obj line.members) < RECURSION_LIMIT := by
  have htexts (texts : List Text) : depthElements (texts.map .str) = 0 := by
    induction texts with
    | nil => rfl
    | cons text texts ih => simp [depthElements, depth, ih]
  have hmembers (key : Text) (texts : List Text) (rest : List (Text × Json)) :
      depthMembers (unlessEmpty key texts ++ rest) ≤ max 1 (depthMembers rest) := by
    unfold unlessEmpty
    split_ifs
    · exact le_max_right ..
    · simp [depthMembers, textsJson, depth, htexts]
  have hcites := hmembers CITES line.cites []
  have hids := hmembers IDS line.ids (unlessEmpty CITES line.cites)
  simp only [List.append_nil, depthMembers] at hcites
  simp only [Line.members, depth, depthMembers, RECURSION_LIMIT]
  omega

/-- An entry is written on one line, and read from it. -/
def format : Format Line where
  print line := print (.obj line.members)
  read text := (parse text).bind Line.read
  oneLine line c hc := by
    have hgraphic : Graphic c := print_graphic _ c hc
    constructor <;> (rintro rfl; exact absurd hgraphic (by decide))
  reads line := by
    have hparse := parse_print (depth_json line) (rfl : skip [] = [])
    rw [List.append_nil] at hparse
    rw [hparse, Option.bind_some, read_json]

/-! ### The file -/

structure Written where
  content : Text
  modified : Timestamp

def kindText : EntryKind → Text
  | .recall => "recall".toList
  | .write => "write".toList
  | .nudge => "nudge".toList

/-- `Session::entries` -/
def entries (file : Option Written) : List Line := format.entries (file.elim [] Written.content)

def append (file : Option Written) (line : Line) (now : Timestamp) : Option Written :=
  some ⟨file.elim [] Written.content ++ format.line line, now⟩

def seen (log : List Line) (id : Text) : Bool :=
  log.any fun e => decide (e.kind = kindText .nudge) && decide (e.name = id)

def recalled (log : List Line) : List Text :=
  ((log.reverse.filter fun e => decide (e.kind = kindText .recall)).flatMap Line.ids).eraseDups

def wrote (log : List Line) : Bool := log.any fun e => decide (e.kind = kindText .write)

def prune (file : Option Written) (now : Timestamp) : Option Written :=
  file.filter fun f => !decide (f.modified < now - LOG_RETENTION_DAYS * day)

/-- What a hook does to the log at once. -/
inductive Op where
  | append (kind : EntryKind) (name : Text) (ids cites : List Text)
  | firstTime (id : Text)
  | recalled
  | wrote
  | prune
deriving DecidableEq

inductive Answer where
  | done
  | first (answer : Bool)
  | ids (ids : List Text)
  | wrote (answer : Bool)
deriving DecidableEq

/-- On the entries. -/
def Op.abstract (file : Option File) (now : Timestamp) : Op → Option File × Answer
  | .append kind name ids cites => (Hook.append file ⟨now, kind, name, ids, cites⟩ now, .done)
  | .firstTime id => ((Hook.firstTime file id now).1, .first (Hook.firstTime file id now).2)
  | .recalled => (file, .ids (Hook.recalled (Hook.entries file true)))
  | .wrote => (file, .wrote (Hook.wrote (Hook.entries file true)))
  | .prune => (Hook.prune file now, .done)

variable (stamp : Timestamp → Text)

/-- On the text; `stamp` writes the time. -/
def Op.run (file : Option Written) (now : Timestamp) : Op → Option Written × Answer
  | .append kind name ids cites =>
    (Lines.append file ⟨stamp now, kindText kind, name, ids, cites⟩ now, .done)
  | .firstTime id =>
    if seen (entries file) id then (file, .first false)
    else (Lines.append file ⟨stamp now, kindText .nudge, id, [], []⟩ now, .first true)
  | .recalled => (file, .ids (Lines.recalled (entries file)))
  | .wrote => (file, .wrote (Lines.wrote (entries file)))
  | .prune => (Lines.prune file now, .done)

/-- The answers of operations one after another. -/
def answers (file : Option Written) : List (Op × Timestamp) → List Answer
  | [] => []
  | (op, now) :: ops => (op.run stamp file now).2 :: answers (op.run stamp file now).1 ops

def abstractAnswers (file : Option File) : List (Op × Timestamp) → List Answer
  | [] => []
  | (op, now) :: ops => (op.abstract file now).2 :: abstractAnswers (op.abstract file now).1 ops

/-! ### The text of a log -/

def Line.of (entry : Entry) : Line :=
  ⟨stamp entry.at_, kindText entry.kind, entry.name, entry.ids, entry.cites⟩

def render (file : Option File) : Option Written :=
  file.map fun f => ⟨format.text (f.lines.map (Line.of stamp)), f.modified⟩

variable {file : Option File} {log : List Entry}

theorem kindText_injective : Function.Injective kindText := by
  intro a b h
  cases a <;> cases b <;> first | rfl | exact absurd h (by decide)

theorem entries_render (file : Option File) :
    entries (render stamp file) = (Hook.entries file true).map (Line.of stamp) := by
  cases file with
  | none => rfl
  | some f => exact format.entries_text _

theorem append_render (entry : Entry) (now : Timestamp) :
    append (render stamp file) (Line.of stamp entry) now =
      render stamp (Hook.append file entry now) := by
  cases file <;> simp [append, render, Hook.append, Format.text]

theorem seen_of (id : Text) : seen (log.map (Line.of stamp)) id = Hook.seen log id := by
  unfold seen Hook.seen
  rw [List.any_map]
  refine congrArg (List.any log) (funext fun e => ?_)
  have hkind : (Line.of stamp e).kind = kindText .nudge ↔ e.kind = .nudge :=
    kindText_injective.eq_iff
  simp only [Function.comp_apply, hkind]
  rfl

theorem recalled_of : recalled (log.map (Line.of stamp)) = Hook.recalled log := by
  simp only [recalled, Hook.recalled, ← List.map_reverse, List.filter_map, List.flatMap_map,
    Line.of, Function.comp_def, kindText_injective.eq_iff]

theorem wrote_of : wrote (log.map (Line.of stamp)) = Hook.wrote log := by
  simp only [wrote, Hook.wrote, Line.of, List.any_map, Function.comp_def, kindText_injective.eq_iff]

theorem prune_render (now : Timestamp) :
    prune (render stamp file) now = render stamp (Hook.prune file now) := by
  cases file with
  | none => rfl
  | some f =>
    simp only [prune, render, Hook.prune, Option.map_some, Option.filter_some]
    split_ifs <;> rfl

/-- An operation does to the text what it does to the entries. -/
theorem run_render (op : Op) (now : Timestamp) : op.run stamp (render stamp file) now =
    (render stamp (op.abstract file now).1, (op.abstract file now).2) := by
  cases op with
  | append kind name ids cites =>
    rw [Op.run, Op.abstract, ← append_render]
    rfl
  | firstTime id =>
    rw [Op.run, entries_render, seen_of, Op.abstract, Hook.firstTime]
    split_ifs
    · rfl
    · rw [← append_render]
      rfl
  | recalled => rw [Op.run, entries_render, recalled_of, Op.abstract]
  | wrote => rw [Op.run, entries_render, wrote_of, Op.abstract]
  | prune => rw [Op.run, prune_render, Op.abstract]

theorem answers_render (file : Option File) (ops : List (Op × Timestamp)) :
    answers stamp (render stamp file) ops = abstractAnswers file ops := by
  induction ops generalizing file with
  | nil => rfl
  | cons op ops ih => rw [answers, abstractAnswers, run_render, ih]

/-- Whatever the hooks of a session do to a log, one after another, each reads from its text what it
would read from its entries. -/
theorem log_simulated (ops : List (Op × Timestamp)) :
    answers stamp none ops = abstractAnswers none ops :=
  answers_render stamp none ops

/-! ### A file with anything in it -/

/-- How often a nudge is said to be the first of its kind. -/
def told (file : Option Written) (id : Text) : List (Op × Timestamp) → ℕ
  | [] => 0
  | (op, now) :: ops =>
    (if op = .firstTime id ∧ (op.run stamp file now).2 = .first true then 1 else 0) +
      told (op.run stamp file now).1 id ops

/-- How often the log is removed. -/
def removed (file : Option Written) : List (Op × Timestamp) → ℕ
  | [] => 0
  | (op, now) :: ops =>
    (if op = .prune ∧ (op.run stamp file now).1 = none ∧ file ≠ none then 1 else 0) +
      removed (op.run stamp file now).1 ops

/-- How often the log can be taken not to have a nudge, while it is not removed. -/
def room (file : Option Written) (id : Text) : ℕ :=
  if Whole (file.elim [] Written.content) then if seen (entries file) id then 0 else 1 else 2

theorem seen_append (log : List Line) (line : Line) (id : Text) :
    seen (log ++ [line]) id = true ↔
      seen log id = true ∨ line.kind = kindText .nudge ∧ line.name = id := by
  simp [seen]

theorem room_of_whole {file : Option Written} (h : Whole (file.elim [] Written.content))
    (id : Text) : room file id = if seen (entries file) id then 0 else 1 := if_pos h

theorem room_of_torn {file : Option Written} (h : ¬ Whole (file.elim [] Written.content))
    (id : Text) : room file id = 2 := if_neg h

theorem room_le_one {file : Option Written} (h : Whole (file.elim [] Written.content)) (id : Text) :
    room file id ≤ 1 := by
  rw [room_of_whole h]
  split_ifs <;> omega

theorem whole_append (file : Option Written) (line : Line) (now : Timestamp) :
    Whole ((Lines.append file line now).elim [] Written.content) := format.whole_line _ _

theorem entries_append {file : Option Written} (h : Whole (file.elim [] Written.content))
    (line : Line) (now : Timestamp) :
    entries (Lines.append file line now) = entries file ++ [line] := by
  have hline := format.entries_append h [line]
  rwa [Format.text, List.flatMap_singleton] at hline

theorem room_append (file : Option Written) (line : Line) (now : Timestamp) (id : Text) :
    room (Lines.append file line now) id ≤ room file id := by
  by_cases h : Whole (file.elim [] Written.content)
  · rw [room_of_whole (whole_append file line now), room_of_whole h, entries_append h]
    have hseen := seen_append (entries file) line id
    split_ifs <;> simp_all
  · have hle := room_le_one (whole_append file line now) id
    rw [room_of_torn h]
    omega

/-- To a hook that finds no nudge of its kind the room is not as large after as before. -/
theorem room_nudge {file : Option Written} {id : Text} (h : ¬ seen (entries file) id = true)
    (line : Line) (hkind : line.kind = kindText .nudge) (hname : line.name = id) (now : Timestamp) :
    1 + room (Lines.append file line now) id ≤ room file id := by
  by_cases hwhole : Whole (file.elim [] Written.content)
  · rw [room_of_whole (whole_append file line now), room_of_whole hwhole, entries_append hwhole,
      if_neg h, if_pos ((seen_append _ _ _).mpr (.inr ⟨hkind, hname⟩))]
  · have hle := room_le_one (whole_append file line now) id
    rw [room_of_torn hwhole]
    omega

theorem room_run (op : Op) (file : Option Written) (now : Timestamp) (id : Text) :
    (if op = .firstTime id ∧ (op.run stamp file now).2 = .first true then 1 else 0) +
      room (op.run stamp file now).1 id ≤
    room file id +
      (if op = .prune ∧ (op.run stamp file now).1 = none ∧ file ≠ none then 1 else 0) := by
  cases op with
  | append kind name ids cites =>
    have hle := room_append file ⟨stamp now, kindText kind, name, ids, cites⟩ now id
    simpa [Op.run] using hle
  | firstTime other =>
    by_cases hseen : seen (entries file) other = true
    · simp [Op.run, hseen]
    · by_cases hother : other = id
      · subst hother
        have hle := room_nudge hseen ⟨stamp now, kindText .nudge, other, [], []⟩ rfl rfl now
        simpa [Op.run, hseen] using hle
      · have hle := room_append file ⟨stamp now, kindText .nudge, other, [], []⟩ now id
        simpa [Op.run, hseen, hother] using hle
  | recalled => simp [Op.run]
  | wrote => simp [Op.run]
  | prune =>
    cases file with
    | none => simp [Op.run, Lines.prune]
    | some f =>
      by_cases hstale : f.modified < now - LOG_RETENTION_DAYS * day
      · have hle : room none id ≤ 1 := @room_le_one none whole_nil id
        simpa [Op.run, Lines.prune, Option.filter_some, hstale] using hle.trans (by omega)
      · simp [Op.run, Lines.prune, Option.filter_some, hstale]

theorem told_le (file : Option Written) (id : Text) (ops : List (Op × Timestamp)) :
    told stamp file id ops ≤ room file id + removed stamp file ops := by
  induction ops generalizing file with
  | nil => exact Nat.zero_le _
  | cons op ops ih =>
    obtain ⟨op, now⟩ := op
    have hrun := room_run stamp op file now id
    have hrest := ih (op.run stamp file now).1
    rw [told, removed]
    omega

end Agmem.Hook.Lines
