import Mathlib.Data.List.Induction
import Agmem.Hook.Payload
import Agmem.Hook.FirstTime

/-! A session of hooks, one after another. Each answers an event of the agent with a nudge or with
silence, and what it keeps for the next it keeps in the log. A nudge is given on its first
occasion and not again, and none stands in the way of another. -/

namespace Agmem.Hook

open Core Json Transition

/-! ### Events -/

/-- Where the context-size nudge fires. -/
structure ContextNudgeArgs where
  tokens : ℕ
  step : ℕ

/-- A hook with its payload. What `git` says and the briefing of a session start are no part of
the log; of the transcript the context that it tells is kept, if it can be read. -/
inductive Event where
  | sessionStart (payload : Json)
  | postToolUse (payload : Json)
  | stop (payload : Json)
  | userPromptSubmit (args : ContextNudgeArgs) (payload : Json) (contextTokens : Option ℕ)

inductive Nudge where
  /-- "git push succeeded — that is a checkpoint seam. …" -/
  | push
  /-- "The answer above is a decision the user just made. …" -/
  | decision
  /-- "This session recalled memory and has written none back. …" -/
  | stop
  /-- "Context is ~…k tokens, and every turn from here is served all of it again. …" -/
  | context (thousands : ℕ)
deriving DecidableEq

/-- What a nudge is given for. -/
inductive Occasion where
  | push
  | decision
  | stop
  | context (level : ℕ) (transcript : Text)
deriving DecidableEq

/-- The id of a nudge in the log. -/
def Occasion.key : Occasion → Text
  | .push => PUSH
  | .decision => ['d', 'e', 'c', 'i', 's', 'i', 'o', 'n']
  | .stop => STOP
  | .context level transcript =>
    ['c', 'o', 'n', 't', 'e', 'x', 't', ':'] ++ Nat.toDigits 10 level ++ ':' :: transcript

/-! ### Payloads -/

def textAt (payload : Json) (key : Text) : Option Text := (payload.get key).bind str?

def TOOL_NAME : Text := "tool_name".toList

def TOOL_INPUT : Text := "tool_input".toList

def TOOL_RESPONSE : Text := "tool_response".toList

def BASH : Text := "Bash".toList

def ASK_USER_QUESTION : Text := "AskUserQuestion".toList

/-- A command of the shell that went through and pushed. -/
def pushed (payload : Json) : Bool :=
  let input := (payload.get TOOL_INPUT).getD .null
  let response := (payload.get TOOL_RESPONSE).getD .null
  decide (textAt payload TOOL_NAME = some BASH) &&
    decide (((response.get "exit_code".toList).bind int?).getD 0 = 0) &&
      isPush ((textAt input "command".toList).getD [])

/-- `str::contains` -/
def contains (needle text : Text) : Bool := text.tails.any needle.isPrefixOf

def answered (payload : Json) : Bool :=
  decide (textAt payload TOOL_NAME = some ASK_USER_QUESTION)

section Hooks

variable [Floats]

/-- A tool of the server that reads or writes memory, and what is logged of it. -/
def used (payload : Json) : Option Use :=
  match textAt payload TOOL_NAME with
  | none => none
  | some tool =>
    match mcpParts tool with
    | none => none
    | some (server, verb) =>
      if contains "agmem".toList server then
        let body := responseBody ((payload.get TOOL_RESPONSE).getD .null)
        if verb = "recall".toList then some (.recall (stringsAt body "hits".toList "id".toList))
        else if verb = "remember".toList then some (.remember (createdIds body))
        else if verb = "reflect".toList then
          some (.reflect (textAt body "id".toList).toList
            (textsAt ((payload.get TOOL_INPUT).getD .null) "derived_from".toList))
        else none
      else none

/-- `stop_hook_active` -/
def already (payload : Json) : Bool :=
  ((payload.get "stop_hook_active".toList).bind bool?).getD false

/-- The step of context size that a prompt is sent at. -/
def contextOccasion (args : ContextNudgeArgs) (payload : Json) (contextTokens : Option ℕ) :
    Option Occasion :=
  if args.tokens = 0 then none
  else
    match (textAt payload "transcript_path".toList).filter fun path => !path.isEmpty,
        contextTokens with
    | some transcript, some tokens =>
      if tokens < args.tokens then none
      else
        let step := max args.step 1
        some (.context (args.tokens + (tokens - args.tokens) / step * step) transcript)
    | _, _ => none

/-! ### Answers -/

/-- The log after a hook that asks whether this is the first time, and whether it is. -/
def given (file : Option File) (occasion : Occasion) (nudge : Nudge) (now : Timestamp) :
    Option File × Option Nudge :=
  ((firstTime file occasion.key now).1,
    if (firstTime file occasion.key now).2 then some nudge else none)

/-- The log with a use entered: nothing of a recall that found nothing. -/
def enter (file : Option File) (now : Timestamp) : Option Use → Option File
  | none | some (.recall []) => file
  | some use => append file (use.entry now) now

def postToolUse (file : Option File) (payload : Json) (now : Timestamp) :
    Option File × Option Nudge :=
  match textAt payload TOOL_NAME with
  | none => (file, none)
  | some tool =>
    if tool = BASH then
      if pushed payload then given file .push .push now else (file, none)
    else if tool = ASK_USER_QUESTION then given file .decision .decision now
    else (enter file now (used payload), none)

def stop (file : Option File) (payload : Json) (now : Timestamp) : Option File × Option Nudge :=
  if already payload || wrote (entries file true) || (recalled (entries file true)).isEmpty then
    (file, none)
  else given file .stop .stop now

def userPromptSubmit (file : Option File) (args : ContextNudgeArgs) (payload : Json)
    (contextTokens : Option ℕ) (now : Timestamp) : Option File × Option Nudge :=
  match contextOccasion args payload contextTokens, contextTokens with
  | some occasion, some tokens => given file occasion (.context ((tokens + 999) / 1000)) now
  | _, _ => (file, none)

/-- What a hook leaves of the log, and what it says. -/
def respond (file : Option File) (now : Timestamp) : Event → Option File × Option Nudge
  | .sessionStart _ => (prune file now, none)
  | .postToolUse payload => postToolUse file payload now
  | .stop payload => stop file payload now
  | .userPromptSubmit args payload contextTokens =>
    userPromptSubmit file args payload contextTokens now

/-- What a hook asks of the log. -/
def Event.request : Event → Option Request
  | .sessionStart _ => some .start
  | .postToolUse payload =>
    if pushed payload then some (.nudge PUSH)
    else if answered payload then some (.nudge Occasion.decision.key)
    else (used payload).map .used
  | .stop payload => some (.stop (already payload))
  | .userPromptSubmit args payload contextTokens =>
    (contextOccasion args payload contextTokens).map fun occasion => .nudge occasion.key

/-- How many claims a session start after a compaction lists. -/
def COMPACT_RECALLED_CAP : ℕ := 40

/-- The claims it lists, once it has pruned the log. -/
def listed (file : Option File) (now : Timestamp) : List Text :=
  (recalled (entries (prune file now) true)).take COMPACT_RECALLED_CAP

/-- A session start that finds the log stale removes it. -/
def Event.removes (file : Option File) (now : Timestamp) : Event → Bool
  | .sessionStart _ => decide (prune file now ≠ file)
  | _ => false

/-- The log after the hooks so far, and the hooks since it was last removed. -/
def after (events : List (Event × Timestamp)) : Option File × List Event :=
  events.foldl (fun (file, hooks) (event, now) => ((respond file now event).1,
    (if event.removes file now then [] else hooks) ++ [event])) (none, [])

/-! ### Occasions -/

/-- What a hook logs besides its nudges. -/
def Event.logs : Event → Option Use
  | .postToolUse payload => used payload
  | _ => none

/-- The claims that a recall found, if the event is one. -/
def Event.recalledIds (event : Event) : List Text :=
  match event.logs with
  | some (.recall ids) => ids
  | _ => []

def Event.Recalls (event : Event) : Prop := event.recalledIds ≠ []

def Event.Writes (event : Event) : Prop := ∃ use, event.logs = some use ∧ ∀ ids, use ≠ .recall ids

/-- A hook has occasion for a nudge, after the hooks before it. -/
inductive Occurs (before : List Event) : Event → Occasion → Nudge → Prop
  | push {payload : Json} (h : pushed payload = true) :
      Occurs before (.postToolUse payload) .push .push
  | decision {payload : Json} (h : answered payload = true) :
      Occurs before (.postToolUse payload) .decision .decision
  | stop {payload : Json} (first : already payload = false)
      (recalled : ∃ event ∈ before, event.Recalls) (unwritten : ∀ event ∈ before, ¬ event.Writes) :
      Occurs before (.stop payload) .stop .stop
  | context {args : ContextNudgeArgs} {payload : Json} {tokens : ℕ} {occasion : Occasion}
      (h : contextOccasion args payload (some tokens) = some occasion) :
      Occurs before (.userPromptSubmit args payload (some tokens)) occasion
        (.context ((tokens + 999) / 1000))

end Hooks

variable {file : Option File} {log : List Entry} {event : Event} {before : List Event}
  {occasion : Occasion} {nudge : Nudge} {now : Timestamp}

/-! ### Keys -/

theorem toDigits_colon {m n : ℕ} {s t : Text}
    (h : Nat.toDigits 10 m ++ ':' :: s = Nat.toDigits 10 n ++ ':' :: t) : m = n ∧ s = t := by
  have hdigits (n : ℕ) : ∀ c ∈ Nat.toDigits 10 n, c.isDigit = true := fun c hc =>
    Nat.isDigit_of_mem_toDigits (by omega) (by omega) hc
  have hspan (n : ℕ) (t : Text) :
      (Nat.toDigits 10 n ++ ':' :: t).takeWhile Char.isDigit = Nat.toDigits 10 n := by
    rw [List.takeWhile_append_of_pos (hdigits n)]
    simp
  have hm : Nat.toDigits 10 m = Nat.toDigits 10 n := by rw [← hspan m s, h, hspan]
  constructor
  · rw [← Nat.ofDigitChars_ten_toDigits (n := m), hm, Nat.ofDigitChars_ten_toDigits]
  · rw [hm] at h
    exact (List.cons.inj (List.append_cancel_left h)).2

theorem contextOccasion_none (args : ContextNudgeArgs) (payload : Json) :
    contextOccasion args payload none = none := by
  unfold contextOccasion
  split_ifs
  · rfl
  · split <;> trivial

/-- No two occasions share an id in the log. -/
theorem Occasion.key_injective : Function.Injective Occasion.key := by
  have hcontext (level : ℕ) (path : Text) : (Occasion.context level path).key.head? = some 'c' :=
    rfl
  have hother {a b : Occasion} (ha : a.key.head? = some 'c') (hb : b.key.head? ≠ some 'c') :
      a.key ≠ b.key := fun h => hb (h ▸ ha)
  intro a b h
  cases a with
  | context level path =>
    cases b with
    | context level' path' =>
      obtain ⟨rfl, rfl⟩ := toDigits_colon (List.append_cancel_left
        (by simpa only [Occasion.key, List.append_assoc] using h))
      rfl
    | _ => exact absurd h (hother (hcontext level path) (by decide))
  | _ =>
    cases b with
    | context level path => exact absurd h.symm (hother (hcontext level path) (by decide))
    | _ => first | rfl | exact absurd h (by decide)

/-! ### Tool calls -/

theorem pushed_tool {payload : Json} (h : pushed payload = true) :
    textAt payload TOOL_NAME = some BASH :=
  of_decide_eq_true (Bool.and_eq_true_iff.mp (Bool.and_eq_true_iff.mp h).1).1

theorem not_pushed {payload : Json} (h : answered payload = true) : ¬ pushed payload = true := by
  intro hpush
  have hname : BASH = ASK_USER_QUESTION :=
    Option.some.inj ((pushed_tool hpush).symm.trans (of_decide_eq_true h))
  exact absurd hname (by decide)

/-! ### The log -/

/-- The recalled ids, newest first, with their repetitions. -/
def hits (log : List Entry) : List Text :=
  (log.reverse.filter fun e => decide (e.kind = .recall)).flatMap Entry.ids

theorem hits_append {entry : Entry} :
    hits (log ++ [entry]) = (if entry.kind = .recall then entry.ids else []) ++ hits log := by
  rw [hits, List.reverse_append, List.reverse_singleton, List.singleton_append, List.filter_cons]
  split_ifs <;> simp_all [hits]

theorem recalled_ne_nil : recalled log ≠ [] ↔ hits log ≠ [] := by
  simp only [← List.isEmpty_eq_false_iff, List.isEmpty_eq_false_iff_exists_mem, recalled, hits,
    List.mem_eraseDups]

theorem wrote_append {entry : Entry} :
    wrote (log ++ [entry]) = true ↔ wrote log = true ∨ entry.kind = .write := by
  simp [wrote]

theorem hits_firstTime {id : Text} :
    hits (entries (firstTime file id now).1 true) = hits (entries file true) := by
  unfold firstTime
  split_ifs
  · rfl
  · simp [entries_append, hits_append, Hook.nudge]

theorem wrote_firstTime {id : Text} :
    wrote (entries (firstTime file id now).1 true) = wrote (entries file true) := by
  unfold firstTime
  split_ifs
  · rfl
  · rw [Bool.eq_iff_iff, entries_append, wrote_append]
    simp [Hook.nudge]

section Log

variable [Floats]

/-- An occasion that the hooks had so far. -/
def Had (before : List Event) (occasion : Occasion) : Prop :=
  ∃ earlier event rest nudge, before = earlier ++ event :: rest ∧
    Occurs earlier event occasion nudge

/-- What the log knows of the hooks so far. -/
structure Knows (before : List Event) (log : List Entry) : Prop where
  hits : hits log = before.reverse.flatMap Event.recalledIds
  writes : wrote log = true ↔ ∃ event ∈ before, event.Writes
  nudged : ∀ occasion : Occasion, seen log occasion.key = true ↔ Had before occasion

theorem Knows.recalls (hk : Knows before log) :
    recalled log ≠ [] ↔ ∃ event ∈ before, event.Recalls := by
  rw [recalled_ne_nil, hk.hits]
  simp [List.flatMap_eq_nil_iff, Event.Recalls]

theorem knows_nil : Knows [] [] where
  hits := rfl
  writes := by simp [wrote]
  nudged occasion := by simp [seen, Had]

theorem had_snoc : Had (before ++ [event]) occasion ↔
    Had before occasion ∨ ∃ nudge, Occurs before event occasion nudge := by
  constructor
  · rintro ⟨earlier, event', rest, nudge, hsplit, hoccurs⟩
    rcases List.eq_nil_or_concat rest with rfl | ⟨rest, last, rfl⟩
    · obtain ⟨rfl, hevent⟩ := List.append_inj' hsplit rfl
      cases hevent
      exact .inr ⟨nudge, hoccurs⟩
    · refine .inl ⟨earlier, event', rest, nudge, ?_, hoccurs⟩
      have hcons :
          earlier ++ event' :: (rest ++ [last]) = (earlier ++ event' :: rest) ++ [last] := by simp
      rw [List.concat_eq_append, hcons] at hsplit
      exact (List.append_inj' hsplit rfl).1
  · rintro (⟨earlier, event', rest, nudge, rfl, hoccurs⟩ | ⟨nudge, hoccurs⟩)
    · exact ⟨earlier, event', rest ++ [event], nudge, by simp, hoccurs⟩
    · exact ⟨before, event, [], nudge, rfl, hoccurs⟩

/-! ### One hook -/

/-- The tools of the agent itself have no use to log. -/
theorem used_own {payload : Json} {tool : Text} (h : textAt payload TOOL_NAME = some tool)
    (hown : mcpParts tool = none) : used payload = none := by
  simp only [used, h, hown]

/-- The three things a tool call is looked at for exclude each other. -/
theorem postToolUse_eq (payload : Json) : postToolUse file payload now =
    if pushed payload then given file .push .push now
    else if answered payload then given file .decision .decision now
    else (enter file now (used payload), none) := by
  cases htool : textAt payload TOOL_NAME with
  | none =>
    have hpush : pushed payload = false :=
      Bool.eq_false_iff.mpr fun h => Option.some_ne_none _ ((pushed_tool h).symm.trans htool)
    simp [postToolUse, htool, hpush, answered, used, enter]
  | some tool =>
    by_cases hbash : tool = BASH
    · subst hbash
      have hused : used payload = none := used_own htool (by decide)
      have hanswered : answered payload = false := by
        rw [answered, htool]
        decide
      simp [postToolUse, htool, hanswered, hused, enter]
    · have hpush : pushed payload = false := Bool.eq_false_iff.mpr fun h =>
        hbash (Option.some.inj (htool.symm.trans (pushed_tool h)))
      simp [postToolUse, htool, hpush, answered, hbash]

/-- What the name of a tool says: a hook that has occasion for a nudge logs no use. -/
theorem Occurs.logs (h : Occurs before event occasion nudge) : event.logs = none := by
  cases h with
  | push h => exact used_own (pushed_tool h) (by decide)
  | decision h => exact used_own (of_decide_eq_true h) (by decide)
  | stop | context => rfl

/-- With what it knows from the log, a hook asks on each of its occasions. -/
theorem respond_occurs (hk : Knows before (entries file true))
    (h : Occurs before event occasion nudge) :
    respond file now event = given file occasion nudge now := by
  cases h with
  | push h => rw [respond, postToolUse_eq, if_pos h]
  | decision h => rw [respond, postToolUse_eq, if_neg (not_pushed h), if_pos h]
  | stop first recalls unwritten =>
    have hrecalled : recalled (entries file true) ≠ [] := hk.recalls.mpr recalls
    have hwrote : wrote (entries file true) = false := by
      refine Bool.eq_false_iff.mpr fun h => ?_
      obtain ⟨event, hevent, hwrites⟩ := hk.writes.mp h
      exact unwritten event hevent hwrites
    simp [respond, stop, first, hwrote, hrecalled]
  | context h => simp only [respond, userPromptSubmit, h]

/-- Without an occasion a hook says nothing, and enters its use. -/
theorem respond_none (hk : Knows before (entries file true))
    (h : ∀ occasion nudge, ¬ Occurs before event occasion nudge)
    (hkept : event.removes file now = false) :
    respond file now event = (enter file now event.logs, none) := by
  cases event with
  | sessionStart payload =>
    change (prune file now, none) = (file, none)
    rw [not_not.mp (of_decide_eq_false hkept)]
  | postToolUse payload =>
    have hpush : ¬ pushed payload = true := fun hp => h .push .push (.push hp)
    have hanswer : ¬ answered payload = true := fun hp => h .decision .decision (.decision hp)
    rw [respond, postToolUse_eq, if_neg hpush, if_neg hanswer, Event.logs]
  | stop payload =>
    refine if_pos ?_
    by_contra hasks
    simp only [Bool.or_eq_true, not_or, Bool.not_eq_true, List.isEmpty_eq_false_iff] at hasks
    refine h .stop .stop (.stop hasks.1.1 (hk.recalls.mp hasks.2) fun event hevent hwrites => ?_)
    rw [hk.writes.mpr ⟨event, hevent, hwrites⟩] at hasks
    exact Bool.noConfusion hasks.1.2
  | userPromptSubmit args payload tokens =>
    change userPromptSubmit file args payload tokens now = (file, none)
    unfold userPromptSubmit
    split
    · rename_i occasion tokens hoccasion
      exact absurd (.context hoccasion) (h occasion _)
    · rfl

/-- There is no more than one. -/
theorem Occurs.unique {occasion' : Occasion} {nudge' : Nudge}
    (h : Occurs before event occasion nudge) (h' : Occurs before event occasion' nudge') :
    occasion = occasion' ∧ nudge = nudge' := by
  cases h with
  | push h =>
    cases h' with
    | push => exact ⟨rfl, rfl⟩
    | decision h' => exact absurd h (not_pushed h')
  | decision h =>
    cases h' with
    | push h' => exact absurd h' (not_pushed h)
    | decision => exact ⟨rfl, rfl⟩
  | stop =>
    cases h'
    exact ⟨rfl, rfl⟩
  | context h =>
    cases h' with
    | context h' => exact ⟨Option.some.inj (h.symm.trans h'), rfl⟩

theorem Knows.snoc {log' : List Entry} (hk : Knows before log)
    (hhits : Hook.hits log' = event.recalledIds ++ Hook.hits log)
    (hwrote : wrote log' = true ↔ wrote log = true ∨ event.Writes)
    (hseen : ∀ occasion : Occasion, seen log' occasion.key = true ↔
      seen log occasion.key = true ∨ ∃ nudge, Occurs before event occasion nudge) :
    Knows (before ++ [event]) log' where
  hits := by simp [hhits, hk.hits]
  writes := by simp [hwrote, hk.writes, or_and_right, exists_or]
  nudged occasion := by rw [hseen, hk.nudged, had_snoc]

theorem Event.unlogged (h : event.logs = none) : event.recalledIds = [] ∧ ¬ event.Writes := by
  simp [Event.recalledIds, Event.Writes, h]

theorem hits_enter : hits (entries (enter file now event.logs) true) =
    event.recalledIds ++ hits (entries file true) := by
  rw [Event.recalledIds]
  match event.logs with
  | none | some (.recall []) => rfl
  | some (.recall (id :: ids)) => simp [enter, entries_append, hits_append, Use.entry]
  | some (.remember ids) | some (.reflect ids cites) =>
    simp [enter, entries_append, hits_append, Use.entry]

theorem wrote_enter : wrote (entries (enter file now event.logs) true) = true ↔
    wrote (entries file true) = true ∨ event.Writes := by
  rw [Event.Writes]
  match event.logs with
  | none | some (.recall []) => simp [enter]
  | some (.recall (id :: ids)) => simp [enter, entries_append, wrote_append, Use.entry]
  | some (.remember ids) | some (.reflect ids cites) =>
    simp [enter, entries_append, wrote_append, Use.entry]

theorem seen_enter {key : Text} : seen (entries (enter file now event.logs) true) key = true ↔
    seen (entries file true) key = true := by
  match event.logs with
  | none | some (.recall []) => rfl
  | some (.recall (id :: ids)) => simp [enter, entries_append, seen_append, Use.entry]
  | some (.remember ids) | some (.reflect ids cites) =>
    simp [enter, entries_append, seen_append, Use.entry]

/-- A hook keeps in the log what the next needs to know. -/
theorem knows_respond (hk : Knows before (entries file true))
    (hkept : event.removes file now = false) :
    Knows (before ++ [event]) (entries (respond file now event).1 true) := by
  by_cases hoccurs : ∃ occasion nudge, Occurs before event occasion nudge
  · obtain ⟨occasion, nudge, h⟩ := hoccurs
    obtain ⟨hrecalls, hwrites⟩ := Event.unlogged h.logs
    rw [respond_occurs hk h, given]
    refine hk.snoc ?_ ?_ fun other => ?_
    · rw [hits_firstTime, hrecalls, List.nil_append]
    · rw [wrote_firstTime, or_iff_left hwrites]
    · rw [seen_firstTime, Occasion.key_injective.eq_iff]
      refine or_congr_right ⟨?_, ?_⟩
      · rintro rfl
        exact ⟨nudge, h⟩
      · rintro ⟨_, h'⟩
        exact (h.unique h').1
  · have hnone : ∀ occasion nudge, ¬ Occurs before event occasion nudge := by simpa using hoccurs
    have hno (occasion : Occasion) : ¬ ∃ nudge, Occurs before event occasion nudge := by
      simpa using hnone occasion
    rw [respond_none hk hnone hkept]
    refine hk.snoc ?_ ?_ fun occasion => ?_
    · exact hits_enter
    · exact wrote_enter
    · rw [seen_enter, or_iff_left (hno occasion)]

/-- It is told that it is the first on an occasion exactly if it is. -/
theorem nudged_iff (hk : Knows before (entries file true))
    (hkept : event.removes file now = false) : (respond file now event).2 = some nudge ↔
      ∃ occasion, Occurs before event occasion nudge ∧ ¬ Had before occasion := by
  by_cases hoccurs : ∃ occasion nudge, Occurs before event occasion nudge
  · obtain ⟨occasion, nudge', h⟩ := hoccurs
    have hfirst : (firstTime file occasion.key now).2 = true ↔ ¬ Had before occasion := by
      rw [firstTime_snd, ← hk.nudged]
      simp
    rw [respond_occurs hk h, given, Option.ite_none_right_eq_some, hfirst, Option.some.injEq]
    constructor
    · rintro ⟨hnew, rfl⟩
      exact ⟨occasion, h, hnew⟩
    · rintro ⟨other, h', hnew⟩
      obtain ⟨rfl, rfl⟩ := h.unique h'
      exact ⟨hnew, rfl⟩
  · have hnone : ∀ occasion nudge, ¬ Occurs before event occasion nudge := by simpa using hoccurs
    rw [respond_none hk hnone hkept]
    exact iff_of_false (by simp) fun ⟨occasion, h, _⟩ => hnone occasion nudge h

/-! ### Runs -/

/-- The start that removes a log says nothing, and leaves none. -/
theorem respond_removes (h : event.removes file now = true) :
    (∃ payload, event = .sessionStart payload) ∧ respond file now event = (none, none) := by
  cases event with
  | sessionStart payload =>
    refine ⟨⟨payload, rfl⟩, ?_⟩
    have hne : prune file now ≠ file := of_decide_eq_true h
    rw [respond]
    cases file with
    | none => exact absurd rfl hne
    | some f =>
      rw [prune, Option.filter_some] at hne ⊢
      split_ifs at hne ⊢
      · exact absurd rfl hne
      · rfl
  | _ => cases h

theorem after_snoc (events : List (Event × Timestamp)) (event : Event) (now : Timestamp) :
    after (events ++ [(event, now)]) = ((respond (after events).1 now event).1,
      (if event.removes (after events).1 now then [] else (after events).2) ++ [event]) := by
  rw [after, List.foldl_append]
  rfl

theorem knows_after (events : List (Event × Timestamp)) :
    Knows (after events).2 (entries (after events).1 true) := by
  induction events using List.reverseRecOn with
  | nil => exact knows_nil
  | append_singleton events event ih =>
    obtain ⟨event, now⟩ := event
    rw [after_snoc]
    cases hremoves : event.removes (after events).1 now with
    | false => exact knows_respond ih hremoves
    | true =>
      obtain ⟨⟨payload, rfl⟩, hrespond⟩ := respond_removes hremoves
      rw [hrespond]
      have hkept : (Event.sessionStart payload).removes none now = false := rfl
      exact knows_respond knows_nil hkept

end Log

/-! ### Steps -/

section Alone

variable {ι : Type*} [DecidableEq ι] {S : State ι} {i : ι} {id : Text}

theorem enter_used (file : Option File) (now : Timestamp) {use : Use} (h : use ≠ .recall []) :
    enter file now (some use) = append file (use.entry now) now := by
  cases use with
  | «recall» ids =>
    cases ids with
    | nil => exact absurd rfl h
    | cons id ids => rfl
  | remember ids => rfl
  | reflect ids cites => rfl

/-- Steps of one hook with nobody else at the file, up to its end. -/
def Ends (S : State ι) (i : ι) (file : Option File) (said : Option Nudge) : Prop :=
  ∃ steps p, (∀ e ∈ steps, e.action.hook = i) ∧
    Run step S steps ⟨file, Function.update S.phase i p⟩ ∧
    (p = .finished ∧ said = none ∨ ∃ id, p = .told id said.isSome)

/-- A step of the hook, and the rest of them. -/
theorem Ends.cons {left right : Option File} {p q : Phase} {said : Option Nudge} (now : Timestamp)
    (hphase : S.phase i = p) (hnext : p.next S.file true now = some (left, q))
    (h : Ends ⟨left, Function.update S.phase i q⟩ i right said) : Ends S i right said := by
  obtain ⟨steps, last, hsteps, hrun, hlast⟩ := h
  rw [Function.update_idem] at hrun
  have hstep : step S ⟨i, true, now⟩ = some ⟨left, Function.update S.phase i q⟩ := by
    simp [step, hphase, hnext]
  exact ⟨_ :: steps, last, List.forall_mem_cons.mpr ⟨rfl, hsteps⟩, .cons hstep hrun, hlast⟩

theorem ends_given (occasion : Occasion) (hasks : S.phase i = .asking occasion.key)
    (now : Timestamp) :
    Ends S i (given S.file occasion nudge now).1 (given S.file occasion nudge now).2 := by
  obtain ⟨steps, hsteps, hrun⟩ := firstTime_alone hasks now
  refine ⟨steps, _, hsteps, hrun, .inr ⟨occasion.key, ?_⟩⟩
  rw [given]
  cases (firstTime S.file occasion.key now).2 <;> rfl

theorem ends_finished (h : S.phase i = .finished) : Ends S i S.file none := by
  refine ⟨[], .finished, by simp, ?_, .inl ⟨rfl, rfl⟩⟩
  rw [← h, Function.update_eq_self]
  exact .nil S

/-- A hook does in its steps what it does at once, as long as nobody comes between. -/
theorem respond_alone [Floats] {request : Request} (h : event.request = some request)
    (hbegin : S.phase i = request.begin) (now : Timestamp) :
    Ends S i (respond S.file now event).1 (respond S.file now event).2 := by
  cases event with
  | sessionStart payload =>
    cases h
    exact .cons now hbegin rfl (ends_finished (Function.update_self ..))
  | postToolUse payload =>
    rw [Event.request] at h
    rw [respond, postToolUse_eq]
    split_ifs at h ⊢
    · cases h
      exact ends_given _ hbegin now
    · cases h
      exact ends_given _ hbegin now
    · obtain ⟨use, hused, rfl⟩ := Option.map_eq_some_iff.mp h
      rw [hused]
      rw [Request.begin] at hbegin
      split_ifs at hbegin with hempty
      · subst hempty
        exact ends_finished hbegin
      · rw [enter_used S.file now hempty]
        exact .cons now hbegin rfl (ends_finished (Function.update_self ..))
  | stop payload =>
    cases h
    rw [respond, stop]
    rw [Request.begin] at hbegin
    cases halready : already payload with
    | true =>
      rw [halready, if_pos rfl] at hbegin
      exact ends_finished hbegin
    | false =>
      rw [halready] at hbegin
      rw [Bool.false_or]
      refine .cons now hbegin rfl ?_
      cases hwrote : wrote (entries S.file true) with
      | true => exact ends_finished (Function.update_self ..)
      | false =>
        refine .cons (p := .recalled) now ?_ rfl ?_
        · simp
        cases hrecalled : recalled (entries S.file true) with
        | nil => exact ends_finished (Function.update_self ..)
        | cons id ids => exact ends_given .stop (Function.update_self ..) now
  | userPromptSubmit args payload tokens =>
    obtain ⟨occasion, hoccasion, rfl⟩ := Option.map_eq_some_iff.mp h
    cases tokens with
    | none =>
      rw [contextOccasion_none] at hoccasion
      cases hoccasion
    | some tokens =>
      simp only [respond, userPromptSubmit, hoccasion]
      exact ends_given _ hbegin now

end Alone

end Agmem.Hook
