import Mathlib.Logic.Function.Basic
import Agmem.Hook.Log
import Agmem.Transition.Run

/-! Many hooks of one session at once. A hook that asks whether a nudge is the first of its kind
reads the log and, where the nudge is not in it, adds it with a step of its own; between the two
steps another hook may read the same log. So a nudge is given once as long as nobody reads there. -/

namespace Agmem.Hook

open Core Transition

/-- A tool of the server was called, and what its answer and its arguments name. -/
inductive Use where
  | recall (ids : List Text)
  | remember (ids : List Text)
  | reflect (ids cites : List Text)
deriving DecidableEq

def Use.entry (now : Timestamp) : Use → Entry
  | .recall ids => ⟨now, .recall, ['r', 'e', 'c', 'a', 'l', 'l'], ids, []⟩
  | .remember ids => ⟨now, .write, ['r', 'e', 'm', 'e', 'm', 'b', 'e', 'r'], ids, []⟩
  | .reflect ids cites => ⟨now, .write, ['r', 'e', 'f', 'l', 'e', 'c', 't'], ids, cites⟩

/-- What a hook wants of the log. -/
inductive Request where
  /-- A push, an answered question, a step of context size. -/
  | nudge (id : Text)
  /-- The end of a turn, `stop_hook_active` or not. -/
  | stop (already : Bool)
  | used (use : Use)
  | start

/-- How far a hook is. -/
inductive Phase where
  /-- It looks for a write. -/
  | wrote
  /-- And for something recalled. -/
  | recalled
  | asking (id : Text)
  /-- The nudge is not in the log it has read. -/
  | noting (id : Text)
  | told (id : Text) (first : Bool)
  | logging (use : Use)
  | pruning
  | finished
deriving DecidableEq

def Request.begin : Request → Phase
  | .nudge id => .asking id
  | .stop already => if already then .finished else .wrote
  | .used use => if use = .recall [] then .finished else .logging use
  | .start => .pruning

def STOP : Text := ['s', 't', 'o', 'p']

/-- The next step of a hook; an operation on the file may not go through. -/
def Phase.next (file : Option File) (ok : Bool) (now : Timestamp) :
    Phase → Option (Option File × Phase)
  | .wrote => some (file, if Hook.wrote (entries file ok) then .finished else .recalled)
  | .recalled =>
    some (file, if Hook.recalled (entries file ok) = [] then .finished else .asking STOP)
  | .asking id => some (file, if seen (entries file ok) id then .told id false else .noting id)
  | .noting id => some (if ok then append file (nudge id now) now else file, .told id true)
  | .logging use => some (if ok then append file (use.entry now) now else file, .finished)
  | .pruning => some (if ok then prune file now else file, .finished)
  | .told _ _ | .finished => none

section System

variable {ι : Type*}

structure State (ι : Type*) where
  file : Option File
  phase : ι → Phase

structure Action (ι : Type*) where
  hook : ι
  ok : Bool
  now : Timestamp

def initial (request : ι → Request) (file : Option File) : State ι :=
  ⟨file, fun i => (request i).begin⟩

def step [DecidableEq ι] (S : State ι) (a : Action ι) : Option (State ι) :=
  ((S.phase a.hook).next S.file a.ok a.now).map fun next =>
    ⟨next.1, Function.update S.phase a.hook next.2⟩

/-- No nudge is the first of its kind for two hooks. -/
def Once (S : State ι) : Prop :=
  ∀ id i j, S.phase i = .told id true → S.phase j = .told id true → i = j

/-- No hook is between its read and its entry. -/
def Quiet (S : State ι) : Prop := ∀ i id, S.phase i ≠ .noting id

/-- A hook asks about a nudge that another is just about to enter. -/
def Overlaps (e : Step (State ι) (Action ι)) : Prop :=
  ∃ id, e.source.phase e.action.hook = .asking id ∧ ∃ j, e.source.phase j = .noting id

/-- The operation on the file goes through, and does not remove the log. -/
def Intact (e : Step (State ι) (Action ι)) : Prop :=
  e.action.ok = true ∧ (e.source.phase e.action.hook = .pruning →
    prune e.source.file e.action.now = e.source.file)

end System

/-! ### What a step does -/

/-- A hook that gives a nudge, or is going to. -/
def Fires (p : Phase) (id : Text) : Prop := p = .noting id ∨ p = .told id true

/-- The steps of a hook, as far as nudges go. -/
inductive Turns (file : Option File) : Phase → Option File → Phase → Prop
  | old {id : Text} (known : seen (entries file true) id = true) :
      Turns file (.asking id) file (.told id false)
  | first {id : Text} (fresh : seen (entries file true) id = false) :
      Turns file (.asking id) file (.noting id)
  | noted {id : Text} (now : Timestamp) :
      Turns file (.noting id) (append file (nudge id now) now) (.told id true)
  | other {p q : Phase} {file' : Option File} (asks : ∀ id, p ≠ .asking id)
      (before : ∀ id, ¬ Fires p id) (after : ∀ id, ¬ Fires q id)
      (log : ∀ id, seen (entries file' true) id = seen (entries file true) id) :
      Turns file p file' q

theorem turns_of_next {file file' : Option File} {now : Timestamp} {p q : Phase}
    (hprune : p = .pruning → prune file now = file) (h : p.next file true now = some (file', q)) :
    Turns file p file' q := by
  cases p with
  | asking id =>
    simp only [Phase.next, Option.some.injEq, Prod.mk.injEq] at h
    obtain ⟨rfl, rfl⟩ := h
    split_ifs with hseen
    · exact .old hseen
    · exact .first (Bool.not_eq_true _ ▸ hseen)
  | noting id =>
    cases h
    exact .noted now
  | logging use =>
    cases h
    refine .other (by simp) (by simp [Fires]) (by simp [Fires]) fun id => ?_
    rw [if_pos rfl, entries_append, Bool.eq_iff_iff, seen_append]
    cases use <;> simp [Use.entry]
  | pruning =>
    cases h
    rw [if_pos rfl, hprune rfl]
    exact .other (by simp) (by simp [Fires]) (by simp [Fires]) fun _ => rfl
  | wrote =>
    cases h
    refine .other (by simp) (by simp [Fires]) ?_ fun _ => rfl
    split_ifs <;> simp [Fires]
  | recalled =>
    cases h
    refine .other (by simp) (by simp [Fires]) ?_ fun _ => rfl
    split_ifs <;> simp [Fires]
  | told id first => cases h
  | finished => cases h

namespace Turns

variable {file file' : Option File} {p q : Phase} {id : Text}

theorem log (h : Turns file p file' q) : seen (entries file' true) id = true ↔
    seen (entries file true) id = true ∨ p = .noting id ∧ q = .told id true := by
  cases h with
  | old | first => simp
  | noted now => simp [entries_append, seen_nudge]
  | other _ before _ log =>
    rw [log]
    exact (or_iff_left fun h => before id (.inl h.1)).symm

/-- Who is going to give a nudge goes on to, and whoever asks and does not find it joins. -/
theorem fires (h : Turns file p file' q) : Fires q id ↔
    Fires p id ∨ p = .asking id ∧ seen (entries file true) id = false := by
  cases h with
  | old known => grind [Fires]
  | first fresh => grind [Fires]
  | noted now => simp [Fires]
  | other asks before after log => exact iff_of_false (after id) (by simp [before, asks])

/-- A hook that has been told is done. -/
theorem untold (h : Turns file p file' q) : p ≠ .told id true := by
  cases h with
  | old | first | noted => simp
  | other _ before _ _ => exact fun h => before id (.inr h)

theorem given (h : Turns file p file' q) (hq : q = .told id true) : p = .noting id := by
  cases h with
  | old | first => simp at hq
  | noted now => simpa using hq
  | other _ _ after _ => exact absurd (.inr hq) (after id)

theorem fresh (h : Turns file p file' q) (hq : q = .noting id) :
    ¬ seen (entries file' true) id = true := by
  cases h with
  | old | noted => simp at hq
  | first fresh =>
    cases hq
    simp [fresh]
  | other _ _ after _ => exact absurd (.inl hq) (after id)

end Turns

/-! ### Runs -/

variable {ι : Type*}

/-- No two hooks give the same nudge, or are going to. -/
def Alone (S : State ι) : Prop := ∀ id i j, Fires (S.phase i) id → Fires (S.phase j) id → i = j

/-- What was given is in the log, and a nudge that is in it although a hook is about to enter it was
given by another. -/
structure Logged (S : State ι) : Prop where
  told : ∀ i id, S.phase i = .told id true → seen (entries S.file true) id = true
  noting : ∀ i id, S.phase i = .noting id → seen (entries S.file true) id = true →
    ∃ j, j ≠ i ∧ S.phase j = .told id true

theorem not_fires_begin (request : Request) (id : Text) : ¬ Fires request.begin id := by
  cases request with
  | nudge id => simp [Request.begin, Fires]
  | start => simp [Request.begin, Fires]
  | stop already => cases already <;> simp [Request.begin, Fires]
  | used use =>
    simp only [Request.begin]
    split_ifs <;> simp [Fires]

theorem logged_initial (request : ι → Request) (file : Option File) :
    Logged (initial request file) where
  told i id h := absurd (.inr h) (not_fires_begin (request i) id)
  noting i id h := absurd (.inl h) (not_fires_begin (request i) id)

variable [DecidableEq ι] {S T : State ι} {a : Action ι}

/-- A step is a turn of one hook. -/
theorem turns_of_step (h : step S a = some T) (hi : Intact ⟨S, a, T⟩) :
    ∃ file q, Turns S.file (S.phase a.hook) file q ∧
      T = ⟨file, Function.update S.phase a.hook q⟩ := by
  obtain ⟨⟨file, q⟩, hnext, rfl⟩ := Option.map_eq_some_iff.mp h
  rw [hi.1] at hnext
  exact ⟨file, q, turns_of_next hi.2 hnext, rfl⟩

/-- A hook that nobody comes between does as `firstTime`. -/
theorem firstTime_alone {i : ι} {id : Text} (hasks : S.phase i = .asking id) (now : Timestamp) :
    ∃ steps, (∀ e ∈ steps, e.action.hook = i) ∧ Run step S steps ⟨(firstTime S.file id now).1,
      Function.update S.phase i (.told id (firstTime S.file id now).2)⟩ := by
  have hread : step S ⟨i, true, now⟩ = some ⟨S.file, Function.update S.phase i
      (if seen (entries S.file true) id then .told id false else .noting id)⟩ := by
    simp [step, hasks, Phase.next]
  unfold firstTime
  cases hseen : seen (entries S.file true) id with
  | true =>
    rw [hseen] at hread
    exact ⟨_, by simp, .cons hread (.nil _)⟩
  | false =>
    rw [hseen] at hread
    refine ⟨_, by simp, .cons hread (.cons (a := ⟨i, true, now⟩) ?_ (.nil _))⟩
    simp [step, Phase.next]

theorem logged_step (h : step S a = some T) (hi : Intact ⟨S, a, T⟩) (hl : Logged S) : Logged T := by
  obtain ⟨file, q, hturn, rfl⟩ := turns_of_step h hi
  constructor
  · intro i id htold
    change Function.update S.phase a.hook q i = _ at htold
    rw [hturn.log]
    by_cases hat : i = a.hook
    · subst hat
      rw [Function.update_self] at htold
      exact .inr ⟨hturn.given htold, htold⟩
    · rw [Function.update_of_ne hat] at htold
      exact .inl (hl.told i id htold)
  · intro i id hnoting hseen
    change Function.update S.phase a.hook q i = _ at hnoting
    by_cases hat : i = a.hook
    · subst hat
      rw [Function.update_self] at hnoting
      exact absurd hseen (hturn.fresh hnoting)
    · rw [Function.update_of_ne hat] at hnoting
      rcases hturn.log.mp hseen with hseen | ⟨-, htold⟩
      · obtain ⟨j, hne, hj⟩ := hl.noting i id hnoting hseen
        have hother : j ≠ a.hook := fun heq => hturn.untold (heq ▸ hj)
        exact ⟨j, hne, (Function.update_of_ne hother _ _).trans hj⟩
      · exact ⟨a.hook, Ne.symm hat, (Function.update_self _ _ _).trans htold⟩

/-- Who gives a nudge after a step. -/
theorem fires_step {file : Option File} {q : Phase} (hturn : Turns S.file (S.phase a.hook) file q)
    (i : ι) (id : Text) : Fires (Function.update S.phase a.hook q i) id ↔ Fires (S.phase i) id ∨
      i = a.hook ∧ S.phase a.hook = .asking id ∧ seen (entries S.file true) id = false := by
  by_cases hat : i = a.hook
  · subst hat
    rw [Function.update_self, hturn.fires, and_iff_right rfl]
  · rw [Function.update_of_ne hat, or_iff_left fun h => hat h.1]

/-- A step leaves no two hooks with one nudge exactly if there were none and it does not overlap. -/
theorem alone_step (h : step S a = some T) (hi : Intact ⟨S, a, T⟩) (hl : Logged S) :
    Alone T ↔ Alone S ∧ ¬ Overlaps ⟨S, a, T⟩ := by
  obtain ⟨file, q, hturn, rfl⟩ := turns_of_step h hi
  have hfires := fires_step hturn
  constructor
  · intro halone
    have hbefore : Alone S := fun id i j hi hj =>
      halone id i j ((hfires i id).mpr (.inl hi)) ((hfires j id).mpr (.inl hj))
    refine ⟨hbefore, ?_⟩
    rintro ⟨id, hasks, j, hj⟩
    cases hseen : seen (entries S.file true) id with
    | true =>
      obtain ⟨k, hne, hk⟩ := hl.noting j id hj hseen
      exact hne (hbefore id k j (.inr hk) (.inl hj))
    | false =>
      have hsame : a.hook = j := halone id a.hook j ((hfires _ id).mpr (.inr ⟨rfl, hasks, hseen⟩))
        ((hfires j id).mpr (.inl (.inl hj)))
      rw [← hsame] at hj
      cases hasks.symm.trans hj
  · rintro ⟨halone, hclear⟩
    -- whoever joins finds nobody there: one who is about to enter the nudge would overlap, and the
    -- entry of one who was told is in the log
    have hjoins {id : Text} {j : ι} (hasks : S.phase a.hook = .asking id)
        (hseen : seen (entries S.file true) id = false) : ¬ Fires (S.phase j) id := by
      rintro (hj | hj)
      · exact hclear ⟨id, hasks, j, hj⟩
      · rw [hl.told j id hj] at hseen
        cases hseen
    intro id i j hi hj
    rcases (hfires i id).mp hi with hi | ⟨rfl, hasks, hseen⟩ <;>
      rcases (hfires j id).mp hj with hj | ⟨rfl, hasks', hseen'⟩
    · exact halone id i j hi hj
    · exact absurd hi (hjoins hasks' hseen')
    · exact absurd hj (hjoins hasks hseen)
    · rfl

/-- Each nudge is given once, in every state of a run in which nobody reads the log while another
hook is about to enter the same nudge; and in no other run, once all entries are made. -/
theorem first_time_once {request : ι → Request} {file : Option File}
    {steps : List (Step (State ι) (Action ι))} (h : Run step (initial request file) steps S)
    (hintact : ∀ e ∈ steps, Intact e) :
    ((∀ e ∈ steps, ¬ Overlaps e) → Once S) ∧
      (Quiet S → Once S → ∀ e ∈ steps, ¬ Overlaps e) := by
  have hstart : Alone (initial request file) :=
    fun id i j hi => absurd hi (not_fires_begin (request i) id)
  have hiff := h.iff_forall (I := Logged) (P := Alone) (K := Intact) (Q := fun e => ¬ Overlaps e)
    (fun _ _ _ => logged_step) (fun _ _ _ => alone_step) hintact (logged_initial request file)
  rw [and_iff_right hstart] at hiff
  constructor
  · intro hclear id i j hi hj
    exact hiff.mpr hclear id i j (.inr hi) (.inr hj)
  · intro hquiet honce
    refine hiff.mp fun id i j hi hj => ?_
    exact honce id i j (hi.resolve_left (hquiet i id)) (hj.resolve_left (hquiet j id))

/-! ### Two hooks after two pushes -/

def PUSH : Text := ['p', 'u', 's', 'h']

def pushes : State Bool := initial (fun _ => .nudge PUSH) none

def Action.at_ (hook : Bool) (now : Timestamp) : Action Bool := ⟨hook, true, now⟩

/-- One hook is done before the other begins. -/
theorem first_time_once_in_turn : ∃ steps S, Run step pushes steps S ∧
    (S.phase true = .told PUSH true ∧ S.phase false = .told PUSH false) ∧
    ((∀ e ∈ steps, ¬ Overlaps e) → Once S) ∧
      (Quiet S → Once S → ∀ e ∈ steps, ¬ Overlaps e) := by
  obtain ⟨steps, S, hrun, -, hp⟩ := exists_run_of_exec step pushes
    [.at_ true 1, .at_ true 2, .at_ false 3]
    (fun u => (u.1.all fun e => e.action.ok && decide (e.source.phase e.action.hook ≠ .pruning)) &&
      decide (u.2.phase true = .told PUSH true ∧ u.2.phase false = .told PUSH false)) (by decide)
  obtain ⟨hintact, htold⟩ := Bool.and_eq_true_iff.mp hp
  refine ⟨steps, S, hrun, of_decide_eq_true htold, first_time_once hrun fun e he => ?_⟩
  obtain ⟨hok, hphase⟩ := Bool.and_eq_true_iff.mp (List.all_eq_true.mp hintact e he)
  exact ⟨hok, fun hat => absurd hat (of_decide_eq_true hphase)⟩

/-- Both read the log before either writes to it. -/
theorem push_nudged_twice : ∃ steps S, Run step pushes steps S ∧
    (∀ e ∈ steps, e.action ∈ [.at_ true 1, .at_ false 2, .at_ true 3, .at_ false 4]) ∧
    ¬ Once S := by
  obtain ⟨steps, S, hrun, hact, hp⟩ := exists_run_of_exec step pushes
    [.at_ true 1, .at_ false 2, .at_ true 3, .at_ false 4]
    (fun u => decide (u.2.phase true = .told PUSH true ∧ u.2.phase false = .told PUSH true))
    (by decide)
  obtain ⟨htrue, hfalse⟩ := of_decide_eq_true hp
  exact ⟨steps, S, hrun, hact, fun h => Bool.noConfusion (h PUSH true false htrue hfalse)⟩

end Agmem.Hook
