import Agmem.Daemon.Handshake
import Agmem.Transition.Run
import Mathlib.Logic.Function.Basic

/-! The accept loop of a daemon and the tasks of its sessions, in any order of their steps. A
connection waits on the socket until the loop accepts it; its task reads a line, decides on it,
answers, and serves the session or ends; and the loop learns of the end when it joins the task. The
loop stops when nothing has been attached for a while, when it has retired and every session is gone
or the drain window is over, or when accepting fails; what is left then is cut off, and so is
whatever waits on a socket that is dropped. -/

namespace Agmem.Daemon.Serve

open Core Transition

/-- What a session reads from its client. -/
inductive Line where
  /-- The client left, as `--doctor` does. -/
  | eof
  | malformed
  | asks (handshake : Handshake)

/-- How one attached session ended, as far as the accept loop cares. -/
inductive SessionEnd where
  | detached
  | retiring
deriving DecidableEq

/-- How far the task of a session is. -/
inductive Task where
  | reading
  | decided (decision : Except Refusal Unit)
  | serving
  | ended (how : SessionEnd)

/-- The loop turns, has stopped, or is gone with all it held. -/
inductive Stage where
  | turning
  | stopped
  | exited
deriving DecidableEq

structure State (ι : Type*) where
  stage : Stage
  listening : Bool
  /-- Set, every handshake still in flight is answered "retiring". -/
  retiring : Bool
  /-- Whether the drain window is open. -/
  draining : Bool
  backlog : List ι
  attached : List ι
  task : ι → Option Task
  /-- What has come over the socket to the client, what has become of the socket, and of him. -/
  arrived : ι → Bool
  heard : ι → Option Ack
  closed : ι → Bool
  gone : ι → Bool

variable {ι : Type*} [DecidableEq ι]

/-- The socket is bound and nobody is there. -/
def initial : State ι where
  stage := .turning
  listening := true
  retiring := false
  draining := false
  backlog := []
  attached := []
  task _ := none
  arrived _ := false
  heard _ := none
  closed _ := false
  gone _ := false

inductive Action (ι : Type*) where
  /-- A client connects. -/
  | connect (client : ι)
  /-- A client goes away. -/
  | leave (client : ι)
  | accept
  | acceptFails
  /-- A task has its line and decides. -/
  | handle (client : ι)
  /-- A task finds the socket closed instead. -/
  | hangUp (client : ι)
  | answer (client : ι)
  /-- The answer cannot be written any more. -/
  | lose (client : ι)
  /-- A session is over, however it ended. -/
  | detach (client : ι)
  | join (client : ι)
  | drained
  | idle
  /-- What is left is cut off, the listener dropped. -/
  | exit

variable {V : Type} [LinearOrder V] (parse : Text → Option V) (own : Handshake)

/-- A task is over and its socket closed. -/
def State.finish (S : State ι) (c : ι) (how : SessionEnd) : State ι :=
  { S with
    task := Function.update S.task c (some (.ended how))
    closed := Function.update S.closed c true }

/-- The decision on a handshake. -/
def State.decision (S : State ι) (asked : Handshake) : Except Refusal Unit :=
  if S.retiring then .error (.alreadyRetiring own) else own.accept parse asked

/-- The session has a line. -/
def handle (S : State ι) (c : ι) : Line → State ι
  | .eof => S.finish c .detached
  | .malformed => S.finish c .detached
  | .asks asked =>
    { S with
      task := Function.update S.task c (some (.decided (S.decision parse own asked))) }

/-- The answer goes out; a session that was turned away is over. -/
def answer (S : State ι) (c : ι) (decision : Except Refusal Unit) : State ι :=
  let S : State ι := { S with heard := Function.update S.heard c (some (Ack.of decision)) }
  match decision with
  | .ok () => { S with task := Function.update S.task c (some .serving) }
  | .error refusal => S.finish c (if refusal.retire then .retiring else .detached)

/-- The first retirement: the flag, the listener and what waits on it, and the drain window. -/
def retire (S : State ι) : State ι :=
  { S with
    retiring := true
    listening := false
    draining := true
    backlog := []
    closed := fun c => S.closed c || c ∈ S.backlog
    stage := if S.attached.isEmpty then .stopped else .turning }

/-- The loop has joined a task. -/
def dismiss (S : State ι) (c : ι) : State ι :=
  { S with
    attached := S.attached.filter fun d => d ≠ c
    task := Function.update S.task c none }

/-- It goes on, unless the task was the last one of a drain, or asks for a retirement. -/
def join (S : State ι) (c : ι) (how : SessionEnd) : State ι :=
  let S := dismiss S c
  if S.draining then { S with stage := if S.attached.isEmpty then .stopped else .turning }
  else
    match how with
    | .retiring => retire S
    | .detached => S

/-- Everything the loop held is dropped. -/
def exit (S : State ι) : State ι :=
  { S with
    stage := .exited
    listening := false
    backlog := []
    attached := []
    task := fun _ => none
    closed := fun c => S.closed c || c ∈ S.backlog || (S.task c).isSome }

def accept (S : State ι) : List ι → Option (State ι)
  | [] => none
  | c :: backlog => some { S with
      backlog := backlog
      attached := S.attached ++ [c]
      task := Function.update S.task c (some .reading) }

/-- A loop that turns on and may accept. -/
def State.open (S : State ι) : Bool := S.stage == .turning && S.listening

/-- `line` is what each client sends. -/
def step (idleTimeout : ℕ) (line : ι → Line) (S : State ι) : Action ι → Option (State ι)
  | .connect c =>
    if S.listening && !S.arrived c then some { S with
      backlog := S.backlog ++ [c]
      arrived := Function.update S.arrived c true } else none
  | .leave c => some { S with gone := Function.update S.gone c true }
  | .accept => if S.open then accept S S.backlog else none
  | .acceptFails => if S.open then some (exit S) else none
  | .handle c =>
    match S.task c with
    | some .reading => some (handle parse own S c (line c))
    | _ => none
  | .hangUp c =>
    match S.task c, S.gone c with
    | some .reading, true => some (S.finish c .detached)
    | _, _ => none
  | .answer c =>
    match S.task c with
    | some (.decided decision) => some (answer S c decision)
    | _ => none
  | .lose c =>
    match S.task c, S.gone c with
    | some (.decided _), true => some (S.finish c .detached)
    | _, _ => none
  | .detach c =>
    match S.task c with
    | some .serving => some (S.finish c .detached)
    | _ => none
  | .join c =>
    match S.stage, S.task c with
    | .turning, some (.ended how) => some (join S c how)
    | _, _ => none
  | .drained =>
    if S.stage == .turning && S.draining then some { S with stage := .stopped } else none
  | .idle =>
    if S.stage == .turning && !S.draining && S.attached.isEmpty && idleTimeout != 0 then
      some { S with stage := .stopped } else none
  | .exit => if S.stage == .stopped then some (exit S) else none

section Fields

variable (S : State ι) (c : ι) (how : SessionEnd) (decision : Except Refusal Unit)

@[simp] theorem finish_heard : (S.finish c how).heard = S.heard := rfl

theorem finish_task : (S.finish c how).task = Function.update S.task c (some (.ended how)) := rfl

/-- The tasks that are left were there before. -/
theorem task_of_dismiss {d : ι} {task : Task} (h : (dismiss S c).task d = some task) :
    S.task d = some task := by
  by_cases hne : d = c
  · subst hne
    simp [dismiss] at h
  · exact (Function.update_of_ne hne ..).symm.trans h

/-- What an answer leaves of the session. -/
theorem answer_own : (answer S c decision).heard c = some (Ack.of decision) ∧
    ((decision = .ok () ∧ (answer S c decision).task c = some .serving ∧
        (answer S c decision).closed = S.closed) ∨
      ∃ refusal, decision = .error refusal ∧ (answer S c decision).task c =
          some (.ended (if refusal.retire then .retiring else .detached)) ∧
        (answer S c decision).closed c = true) := by
  cases decision with
  | ok u => exact ⟨Function.update_self .., .inl ⟨rfl, Function.update_self .., rfl⟩⟩
  | error refusal =>
    exact ⟨Function.update_self .., .inr ⟨refusal, rfl, Function.update_self ..,
      Function.update_self ..⟩⟩

/-- What a join does besides dismissing the task. -/
theorem join_cases : (∃ stage, stage ≠ .exited ∧ S.draining = true ∧
      join S c how = { dismiss S c with stage := stage }) ∨
    (S.draining = false ∧ how = .retiring ∧ join S c how = retire (dismiss S c)) ∨
    S.draining = false ∧ how = .detached ∧ join S c how = dismiss S c := by
  unfold join
  dsimp only
  cases hdraining : S.draining with
  | true =>
    rw [if_pos (show (dismiss S c).draining = true from hdraining)]
    refine .inl ⟨_, ?_, rfl, rfl⟩
    split_ifs <;> exact nofun
  | false =>
    rw [if_neg (show ¬ (dismiss S c).draining = true by simp [dismiss, hdraining])]
    cases how with
    | retiring => exact .inr (.inl ⟨rfl, rfl, rfl⟩)
    | detached => exact .inr (.inr ⟨rfl, rfl, rfl⟩)

end Fields

/-! ### What a step can do -/

/-- The steps, each with what it finds and what it leaves. -/
inductive Moves (idleTimeout : ℕ) (line : ι → Line) : State ι → Action ι → State ι → Prop
  | connect {S : State ι} {c : ι} (listening : S.listening = true) (new : S.arrived c = false) :
      Moves idleTimeout line S (.connect c) { S with
        backlog := S.backlog ++ [c], arrived := Function.update S.arrived c true }
  | leave (S : State ι) (c : ι) :
      Moves idleTimeout line S (.leave c) { S with gone := Function.update S.gone c true }
  | accept {S : State ι} {c : ι} {backlog : List ι} (turning : S.stage = .turning)
      (waiting : S.backlog = c :: backlog) :
      Moves idleTimeout line S .accept { S with
        backlog := backlog
        attached := S.attached ++ [c]
        task := Function.update S.task c (some .reading) }
  | acceptFails {S : State ι} (turning : S.stage = .turning) :
      Moves idleTimeout line S .acceptFails (exit S)
  | handle {S : State ι} {c : ι} (reading : S.task c = some .reading) :
      Moves idleTimeout line S (.handle c) (handle parse own S c (line c))
  | hangUp {S : State ι} {c : ι} (reading : S.task c = some .reading) (gone : S.gone c = true) :
      Moves idleTimeout line S (.hangUp c) (S.finish c .detached)
  | answer {S : State ι} {c : ι} {decision : Except Refusal Unit}
      (decided : S.task c = some (.decided decision)) :
      Moves idleTimeout line S (.answer c) (answer S c decision)
  | lose {S : State ι} {c : ι} {decision : Except Refusal Unit}
      (decided : S.task c = some (.decided decision)) (gone : S.gone c = true) :
      Moves idleTimeout line S (.lose c) (S.finish c .detached)
  | detach {S : State ι} {c : ι} (serving : S.task c = some .serving) :
      Moves idleTimeout line S (.detach c) (S.finish c .detached)
  | join {S : State ι} {c : ι} {how : SessionEnd} (turning : S.stage = .turning)
      (ended : S.task c = some (.ended how)) :
      Moves idleTimeout line S (.join c) (join S c how)
  | drained {S : State ι} (turning : S.stage = .turning) (draining : S.draining = true) :
      Moves idleTimeout line S .drained { S with stage := .stopped }
  | idle {S : State ι} (turning : S.stage = .turning) (draining : S.draining = false)
      (empty : S.attached = []) :
      Moves idleTimeout line S .idle { S with stage := .stopped }
  | exit {S : State ι} (stopped : S.stage = .stopped) : Moves idleTimeout line S .exit (exit S)

variable {parse own} {idleTimeout : ℕ} {line : ι → Line} {S T : State ι} {a : Action ι}

theorem step_moves (h : step parse own idleTimeout line S a = some T) :
    Moves parse own idleTimeout line S a T := by
  cases a with
  | connect c =>
    simp only [step] at h
    split_ifs at h with hif
    cases h
    simp only [Bool.and_eq_true, Bool.not_eq_true'] at hif
    exact .connect hif.1 hif.2
  | leave c =>
    cases h
    exact .leave S c
  | accept =>
    simp only [step] at h
    split_ifs at h with hopen
    simp only [State.open, Bool.and_eq_true, beq_iff_eq] at hopen
    cases hbacklog : S.backlog with
    | nil =>
      rw [hbacklog] at h
      cases h
    | cons c backlog =>
      rw [hbacklog] at h
      cases h
      exact .accept hopen.1 hbacklog
  | acceptFails =>
    simp only [step] at h
    split_ifs at h with hopen
    cases h
    simp only [State.open, Bool.and_eq_true, beq_iff_eq] at hopen
    exact .acceptFails hopen.1
  | handle c =>
    simp only [step] at h
    split at h
    · rename_i hreading
      cases h
      exact .handle hreading
    · cases h
  | hangUp c =>
    simp only [step] at h
    split at h
    · rename_i hreading hgone
      cases h
      exact .hangUp hreading hgone
    · cases h
  | answer c =>
    simp only [step] at h
    split at h
    · rename_i decision hdecided
      cases h
      exact .answer hdecided
    · cases h
  | lose c =>
    simp only [step] at h
    split at h
    · rename_i decision hdecided hgone
      cases h
      exact .lose hdecided hgone
    · cases h
  | detach c =>
    simp only [step] at h
    split at h
    · rename_i hserving
      cases h
      exact .detach hserving
    · cases h
  | join c =>
    simp only [step] at h
    split at h
    · rename_i how hturning hended
      cases h
      exact .join hturning hended
    · cases h
  | drained =>
    simp only [step] at h
    split_ifs at h with hif
    cases h
    simp only [Bool.and_eq_true, beq_iff_eq] at hif
    exact .drained hif.1 hif.2
  | idle =>
    simp only [step] at h
    split_ifs at h with hif
    cases h
    simp only [Bool.and_eq_true, beq_iff_eq, Bool.not_eq_true', List.isEmpty_iff] at hif
    exact .idle hif.1.1.1 hif.1.1.2 hif.1.2
  | exit =>
    simp only [step] at h
    split_ifs at h with hif
    cases h
    exact .exit (beq_iff_eq.mp hif)

/-! ### What every step keeps -/

/-- Nothing has come over the socket, and it is open. -/
def State.Fresh (S : State ι) (c : ι) : Prop :=
  S.task c = none ∧ S.heard c = none ∧ S.closed c = false

/-- A task that has not answered has said nothing and is open; one that serves has accepted; one
that is over is closed. -/
structure State.Proper (S : State ι) (c : ι) : Prop where
  reading : S.task c = some .reading → S.heard c = none ∧ S.closed c = false
  decided : ∀ decision, S.task c = some (.decided decision) → S.heard c = none ∧ S.closed c = false
  serving : S.task c = some .serving → S.heard c = some .accepted ∧ S.closed c = false
  ended : ∀ how, S.task c = some (.ended how) → S.closed c = true

structure Sane (S : State ι) : Prop where
  queue : ∀ c ∈ S.backlog, S.arrived c = true ∧ S.Fresh c
  nodup : S.backlog.Nodup
  new : ∀ c, S.arrived c = false → S.Fresh c
  proper : ∀ c, S.Proper c
  exited : S.stage = .exited → ∀ c, S.task c = none

/-- The rest of the daemon, as far as one session is concerned. -/
structure SameBut (c : ι) (S T : State ι) : Prop where
  stage : T.stage = S.stage
  backlog : T.backlog = S.backlog
  arrived : T.arrived = S.arrived
  task : ∀ d, d ≠ c → T.task d = S.task d
  heard : ∀ d, d ≠ c → T.heard d = S.heard d
  closed : ∀ d, d ≠ c → T.closed d = S.closed d
  retiring : T.retiring = S.retiring
  draining : T.draining = S.draining
  gone : T.gone = S.gone

theorem finish_sameBut (S : State ι) (c : ι) (how : SessionEnd) : SameBut c S (S.finish c how) :=
  ⟨rfl, rfl, rfl, fun _ hd => Function.update_of_ne hd .., fun _ _ => rfl,
    fun _ hd => Function.update_of_ne hd .., rfl, rfl, rfl⟩

theorem handle_sameBut (S : State ι) (c : ι) (said : Line) :
    SameBut c S (handle parse own S c said) := by
  cases said with
  | eof => exact finish_sameBut S c .detached
  | malformed => exact finish_sameBut S c .detached
  | asks asked =>
    exact ⟨rfl, rfl, rfl, fun _ hd => Function.update_of_ne hd .., fun _ _ => rfl, fun _ _ => rfl,
      rfl, rfl, rfl⟩

theorem answer_sameBut (S : State ι) (c : ι) (decision : Except Refusal Unit) :
    SameBut c S (answer S c decision) := by
  cases decision with
  | ok u =>
    exact ⟨rfl, rfl, rfl, fun _ hd => Function.update_of_ne hd ..,
      fun _ hd => Function.update_of_ne hd .., fun _ _ => rfl, rfl, rfl, rfl⟩
  | error refusal =>
    exact ⟨rfl, rfl, rfl, fun _ hd => Function.update_of_ne hd ..,
      fun _ hd => Function.update_of_ne hd .., fun _ hd => Function.update_of_ne hd .., rfl, rfl,
      rfl⟩

omit [DecidableEq ι] in
theorem State.Fresh.congr {c : ι} (h : S.Fresh c) (ht : T.task c = S.task c)
    (hh : T.heard c = S.heard c) (hc : T.closed c = S.closed c) : T.Fresh c :=
  ⟨ht.trans h.1, hh.trans h.2.1, hc.trans h.2.2⟩

omit [DecidableEq ι] in
theorem State.Proper.congr {c : ι} (h : S.Proper c) (ht : T.task c = S.task c)
    (hh : T.heard c = S.heard c) (hc : T.closed c = S.closed c) : T.Proper c := by
  refine ⟨fun hr => ?_, fun decision hd => ?_, fun hs => ?_, fun how he => ?_⟩
  · rw [hh, hc]
    exact h.reading (ht ▸ hr)
  · rw [hh, hc]
    exact h.decided decision (ht ▸ hd)
  · rw [hh, hc]
    exact h.serving (ht ▸ hs)
  · rw [hc]
    exact h.ended how (ht ▸ he)

omit [DecidableEq ι] in
theorem State.proper_of_ended {c : ι} {how : SessionEnd} (h : S.task c = some (.ended how))
    (hclosed : S.closed c = true) : S.Proper c := by
  refine ⟨fun hr => ?_, fun decision hd => ?_, fun hs => ?_, fun _ _ => hclosed⟩
  · rw [h] at hr
    cases hr
  · rw [h] at hd
    cases hd
  · rw [h] at hs
    cases hs

/-- A task that goes on leaves the others alone, and what waits is not it. -/
theorem Sane.goesOn (h : Sane S) {c : ι} (hc : S.task c ≠ none) (hs : SameBut c S T)
    (hown : T.Proper c) : Sane T := by
  have hwaits : c ∉ S.backlog := fun hin => hc (h.queue c hin).2.1
  have harrived : S.arrived c ≠ false := fun hno => hc (h.new c hno).1
  refine ⟨fun d hd => ?_, hs.backlog ▸ h.nodup, fun d hd => ?_, fun d => ?_, fun hexit => ?_⟩
  · rw [hs.backlog] at hd
    have hne : d ≠ c := fun heq => hwaits (heq ▸ hd)
    rw [hs.arrived]
    exact ⟨(h.queue d hd).1,
      (h.queue d hd).2.congr (hs.task d hne) (hs.heard d hne) (hs.closed d hne)⟩
  · rw [hs.arrived] at hd
    have hne : d ≠ c := fun heq => harrived (heq ▸ hd)
    exact (h.new d hd).congr (hs.task d hne) (hs.heard d hne) (hs.closed d hne)
  · by_cases hne : d = c
    · exact hne ▸ hown
    · exact (h.proper d).congr (hs.task d hne) (hs.heard d hne) (hs.closed d hne)
  · rw [hs.stage] at hexit
    exact absurd (h.exited hexit c) hc

theorem finish_proper (S : State ι) (c : ι) (how : SessionEnd) : (S.finish c how).Proper c :=
  State.proper_of_ended (Function.update_self ..) (Function.update_self ..)

theorem handle_task (S : State ι) (c : ι) (asked : Handshake) :
    (handle parse own S c (.asks asked)).task c = some (.decided (S.decision parse own asked)) :=
  Function.update_self ..

theorem handle_proper {c : ι} (h : S.Proper c) (hreading : S.task c = some .reading)
    (said : Line) : (handle parse own S c said).Proper c := by
  cases said with
  | eof => exact finish_proper S c .detached
  | malformed => exact finish_proper S c .detached
  | asks asked =>
    refine ⟨fun hr => ?_, fun _ _ => h.reading hreading, fun hs => ?_, fun how he => ?_⟩
    · rw [handle_task] at hr
      cases hr
    · rw [handle_task] at hs
      cases hs
    · rw [handle_task] at he
      cases he

theorem answer_proper {c : ι} {decision : Except Refusal Unit} (h : S.Proper c)
    (hdecided : S.task c = some (.decided decision)) : (answer S c decision).Proper c := by
  obtain ⟨hheard, ⟨rfl, htask, hclosed⟩ | ⟨refusal, rfl, htask, hclosed⟩⟩ :=
    answer_own S c decision
  · refine ⟨fun hr => ?_, fun decision hd => ?_, fun _ => ⟨hheard, ?_⟩, fun how he => ?_⟩
    · rw [htask] at hr
      cases hr
    · rw [htask] at hd
      cases hd
    · rw [hclosed]
      exact (h.decided _ hdecided).2
    · rw [htask] at he
      cases he
  · exact State.proper_of_ended htask hclosed

theorem Sane.accepts (h : Sane S) {c : ι} {backlog : List ι} (hturning : S.stage = .turning)
    (hwaiting : S.backlog = c :: backlog) :
    Sane { S with
      backlog := backlog
      attached := S.attached ++ [c]
      task := Function.update S.task c (some .reading) } := by
  have hnodup := h.nodup
  rw [hwaiting, List.nodup_cons] at hnodup
  obtain ⟨harrived, hfresh⟩ := h.queue c (hwaiting ▸ List.mem_cons_self)
  refine ⟨fun d hd => ?_, hnodup.2, fun d hd => ?_, fun d => ?_, fun hexit d => ?_⟩
  · have hne : d ≠ c := fun heq => hnodup.1 (heq ▸ hd)
    obtain ⟨ha, hf⟩ := h.queue d (hwaiting ▸ List.mem_cons_of_mem c hd)
    exact ⟨ha, hf.congr (Function.update_of_ne hne ..) rfl rfl⟩
  · have hne : d ≠ c := fun heq => by simp [heq, harrived] at hd
    exact (h.new d hd).congr (Function.update_of_ne hne ..) rfl rfl
  · by_cases hne : d = c
    · subst hne
      refine ⟨fun _ => hfresh.2, fun decision hd => ?_, fun hs => ?_, fun how he => ?_⟩
      · simp only [Function.update_self, Option.some.injEq, reduceCtorEq] at hd
      · simp only [Function.update_self, Option.some.injEq, reduceCtorEq] at hs
      · simp only [Function.update_self, Option.some.injEq, reduceCtorEq] at he
    · exact (h.proper d).congr (Function.update_of_ne hne ..) rfl rfl
  · rw [hturning] at hexit
    cases hexit

theorem Sane.connects (h : Sane S) {c : ι} (hnew : S.arrived c = false) :
    Sane { S with
      backlog := S.backlog ++ [c], arrived := Function.update S.arrived c true } := by
  have hwaits : c ∉ S.backlog := fun hin => by simp [(h.queue c hin).1] at hnew
  refine ⟨fun d hd => ?_, ?_, fun d hd => ?_, fun d => (h.proper d).congr rfl rfl rfl, h.exited⟩
  · rcases List.mem_append.mp hd with hin | hlast
    · have hne : d ≠ c := fun heq => hwaits (heq ▸ hin)
      exact ⟨(Function.update_of_ne hne ..).trans (h.queue d hin).1, (h.queue d hin).2⟩
    · rw [List.mem_singleton.mp hlast]
      exact ⟨Function.update_self .., h.new c hnew⟩
  · refine List.nodup_append.mpr ⟨h.nodup, List.pairwise_singleton _ c, fun d hd e he => ?_⟩
    rw [List.mem_singleton.mp he]
    exact fun heq => hwaits (heq ▸ hd)
  · by_cases hne : d = c
    · subst hne
      simp only [Function.update_self, reduceCtorEq] at hd
    · simp only [Function.update_of_ne hne] at hd
      exact h.new d hd

omit [DecidableEq ι] in
theorem State.proper_of_none {c : ι} (h : S.task c = none) : S.Proper c :=
  ⟨fun hr => by simp [h] at hr, fun _ hd => by simp [h] at hd, fun hs => by simp [h] at hs,
    fun _ he => by simp [h] at he⟩

omit [DecidableEq ι] in
theorem Sane.restage (h : Sane S) {stage : Stage} (hstage : stage ≠ .exited) :
    Sane { S with stage := stage } :=
  ⟨h.queue, h.nodup, h.new, fun c => (h.proper c).congr rfl rfl rfl, fun he => absurd he hstage⟩

theorem Sane.dismisses (h : Sane S) (c : ι) : Sane (dismiss S c) := by
  have hfresh : ∀ d, S.Fresh d → (dismiss S c).Fresh d := by
    intro d hd
    by_cases hne : d = c
    · exact ⟨by rw [hne]; exact Function.update_self .., hd.2⟩
    · exact hd.congr (Function.update_of_ne hne ..) rfl rfl
  refine ⟨fun d hd => ⟨(h.queue d hd).1, hfresh d (h.queue d hd).2⟩, h.nodup,
    fun d hd => hfresh d (h.new d hd), fun d => ?_, fun hexit d => ?_⟩
  · by_cases hne : d = c
    · exact State.proper_of_none (by rw [hne]; exact Function.update_self ..)
    · exact (h.proper d).congr (Function.update_of_ne hne ..) rfl rfl
  · by_cases hne : d = c
    · rw [hne]
      exact Function.update_self ..
    · exact (Function.update_of_ne hne ..).trans (h.exited hexit d)

/-- What is closed of what waits has no task. -/
theorem Sane.retires (h : Sane S) : Sane (retire S) := by
  have hclosed : ∀ d, d ∉ S.backlog → (retire S).closed d = S.closed d := by
    intro d hd
    simp [retire, hd]
  refine ⟨nofun, List.nodup_nil, fun d hd => ?_, fun d => ?_, fun hexit => ?_⟩
  · have hwaits : d ∉ S.backlog := fun hin => by
      have harrived : S.arrived d = false := hd
      simp [(h.queue d hin).1] at harrived
    exact (h.new d hd).congr rfl rfl (hclosed d hwaits)
  · by_cases hin : d ∈ S.backlog
    · exact State.proper_of_none (h.queue d hin).2.1
    · exact (h.proper d).congr rfl rfl (hclosed d hin)
  · simp only [retire] at hexit
    split_ifs at hexit

theorem Sane.joins (h : Sane S) (c : ι) (how : SessionEnd) : Sane (join S c how) := by
  rcases join_cases S c how with ⟨stage, hstage, -, hjoin⟩ | ⟨-, -, hjoin⟩ | ⟨-, -, hjoin⟩
  · exact hjoin ▸ (h.dismisses c).restage hstage
  · exact hjoin ▸ (h.dismisses c).retires
  · exact hjoin ▸ h.dismisses c

theorem Sane.exits (h : Sane S) : Sane (exit S) := by
  refine ⟨nofun, List.nodup_nil, fun d hd => ⟨rfl, (h.new d hd).2.1, ?_⟩, fun d =>
    State.proper_of_none rfl, fun _ _ => rfl⟩
  have hwaits : d ∉ S.backlog := fun hin => by
    have harrived : S.arrived d = false := hd
    simp [(h.queue d hin).1] at harrived
  simp [exit, hwaits, (h.new d hd).1, (h.new d hd).2.2]

/-- Every step keeps the daemon sane. -/
theorem Moves.sane (hm : Moves parse own idleTimeout line S a T) (h : Sane S) : Sane T := by
  cases hm with
  | connect listening new => exact h.connects new
  | leave c => exact ⟨h.queue, h.nodup, h.new, fun d => (h.proper d).congr rfl rfl rfl, h.exited⟩
  | accept turning waiting => exact h.accepts turning waiting
  | acceptFails turning => exact h.exits
  | @handle c reading =>
    exact h.goesOn (by simp [reading]) (handle_sameBut S c (line c))
      (handle_proper (h.proper c) reading (line c))
  | @hangUp c reading gone =>
    exact h.goesOn (by simp [reading]) (finish_sameBut S c .detached) (finish_proper S c .detached)
  | @answer c decision decided =>
    exact h.goesOn (by simp [decided]) (answer_sameBut S c decision)
      (answer_proper (h.proper c) decided)
  | @lose c decision decided gone =>
    exact h.goesOn (by simp [decided]) (finish_sameBut S c .detached) (finish_proper S c .detached)
  | @detach c serving =>
    exact h.goesOn (by simp [serving]) (finish_sameBut S c .detached) (finish_proper S c .detached)
  | @join c how turning ended => exact h.joins c how
  | drained turning draining => exact h.restage nofun
  | idle turning draining empty => exact h.restage nofun
  | exit stopped => exact h.exits

omit [DecidableEq ι] in
theorem sane_initial : Sane (initial : State ι) :=
  ⟨nofun, List.nodup_nil, fun _ _ => ⟨rfl, rfl, rfl⟩, fun _ => State.proper_of_none rfl,
    fun _ _ => rfl⟩

end Agmem.Daemon.Serve
