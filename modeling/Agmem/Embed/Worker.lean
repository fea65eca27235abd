import Agmem.Embed.Llama
import Agmem.Transition.Run

/-! The thread of the local backend. It owns the model and takes its jobs from a channel, one at a
time; after an idle spell it lets the model go, and the next job has it loaded again. Callers see
none of that, unless a load fails. -/

namespace Agmem.Embed.Llama

open Core Transition

variable {ι Token F : Type}

/-! ### The worker -/

/-- What a model file holds, once it was read. -/
structure Weights (Token F : Type) where
  model : LlamaModel Token F
  nEmbdOut : ℕ

/-- What one load of the model meets: the file, and a context over what it holds. -/
structure Attempt (Token F : Type) where
  file : Except Text (Weights Token F)
  context : Except Text Unit

inductive LoadError where
  /-- "load …: …" -/
  | file (message : Text)
  /-- "… is …-dimensional, expected …" -/
  | width (nEmbd dim : ℕ)
  | context (message : Text)
deriving DecidableEq

/-- The model with everything an embed call needs, or why there is none. -/
def Attempt.load (dim : ℕ) (attempt : Attempt Token F) : Except LoadError (Runtime Token F) :=
  match attempt.file with
  | .error message => .error (.file message)
  | .ok weights =>
    if weights.nEmbdOut ≠ dim then .error (.width weights.nEmbdOut dim)
    else
      match attempt.context with
      | .error message => .error (.context message)
      | .ok () => .ok ⟨weights.model, dim⟩

inductive Failure where
  | load (e : LoadError)
  | runtime (e : RuntimeError)

abbrev Reply (F : Type) := Except Failure (List (List F))

/-- One request: prefixed texts, and the caller who waits for their vectors. -/
structure Job (ι : Type) where
  caller : ι
  texts : List Text
deriving DecidableEq

inductive Msg (ι : Type) where
  | embed (job : Job ι)
  /-- How long the model is kept with nothing to do; `none` keeps it for good. -/
  | unloadAfter (idle : Option ℕ)

inductive Phase (ι Token F : Type) where
  /-- The first load, which is warmed up and reported. -/
  | starting
  | serving (runtime : Runtime Token F)
  | unloaded
  /-- Loading again, for the job that woke the worker. -/
  | waking (job : Job ι)
  | exited

structure Worker (ι Token F : Type) where
  inbox : List (Msg ι)
  /-- Whether the embedder, which has the sending end, is still there. -/
  connected : Bool
  phase : Phase ι Token F
  idle : Option ℕ
  /-- What the first load reported. -/
  ready : Option (Except Failure Unit)
  replies : List (Job ι × Reply F)

inductive Action (ι Token F : Type) where
  | send (msg : Msg ι)
  | drop
  | load (attempt : Attempt Token F)
  | receive
  | timeout
  | disconnected

def initial : Worker ι Token F := ⟨[], true, .starting, none, none, []⟩

/-- There is an embedder only once the first load is reported well. -/
def Worker.up (W : Worker ι Token F) : Bool :=
  match W.ready with
  | some (.ok _) => true
  | _ => false

def warmUp : Text := "warm-up".toList

/-! ### Jobs and replies -/

/-- A worker that may receive. -/
def Phase.receptive : Phase ι Token F → Prop
  | .serving _ | .unloaded => True
  | _ => False

def Msg.job? : Msg ι → Option (Job ι)
  | .embed job => some job
  | .unloadAfter _ => none

def Worker.queued (W : Worker ι Token F) : List (Job ι) := W.inbox.filterMap Msg.job?

/-- The job that waits for the model to be loaded. -/
def Worker.hand (W : Worker ι Token F) : List (Job ι) :=
  match W.phase with
  | .waking job => [job]
  | _ => []

/-- Every job the worker knows, the first one first. -/
def Worker.jobs (W : Worker ι Token F) : List (Job ι) :=
  W.replies.map Prod.fst ++ (W.hand ++ W.queued)

def Action.sent : Action ι Token F → List (Job ι)
  | .send (.embed job) => [job]
  | _ => []

/-- The jobs that were sent in a run, in their order. -/
def sent (steps : List (Step (Worker ι Token F) (Action ι Token F))) : List (Job ι) :=
  steps.flatMap fun e => e.action.sent

theorem hand_of_receptive {W : Worker ι Token F} (h : W.phase.receptive) : W.hand = [] := by
  unfold Worker.hand
  split
  case h_1 job hphase =>
    rw [hphase] at h
    exact h.elim
  case h_2 => rfl

/-- The load that a reply reports as failed. -/
def lostBy : Job ι × Reply F → Option (Job ι × LoadError)
  | (job, .error (.load e)) => some (job, e)
  | _ => none

def Worker.losses (W : Worker ι Token F) : List (Job ι × LoadError) := W.replies.filterMap lostBy

/-- A load that fails with a job waiting for it. -/
def failedWake (dim : ℕ) (e : Step (Worker ι Token F) (Action ι Token F)) :
    Option (Job ι × LoadError) :=
  match e.source.phase, e.action with
  | .waking job, .load attempt =>
    match attempt.load dim with
    | .error err => some (job, err)
    | .ok _ => none
  | _, _ => none

/-- What the thread does by itself. -/
def Action.own : Action ι Token F → Bool
  | .send _ | .drop => false
  | _ => true

def Phase.work : Phase ι Token F → ℕ
  | .exited => 0
  | .unloaded => 1
  | .serving _ => 2
  | .starting | .waking _ => 3

/-- More steps than the worker can take by itself. -/
def Worker.work (W : Worker ι Token F) : ℕ := 3 * W.inbox.length + W.phase.work

/-! ### Steps -/

section Scalars

variable [Zero F] [Add F] [Mul F] [Div F] [LT F] [DecidableLT F] (sqrt : F → F) (dim : ℕ)

/-- What a loaded model replies. -/
def answer (r : Runtime Token F) (job : Job ι) : Reply F :=
  (r.embed sqrt job.texts).mapError .runtime

def Worker.reply (W : Worker ι Token F) (job : Job ι) (reply : Reply F) : Worker ι Token F :=
  { W with replies := W.replies ++ [(job, reply)] }

/-- The outcome of a load, in the first one and in the later ones. -/
def Worker.loaded (W : Worker ι Token F) (outcome : Except LoadError (Runtime Token F)) :
    Option (Worker ι Token F) :=
  match W.phase, outcome with
  | .starting, .error e => some { W with phase := .exited, ready := some (.error (.load e)) }
  | .starting, .ok r =>
    match r.embed sqrt [warmUp] with
    | .error e => some { W with phase := .exited, ready := some (.error (.runtime e)) }
    | .ok _ => some { W with phase := .serving r, ready := some (.ok ()) }
  | .waking job, .error e => some { W.reply job (.error (.load e)) with phase := .unloaded }
  | .waking job, .ok r => some { W.reply job (answer sqrt r job) with phase := .serving r }
  | _, _ => none

/-- The worker takes the first message of its channel. -/
def Worker.received (W : Worker ι Token F) : Option (Worker ι Token F) :=
  match W.inbox, W.phase with
  | .embed job :: rest, .serving r => some { W.reply job (answer sqrt r job) with inbox := rest }
  | .embed job :: rest, .unloaded => some { W with inbox := rest, phase := .waking job }
  | .unloadAfter after :: rest, .serving _ | .unloadAfter after :: rest, .unloaded =>
    some { W with inbox := rest, idle := after }
  | _, _ => none

def step (W : Worker ι Token F) : Action ι Token F → Option (Worker ι Token F)
  | .send msg =>
    if W.connected && W.up then some { W with inbox := W.inbox ++ [msg] } else none
  | .drop => if W.connected then some { W with connected := false } else none
  | .load attempt => W.loaded sqrt (attempt.load dim)
  | .receive => W.received sqrt
  | .timeout =>
    -- Nothing came for as long as the model is kept.
    match W.phase, W.idle with
    | .serving _, some _ =>
      if W.connected && W.inbox.isEmpty then some { W with phase := .unloaded } else none
    | _, _ => none
  | .disconnected =>
    match W.phase with
    | .serving _ | .unloaded =>
      if !W.connected && W.inbox.isEmpty then some { W with phase := .exited } else none
    | _ => none

/-! ### What a step does -/

inductive Moves (W : Worker ι Token F) : Action ι Token F → Worker ι Token F → Prop
  | send (msg : Msg ι) (hconnected : W.connected = true) (hup : W.up = true) :
      Moves W (.send msg) { W with inbox := W.inbox ++ [msg] }
  | drop : Moves W .drop { W with connected := false }
  | failed (attempt : Attempt Token F) (e : Failure) (hphase : W.phase = .starting) :
      Moves W (.load attempt) { W with phase := .exited, ready := some (.error e) }
  | started (attempt : Attempt Token F) (r : Runtime Token F) (hload : attempt.load dim = .ok r)
      (hphase : W.phase = .starting) :
      Moves W (.load attempt) { W with phase := .serving r, ready := some (.ok ()) }
  | lost (attempt : Attempt Token F) (job : Job ι) (e : LoadError)
      (hload : attempt.load dim = .error e) (hphase : W.phase = .waking job) :
      Moves W (.load attempt) { W.reply job (.error (.load e)) with phase := .unloaded }
  | woken (attempt : Attempt Token F) (job : Job ι) (r : Runtime Token F)
      (hload : attempt.load dim = .ok r) (hphase : W.phase = .waking job) :
      Moves W (.load attempt) { W.reply job (answer sqrt r job) with phase := .serving r }
  | answered (job : Job ι) (rest : List (Msg ι)) (r : Runtime Token F)
      (hinbox : W.inbox = .embed job :: rest) (hphase : W.phase = .serving r) :
      Moves W .receive { W.reply job (answer sqrt r job) with inbox := rest }
  | woke (job : Job ι) (rest : List (Msg ι)) (hinbox : W.inbox = .embed job :: rest)
      (hphase : W.phase = .unloaded) :
      Moves W .receive { W with inbox := rest, phase := .waking job }
  | set (after : Option ℕ) (rest : List (Msg ι)) (hinbox : W.inbox = .unloadAfter after :: rest)
      (hphase : W.phase.receptive) : Moves W .receive { W with inbox := rest, idle := after }
  | idled (r : Runtime Token F) (hinbox : W.inbox = []) (hphase : W.phase = .serving r) :
      Moves W .timeout { W with phase := .unloaded }
  | closed (hinbox : W.inbox = []) (hphase : W.phase.receptive) (hgone : W.connected = false) :
      Moves W .disconnected { W with phase := .exited }

variable {sqrt dim} {W W' : Worker ι Token F} {a : Action ι Token F}

theorem moves_of_loaded {attempt : Attempt Token F}
    (h : W.loaded sqrt (attempt.load dim) = some W') : Moves sqrt dim W (.load attempt) W' := by
  unfold Worker.loaded at h
  split at h
  case h_1 e hphase hload =>
    cases h
    exact .failed attempt (.load e) hphase
  case h_2 r hphase hload =>
    split at h
    · cases h
      exact .failed attempt (.runtime _) hphase
    · cases h
      exact .started attempt r hload hphase
  case h_3 job e hphase hload =>
    cases h
    exact .lost attempt job e hload hphase
  case h_4 job r hphase hload =>
    cases h
    exact .woken attempt job r hload hphase
  case h_5 => cases h

theorem moves_of_received (h : W.received sqrt = some W') : Moves sqrt dim W .receive W' := by
  unfold Worker.received at h
  split at h
  case h_1 job rest r hinbox hphase =>
    cases h
    exact .answered job rest r hinbox hphase
  case h_2 job rest hinbox hphase =>
    cases h
    exact .woke job rest hinbox hphase
  case h_3 after rest r hinbox hphase =>
    cases h
    exact .set after rest hinbox (hphase ▸ trivial)
  case h_4 after rest hinbox hphase =>
    cases h
    exact .set after rest hinbox (hphase ▸ trivial)
  case h_5 => cases h

theorem moves_of_step (h : step sqrt dim W a = some W') : Moves sqrt dim W a W' := by
  cases a with
  | send msg =>
    rw [step, Option.ite_none_right_eq_some, Bool.and_eq_true] at h
    obtain ⟨⟨hconnected, hup⟩, h⟩ := h
    cases h
    exact .send msg hconnected hup
  | drop =>
    rw [step, Option.ite_none_right_eq_some] at h
    obtain ⟨-, h⟩ := h
    cases h
    exact .drop
  | load attempt => exact moves_of_loaded h
  | receive => exact moves_of_received h
  | timeout =>
    rw [step] at h
    split at h
    case h_1 r after hphase hidle =>
      rw [Option.ite_none_right_eq_some, Bool.and_eq_true, List.isEmpty_iff] at h
      obtain ⟨⟨-, hinbox⟩, h⟩ := h
      cases h
      exact .idled r hinbox hphase
    case h_2 => cases h
  | disconnected =>
    have hclosed (hphase : W.phase.receptive)
        (h : (if !W.connected && W.inbox.isEmpty then some { W with phase := .exited } else none) =
          some W') : Moves sqrt dim W .disconnected W' := by
      rw [Option.ite_none_right_eq_some, Bool.and_eq_true, Bool.not_eq_true', List.isEmpty_iff] at h
      obtain ⟨⟨hgone, hinbox⟩, h⟩ := h
      cases h
      exact .closed hinbox hphase hgone
    rw [step] at h
    split at h
    case h_1 r hphase => exact hclosed (hphase ▸ trivial) h
    case h_2 hphase => exact hclosed (hphase ▸ trivial) h
    case h_3 => cases h

/-! ### No job is lost and none is answered twice -/

theorem Moves.jobs (h : Moves sqrt dim W a W') : W'.jobs = W.jobs ++ a.sent := by
  cases h with
  | send msg => cases msg <;> simp [Worker.jobs, Worker.queued, Worker.hand, Msg.job?, Action.sent]
  | drop => simp [Worker.jobs, Worker.queued, Worker.hand, Action.sent]
  | failed attempt e hphase | started attempt r hload hphase =>
    simp [Worker.jobs, Worker.queued, Worker.hand, Action.sent, hphase]
  | lost attempt job e hload hphase | woken attempt job r hload hphase =>
    simp [Worker.jobs, Worker.queued, Worker.hand, Worker.reply, Action.sent, hphase]
  | answered job rest r hinbox hphase =>
    simp [Worker.jobs, Worker.queued, Worker.hand, Worker.reply, Msg.job?, Action.sent, hinbox,
      hphase]
  | woke job rest hinbox hphase =>
    simp [Worker.jobs, Worker.queued, Worker.hand, Msg.job?, Action.sent, hinbox, hphase]
  | set after rest hinbox hphase =>
    simp [Worker.jobs, Worker.queued, Worker.hand, List.filterMap_cons, Msg.job?, Action.sent,
      hinbox]
  | idled r hinbox hphase =>
    simp [Worker.jobs, Worker.queued, Worker.hand, Action.sent, hphase]
  | closed hinbox hphase =>
    have hhand := hand_of_receptive hphase
    simp only [Worker.jobs, hhand, Action.sent, List.append_nil]
    rfl

theorem jobs_run {steps : List (Step (Worker ι Token F) (Action ι Token F))}
    (h : Run (step sqrt dim) W steps W') : W'.jobs = W.jobs ++ sent steps := by
  induction h with
  | nil W => simp [sent]
  | cons hstep _ ih =>
    rw [ih, (moves_of_step hstep).jobs, List.append_assoc]
    rfl

/-- Nothing is in the channel of a worker that has not started or has left. -/
structure Orderly (W : Worker ι Token F) : Prop where
  starting : W.phase = .starting → W.inbox = [] ∧ W.up = false
  exited : W.phase = .exited → W.inbox = [] ∧ (W.connected = true → W.up = false)

theorem Moves.orderly (h : Moves sqrt dim W a W') (hW : Orderly W) : Orderly W' := by
  cases h with
  | send msg hconnected hup =>
    refine ⟨fun hphase => ?_, fun hphase => ?_⟩
    · rw [(hW.starting hphase).2] at hup
      cases hup
    · rw [(hW.exited hphase).2 hconnected] at hup
      cases hup
  | drop => exact ⟨hW.starting, fun hphase => ⟨(hW.exited hphase).1, nofun⟩⟩
  | failed attempt e hphase => exact ⟨nofun, fun _ => ⟨(hW.starting hphase).1, fun _ => rfl⟩⟩
  | started | lost | woken | woke | idled => exact ⟨nofun, nofun⟩
  | answered job rest r hinbox hphase =>
    constructor <;> intro h <;> cases hphase.symm.trans h
  | set after rest hinbox hphase =>
    constructor <;> intro h <;> rw [show W.phase = _ from h] at hphase <;> exact hphase.elim
  | closed hinbox hphase hgone =>
    refine ⟨nofun, fun _ => ⟨hinbox, fun hconnected => ?_⟩⟩
    rw [show W.connected = true from hconnected] at hgone
    cases hgone

omit [Zero F] [Add F] [Mul F] [Div F] [LT F] [DecidableLT F] in
theorem orderly_initial : Orderly (initial : Worker ι Token F) := ⟨fun _ => ⟨rfl, rfl⟩, nofun⟩

theorem orderly_run {steps : List (Step (Worker ι Token F) (Action ι Token F))}
    (h : Run (step sqrt dim) initial steps W) : Orderly W :=
  Reachable.invariant (fun _ _ _ hstep => (moves_of_step hstep).orderly) ⟨steps, h⟩ orderly_initial

/-! ### What callers hear -/

theorem lostBy_answer (r : Runtime Token F) (job : Job ι) :
    lostBy (job, answer sqrt r job) = none := by
  unfold answer
  cases r.embed sqrt job.texts <;> rfl

theorem Moves.losses (h : Moves sqrt dim W a W') :
    W'.losses = W.losses ++ (failedWake dim ⟨W, a, W'⟩).toList := by
  cases h with
  | lost attempt job e hload hphase =>
    simp [Worker.losses, Worker.reply, lostBy, failedWake, hphase, hload]
  | woken attempt job r hload hphase =>
    simp [Worker.losses, Worker.reply, lostBy_answer, failedWake, hphase, hload]
  | answered job rest r hinbox hphase =>
    simp [Worker.losses, Worker.reply, lostBy_answer, failedWake, hphase]
  | failed attempt e hphase | started attempt r hload hphase =>
    simp [Worker.losses, failedWake, hphase]
  | send | drop | woke | set | idled | closed =>
    simp [Worker.losses, failedWake]

theorem losses_run {steps : List (Step (Worker ι Token F) (Action ι Token F))}
    (h : Run (step sqrt dim) W steps W') :
    W'.losses = W.losses ++ steps.filterMap (failedWake dim) := by
  induction h with
  | nil W => simp
  | cons hstep _ ih =>
    rw [ih, (moves_of_step hstep).losses, List.filterMap_cons]
    cases failedWake dim _ <;> simp

/-- Where every load that comes up is of one model, the replies are that model's. -/
structure Faithful (sqrt : F → F) (r : Runtime Token F) (W : Worker ι Token F) : Prop where
  serving : ∀ r', W.phase = .serving r' → r' = r
  replies : ∀ p ∈ W.replies, p.2 = answer sqrt r p.1 ∨ ∃ e, p.2 = .error (.load e)

theorem Moves.faithful {r : Runtime Token F} (h : Moves sqrt dim W a W')
    (hloads : ∀ attempt r', a = .load attempt → attempt.load dim = .ok r' → r' = r)
    (hW : Faithful sqrt r W) : Faithful sqrt r W' := by
  cases h with
  | send | drop => exact ⟨hW.serving, hW.replies⟩
  | failed | idled | woke | closed => exact ⟨nofun, hW.replies⟩
  | set after rest hinbox hphase => exact ⟨hW.serving, hW.replies⟩
  | started attempt r' hload hphase =>
    refine ⟨fun r'' h => ?_, hW.replies⟩
    cases h
    exact hloads attempt r' rfl hload
  | lost attempt job e hload hphase =>
    refine ⟨nofun, fun p hp => ?_⟩
    rcases List.mem_append.mp hp with hp | hp
    · exact hW.replies p hp
    · rw [List.mem_singleton.mp hp]
      exact .inr ⟨e, rfl⟩
  | woken attempt job r' hload hphase =>
    obtain rfl := hloads attempt r' rfl hload
    refine ⟨fun r'' h => ?_, fun p hp => ?_⟩
    · cases h
      rfl
    · rcases List.mem_append.mp hp with hp | hp
      · exact hW.replies p hp
      · rw [List.mem_singleton.mp hp]
        exact .inl rfl
  | answered job rest r' hinbox hphase =>
    obtain rfl := hW.serving r' hphase
    refine ⟨hW.serving, fun p hp => ?_⟩
    rcases List.mem_append.mp hp with hp | hp
    · exact hW.replies p hp
    · rw [List.mem_singleton.mp hp]
      exact .inl rfl

/-- Jobs are answered in the order they were sent, each once and none without an answer when the
worker leaves. A reply is what the model makes of the job's texts, however often the model was let
go in between, except for a load that fails: it is heard by the job that waited for it, and by no
other. -/
theorem worker_in_order {r : Runtime Token F}
    {steps : List (Step (Worker ι Token F) (Action ι Token F))}
    (h : Run (step sqrt dim) initial steps W)
    (hloads : ∀ e ∈ steps, ∀ attempt r', e.action = .load attempt →
      attempt.load dim = .ok r' → r' = r) :
    sent steps = W.replies.map Prod.fst ++ (W.hand ++ W.queued) ∧
    (W.phase = .exited → sent steps = W.replies.map Prod.fst) ∧
    (∀ p ∈ W.replies, p.2 = answer sqrt r p.1 ∨ ∃ e, p.2 = .error (.load e)) ∧
    W.losses = steps.filterMap (failedWake dim) := by
  have hjobs : sent steps = W.replies.map Prod.fst ++ (W.hand ++ W.queued) := (jobs_run h).symm
  have hfaithful : Faithful sqrt r W :=
    (h.invariant (Q := fun e => ∀ attempt r', e.action = .load attempt →
        attempt.load dim = .ok r' → r' = r)
      (fun s a t hstep hQ => (moves_of_step hstep).faithful hQ) hloads ⟨nofun, nofun⟩).1
  refine ⟨hjobs, fun hexited => ?_, hfaithful.replies, losses_run h⟩
  have hinbox := ((orderly_run h).exited hexited).1
  rw [hjobs]
  simp [Worker.hand, Worker.queued, hexited, hinbox]

end Scalars

/-- A file with the model of letters, and the file gone. -/
def lettersFile : Attempt Char ℤ := ⟨.ok ⟨letters, 2⟩, .ok ()⟩

def gone : Attempt Char ℤ := ⟨.error "gone".toList, .ok ()⟩

/-- Three jobs: one before the worker lets the model go, one that finds the file gone, and one after
the file is back. -/
def threeJobs : List (Action ℕ Char ℤ) :=
  [.load lettersFile, .send (.unloadAfter (some 300)), .send (.embed ⟨0, [['a']]⟩), .receive,
    .receive, .timeout, .send (.embed ⟨1, [['b']]⟩), .receive, .load gone,
    .send (.embed ⟨2, [['c']]⟩), .receive, .load lettersFile, .drop, .disconnected]

theorem worker_in_order_letters :
    ∃ steps W, Run (step id 2) (initial : Worker ℕ Char ℤ) steps W ∧
      sent steps = W.replies.map Prod.fst ∧ W.losses = [(⟨1, [['b']]⟩, .file "gone".toList)] := by
  obtain ⟨steps, W, hrun, hactions, hexited⟩ := exists_run_of_exec (step id 2) initial threeJobs
    (fun run => match run.2.phase with
      | .exited => decide (run.1.filterMap (failedWake 2) = [(⟨1, [['b']]⟩, .file "gone".toList)])
      | _ => false) (by decide +kernel)
  have hphase : W.phase = .exited := by
    cases hphase : W.phase <;> simp [hphase] at hexited ⊢
  simp only [hphase, decide_eq_true_eq] at hexited
  have hloads : ∀ e ∈ steps, ∀ attempt r', e.action = .load attempt →
      attempt.load 2 = .ok r' → r' = ⟨letters, 2⟩ := by
    intro e he attempt r' hload hok
    have haction := hactions e he
    rw [hload] at haction
    simp only [threeJobs, List.mem_cons, Action.load.injEq, reduceCtorEq, List.not_mem_nil,
      false_or, or_false] at haction
    rcases haction with rfl | rfl | rfl
    · exact (Except.ok.inj hok).symm
    · cases hok
    · exact (Except.ok.inj hok).symm
  obtain ⟨-, hdone, -, hlosses⟩ := worker_in_order hrun hloads
  exact ⟨steps, W, hrun, hdone hphase, hlosses.trans hexited⟩

section Scalars

variable [Zero F] [Add F] [Mul F] [Div F] [LT F] [DecidableLT F] {sqrt : F → F} {dim : ℕ}
  {W W' : Worker ι Token F} {a : Action ι Token F}

/-! ### Every call returns -/

theorem Moves.work_lt (h : Moves sqrt dim W a W') (hown : a.own = true) : W'.work < W.work := by
  cases h with
  | send | drop => cases hown
  | failed attempt e hphase | started attempt r hload hphase | lost attempt job e hload hphase
  | woken attempt job r hload hphase =>
    simp [Worker.work, Worker.reply, Phase.work, hphase]
  | answered job rest r hinbox hphase => simp [Worker.work, Worker.reply, hinbox]
  | woke job rest hinbox hphase =>
    simp only [Worker.work, Phase.work, hinbox, hphase, List.length_cons]
    omega
  | set after rest hinbox hphase => simp [Worker.work, hinbox]
  | idled r hinbox hphase => simp [Worker.work, Phase.work, hinbox, hphase]
  | closed hinbox hphase =>
    have hpos : 0 < W.phase.work := by
      cases hcase : W.phase <;> simp [hcase, Phase.receptive, Phase.work] at hphase ⊢
    simpa [Worker.work, Phase.work, hinbox] using hpos

theorem Moves.sent_own (h : Moves sqrt dim W a W') (hown : a.own = true) : a.sent = [] := by
  cases h <;> first | rfl | cases hown

/-- A worker that can do nothing by itself has answered every job. -/
theorem idle_of_stuck (hW : Orderly W) (hstuck : ∀ a, a.own = true → step sqrt dim W a = none) :
    W.hand = [] ∧ W.inbox = [] := by
  have hload := hstuck (.load ⟨.error [], .error []⟩) rfl
  have hreceive := hstuck .receive rfl
  simp only [step, Worker.loaded, Worker.received, Attempt.load] at hload hreceive
  unfold Worker.hand
  cases hphase : W.phase with
  | starting => simp [hphase] at hload
  | waking job => simp [hphase] at hload
  | exited => exact ⟨rfl, (hW.exited hphase).1⟩
  | serving r =>
    refine ⟨rfl, ?_⟩
    cases hinbox : W.inbox with
    | nil => rfl
    | cons msg rest => cases msg <;> simp [hinbox, hphase] at hreceive
  | unloaded =>
    refine ⟨rfl, ?_⟩
    cases hinbox : W.inbox with
    | nil => rfl
    | cons msg rest => cases msg <;> simp [hinbox, hphase] at hreceive

theorem sent_own {steps : List (Step (Worker ι Token F) (Action ι Token F))}
    (h : Run (step sqrt dim) W steps W') (hown : ∀ e ∈ steps, e.action.own = true) :
    sent steps = [] := by
  induction h with
  | nil W => rfl
  | cons hstep _ ih =>
    obtain ⟨hfirst, hrest⟩ := List.forall_mem_cons.mp hown
    rw [sent, List.flatMap_cons, (moves_of_step hstep).sent_own hfirst]
    exact ih hrest

theorem work_own {steps : List (Step (Worker ι Token F) (Action ι Token F))}
    (h : Run (step sqrt dim) W steps W') (hown : ∀ e ∈ steps, e.action.own = true) :
    steps.length + W'.work ≤ W.work := by
  induction h with
  | nil W => simp
  | cons hstep _ ih =>
    obtain ⟨hfirst, hrest⟩ := List.forall_mem_cons.mp hown
    have hlt := (moves_of_step hstep).work_lt hfirst
    have hle := ih hrest
    rw [List.length_cons]
    omega

/-- Left to itself, the worker comes to rest within a bound that is read off its channel, and then
every job that was ever sent has its answer. -/
theorem worker_comes_to_rest {steps more : List (Step (Worker ι Token F) (Action ι Token F))}
    (h : Run (step sqrt dim) initial steps W) (h' : Run (step sqrt dim) W more W')
    (hown : ∀ e ∈ more, e.action.own = true) :
    more.length + W'.work ≤ W.work ∧
    ((∀ a, a.own = true → step sqrt dim W' a = none) →
      sent steps = W'.replies.map Prod.fst) := by
  refine ⟨work_own h' hown, fun hstuck => ?_⟩
  have hboth := h.append h'
  obtain ⟨hhand, hinbox⟩ := idle_of_stuck (orderly_run hboth) hstuck
  have hjobs : W'.jobs = sent steps ++ sent more := by
    rw [jobs_run hboth, sent, List.flatMap_append]
    rfl
  rw [sent_own h' hown, List.append_nil, Worker.jobs, Worker.queued, hhand, hinbox] at hjobs
  simpa using hjobs.symm

end Scalars

/-- A worker that has let its model go, with two jobs in its channel and nobody to send more. -/
def twoWait : Worker ℕ Char ℤ :=
  ⟨[.embed ⟨0, [['a']]⟩, .embed ⟨1, [['b']]⟩], false, .unloaded, some 300, some (.ok ()), []⟩

/-- The worker at its end: the file was gone for the first job and back for the second. -/
def twoAnswered : Worker ℕ Char ℤ :=
  ⟨[], false, .exited, some 300, some (.ok ()),
    [(⟨0, [['a']]⟩, .error (.load (.file "gone".toList))), (⟨1, [['b']]⟩, .ok [[0, 1]])]⟩

theorem worker_comes_to_rest_letters :
    ∃ steps more, Run (step id 2) initial steps twoWait ∧
      Run (step id 2) twoWait more twoAnswered ∧ more.length + twoAnswered.work ≤ twoWait.work ∧
      sent steps = twoAnswered.replies.map Prod.fst := by
  have hrun : Run (step id 2) (initial : Worker ℕ Char ℤ)
      [⟨_, .load lettersFile, _⟩, ⟨_, .send (.unloadAfter (some 300)), _⟩, ⟨_, .receive, _⟩,
        ⟨_, .timeout, _⟩, ⟨_, .send (.embed ⟨0, [['a']]⟩), _⟩,
        ⟨_, .send (.embed ⟨1, [['b']]⟩), _⟩, ⟨_, .drop, _⟩] twoWait :=
    .cons rfl (.cons rfl (.cons rfl (.cons rfl (.cons rfl (.cons rfl (.cons rfl (.nil _)))))))
  have hmore : Run (step id 2) twoWait
      [⟨_, .receive, _⟩, ⟨_, .load gone, _⟩, ⟨_, .receive, _⟩, ⟨_, .load lettersFile, _⟩,
        ⟨_, .disconnected, _⟩] twoAnswered :=
    .cons rfl (.cons rfl (.cons rfl (.cons rfl (.cons rfl (.nil _)))))
  obtain ⟨hwork, hdone⟩ := worker_comes_to_rest hrun hmore (by simp [Action.own])
  refine ⟨_, _, hrun, hmore, hwork, hdone fun a _ => ?_⟩
  cases a <;> rfl

end Agmem.Embed.Llama
