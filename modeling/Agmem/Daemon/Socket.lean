import Agmem.Transition.Lock
import Agmem.Transition.Since

/-! The socket file of a store, the daemons that bind it and the clients that start them, in any
order of their steps. A client whose connect fails queues for the startup lock, connects again,
removes a socket file that nothing answers, waits until nobody holds the store and starts a daemon;
it may be gone, or have given up, at any point. A daemon takes the lock of the store, removes what
is at the path, binds and listens; on its way out it drops its listener, then the file, then the
lock. Where no daemon comes up while a client goes by what a failed connect has told it, the file of
a daemon that serves stays where it is. -/

namespace Agmem.Daemon.Socket

open Transition

/-- Whether a daemon this session starts is replacing one that just retired. -/
inductive Takeover where
  | no
  | fromRetired
deriving DecidableEq

/-- How many starts a session has. -/
def Takeover.starts : Takeover → ℕ
  | .no => 1
  | .fromRetired => 2

/-- How far a process that may own the store is. -/
inductive Phase where
  | absent
  | starting
  /-- It has the data-dir lock. -/
  | opening
  /-- What was at the path is removed. -/
  | cleared
  /-- The socket is bound and does not listen yet. -/
  | bound
  | serving
  /-- The listener is dropped. -/
  | unbound
  /-- And the file removed. -/
  | closing
  /-- A session with `--no-daemon`. -/
  | direct
  | gone
deriving DecidableEq

def Phase.holdsStore : Phase → Bool
  | .opening | .cleared | .bound | .serving | .unbound | .closing | .direct => true
  | .absent | .starting | .gone => false

/-- Bound, listening or about to. -/
def Phase.isBound : Phase → Bool
  | .bound | .serving => true
  | _ => false

/-- How far a client is in attaching. -/
inductive Client (δ : Type*) where
  | idle
  | queued (takeover : Takeover)
  /-- It has the startup lock. -/
  | locked (takeover : Takeover)
  /-- Nothing answered. -/
  | refused (takeover : Takeover)
  /-- And there is a file at the path. -/
  | stale (takeover : Takeover)
  | waiting (starts : ℕ)
  /-- It has found the store free. -/
  | free (starts : ℕ)
  | watching (daemon : δ) (starts : ℕ)

variable {κ δ : Type*}

def Client.holdsSpawn : Client δ → Bool
  | .idle | .queued _ => false
  | _ => true

/-- About to remove a file, or to start a daemon, for what it has seen. -/
def Client.deciding : Client δ → Bool
  | .refused _ | .stale _ | .free _ => true
  | _ => false

structure State (κ δ : Type*) where
  /-- Whose socket the file at the path is. -/
  path : Option δ
  spawnLock : Option κ
  storeLock : Option δ
  phase : δ → Phase
  client : κ → Client δ

def initial : State κ δ where
  path := none
  spawnLock := none
  storeLock := none
  phase _ := .absent
  client _ := .idle

/-- What a client does next. -/
inductive ClientMove (δ : Type*) where
  /-- It connects before it has a lock. -/
  | attach (takeover : Takeover)
  | queue
  /-- And once it has it. -/
  | connect
  | look
  | remove
  | probe
  | spawn (daemon : δ)
  | ready
  | died
  /-- It has crashed, failed, or waited for too long. -/
  | leave

/-- What a process that may own the store does next. -/
inductive ProcessMove where
  /-- Somebody starts it by hand. -/
  | launch
  | direct
  | acquire
  | clear
  | bind
  | listen
  | drop
  | unlink
  /-- It ends, in whatever way. -/
  | exit

inductive Action (κ δ : Type*) where
  | client (c : κ) (move : ClientMove δ)
  | process (d : δ) (move : ProcessMove)

/-- The daemon that a connect reaches. -/
def reach (S : State κ δ) : Option δ := S.path.filter fun d => S.phase d = .serving

variable [DecidableEq κ] [DecidableEq δ]

def State.setClient (S : State κ δ) (c : κ) (x : Client δ) : State κ δ :=
  { S with client := Function.update S.client c x }

def State.setPhase (S : State κ δ) (d : δ) (p : Phase) : State κ δ :=
  { S with phase := Function.update S.phase d p }

/-- A client is done, and the startup lock with it. -/
def State.leave (S : State κ δ) (c : κ) : State κ δ :=
  { S.setClient c .idle with spawnLock := release S.spawnLock c }

/-- A process is gone, and the store's lock with it; a file at the path stays. -/
def State.exit (S : State κ δ) (d : δ) : State κ δ :=
  { S.setPhase d .gone with storeLock := release S.storeLock d }

/-- Nothing is at the path. -/
def State.clearPath (S : State κ δ) : State κ δ := { S with path := none }

def clientStep (S : State κ δ) (c : κ) : Client δ → ClientMove δ → Option (State κ δ)
  | .idle, .attach takeover =>
    some (if (reach S).isSome then S else S.setClient c (.queued takeover))
  | .queued takeover, .queue =>
    if S.spawnLock.isNone then some { S.setClient c (.locked takeover) with spawnLock := some c }
    else none
  | .locked takeover, .connect =>
    some (if (reach S).isSome then S.leave c else S.setClient c (.refused takeover))
  | .refused takeover, .look =>
    some (S.setClient c (if S.path.isSome then .stale takeover else .waiting takeover.starts))
  | .stale takeover, .remove =>
    some (if S.path.isSome then S.clearPath.setClient c (.waiting takeover.starts) else S.leave c)
  | .waiting starts, .probe =>
    if S.storeLock.isNone then some (S.setClient c (.free starts)) else none
  | .free starts, .spawn d =>
    if S.phase d = .absent then some ((S.setClient c (.watching d starts)).setPhase d .starting)
    else none
  | .watching _ _, .ready => if (reach S).isSome then some (S.leave c) else none
  | .watching d starts, .died =>
    if S.phase d = .gone then
      some (if starts - 1 = 0 then S.leave c else S.setClient c (.waiting (starts - 1)))
    else none
  | _, .leave => some (S.leave c)
  | _, _ => none

def processStep (S : State κ δ) (d : δ) : Phase → ProcessMove → Option (State κ δ)
  | .absent, .launch => some (S.setPhase d .starting)
  | .absent, .direct =>
    if S.storeLock.isNone then some { S.setPhase d .direct with storeLock := some d } else none
  | .starting, .acquire =>
    some (if S.storeLock.isNone then { S.setPhase d .opening with storeLock := some d }
      else S.exit d)
  | .opening, .clear => some (S.clearPath.setPhase d .cleared)
  | .cleared, .bind =>
    some (if S.path.isNone then { S.setPhase d .bound with path := some d } else S.exit d)
  | .bound, .listen => some (S.setPhase d .serving)
  | .serving, .drop => some (S.setPhase d .unbound)
  | .unbound, .unlink => some (S.clearPath.setPhase d .closing)
  | .absent, .exit | .gone, .exit => none
  | _, .exit => some (S.exit d)
  | _, _ => none

def step (S : State κ δ) : Action κ δ → Option (State κ δ)
  | .client c move => clientStep S c (S.client c) move
  | .process d move => processStep S d (S.phase d) move

/-! ### What a step does -/

/-- The steps, with what each found. -/
inductive Moves (S : State κ δ) : Action κ δ → State κ δ → Prop
  | reached {c : κ} {takeover : Takeover} (found : (reach S).isSome = true) :
      Moves S (.client c (.attach takeover)) S
  | queued {c : κ} {takeover : Takeover} (idle : S.client c = .idle) :
      Moves S (.client c (.attach takeover)) (S.setClient c (.queued takeover))
  | locked {c : κ} {takeover : Takeover} (queued : S.client c = .queued takeover)
      (free : S.spawnLock = none) :
      Moves S (.client c .queue) { S.setClient c (.locked takeover) with spawnLock := some c }
  | refused {c : κ} {takeover : Takeover} (locked : S.client c = .locked takeover)
      (unreached : reach S = none) :
      Moves S (.client c .connect) (S.setClient c (.refused takeover))
  | stale {c : κ} {takeover : Takeover} (refused : S.client c = .refused takeover) :
      Moves S (.client c .look) (S.setClient c (.stale takeover))
  | missing {c : κ} {takeover : Takeover} (refused : S.client c = .refused takeover) :
      Moves S (.client c .look) (S.setClient c (.waiting takeover.starts))
  | removed {c : κ} {takeover : Takeover} (stale : S.client c = .stale takeover) :
      Moves S (.client c .remove) (S.clearPath.setClient c (.waiting takeover.starts))
  | probed {c : κ} {starts : ℕ} (waiting : S.client c = .waiting starts)
      (free : S.storeLock = none) : Moves S (.client c .probe) (S.setClient c (.free starts))
  | spawned {c : κ} {d : δ} {starts : ℕ} (free : S.client c = .free starts)
      (absent : S.phase d = .absent) : Moves S (.client c (.spawn d))
        ((S.setClient c (.watching d starts)).setPhase d .starting)
  | again {c : κ} {d : δ} {starts : ℕ} (watching : S.client c = .watching d starts) :
      Moves S (.client c .died) (S.setClient c (.waiting (starts - 1)))
  | left {c : κ} {move : ClientMove δ} (hmove : ∀ d, move ≠ .spawn d) :
      Moves S (.client c move) (S.leave c)
  | launched {d : δ} (absent : S.phase d = .absent) :
      Moves S (.process d .launch) (S.setPhase d .starting)
  | direct {d : δ} (free : S.storeLock = none) :
      Moves S (.process d .direct) { S.setPhase d .direct with storeLock := some d }
  | acquired {d : δ} (free : S.storeLock = none) :
      Moves S (.process d .acquire) { S.setPhase d .opening with storeLock := some d }
  | cleared {d : δ} (opening : S.phase d = .opening) :
      Moves S (.process d .clear) (S.clearPath.setPhase d .cleared)
  | bound {d : δ} (cleared : S.phase d = .cleared) :
      Moves S (.process d .bind) { S.setPhase d .bound with path := some d }
  | listening {d : δ} (bound : S.phase d = .bound) :
      Moves S (.process d .listen) (S.setPhase d .serving)
  | dropped {d : δ} (serving : S.phase d = .serving) :
      Moves S (.process d .drop) (S.setPhase d .unbound)
  | unlinked {d : δ} (unbound : S.phase d = .unbound) :
      Moves S (.process d .unlink) (S.clearPath.setPhase d .closing)
  | exited {d : δ} {move : ProcessMove} : Moves S (.process d move) (S.exit d)

variable {S T : State κ δ} {c : κ} {d : δ} {a : Action κ δ}

theorem clientStep_moves {move : ClientMove δ}
    (h : clientStep S c (S.client c) move = some T) : Moves S (.client c move) T := by
  unfold clientStep at h
  split at h
  case h_1 hidle =>
    simp only [Option.some.injEq] at h
    subst h
    split_ifs with hreach
    · exact .reached hreach
    · exact .queued hidle
  case h_2 hqueued =>
    simp only [Option.isNone_iff_eq_none] at h
    split_ifs at h with hfree
    cases h
    exact .locked hqueued hfree
  case h_3 hlocked =>
    simp only [Option.some.injEq] at h
    subst h
    split_ifs with hreach
    · exact .left nofun
    · exact .refused hlocked (by simpa using hreach)
  case h_4 hrefused =>
    simp only [Option.some.injEq] at h
    subst h
    split_ifs
    · exact .stale hrefused
    · exact .missing hrefused
  case h_5 hstale =>
    simp only [Option.some.injEq] at h
    subst h
    split_ifs
    · exact .removed hstale
    · exact .left nofun
  case h_6 hwaiting =>
    simp only [Option.isNone_iff_eq_none] at h
    split_ifs at h with hfree
    cases h
    exact .probed hwaiting hfree
  case h_7 hfree =>
    split_ifs at h with habsent
    cases h
    exact .spawned hfree habsent
  case h_8 =>
    split_ifs at h
    cases h
    exact .left nofun
  case h_9 hwatching =>
    split_ifs at h
    · cases h
      exact .left nofun
    · cases h
      exact .again hwatching
  case h_10 =>
    cases h
    exact .left nofun
  case h_11 => cases h

theorem processStep_moves {move : ProcessMove}
    (h : processStep S d (S.phase d) move = some T) : Moves S (.process d move) T := by
  unfold processStep at h
  split at h
  case h_1 hphase => cases h; exact .launched hphase
  case h_2 =>
    simp only [Option.isNone_iff_eq_none] at h
    split_ifs at h with hfree
    cases h
    exact .direct hfree
  case h_3 =>
    simp only [Option.isNone_iff_eq_none, Option.some.injEq] at h
    subst h
    split_ifs with hfree
    · exact .acquired hfree
    · exact .exited
  case h_4 hphase => cases h; exact .cleared hphase
  case h_5 hphase =>
    simp only [Option.some.injEq] at h
    subst h
    split_ifs
    · exact .bound hphase
    · exact .exited
  case h_6 hphase => cases h; exact .listening hphase
  case h_7 hphase => cases h; exact .dropped hphase
  case h_8 hphase => cases h; exact .unlinked hphase
  all_goals cases h
  all_goals exact .exited

theorem step_moves (h : step S a = some T) : Moves S a T := by
  cases a with
  | client c move => exact clientStep_moves h
  | process d move => exact processStep_moves h

/-! ### The locks -/

/-- Both locks are with whoever is where one holds them. -/
structure Locks (S : State κ δ) : Prop where
  spawn : Guarded S.spawnLock (fun x : Client δ => x.holdsSpawn = true) S.client
  store : Guarded S.storeLock (fun p : Phase => p.holdsStore = true) S.phase

omit [DecidableEq κ] [DecidableEq δ] in
theorem locks_initial : Locks (initial : State κ δ) :=
  ⟨fun _ => by simp [initial, Client.holdsSpawn], fun _ => by simp [initial, Phase.holdsStore]⟩

omit [DecidableEq δ] in
theorem Locks.setClient (h : Locks S) {x : Client δ}
    (hx : x.holdsSpawn = (S.client c).holdsSpawn) : Locks (S.setClient c x) :=
  ⟨h.spawn.stay (by rw [hx]), h.store⟩

omit [DecidableEq κ] in
theorem Locks.setPhase (h : Locks S) {p : Phase} (hp : p.holdsStore = (S.phase d).holdsStore) :
    Locks (S.setPhase d p) :=
  ⟨h.spawn, h.store.stay (by rw [hp])⟩

omit [DecidableEq κ] [DecidableEq δ] in
theorem Locks.clearPath (h : Locks S) : Locks S.clearPath := ⟨h.spawn, h.store⟩

omit [DecidableEq δ] in
theorem Locks.leave (h : Locks S) (c : κ) : Locks (S.leave c) :=
  ⟨h.spawn.drop (by simp [Client.holdsSpawn]), h.store⟩

omit [DecidableEq κ] in
theorem Locks.exit (h : Locks S) (d : δ) : Locks (S.exit d) :=
  ⟨h.spawn, h.store.drop (by simp [Phase.holdsStore])⟩

omit [DecidableEq κ] in
theorem Locks.takeStore (h : Locks S) {p : Phase} (hfree : S.storeLock = none)
    (hp : p.holdsStore = true) : Locks { S.setPhase d p with storeLock := some d } := by
  have hstore := h.store
  rw [hfree] at hstore
  exact ⟨h.spawn, hstore.take hp⟩

omit [DecidableEq δ] in
theorem Locks.takeSpawn (h : Locks S) {x : Client δ} (hfree : S.spawnLock = none)
    (hx : x.holdsSpawn = true) : Locks { S.setClient c x with spawnLock := some c } := by
  have hspawn := h.spawn
  rw [hfree] at hspawn
  exact ⟨hspawn.take hx, h.store⟩

/-- Every step keeps the locks. -/
theorem Moves.locks (hm : Moves S a T) (h : Locks S) : Locks T := by
  cases hm with
  | reached found => exact h
  | queued idle => exact h.setClient (by rw [idle]; rfl)
  | locked queued free => exact h.takeSpawn free rfl
  | refused locked unreached => exact h.setClient (by rw [locked]; rfl)
  | stale refused => exact h.setClient (by rw [refused]; rfl)
  | missing refused => exact h.setClient (by rw [refused]; rfl)
  | removed stale =>
    exact h.clearPath.setClient (by simp [State.clearPath, stale, Client.holdsSpawn])
  | probed waiting free => exact h.setClient (by rw [waiting]; rfl)
  | @spawned c d starts free absent =>
    have hset := h.setClient (c := c) (x := .watching d starts) (by rw [free]; rfl)
    exact hset.setPhase (by simp [State.setClient, absent, Phase.holdsStore])
  | again watching => exact h.setClient (by rw [watching]; rfl)
  | left hmove => exact h.leave _
  | launched absent => exact h.setPhase (by rw [absent]; rfl)
  | direct free => exact h.takeStore free rfl
  | acquired free => exact h.takeStore free rfl
  | cleared opening =>
    exact h.clearPath.setPhase (by simp [State.clearPath, opening, Phase.holdsStore])
  | @bound d cleared =>
    have hset := h.setPhase (d := d) (p := .bound) (by rw [cleared]; rfl)
    exact ⟨hset.spawn, hset.store⟩
  | listening bound => exact h.setPhase (by rw [bound]; rfl)
  | dropped serving => exact h.setPhase (by rw [serving]; rfl)
  | unlinked unbound =>
    exact h.clearPath.setPhase (by simp [State.clearPath, unbound, Phase.holdsStore])
  | exited => exact h.exit _

theorem Phase.holdsStore_of_isBound {p : Phase} (h : p.isBound = true) : p.holdsStore = true := by
  cases p with
  | bound => rfl
  | serving => rfl
  | _ => cases h

omit [DecidableEq κ] [DecidableEq δ] in
/-- While a process is where it holds the store's lock, no other one is bound. -/
theorem Locks.isBound_unique (h : Locks S) {e : δ} (hd : (S.phase d).holdsStore = true)
    (he : (S.phase e).isBound = true) : e = d :=
  h.store.unique hd (Phase.holdsStore_of_isBound he)

/-! ### The file -/

/-- Nobody is bound. -/
def State.Unbound (S : State κ δ) : Prop := ∀ d, (S.phase d).isBound = false

/-- A daemon that is bound has its file at the path, and no client goes by an answer from before. -/
structure Advertised (S : State κ δ) : Prop where
  file : ∀ d, (S.phase d).isBound = true → S.path = some d
  settled : ∀ c, (S.client c).deciding = true → S.Unbound

/-- No daemon binds while a client goes by what it has been told, and no client asks under the
startup lock while a daemon is bound that does not listen yet. -/
def Undisturbed (e : Step (State κ δ) (Action κ δ)) : Prop :=
  (∀ d, e.action = .process d .bind → ∀ c, (e.source.client c).deciding = false) ∧
  (∀ c, e.action = .client c .connect → ∀ d, e.source.phase d ≠ .bound)

omit [DecidableEq κ] [DecidableEq δ] in
theorem advertised_initial : Advertised (initial : State κ δ) := by
  constructor
  · intro d hd
    cases hd
  · intro c hc
    cases hc

omit [DecidableEq δ] in
theorem Advertised.setClient (h : Advertised S) {x : Client δ}
    (hx : x.deciding = true → S.Unbound) : Advertised (S.setClient c x) := by
  refine ⟨h.file, fun e he => ?_⟩
  by_cases hne : e = c
  · subst hne
    simp only [State.setClient, Function.update_self] at he
    exact hx he
  · simp only [State.setClient, Function.update_of_ne hne] at he
    exact h.settled e he

omit [DecidableEq κ] in
theorem isBound_setPhase {p : Phase} {e : δ} (he : ((S.setPhase d p).phase e).isBound = true) :
    e = d ∧ p.isBound = true ∨ (S.phase e).isBound = true := by
  by_cases hne : e = d
  · subst hne
    simp only [State.setPhase, Function.update_self] at he
    exact .inl ⟨rfl, he⟩
  · simp only [State.setPhase, Function.update_of_ne hne] at he
    exact .inr he

omit [DecidableEq κ] in
/-- A process moves on that is not bound after that, or was before. -/
theorem Advertised.setPhase (h : Advertised S) {p : Phase}
    (hp : p.isBound = true → (S.phase d).isBound = true) : Advertised (S.setPhase d p) := by
  have hbefore : ∀ e, ((S.setPhase d p).phase e).isBound = true → (S.phase e).isBound = true := by
    intro e he
    rcases isBound_setPhase he with ⟨rfl, hbound⟩ | hbound
    · exact hp hbound
    · exact hbound
  refine ⟨fun e he => h.file e (hbefore e he), fun c hc e => ?_⟩
  by_contra hbound
  have := h.settled c hc e
  rw [hbefore e ((Bool.not_eq_false _).mp hbound)] at this
  cases this

omit [DecidableEq κ] [DecidableEq δ] in
theorem Advertised.clearPath (h : Advertised S) (hno : S.Unbound) : Advertised S.clearPath := by
  refine ⟨fun d hd => ?_, h.settled⟩
  have := hno d
  rw [show (S.phase d).isBound = true from hd] at this
  cases this

omit [DecidableEq δ] in
theorem Advertised.leave (h : Advertised S) (c : κ) : Advertised (S.leave c) := by
  have hset := h.setClient (c := c) (x := .idle) nofun
  exact ⟨hset.file, hset.settled⟩

omit [DecidableEq κ] in
theorem Advertised.exit (h : Advertised S) (d : δ) : Advertised (S.exit d) := by
  have hset := h.setPhase (d := d) (p := .gone) nofun
  exact ⟨hset.file, hset.settled⟩

omit [DecidableEq κ] [DecidableEq δ] in
/-- A process that holds the lock of the store and is not bound itself. -/
theorem Locks.unbound (h : Locks S) (hd : (S.phase d).holdsStore = true)
    (hno : (S.phase d).isBound = false) : S.Unbound := by
  intro e
  by_contra he
  have hbound := (Bool.not_eq_false _).mp he
  rw [h.isBound_unique hd hbound, hno] at hbound
  cases hbound

omit [DecidableEq κ] [DecidableEq δ] in
theorem Locks.unbound_of_free (h : Locks S) (hfree : S.storeLock = none) : S.Unbound := by
  have hstore := h.store
  rw [hfree] at hstore
  intro d
  by_contra hd
  exact hstore.free d (Phase.holdsStore_of_isBound ((Bool.not_eq_false _).mp hd))

omit [DecidableEq κ] [DecidableEq δ] in
theorem reach_of_serving (h : Advertised S) (hd : S.phase d = .serving) : reach S = some d := by
  unfold reach
  rw [h.file d (by rw [hd]; rfl)]
  simp [hd]

omit [DecidableEq κ] [DecidableEq δ] in
/-- Where nothing answers and nothing is about to, nobody is bound. -/
theorem unbound_of_unreached (h : Advertised S) (hreach : reach S = none)
    (hbound : ∀ d, S.phase d ≠ .bound) : S.Unbound := by
  intro d
  cases hphase : S.phase d with
  | bound => exact absurd hphase (hbound d)
  | serving =>
    rw [reach_of_serving h hphase] at hreach
    cases hreach
  | _ => rfl

/-- A step in which nobody is disturbed keeps the files where they are. -/
theorem Moves.advertised (hm : Moves S a T) (hl : Locks S) (hQ : Undisturbed ⟨S, a, T⟩)
    (h : Advertised S) : Advertised T := by
  cases hm with
  | reached found => exact h
  | queued idle => exact h.setClient nofun
  | @locked c takeover queued free =>
    have hset := h.setClient (c := c) (x := .locked takeover) nofun
    exact ⟨hset.file, hset.settled⟩
  | @refused c takeover locked unreached =>
    exact h.setClient fun _ => unbound_of_unreached h unreached (hQ.2 c rfl)
  | @stale c takeover refused =>
    exact h.setClient fun _ => h.settled c (by rw [refused]; rfl)
  | missing refused => exact h.setClient nofun
  | @removed c takeover stale =>
    have hno := h.settled c (by rw [stale]; rfl)
    exact (h.clearPath hno).setClient nofun
  | probed waiting free => exact h.setClient fun _ => hl.unbound_of_free free
  | @spawned c d starts free absent =>
    have hset := h.setClient (c := c) (x := .watching d starts) nofun
    exact hset.setPhase nofun
  | again watching => exact h.setClient nofun
  | left hmove => exact h.leave _
  | launched absent => exact h.setPhase nofun
  | @direct d free =>
    have hset := h.setPhase (d := d) (p := .direct) nofun
    exact ⟨hset.file, hset.settled⟩
  | @acquired d free =>
    have hset := h.setPhase (d := d) (p := .opening) nofun
    exact ⟨hset.file, hset.settled⟩
  | @cleared d opening =>
    have hno := hl.unbound (d := d) (by rw [opening]; rfl) (by rw [opening]; rfl)
    exact (h.clearPath hno).setPhase nofun
  | @bound d cleared =>
    have hno := hl.unbound (d := d) (by rw [cleared]; rfl) (by rw [cleared]; rfl)
    refine ⟨fun e he => ?_, fun c hc => ?_⟩
    · rcases isBound_setPhase he with ⟨rfl, -⟩ | hbound
      · rfl
      · rw [hno e] at hbound
        cases hbound
    · have hfalse := hQ.1 d rfl c
      rw [show (S.client c).deciding = true from hc] at hfalse
      cases hfalse
  | listening bound => exact h.setPhase fun _ => by rw [bound]; rfl
  | dropped serving => exact h.setPhase nofun
  | @unlinked d unbound =>
    have hno := hl.unbound (d := d) (by rw [unbound]; rfl) (by rw [unbound]; rfl)
    exact (h.clearPath hno).setPhase nofun
  | exited => exact h.exit _

/-! ### A daemon that serves -/

/-- A step as it should be: the file of a daemon that is bound stays at the path, no client starts
another one, and after the step every daemon that serves is reached and has the store to itself. -/
structure Safe (e : Step (State κ δ) (Action κ δ)) : Prop where
  kept : ∀ d, (e.source.phase d).isBound = true → e.source.path = some d → e.target.path = some d
  single : ∀ c d, e.action = .client c (.spawn d) → e.source.Unbound
  reached : ∀ d, e.target.phase d = .serving → reach e.target = some d
  alone : ∀ d, e.target.phase d = .serving → ∀ d', (e.target.phase d').holdsStore = true → d' = d

omit [DecidableEq κ] [DecidableEq δ] in
theorem State.Unbound.kept (h : S.Unbound) (hd : (S.phase d).isBound = true) (file : Option δ) :
    file = some d := by
  rw [h d] at hd
  cases hd

/-- Whoever removes the file of a socket finds nobody bound. -/
theorem Moves.kept (hm : Moves S a T) (hl : Locks S) (h : Advertised S)
    (hd : (S.phase d).isBound = true) (hpath : S.path = some d) : T.path = some d := by
  cases hm with
  | @removed c takeover stale => exact (h.settled c (by rw [stale]; rfl)).kept hd _
  | @cleared e opening =>
    exact (hl.unbound (d := e) (by rw [opening]; rfl) (by rw [opening]; rfl)).kept hd _
  | @bound e cleared =>
    exact (hl.unbound (d := e) (by rw [cleared]; rfl) (by rw [cleared]; rfl)).kept hd _
  | @unlinked e unbound =>
    exact (hl.unbound (d := e) (by rw [unbound]; rfl) (by rw [unbound]; rfl)).kept hd _
  | _ => exact hpath

omit [DecidableEq κ] [DecidableEq δ] in
theorem Locks.alone (h : Locks S) {e : δ} (hd : S.phase d = .serving)
    (he : (S.phase e).holdsStore = true) : e = d :=
  h.store.unique (show (S.phase d).holdsStore = true by rw [hd]; rfl) he

theorem Moves.safe (hm : Moves S a T) (hl : Locks S) (h : Advertised S)
    (hQ : Undisturbed ⟨S, a, T⟩) : Safe ⟨S, a, T⟩ := by
  refine ⟨fun d hd hpath => hm.kept hl h hd hpath, ?_, fun d hd => ?_, fun d hd e he => ?_⟩
  · rintro c d rfl
    cases hm with
    | spawned free absent => exact h.settled c (by rw [free]; rfl)
    | left hmove => exact absurd rfl (hmove d)
  · exact reach_of_serving (hm.advertised hl hQ h) hd
  · exact (hm.locks hl).alone hd he

variable {steps : List (Step (State κ δ) (Action κ δ))}

/-- In every run at most one process holds the store; and where no daemon comes up while a client
goes by what it was told before, every step is safe. -/
theorem serving_safe (h : Run step initial steps S) :
    (∀ e ∈ steps, ∀ d d', (e.target.phase d).holdsStore = true →
      (e.target.phase d').holdsStore = true → d' = d) ∧
    ((∀ e ∈ steps, Undisturbed e) → ∀ e ∈ steps, Safe e) := by
  constructor
  · have hinv := h.invariant (I := Locks) (Q := fun _ => True)
      (fun _ _ _ hs _ hl => (step_moves hs).locks hl) (fun _ _ => trivial) locks_initial
    intro e he d d' hd hd'
    exact (hinv.2 e he).2.store.unique hd hd'
  · intro hQ e he
    have hinv := h.invariant (I := fun S => Locks S ∧ Advertised S) (Q := Undisturbed)
      (fun _ _ _ hs hQ hI => ⟨(step_moves hs).locks hI.1, (step_moves hs).advertised hI.1 hQ hI.2⟩)
      hQ ⟨locks_initial, advertised_initial⟩
    obtain ⟨n, hn⟩ := List.mem_iff_getElem?.mp he
    obtain ⟨hl, ha⟩ := (hinv.2 e he).1
    exact (step_moves (h.step_eq hn)).safe hl ha (hQ e he)

/-- A client that has started a daemon gives up; the next one finds nothing answering, the daemon
comes up, and the client removes the file of the daemon that serves. -/
theorem unlinked_while_serving :
    ∃ (steps : List (Step (State ℕ ℕ) (Action ℕ ℕ))) (S T : State ℕ ℕ),
      Run step initial steps S ∧ S.phase 0 = .serving ∧ reach S = some 0 ∧
      step S (.client 1 .remove) = some T ∧ T.phase 0 = .serving ∧ reach T = none :=
  ⟨[⟨_, .client 0 (.attach .no), _⟩, ⟨_, .client 0 .queue, _⟩, ⟨_, .client 0 .connect, _⟩,
    ⟨_, .client 0 .look, _⟩, ⟨_, .client 0 .probe, _⟩, ⟨_, .client 0 (.spawn 0), _⟩,
    ⟨_, .client 0 .leave, _⟩, ⟨_, .client 1 (.attach .no), _⟩, ⟨_, .client 1 .queue, _⟩,
    ⟨_, .client 1 .connect, _⟩, ⟨_, .process 0 .acquire, _⟩, ⟨_, .process 0 .clear, _⟩,
    ⟨_, .process 0 .bind, _⟩, ⟨_, .process 0 .listen, _⟩, ⟨_, .client 1 .look, _⟩], _, _,
    .cons rfl (.cons rfl (.cons rfl (.cons rfl (.cons rfl (.cons rfl (.cons rfl (.cons rfl
      (.cons rfl (.cons rfl (.cons rfl (.cons rfl (.cons rfl (.cons rfl (.cons rfl
        (.nil _))))))))))))))), rfl, rfl, rfl, rfl, rfl⟩

/-- A client starts a daemon, which binds and listens while he watches, and reaches it. -/
theorem started_safe :
    ∃ (steps : List (Step (State ℕ ℕ) (Action ℕ ℕ))) (S : State ℕ ℕ),
      Run step initial steps S ∧ S.phase 0 = .serving ∧ ∀ e ∈ steps, Safe e := by
  have hrun : Run (step : State ℕ ℕ → Action ℕ ℕ → Option (State ℕ ℕ)) initial
      [⟨_, .client 0 (.attach .no), _⟩, ⟨_, .client 0 .queue, _⟩, ⟨_, .client 0 .connect, _⟩,
        ⟨_, .client 0 .look, _⟩, ⟨_, .client 0 .probe, _⟩, ⟨_, .client 0 (.spawn 0), _⟩,
        ⟨_, .process 0 .acquire, _⟩, ⟨_, .process 0 .clear, _⟩, ⟨_, .process 0 .bind, _⟩,
        ⟨_, .process 0 .listen, _⟩, ⟨_, .client 0 .ready, _⟩] _ :=
    .cons rfl (.cons rfl (.cons rfl (.cons rfl (.cons rfl (.cons rfl (.cons rfl (.cons rfl
      (.cons rfl (.cons rfl (.cons rfl (.nil _)))))))))))
  refine ⟨_, _, hrun, rfl, (serving_safe hrun).2 fun e he => ?_⟩
  simp only [List.mem_cons, List.not_mem_nil, or_false] at he
  rcases he with rfl | rfl | rfl | rfl | rfl | rfl | rfl | rfl | rfl | rfl | rfl
  case inr.inr.inl => exact ⟨nofun, fun _ _ _ => nofun⟩
  case inr.inr.inr.inr.inr.inr.inr.inr.inl =>
    refine ⟨fun _ _ c => ?_, nofun⟩
    cases c with
    | zero => rfl
    | succ c => rfl
  all_goals exact ⟨nofun, nofun⟩

end Agmem.Daemon.Socket
