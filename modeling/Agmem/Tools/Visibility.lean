import Agmem.Transition.Since
import Agmem.Store.Spaces
import Agmem.Store.Interleaving
import Agmem.Tools.Registration
import Agmem.Tools.Server
import Agmem.Tools.Versions

/-! Whatever is written can be read. A process that starts up registers its space, so does a session
that attaches, and a call that names another space registers that before it writes; the statement
of the call may come much later, with other sessions at work in between. So no row is in a space
that the registry does not list, and a read under the name a write was given looks where the write
went. -/

namespace Agmem.Tools.Visibility

open Core Relational Store Transition Registration

/-! ### The sessions of a store -/

/-- A write that knows where it goes. -/
structure Held where
  service : Service
  requested : Option Text
  space : SpaceName

structure State (σ κ : Type*) where
  store : Db
  session : σ → Option Service
  call : κ → Option Held

/-- Every vector is replaced, as where a store is moved to another model, or drained. -/
def revector (db : Db) (dimension : ℕ) (memory : MemoryId → Option Embedding)
    (chunk : ChunkId → Option Embedding) : Option Db :=
  match Table.build? (db.memory.rows.map fun r => { r with embedding := memory r.id }),
    Table.build? (db.episodeChunk.rows.map fun c => { c with embedding := chunk c.id }) with
  | some memory, some episodeChunk =>
    some { db with memory := memory, episodeChunk := episodeChunk, dimension := dimension }
  | _, _ => none

variable {σ κ : Type*} {S T : State σ κ} {db db' : Db}

def initial (dimension : ℕ) : State σ κ := ⟨Db.empty dimension, fun _ => none, fun _ => none⟩

/-! ### Nothing is out of sight -/

/-- Every row is in a registered space, every session serves one, and every write goes to one that
its session can read. -/
structure Listed (S : State σ κ) : Prop where
  memory : ∀ r ∈ S.store.memory, isRegistered r.space S.store = true
  episode : ∀ e ∈ S.store.episode, isRegistered e.space S.store = true
  chunk : ∀ c ∈ S.store.episodeChunk, isRegistered c.space S.store = true
  session : ∀ i service, S.session i = some service → isRegistered service.space S.store = true
  call : ∀ c held, S.call c = some held → isRegistered held.space S.store = true ∧
    ∃ db db' now, resolveSpace held.service db held.requested now = .ok (db', held.space)

theorem isRegistered_mono {name : SpaceName} (h : ∀ row ∈ db.space, row ∈ db'.space)
    (hname : isRegistered name db = true) : isRegistered name db' = true := by
  obtain ⟨row, hrow, hn⟩ := isRegistered_iff.mp hname
  exact isRegistered_iff.mpr ⟨row, h row hrow, hn⟩

/-- What adds no rows keeps them in sight. -/
theorem Listed.keeps (h : Listed S) (hk : Keeps S.store db) : Listed { S with store := db } where
  memory r' hr' := by
    obtain ⟨r, hr, -, hs⟩ := hk.memory r' hr'
    exact isRegistered_mono hk.registry (hs ▸ h.memory r hr)
  episode e he := isRegistered_mono hk.registry (h.episode e (hk.episode e he))
  chunk c hc := isRegistered_mono hk.registry (h.chunk c (hk.chunk c hc))
  session i service hi := isRegistered_mono hk.registry (h.session i service hi)
  call c held hc := ⟨isRegistered_mono hk.registry (h.call c held hc).1, (h.call c held hc).2⟩

/-- A write in a registered space keeps all rows in sight. -/
theorem Listed.adds (h : Listed S) {space : SpaceName} (hspace : isRegistered space S.store = true)
    (ha : Adds space S.store db) : Listed { S with store := db } := by
  have hmono : ∀ {name}, isRegistered name S.store = true → isRegistered name db = true :=
    isRegistered_mono fun row hrow => ha.registry ▸ hrow
  refine ⟨fun r' hr' => ?_, fun e he => ?_, fun c hc => ?_, fun i service hi =>
    hmono (h.session i service hi), fun c held hc => ⟨hmono (h.call c held hc).1,
      (h.call c held hc).2⟩⟩
  · rcases ha.memory r' hr' with hs | ⟨r, hr, -, hs⟩
    · exact hmono (hs ▸ hspace)
    · exact hmono (hs ▸ h.memory r hr)
  · rcases ha.episode e he with hs | hold
    · exact hmono (hs ▸ hspace)
    · exact hmono (h.episode e hold)
  · rcases ha.chunk c hc with hs | hold
    · exact hmono (hs ▸ hspace)
    · exact hmono (h.chunk c hold)

/-- A registration leaves the rest of the store, and the space of a write is registered after it. -/
theorem register_ok {service : Service} {name space : SpaceName} {now : Timestamp}
    (hown : isRegistered service.space db = true)
    (h : register service db name now = .ok (db', space)) :
    Keeps db db' ∧ isRegistered space db' = true := by
  unfold register at h
  split_ifs at h with heq
  · cases h
    exact ⟨.refl db, heq ▸ hown⟩
  · split at h
    · cases h
    · rename_i hens
      cases h
      exact ⟨ensureSpace_keeps hens, (ensureSpace_registers hens).1⟩

theorem resolveSpace_ok {service : Service} {requested : Option Text} {now : Timestamp}
    {space : SpaceName} (hown : isRegistered service.space db = true)
    (h : resolveSpace service db requested now = .ok (db', space)) :
    Keeps db db' ∧ isRegistered space db' = true := by
  unfold resolveSpace at h
  split at h
  · cases h
    exact ⟨.refl db, hown⟩
  · split_ifs at h
    · cases h
      exact ⟨.refl db, hown⟩
    · exact register_ok hown h
    · split at h
      · cases h
      · exact register_ok hown h

theorem listed_initial (dimension : ℕ) : Listed (initial dimension : State σ κ) where
  memory r h := absurd h (Table.not_mem_empty r)
  episode e h := absurd h (Table.not_mem_empty e)
  chunk c h := absurd h (Table.not_mem_empty c)
  session _ _ := nofun
  call _ _ := nofun

theorem revector_keeps {dimension : ℕ} {memory : MemoryId → Option Embedding}
    {chunk : ChunkId → Option Embedding} (h : revector db dimension memory chunk = some db') :
    (∀ r' ∈ db'.memory, ∃ r ∈ db.memory, r.id = r'.id ∧ r.space = r'.space) ∧
      db'.episode = db.episode ∧
      (∀ c' ∈ db'.episodeChunk, ∃ c ∈ db.episodeChunk, c.space = c'.space) ∧
      db'.space = db.space := by
  unfold revector at h
  split at h
  · rename_i t u ht hu
    cases h
    refine ⟨fun r' hr' => ?_, rfl, fun c' hc' => ?_, rfl⟩
    · rw [Table.mem_iff, Table.build?_eq_some.mp ht] at hr'
      obtain ⟨r, hr, rfl⟩ := List.mem_map.mp hr'
      exact ⟨r, hr, rfl, rfl⟩
    · rw [Table.mem_iff, Table.build?_eq_some.mp hu] at hc'
      obtain ⟨c, hc, rfl⟩ := List.mem_map.mp hc'
      exact ⟨c, hc, rfl⟩
  · cases h

/-! ### What a session does -/

inductive Action (σ κ : Type*) where
  /-- A process starts up, or a session attaches: its space is registered, and it is served. -/
  | attach (session : σ) (service : Service) (now : Timestamp)
  /-- A write of a session, whichever tool it comes from, resolves its space. -/
  | resolve (call : κ) (session : σ) (requested : Option Text) (now : Timestamp)
  /-- An attempt of its statement goes through. -/
  | write (call : κ) (batch : Batch) (clock : Clock) (closed : List AlreadyClosed)
  /-- Anything else the store is asked for. -/
  | other (op : Op)
  | revector (dimension : ℕ) (memory : MemoryId → Option Embedding)
      (chunk : ChunkId → Option Embedding)

variable [DecidableEq σ] [DecidableEq κ] [Hashing]

def attach (S : State σ κ) (i : σ) (service : Service) (now : Timestamp) : Option (State σ κ) :=
  match ensureSpace S.store service.space now with
  | .error _ => none
  | .ok db => some { S with
      store := db, session := Function.update S.session i (some service) }

def resolve (S : State σ κ) (c : κ) (service : Service) (requested : Option Text)
    (now : Timestamp) : Option (State σ κ) :=
  match resolveSpace service S.store requested now with
  | .error _ => none
  | .ok (db, space) => some { S with
      store := db, call := Function.update S.call c (some ⟨service, requested, space⟩) }

def write (S : State σ κ) (c : κ) (batch : Batch) (clock : Clock) (closed : List AlreadyClosed) :
    Option (State σ κ) :=
  match batchTransaction S.store (batch.retain closed) clock with
  | .error _ => none
  | .ok (db, _, _) => some { S with store := db, call := Function.update S.call c none }

def step (S : State σ κ) : Action σ κ → Option (State σ κ)
  | .attach i service now =>
    match S.session i with
    | none => attach S i service now
    | some _ => none
  | .resolve c i requested now =>
    match S.session i, S.call c with
    | some service, none => resolve S c service requested now
    | _, _ => none
  | .write c batch clock closed =>
    match S.call c with
    | some held => if batch.space = held.space then write S c batch clock closed else none
    | none => none
  | .other op => if op.inserts then none else
    (Store.step S.store op).map fun db => { S with store := db }
  | .revector dimension memory chunk =>
    (revector S.store dimension memory chunk).map fun db => { S with store := db }

/-! ### What a step keeps -/

omit [DecidableEq κ] [Hashing] in
theorem attach_ok {i : σ} {service : Service} {now : Timestamp}
    (h : attach S i service now = some T) : ∃ db,
      ensureSpace S.store service.space now = .ok db ∧
      T = { S with store := db, session := Function.update S.session i (some service) } := by
  unfold attach at h
  split at h
  · cases h
  · rename_i db hens
    exact ⟨db, hens, (Option.some.inj h).symm⟩

omit [DecidableEq σ] [Hashing] in
theorem resolve_ok {c : κ} {service : Service} {requested : Option Text} {now : Timestamp}
    (h : resolve S c service requested now = some T) : ∃ db space,
      resolveSpace service S.store requested now = .ok (db, space) ∧
      T = { S with
        store := db, call := Function.update S.call c (some ⟨service, requested, space⟩) } := by
  unfold resolve at h
  split at h
  · cases h
  · rename_i db space hres
    exact ⟨db, space, hres, (Option.some.inj h).symm⟩

omit [DecidableEq σ] in
theorem write_ok {c : κ} {batch : Batch} {clock : Clock} {closed : List AlreadyClosed}
    (h : write S c batch clock closed = some T) : ∃ db episode ws,
      batchTransaction S.store (batch.retain closed) clock = .ok (db, episode, ws) ∧
      T = { S with store := db, call := Function.update S.call c none } := by
  unfold write at h
  split at h
  · cases h
  · rename_i db episode ws htx
    exact ⟨db, episode, ws, htx, (Option.some.inj h).symm⟩

omit [DecidableEq κ] [Hashing] in
theorem Listed.attaches (h : Listed S) {i : σ} {service : Service} {now : Timestamp}
    (hattach : attach S i service now = some T) : Listed T := by
  obtain ⟨db, hens, rfl⟩ := attach_ok hattach
  have hl := h.keeps (ensureSpace_keeps hens)
  refine ⟨hl.memory, hl.episode, hl.chunk, fun j other hj => ?_, hl.call⟩
  by_cases hji : j = i
  · subst hji
    simp only [Function.update_self, Option.some.injEq] at hj
    exact hj ▸ (ensureSpace_registers hens).1
  · simp only [Function.update_of_ne hji] at hj
    exact hl.session j other hj

omit [DecidableEq σ] [Hashing] in
/-- What a call holds is where its name leads. -/
theorem Listed.resolves (h : Listed S) {i : σ} {c : κ} {service : Service}
    {requested : Option Text} {now : Timestamp} (hi : S.session i = some service)
    (hresolve : resolve S c service requested now = some T) : Listed T := by
  obtain ⟨db, space, hres, rfl⟩ := resolve_ok hresolve
  obtain ⟨hkeeps, hspace⟩ := resolveSpace_ok (h.session i service hi) hres
  have hl := h.keeps hkeeps
  refine ⟨hl.memory, hl.episode, hl.chunk, hl.session, fun d held hd => ?_⟩
  by_cases hdc : d = c
  · subst hdc
    simp only [Function.update_self, Option.some.injEq] at hd
    subst hd
    exact ⟨hspace, _, _, _, hres⟩
  · simp only [Function.update_of_ne hdc] at hd
    exact hl.call d held hd

omit [DecidableEq σ] in
/-- What a statement adds is in the space its call holds. -/
theorem Listed.writes (h : Listed S) {c : κ} {held : Held} {batch : Batch} {clock : Clock}
    {closed : List AlreadyClosed} (hc : S.call c = some held) (hin : batch.space = held.space)
    (hwrite : write S c batch clock closed = some T) : Listed T := by
  obtain ⟨db, episode, ws, htx, rfl⟩ := write_ok hwrite
  have hl := h.adds (hin ▸ (h.call c held hc).1) (batchTransaction_adds htx)
  refine ⟨hl.memory, hl.episode, hl.chunk, hl.session, fun d other hd => ?_⟩
  by_cases hdc : d = c
  · subst hdc
    simp only [Function.update_self, reduceCtorEq] at hd
  · simp only [Function.update_of_ne hdc] at hd
    exact hl.call d other hd

omit [DecidableEq σ] [DecidableEq κ] [Hashing] in
theorem Listed.revectors (h : Listed S) {dimension : ℕ} {memory : MemoryId → Option Embedding}
    {chunk : ChunkId → Option Embedding} (hdb : revector S.store dimension memory chunk = some db) :
    Listed { S with store := db } := by
  obtain ⟨hmemory, hepisode, hchunk, hregistry⟩ := revector_keeps hdb
  have hmono : ∀ {name}, isRegistered name S.store = true → isRegistered name db = true :=
    isRegistered_mono fun row hrow => hregistry ▸ hrow
  refine ⟨fun r' hr' => ?_, fun e he => hmono (h.episode e (hepisode ▸ he)), fun c' hc' => ?_,
    fun i service hi => hmono (h.session i service hi), fun c held hc =>
      ⟨hmono (h.call c held hc).1, (h.call c held hc).2⟩⟩
  · obtain ⟨r, hr, -, hs⟩ := hmemory r' hr'
    exact hmono (hs ▸ h.memory r hr)
  · obtain ⟨c, hc, hs⟩ := hchunk c' hc'
    exact hmono (hs ▸ h.chunk c hc)

theorem step_listed {a : Action σ κ} (hs : step S a = some T) (h : Listed S) : Listed T := by
  cases a with
  | attach i service now =>
    simp only [step] at hs
    split at hs
    · exact h.attaches hs
    · cases hs
  | resolve c i requested now =>
    simp only [step] at hs
    split at hs
    · rename_i service hi hc
      exact h.resolves hi hs
    · cases hs
  | write c batch clock closed =>
    simp only [step] at hs
    split at hs
    · rename_i held hc
      split_ifs at hs with hin
      exact h.writes hc hin hs
    · cases hs
  | other op =>
    simp only [step] at hs
    split_ifs at hs with hop
    obtain ⟨db, hdb, rfl⟩ := Option.map_eq_some_iff.mp hs
    exact h.keeps (step_keeps_spaces ((Bool.not_eq_true _).mp hop) hdb)
  | revector dimension memory chunk =>
    obtain ⟨db, hdb, rfl⟩ := Option.map_eq_some_iff.mp hs
    exact h.revectors hdb

theorem listed_of_run {dimension : ℕ} {steps : List (Step (State σ κ) (Action σ κ))}
    (h : Run step (initial dimension) steps T) :
    Listed T ∧ ∀ e ∈ steps, Listed e.source ∧ Listed e.target :=
  h.invariant (I := Listed) (Q := fun _ => True) (fun _ _ _ hs _ hI => step_listed hs hI)
    (fun _ _ => trivial) (listed_initial dimension)

/-! ### Every row is read -/

omit [DecidableEq σ] [DecidableEq κ] [Hashing] in
theorem mem_spaces {name : SpaceName} (h : isRegistered name db = true) :
    name ∈ Store.spaces db := by
  obtain ⟨row, hrow, rfl⟩ := isRegistered_iff.mp h
  exact (List.mem_insertionSort _).mpr (List.mem_map.mpr ⟨row, hrow, rfl⟩)

/-- A statement that goes through: what it adds is in the space its call resolved. -/
theorem write_adds {c : κ} {batch : Batch} {clock : Clock} {closed : List AlreadyClosed}
    (h : step S (.write c batch clock closed) = some T) : ∃ held, S.call c = some held ∧
      Adds held.space S.store T.store := by
  simp only [step] at h
  split at h
  · rename_i held hc
    split_ifs at h with hin
    obtain ⟨db, episode, ws, htx, rfl⟩ := write_ok h
    have hadds : Adds (batch.retain closed).space S.store db := batchTransaction_adds htx
    have hspace : (batch.retain closed).space = held.space := hin
    exact ⟨held, hc, hspace ▸ hadds⟩
  · cases h

/-- In every store that startups, attached sessions and their writes lead to, a read over all spaces
looks where every row is; a write under a name goes where a read under that name looks, and nowhere
else, and a write without a name where a read without one looks; and whatever a write has added,
a read under the name of that write looks there. -/
theorem all_visible {dimension : ℕ} {steps : List (Step (State σ κ) (Action σ κ))}
    (h : Run step (initial dimension) steps T) :
    (∀ service, ∃ names, spaces service T.store (some keywordAll) = .ok names ∧
      (∀ r ∈ T.store.memory, r.space ∈ names) ∧ (∀ e ∈ T.store.episode, e.space ∈ names) ∧
      ∀ c ∈ T.store.episodeChunk, c.space ∈ names) ∧
    (∀ service db db' requested now space,
      resolveSpace service db requested now = .ok (db', space) → ∀ db'',
        (∀ name, requested = some name → spaces service db'' (some name) = .ok [space]) ∧
        ∃ names, spaces service db'' requested = .ok names ∧ space ∈ names) ∧
    ∀ e ∈ steps, ∀ c batch clock closed, e.action = .write c batch clock closed →
      ∃ held, e.source.call c = some held ∧ Adds held.space e.source.store e.target.store ∧
        ∃ names, spaces held.service T.store held.requested = .ok names ∧ held.space ∈ names := by
  obtain ⟨hT, hsteps⟩ := listed_of_run h
  have hagree : ∀ service db db' requested now space,
      resolveSpace service db requested now = .ok (db', space) → ∀ db'',
        (∀ name, requested = some name → spaces service db'' (some name) = .ok [space]) ∧
        ∃ names, spaces service db'' requested = .ok names ∧ space ∈ names := by
    intro service db db' requested now space hres db''
    obtain ⟨-, -, hnamed, ⟨names, hin, hsearched⟩, -⟩ := Versions.resolveSpace_place hres
    refine ⟨fun name hname => ?_, names, hsearched db'', hin⟩
    have := hnamed db''
    rwa [hname, Option.getD_some] at this
  refine ⟨fun service => ⟨Store.spaces T.store, rfl, fun r hr => mem_spaces (hT.memory r hr),
    fun e he => mem_spaces (hT.episode e he), fun c hc => mem_spaces (hT.chunk c hc)⟩, hagree, ?_⟩
  intro e he c batch clock closed haction
  obtain ⟨n, hn⟩ := List.mem_iff_getElem?.mp he
  have hstep := h.step_eq hn
  rw [haction] at hstep
  obtain ⟨held, hc, hadds⟩ := write_adds hstep
  obtain ⟨-, db, db', now, hres⟩ := (hsteps e he).1.call c held hc
  exact ⟨held, hc, hadds, (hagree _ _ _ _ _ _ hres T.store).2⟩

/-- A session writes under a name of its own, and another has attached before the statement. -/
def elsewhere : List (Action ℕ ℕ) :=
  [.attach 0 terminal 1, .resolve 0 0 (some ['n', 'e', 'w']) 2,
    .attach 1 { terminal with space := .user } 3,
    .write 0 ⟨⟨['n', 'e', 'w'], by decide⟩, none, [Store.claim 'a' [] none], agent⟩
      (ticking 4 0) []]

omit [Hashing] in
theorem elsewhere_visible : ∃ (steps : List (Step (State ℕ ℕ) (Action ℕ ℕ))) (T : State ℕ ℕ),
    Run (@step ℕ ℕ _ _ plain) (initial 0) steps T ∧ T.store.memory.rows.length = 1 ∧
      ∃ names, spaces terminal T.store (some keywordAll) = .ok names ∧
        ∀ r ∈ T.store.memory, r.space ∈ names := by
  obtain ⟨steps, T, hrun, -, hrows⟩ := exists_run_of_exec (@step ℕ ℕ _ _ plain) (initial 0)
    elsewhere (fun u => decide (u.2.store.memory.rows.length = 1)) (by decide +kernel)
  obtain ⟨names, hnames, hmemory, -⟩ := (@all_visible ℕ ℕ T _ _ plain 0 steps hrun).1 terminal
  exact ⟨steps, T, hrun, of_decide_eq_true hrows, names, hnames, hmemory⟩

/-! ### The tools -/

/-- What a tool does once its space is resolved: one batch in that space, or nothing. -/
def Stores (db : Db) (space : SpaceName) (db' : Db) : Prop :=
  db' = db ∨ ∃ batch clock out, batch.space = space ∧ insertBatch db batch clock = .ok (db', out)

/-- A tool goes on with the store that its batch has left. -/
theorem stores_insertBatch {α : Type} {batch : Batch} {clock : ℕ → Clock}
    {fail : StoreError → Except ErrorData α} {next : Db → BatchOutcome → Db × Except ErrorData α}
    (hnext : ∀ db out, (next db out).1 = db) : Stores db batch.space
      (match insertBatch db batch clock with
      | .error e => (db, fail e)
      | .ok (db, out) => next db out).1 := by
  split
  · exact .inl rfl
  · rename_i db' out hinsert
    exact .inr ⟨batch, clock, out, rfl, by rw [hnext, hinsert]⟩

theorem remember_stores (service : Service) (db : Db) (space : SpaceName)
    (params : Remember.RememberParams) (writer : Writer) (clock : ℕ → Clock) :
    Stores db space (Remember.store service db space params writer clock).1 := by
  unfold Remember.store
  split
  · exact .inl rfl
  · dsimp only
    split_ifs
    · exact .inl rfl
    · exact stores_insertBatch fun _ _ => rfl

theorem reflect_stores (service : Service) (db : Db) (space : SpaceName)
    (params : Reflect.ReflectParams) (writer : Writer) (clock : ℕ → Clock) :
    Stores db space (Reflect.store service db space params writer clock).1 := by
  unfold Reflect.store
  split
  · exact .inl rfl
  · exact .inl rfl
  · exact stores_insertBatch fun _ out => by cases out.memories.head? <;> rfl

/-- A batch that lands is one statement. -/
theorem insertBatch_transaction {batch : Batch} {clock : ℕ → Clock} {out : BatchOutcome}
    (h : insertBatch db batch clock = .ok (db', out)) : ∃ clock closed episode ws,
      batchTransaction db (batch.retain closed) clock = .ok (db', episode, ws) := by
  obtain ⟨k, -, hok⟩ := insertBatch_ok h
  exact ⟨clock k, _, _, _, (insertBatchOnce_eq_ok hok).2.2.1⟩

/-- A call of an attached session that nothing disturbs is a run of the sessions. -/
theorem call_run {i : σ} {c : κ} {service : Service} {requested : Option Text} {now : Timestamp}
    {space : SpaceName} (hi : S.session i = some service) (hc : S.call c = none)
    (hres : resolveSpace service S.store requested now = .ok (db, space))
    (hstores : Stores db space db') : ∃ steps T, Run step S steps T ∧ T.store = db' := by
  let held : Held := ⟨service, requested, space⟩
  let R : State σ κ := { S with store := db, call := Function.update S.call c (some held) }
  have hresolve : step S (.resolve c i requested now) = some R := by
    simp only [step, hi, hc, resolve, hres, R, held]
  rcases hstores with rfl | ⟨batch, clock, out, hspace, hinsert⟩
  · exact ⟨_, _, .cons hresolve (.nil _), rfl⟩
  · obtain ⟨clock', closed, episode, ws, htx⟩ := insertBatch_transaction hinsert
    have hwrite : step R (.write c batch clock' closed) =
        some { R with store := db', call := Function.update R.call c none } := by
      simp only [step, write, R, held, Function.update_self, hspace, if_true, htx]
    exact ⟨_, _, .cons hresolve (.cons hwrite (.nil _)), rfl⟩

/-- So is a tool that resolves its space, and fails where there is none. -/
theorem tool_run {α : Type} {store : Db → SpaceName → Db × Except ErrorData α} {i : σ} {c : κ}
    {service : Service} {requested : Option Text} {now : Timestamp}
    (hi : S.session i = some service) (hc : S.call c = none)
    (hstores : ∀ db space, Stores db space (store db space).1) : ∃ steps T, Run step S steps T ∧
      T.store = (match resolveSpace service S.store requested now with
        | .error e => (S.store, Except.error e)
        | .ok (db, space) => store db space).1 := by
  cases hres : resolveSpace service S.store requested now with
  | error e => exact ⟨[], S, .nil S, rfl⟩
  | ok found => exact call_run hi hc hres (hstores found.1 found.2)

theorem remember_run {i : σ} {c : κ} {service : Service} (params : Remember.RememberParams)
    (writer : Writer) (registered : Timestamp) (clock : ℕ → Clock)
    (hi : S.session i = some service) (hc : S.call c = none) : ∃ steps T, Run step S steps T ∧
      T.store = (Remember.run service S.store params writer registered clock).1 :=
  tool_run hi hc fun db space => remember_stores service db space params writer clock

theorem reflect_run {i : σ} {c : κ} {service : Service} (params : Reflect.ReflectParams)
    (writer : Writer) (registered : Timestamp) (clock : ℕ → Clock)
    (hi : S.session i = some service) (hc : S.call c = none) : ∃ steps T, Run step S steps T ∧
      T.store = (Reflect.run service S.store params writer registered clock).1 :=
  tool_run hi hc fun db space => reflect_stores service db space params writer clock

omit [DecidableEq σ] [DecidableEq κ] in
theorem put_store (service : Service) (db : Db) (args : Doc.DocPutArgs) (content : Text)
    (writer : Writer) (registered : Timestamp) (clock : ℕ → Clock) :
    (Doc.put service db args content writer registered clock).1 =
      (Remember.run service db (Doc.putParams args content) writer registered clock).1 := by
  unfold Doc.put
  split
  · rename_i hrun
    rw [hrun]
  · rename_i hrun
    rw [hrun]
    split
    · rfl
    · split <;> rfl

/-- A document put from the shell is a run of the session that the shell opens for it. -/
theorem put_run {i : σ} {c : κ} {service : Service} (args : Doc.DocPutArgs) (content : Text)
    (writer : Writer) (registered : Timestamp) (clock : ℕ → Clock)
    (hi : S.session i = some service) (hc : S.call c = none) : ∃ steps T, Run step S steps T ∧
      T.store = (Doc.put service S.store args content writer registered clock).1 := by
  rw [put_store]
  exact remember_run _ writer registered clock hi hc

end Agmem.Tools.Visibility
