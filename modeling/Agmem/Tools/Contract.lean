import Agmem.Tools.Surface
import Agmem.Tools.Server
import Agmem.Tools.Recall
import Agmem.Tools.Context
import Agmem.Tools.Consolidate
import Agmem.Tools.Audit

/-! What the annotations of the tools promise, over whole runs. A deployment is one store and the
sessions that are connected to it, each with the router it was opened with, through which every
call of it goes. A call of a tool that says it only reads changes nothing but the counters of
recall; one that says it does not destroy loses no row, and closes a claim only in favour of
another; what destroys has a route only in a session that serves every tool. -/

namespace Agmem.Tools.Contract

open Core Relational Relation Store Transition

/-! ### Calls -/

/-- What a request carries once it reads as what its tool takes, with the readings of the clock it
will meet. -/
inductive Arguments where
  | remember (params : Remember.RememberParams) (writer : Writer) (registered : Timestamp)
      (clock : ℕ → Clock)
  | recall (params : Recall.RecallParams) (now : Recall.Now)
  | context (params : Context.ContextParams) (now : Timestamp)
  | forget (params : Forget.ForgetParams) (now : MemoryId → Timestamp)
  | inspect (params : Inspect.InspectParams)
  | consolidate (space : Option Text) (clock : SpaceName → Consolidate.Readings)
  | reflect (params : Reflect.ReflectParams) (writer : Writer) (registered : Timestamp)
      (clock : ℕ → Clock)

def Arguments.tool : Arguments → Tool
  | .remember .. => .remember
  | .recall .. => .recall
  | .context .. => .context
  | .forget .. => .forget
  | .inspect .. => .inspect
  | .consolidate .. => .consolidate
  | .reflect .. => .reflect

structure Request where
  name : Text
  arguments : Arguments

inductive Response where
  /-- The router has no route of this name. -/
  | unknownTool
  /-- The arguments do not read as what the tool takes. -/
  | badArguments
  | remember (result : Except ErrorData Remember.RememberResult)
  | recall (result : Except ErrorData Recall.RecallResult)
  | context (block : Except ErrorData Text)
  | forget (result : Except ErrorData Forget.ForgetResult)
  | inspect (result : Except Inspect.RunError Inspect.InspectResult)
  | consolidate (report : Except ErrorData Consolidate.ConsolidateResult)
  | reflect (result : Except ErrorData Reflect.ReflectResult)

/-- What a session is opened with. -/
structure Config where
  reader : Recall.Reader
  outside : Consolidate.Outside
  tools : ToolGroup
  toolDesc : ToolDescriptions

structure Session where
  config : Config
  router : ToolRouter
  pending : Forget.Pending

def Session.new (wording : Tool → Text) (config : Config) : Session :=
  ⟨config, served wording config.tools config.toolDesc, none⟩

section Calls

variable [Hashing]

/-- The body of each tool: one call into its module. -/
def Session.invoke (session : Session) (db : Db) : Arguments → (Db × Forget.Pending) × Response
  | .remember params writer registered clock =>
    let done := Remember.run session.config.reader.service db params writer registered clock
    ((done.1, session.pending), .remember done.2)
  | .recall params now =>
    let done := Recall.run session.config.reader db params now
    ((done.1, session.pending), .recall done.2)
  | .context params now =>
    ((db, session.pending), .context (Context.run session.config.reader db params now))
  | .forget params now =>
    let done := Forget.run session.config.reader.service db session.pending params now
    (done.1, .forget done.2)
  | .inspect params =>
    ((db, session.pending), .inspect (Inspect.run session.config.reader.service db params))
  | .consolidate space clock =>
    ((db, session.pending), .consolidate
      (Consolidate.run session.config.outside session.config.reader.service db clock space))
  | .reflect params writer registered clock =>
    let done := Reflect.run session.config.reader.service db params writer registered clock
    ((done.1, session.pending), .reflect done.2)

/-- A request goes where the route of its name leads. -/
def Session.callTool (session : Session) (db : Db) (request : Request) :
    (Db × Forget.Pending) × Response :=
  match session.router.get request.name with
  | none => ((db, session.pending), .unknownTool)
  | some route =>
    if request.arguments.tool = route.tool then session.invoke db request.arguments
    else ((db, session.pending), .badArguments)

end Calls

/-! ### The deployment -/

structure Deployment where
  db : Db
  sessions : ℕ → Option Session

inductive Action where
  | connect (i : ℕ) (config : Config)
  | call (i : ℕ) (request : Request)
  | hangUp (i : ℕ)

/-- One action of the deployment; a session calls only while it is connected. -/
def step [Hashing] (wording : Tool → Text) (s : Deployment) : Action → Option Deployment
  | .connect i config =>
    match s.sessions i with
    | some _ => none
    | none =>
      some { s with sessions := Function.update s.sessions i (some (.new wording config)) }
  | .call i request =>
    match s.sessions i with
    | none => none
    | some session =>
      let done := (session.callTool s.db request).1
      some ⟨done.1, Function.update s.sessions i (some { session with pending := done.2 })⟩
  | .hangUp i => some { s with sessions := Function.update s.sessions i none }

/-! ### What is promised -/

/-- Nothing but the counters of recall differs. -/
def Recounted (db db' : Db) : Prop :=
  ∃ (t : Table MemoryRecord) (g : MemoryRecord → MemoryRecord), t.rows = db.memory.rows.map g ∧
    (∀ r ∈ db.memory, g r = { r with
      strength := (g r).strength, lastAccessed := (g r).lastAccessed,
      accessCount := (g r).accessCount }) ∧
    db' = { db with memory := t }

/-- A closed claim stands for another one of the store. -/
def Replaced (db : Db) (r : MemoryRecord) : Prop :=
  r.invalidReason = some .superseded ∧ ∃ q ∈ db.memory, r.supersededBy = some q.id

/-- Nothing is lost: every row is still there, and a claim that was closed was replaced. -/
structure Preserves (db db' : Db) : Prop where
  memory : ∀ r ∈ db.memory, ∃ r' ∈ db'.memory, Evolves r r' ∧
    (r.isLive = true → r'.isLive = false → Replaced db' r')
  episode : ∀ e ∈ db.episode, e ∈ db'.episode
  chunk : ∀ c ∈ db.episodeChunk, c ∈ db'.episodeChunk

variable {db db' db'' : Db}

theorem Recounted.refl (db : Db) : Recounted db db :=
  ⟨db.memory, id, by simp, fun _ _ => rfl, rfl⟩

theorem Preserves.refl (db : Db) : Preserves db db where
  memory r hr := ⟨r, hr, .refl r, fun hlive hclosed => by simp [hlive] at hclosed⟩
  episode _ h := h
  chunk _ h := h

theorem Preserves.trans (h : Preserves db db') (h' : Preserves db' db'') : Preserves db db'' where
  memory r hr := by
    obtain ⟨r', hr', he, hclosed⟩ := h.memory r hr
    obtain ⟨r'', hr'', he', hclosed'⟩ := h'.memory r' hr'
    refine ⟨r'', hr'', he.trans he', fun hlive hdead => ?_⟩
    cases hl : r'.isLive with
    | true => exact hclosed' hl hdead
    | false =>
      -- the row was closed on the way, and its successor is still there
      obtain ⟨hreason, q, hq, hby⟩ := hclosed hlive hl
      obtain ⟨-, hreason', hby'⟩ := he'.closed hl
      obtain ⟨q', hq', hqe, -⟩ := h'.memory q hq
      exact ⟨hreason'.trans hreason, q', hq', by rw [hby', hby, hqe.id]⟩
  episode e he := h'.episode e (h.episode e he)
  chunk c hc := h'.chunk c (h.chunk c hc)

/-- The counters of recall close nothing. -/
theorem Recounted.preserves (h : Recounted db db') : Preserves db db' := by
  obtain ⟨t, g, hrows, hframe, rfl⟩ := h
  refine ⟨fun r hr => ⟨g r, (mem_of_rows_map hrows).mpr ⟨r, hr, rfl⟩, ?_, ?_⟩,
    fun _ h => h, fun _ h => h⟩
  · exact ⟨by rw [hframe r hr], fun _ => by rw [hframe r hr]; exact ⟨rfl, rfl, rfl⟩⟩
  · intro hlive hclosed
    have hat : (g r).isLive = r.isLive := by rw [hframe r hr]; rfl
    rw [hat, hlive] at hclosed
    cases hclosed

/-! ### What a batch keeps -/

theorem preserves_of_space (db : Db) (t : Table Space) : Preserves db { db with space := t } where
  memory r hr := ⟨r, hr, .refl r, fun hlive hclosed => by simp [hlive] at hclosed⟩
  episode _ h := h
  chunk _ h := h

/-- Closing in favour of a row that is there afterwards. -/
theorem closing_replaced {T : List MemoryId} {new : MemoryId} {boundary : Timestamp}
    {r : MemoryRecord} {q : MemoryRecord} (hq : q ∈ db'.memory) (hid : q.id = new)
    (hlive : r.isLive = true) (hclosed : (closing T new boundary r).isLive = false) :
    Replaced db' (closing T new boundary r) := by
  have hT : r.id ∈ T := by
    by_contra hnot
    rw [closing_of_notMem hnot, hlive] at hclosed
    cases hclosed
  rw [closing_of_mem hlive hT]
  exact ⟨rfl, q, hq, congrArg some hid.symm⟩

theorem wrote_preserves {space : SpaceName} {m : MemoryBinds} {w : Written MemoryId}
    (h : Wrote space m db w db') : Preserves db db' := by
  cases h with
  | @created source now t _ _ _ _ _ rows =>
    have hnew : m.row.record ⟨db.minted⟩ source now ∈ t :=
      (mem_of_rows_map_append rows).mpr (.inr rfl)
    refine ⟨fun r hr => ?_, fun _ h => h, fun _ h => h⟩
    exact ⟨_, (mem_of_rows_map_append rows).mpr (.inl ⟨r, hr, rfl⟩), .closing _ _ _ r,
      closing_replaced hnew rfl⟩
  | @duplicate dup t mem _ _ _ _ _ _ rows =>
    have hdup := (mem_of_rows_map rows).mpr ⟨dup, mem, rfl⟩
    refine ⟨fun r hr => ?_, fun _ h => h, fun _ h => h⟩
    exact ⟨_, (mem_of_rows_map rows).mpr ⟨r, hr, rfl⟩, .closing _ _ _ r,
      closing_replaced hdup closing_id⟩

theorem wroteAll_preserves {space : SpaceName} {ms : List MemoryBinds}
    {ws : List (Written MemoryId)} (h : WroteAll space db ms ws db') : Preserves db db' := by
  induction h with
  | nil db => exact .refl db
  | cons h _ ih => exact (wrote_preserves h).trans ih

/-- Rows are only added beside the memories. -/
structure Filed (db db' : Db) : Prop where
  memory : db'.memory = db.memory
  episode : ∀ e ∈ db.episode, e ∈ db'.episode
  chunk : ∀ c ∈ db.episodeChunk, c ∈ db'.episodeChunk

theorem Filed.preserves (h : Filed db db') : Preserves db db' where
  memory r hr := ⟨r, h.memory ▸ hr, .refl r, fun hlive hclosed => by simp [hlive] at hclosed⟩
  episode := h.episode
  chunk := h.chunk

theorem createChunks_filed {space : SpaceName} {e : EpisodeId} {at_ : Timestamp} {i : ℕ}
    {chunks : List NewChunk} (h : createChunks space e at_ i db chunks = .ok db') :
    Filed db db' := by
  induction chunks generalizing db i with
  | nil =>
    cases h
    exact ⟨rfl, fun _ h => h, fun _ h => h⟩
  | cons chunk chunks ih =>
    unfold createChunks at h
    split_ifs at h
    split at h
    · cases h
    · next t ht =>
      have hrest := ih h
      refine ⟨hrest.memory, hrest.episode, fun c hc => hrest.chunk c ?_⟩
      show c ∈ t.rows
      rw [Table.insert?_eq_some.mp ht]
      exact List.mem_append_left _ hc

section Calls

variable [Hashing]

theorem writeEpisode_filed {space : SpaceName} {e : NewEpisode} {clock : Clock}
    {w : Written EpisodeId} (h : writeEpisode db space e clock = .ok (db', w)) : Filed db db' := by
  rcases writeEpisode_eq_ok h with ⟨-, -, rfl, -⟩ | ⟨-, -, t, ht, hchunks⟩
  · exact ⟨rfl, fun _ h => h, fun _ h => h⟩
  · have hfiled := createChunks_filed hchunks
    refine ⟨hfiled.memory, fun e he => hfiled.episode e ?_, hfiled.chunk⟩
    show e ∈ t.rows
    rw [Table.insert?_eq_some.mp ht]
    exact List.mem_append_left _ he

/-- A batch that lands loses nothing. -/
theorem insertBatch_preserves {batch : Batch} {clock : ℕ → Clock} {out : BatchOutcome}
    (hw : db.WellFormed) (h : insertBatch db batch clock = .ok (db', out)) : Preserves db db' := by
  obtain ⟨k, -, hok⟩ := insertBatch_ok h
  obtain ⟨hs, -, htx, -⟩ := insertBatchOnce_ok hw hok
  have hold (db₁ : Db) (hle : db.minted ≤ db₁.minted) :
      ∀ b ∈ (batch.retain out.alreadyClosed).binds (clock k), ∀ id ∈ b.old,
        id.ulid < db₁.minted := by
    intro b hb id hid
    obtain ⟨r, hr, rfl, -⟩ := retain_inSpace hs b hb id hid
    exact (hw.memory r hr).trans_le hle
  rcases batchTransaction_eq_ok htx with ⟨-, -, hws⟩ | ⟨e, db₁, w, -, hep, -, hws⟩
  · exact wroteAll_preserves (writeMemories_ok (hold db le_rfl) hws)
  · have hminted := (writeEpisode_ok hep).minted
    exact (writeEpisode_filed hep).preserves.trans
      (wroteAll_preserves (writeMemories_ok (hold db₁ hminted) hws))

/-! ### What a call keeps -/

variable {service : Service}

omit [Hashing] in
theorem resolveSpace_preserves {requested : Option Text} {now : Timestamp} {space : SpaceName}
    (h : resolveSpace service db requested now = .ok (db', space)) : Preserves db db' := by
  obtain ⟨t, rfl⟩ := resolveSpace_frame h
  exact preserves_of_space db t

omit [Hashing] in
theorem resolveSpace_wellFormed {requested : Option Text} {now : Timestamp} {space : SpaceName}
    (hw : db.WellFormed) (h : resolveSpace service db requested now = .ok (db', space)) :
    db'.WellFormed := by
  obtain ⟨t, rfl⟩ := resolveSpace_frame h
  exact ⟨hw.memory, hw.supersedes, hw.supersededBy, hw.live, hw.episode, hw.chunk⟩

theorem remember_preserves (hw : db.WellFormed) (params : Remember.RememberParams)
    (writer : Writer) (registered : Timestamp) (clock : ℕ → Clock) :
    Preserves db (Remember.run service db params writer registered clock).1 := by
  unfold Remember.run
  split
  · exact .refl db
  · next db₁ space hspace =>
    refine (resolveSpace_preserves hspace).trans ?_
    unfold Remember.store
    split
    · exact .refl db₁
    · dsimp only
      split_ifs
      · exact .refl db₁
      · split
        · exact .refl db₁
        · next hins => exact insertBatch_preserves (resolveSpace_wellFormed hw hspace) hins

theorem reflect_preserves (hw : db.WellFormed) (params : Reflect.ReflectParams) (writer : Writer)
    (registered : Timestamp) (clock : ℕ → Clock) :
    Preserves db (Reflect.run service db params writer registered clock).1 := by
  unfold Reflect.run
  split
  · exact .refl db
  · next db₁ space hspace =>
    have hw₁ := resolveSpace_wellFormed hw hspace
    refine (resolveSpace_preserves hspace).trans ?_
    unfold Reflect.store
    split
    · exact .refl db₁
    · exact .refl db₁
    · split
      · exact .refl db₁
      · next hins => split <;> exact insertBatch_preserves hw₁ hins

omit [Hashing] in
theorem reinforce_recounted (db : Db) (liveness : Liveness) (ids : List MemoryId)
    (now : MemoryId → Timestamp) : Recounted db (Recall.reinforce db liveness ids now) := by
  cases liveness with
  | asOf t => exact .refl db
  | any => exact .refl db
  | live =>
    unfold Recall.reinforce Store.reinforce
    cases hu : db.memory.update? (fun _ => true) (reinforced now) ids with
    | none => exact .refl db
    | some updated =>
      obtain ⟨g, hg, hframe⟩ := Table.update?_map
        (R := fun r r' : MemoryRecord => r' = { r with
          strength := r'.strength, lastAccessed := r'.lastAccessed, accessCount := r'.accessCount })
        (fun r => rfl) (fun r q s hq hs => by rw [hs, hq]) (fun r _ => rfl) _ _ _ _ hu
      exact ⟨updated.1, g, hg, hframe, rfl⟩

omit [Hashing] in
theorem recall_recounted (reader : Recall.Reader) (db : Db) (params : Recall.RecallParams)
    (now : Recall.Now) : Recounted db (Recall.run reader db params now).1 := by
  have hanswer : ∀ lookup window k isSearch candidates hopped,
      Recounted db (Recall.answer reader db lookup window k isSearch candidates hopped now).1 := by
    intro lookup window k isSearch candidates hopped
    unfold Recall.answer
    dsimp only
    split <;> exact reinforce_recounted db _ _ _
  unfold Recall.run
  split
  · exact .refl db
  split
  · exact .refl db
  split
  · exact .refl db
  split
  · exact .refl db
  dsimp only
  split
  · exact hanswer _ _ _ _ _ _
  split
  · exact .refl db
  split
  · exact .refl db
  · exact hanswer _ _ _ _ _ _

variable {session : Session} {request : Request} {route : Route}

/-- A call of a tool that only reads. -/
theorem invoke_reads (arguments : Arguments)
    (h : arguments.tool.annotations.readOnlyHint = some true) :
    Recounted db (session.invoke db arguments).1.1 ∧
      (session.invoke db arguments).1.2 = session.pending := by
  cases arguments with
  | «recall» params now => exact ⟨recall_recounted _ _ _ _, rfl⟩
  | context params now => exact ⟨.refl db, rfl⟩
  | inspect params => exact ⟨.refl db, rfl⟩
  | consolidate space clock => exact ⟨.refl db, rfl⟩
  | _ => cases h

/-- A call of a tool that does not destroy. -/
theorem invoke_preserves (hw : db.WellFormed) (arguments : Arguments)
    (h : arguments.tool.annotations.destructiveHint = some false) :
    Preserves db (session.invoke db arguments).1.1 := by
  cases arguments with
  | remember params writer registered clock => exact remember_preserves hw _ _ _ _
  | «recall» params now => exact (recall_recounted _ _ _ _).preserves
  | context params now => exact .refl db
  | forget params now => cases h
  | inspect params => exact .refl db
  | consolidate space clock => exact .refl db
  | reflect params writer registered clock => exact reflect_preserves hw _ _ _ _

theorem recall_reachable (reader : Recall.Reader) (params : Recall.RecallParams)
    (now : Recall.Now) (hr : db.Reachable) : (Recall.run reader db params now).1.Reachable := by
  have hreinforce : ∀ liveness ids,
      (Recall.reinforce db liveness ids now.reinforced).Reachable := by
    intro liveness ids
    unfold Recall.reinforce
    split
    · split
      · exact hr
      · next db' n hok =>
        have hstep : Store.step db (.reinforce ids now.reinforced) = some db' :=
          step_eq_some.mpr (map_fst_ok.mpr ⟨n, hok⟩)
        obtain ⟨dimension, steps, hrun⟩ := hr
        exact ⟨dimension, _, hrun.snoc hstep⟩
    · exact hr
    · exact hr
  have hanswer : ∀ lookup window k isSearch candidates hopped,
      (Recall.answer reader db lookup window k isSearch candidates hopped now).1.Reachable := by
    intro lookup window k isSearch candidates hopped
    unfold Recall.answer
    dsimp only
    split <;> exact hreinforce _ _
  unfold Recall.run
  split
  · exact hr
  split
  · exact hr
  split
  · exact hr
  split
  · exact hr
  dsimp only
  split
  · exact hanswer _ _ _ _ _ _
  split
  · exact hr
  split
  · exact hr
  · exact hanswer _ _ _ _ _ _

theorem invoke_reachable (arguments : Arguments) (hr : db.Reachable) :
    (session.invoke db arguments).1.1.Reachable := by
  have hserve (call : Call) {t : Server}
      (h : serve ⟨db, fun _ => session.pending⟩ call = some t) : t.db.Reachable :=
    serve_reachable h hr
  cases arguments with
  | remember params writer registered clock =>
    exact hserve (.remember session.config.reader.service params writer registered clock) rfl
  | «recall» params now => exact recall_reachable _ _ _ hr
  | forget params now => exact hserve (.forget 0 session.config.reader.service params now) rfl
  | reflect params writer registered clock =>
    exact hserve (.reflect session.config.reader.service params writer registered clock) rfl
  | _ => exact hr

/-- What a call comes to: a route of its name takes it, or nothing happens. -/
theorem callTool_cases (session : Session) (db : Db) (request : Request) :
    (∃ route, session.router.get request.name = some route ∧ request.arguments.tool = route.tool ∧
      session.callTool db request = session.invoke db request.arguments) ∨
    (session.callTool db request).1 = (db, session.pending) := by
  unfold Session.callTool
  split
  · exact .inr rfl
  · next route hroute =>
    split_ifs with htool
    · exact .inl ⟨route, hroute, htool, rfl⟩
    · exact .inr rfl

theorem callTool_reachable (request : Request) (hr : db.Reachable) :
    (session.callTool db request).1.1.Reachable := by
  rcases callTool_cases session db request with ⟨route, -, -, hcall⟩ | hcall
  · rw [hcall]
    exact invoke_reachable request.arguments hr
  · rw [hcall]
    exact hr

/-! ### Runs of the deployment -/

variable {wording : Tool → Text} {s t : Deployment}

/-- Every session goes through the router it was opened with. -/
def Opened (wording : Tool → Text) (s : Deployment) : Prop :=
  ∀ i session, s.sessions i = some session →
    session.router = served wording session.config.tools session.config.toolDesc

theorem step_call {i : ℕ} (h : step wording s (.call i request) = some t) :
    ∃ session, s.sessions i = some session ∧
      t.db = (session.callTool s.db request).1.1 ∧
      t.sessions = Function.update s.sessions i
        (some { session with pending := (session.callTool s.db request).1.2 }) := by
  simp only [step] at h
  split at h
  · cases h
  · next session hsession =>
    cases h
    exact ⟨session, hsession, rfl, rfl⟩

/-- Connecting and hanging up leave the store alone. -/
theorem step_db {a : Action} (h : step wording s a = some t) :
    t.db = s.db ∨ ∃ i request, a = .call i request := by
  cases a with
  | connect i config =>
    simp only [step] at h
    split at h
    · cases h
    · cases h
      exact .inl rfl
  | call i request => exact .inr ⟨i, request, rfl⟩
  | hangUp i =>
    cases h
    exact .inl rfl

theorem step_opened {a : Action} (h : step wording s a = some t) (hs : Opened wording s) :
    Opened wording t := by
  have hupdate {i : ℕ} {new : Session}
      (hnew : new.router = served wording new.config.tools new.config.toolDesc) :
      ∀ j session, Function.update s.sessions i (some new) j = some session →
        session.router = served wording session.config.tools session.config.toolDesc := by
    intro j session hj
    by_cases hij : j = i
    · subst hij
      rw [Function.update_self] at hj
      cases hj
      exact hnew
    · rw [Function.update_of_ne hij] at hj
      exact hs j session hj
  cases a with
  | connect i config =>
    simp only [step] at h
    split at h
    · cases h
    · cases h
      exact hupdate rfl
  | call i request =>
    obtain ⟨session, hsession, -, hsessions⟩ := step_call h
    unfold Opened
    rw [hsessions]
    exact hupdate (hs i session hsession)
  | hangUp i =>
    cases h
    intro j session hj
    dsimp only at hj
    by_cases hij : j = i
    · subst hij
      rw [Function.update_self] at hj
      cases hj
    · rw [Function.update_of_ne hij] at hj
      exact hs j session hj

theorem step_reachable {a : Action} (h : step wording s a = some t) (hr : s.db.Reachable) :
    t.db.Reachable := by
  rcases step_db h with hdb | ⟨i, request, rfl⟩
  · rwa [hdb]
  · obtain ⟨session, -, hdb, -⟩ := step_call h
    rw [hdb]
    exact callTool_reachable request hr

omit [Hashing] in
/-- A route of a session is one of the tools, with the annotations of that tool; the core list has
none for the maintenance pair. -/
theorem route_of_opened {i : ℕ} (hs : Opened wording s) (hsession : s.sessions i = some session)
    {name : Text} (hroute : session.router.get name = some route) :
    route.tool.name = name ∧ route.annotations = route.tool.annotations ∧
      (session.config.tools = .core → name ∉ GATED) := by
  rw [hs i session hsession, served, get_gated] at hroute
  split_ifs at hroute with hgated
  rw [get_described, Option.map_eq_some_iff] at hroute
  obtain ⟨_, htool, rfl⟩ := hroute
  obtain ⟨tool, hname, rfl⟩ := get_toolRouter.mp htool
  exact ⟨hname, rfl, fun hcore hin => hgated ⟨hcore, hin⟩⟩

/-- One call keeps what the annotations of its route promise. -/
theorem call_promised {i : ℕ} (hs : Opened wording s) (hr : s.db.Reachable)
    (h : step wording s (.call i request) = some t) (hsession : s.sessions i = some session)
    (hroute : session.router.get request.name = some route) :
    (route.annotations.readOnlyHint = some true → Recounted s.db t.db ∧ t.sessions = s.sessions) ∧
      (route.annotations.destructiveHint = some false → Preserves s.db t.db) := by
  obtain ⟨session', hsession', hdb, hsessions⟩ := step_call h
  cases hsession.symm.trans hsession'
  obtain ⟨-, hannotations, -⟩ := route_of_opened hs hsession hroute
  have hself : Function.update s.sessions i (some session) = s.sessions := by
    rw [← hsession, Function.update_eq_self]
  rw [hdb, hsessions, hannotations]
  rcases callTool_cases session s.db request with ⟨route', hroute', htool, hcall⟩ | hcall
  · cases hroute.symm.trans hroute'
    rw [hcall, ← htool]
    refine ⟨fun hread => ?_, invoke_preserves hr.wellFormed request.arguments⟩
    obtain ⟨hdb, hpending⟩ : Recounted s.db (session.invoke s.db request.arguments).1.1 ∧
        (session.invoke s.db request.arguments).1.2 = session.pending := invoke_reads _ hread
    exact ⟨hdb, by rw [hpending]; exact hself⟩
  · rw [hcall]
    exact ⟨fun _ => ⟨.refl _, hself⟩, fun _ => .refl _⟩

/-- Only `forget` may lose something, and only in a session that serves every tool. -/
theorem step_loses {a : Action} (hs : Opened wording s) (hr : s.db.Reachable)
    (h : step wording s a = some t) : Preserves s.db t.db ∨
      ∃ i request session, a = .call i request ∧ s.sessions i = some session ∧
        session.config.tools = .all ∧ request.name = Tool.forget.name := by
  rcases step_db h with hdb | ⟨i, request, rfl⟩
  · exact .inl (hdb ▸ .refl s.db)
  · obtain ⟨session, hsession, hdb, -⟩ := step_call h
    cases hroute : session.router.get request.name with
    | none =>
      refine .inl ?_
      rw [hdb, Session.callTool, hroute]
      exact .refl s.db
    | some route =>
      obtain ⟨hname, hannotations, hgated⟩ := route_of_opened hs hsession hroute
      have hpromise := (call_promised hs hr h hsession hroute).2
      rw [hannotations] at hpromise
      cases htool : route.tool with
      | forget =>
        rw [htool] at hname
        refine .inr ⟨i, request, session, rfl, hsession, ?_, hname.symm⟩
        cases htools : session.config.tools with
        | all => rfl
        | core => exact absurd (hname ▸ by decide) (hgated htools)
      | _ => exact .inl (hpromise (by rw [htool]; rfl))

/-- In every run of a deployment the annotations hold: a call through a route that only reads
changes nothing but the counters of recall, and one through a route that does not destroy loses
nothing. Whatever is lost on the way, a session that serves every tool called `forget`. -/
theorem annotations_hold {steps : List (Transition.Step Deployment Action)}
    (hs : Opened wording s) (hr : s.db.Reachable) (h : Run (step wording) s steps t) :
    (∀ e ∈ steps, ∀ i request session route, e.action = .call i request →
      e.source.sessions i = some session → session.router.get request.name = some route →
        (route.annotations.readOnlyHint = some true →
          Recounted e.source.db e.target.db ∧ e.target.sessions = e.source.sessions) ∧
        (route.annotations.destructiveHint = some false → Preserves e.source.db e.target.db)) ∧
    (Preserves s.db t.db ∨ ∃ e ∈ steps, ∃ i request session, e.action = .call i request ∧
      e.source.sessions i = some session ∧ session.config.tools = .all ∧
      request.name = Tool.forget.name) := by
  induction h with
  | nil s => exact ⟨fun e he => absurd he List.not_mem_nil, .inl (.refl s.db)⟩
  | @cons s t u a steps hstep _ ih =>
    obtain ⟨hall, hend⟩ := ih (step_opened hstep hs) (step_reachable hstep hr)
    refine ⟨List.forall_mem_cons.mpr ⟨?_, hall⟩, ?_⟩
    · rintro i request session route rfl hsession hroute
      exact call_promised hs hr hstep hsession hroute
    · rcases step_loses hs hr hstep with hkept | ⟨i, request, session, hcall⟩
      · rcases hend with hrest | ⟨e, he, hlost⟩
        · exact .inl (hkept.trans hrest)
        · exact .inr ⟨e, List.mem_cons_of_mem _ he, hlost⟩
      · exact .inr ⟨_, List.mem_cons_self, i, request, session, hcall⟩

end Calls

/-! ### A small script -/

/-- A configuration without an embedder, whose searches find nothing. -/
theorem perm_same (values : List (List ℕ)) : (id values).Perm values := .refl values

def plainConfig (tools : ToolGroup) : Config where
  reader :=
    { service := terminal, maxK := 10, embedQuery := fun _ => .ok []
      alphabet := ⟨Char.isAlphanum, List.map Char.toLower⟩
      rankings := ⟨fun _ _ => [], fun _ _ _ _ => [], fun _ _ => [], fun _ _ _ _ => [],
        fun _ _ _ => []⟩
      exp := fun _ => 1 }
  outside := ⟨id, fun _ => 0, id, perm_same⟩
  tools := tools
  toolDesc := []

/-- A session of each kind; both purge the memory with the number 0, which the first remembers. -/
def purging : List Action :=
  [.connect 0 (plainConfig .core), .connect 1 (plainConfig .all),
    .call 0 ⟨Tool.remember.name, .remember ⟨none, [⟨['a'], none, [], [], none, [], none⟩], none⟩
      agent 0 (ticking 0)⟩,
    .call 0 ⟨Tool.forget.name, .forget ⟨[.reads (.memory ⟨0⟩)], none, none, true, false, false⟩
      fun _ => 0⟩,
    .call 1 ⟨Tool.forget.name, .forget ⟨[.reads (.memory ⟨0⟩)], none, none, true, false, false⟩
      fun _ => 0⟩]

theorem annotations_hold_purging :
    ∃ (steps : List (Transition.Step Deployment Action)) (t : Deployment),
      Run (@step plain fun _ => []) ⟨Db.empty 0, fun _ => none⟩ steps t ∧
      (steps.map fun e => e.target.db.memory.rows.length) = [0, 0, 1, 1, 0] ∧
      (Preserves (Db.empty 0) t.db ∨ ∃ e ∈ steps, ∃ i request session,
        e.action = .call i request ∧ e.source.sessions i = some session ∧
        session.config.tools = .all ∧ request.name = Tool.forget.name) := by
  obtain ⟨steps, t, hrun, -, hp⟩ := exists_run_of_exec (@step plain fun _ => [])
    ⟨Db.empty 0, fun _ => none⟩ purging
    (fun u => decide ((u.1.map fun e => e.target.db.memory.rows.length) = [0, 0, 1, 1, 0]))
    (by decide)
  exact ⟨steps, t, hrun, of_decide_eq_true hp,
    (@annotations_hold plain (fun _ => []) ⟨Db.empty 0, fun _ => none⟩ t steps nofun
      ⟨0, [], .nil _⟩ hrun).2⟩

end Agmem.Tools.Contract
