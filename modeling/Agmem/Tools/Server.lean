import Agmem.Tools.Remember
import Agmem.Tools.Reflect
import Agmem.Tools.Forget
import Agmem.Tools.Inspect

/-! The server: one store, the tool calls that change it, and for each session the dry
run it has pending. Every call is answered, and a refused one may still have registered a
space or spent a confirmation. Whatever a call does to the store is a run of the store's own
operations, and only a `forget` with `purge` deletes anything. -/

namespace Agmem.Tools

open Core Relational Relation Store Transition

structure Server where
  db : Db
  pending : ℕ → Forget.Pending

def Server.empty (dimension : ℕ) : Server := ⟨Db.empty dimension, fun _ => none⟩

/-- A call, with the session it comes from and the readings of the clock it will meet. -/
inductive Call where
  | remember (service : Service) (params : Remember.RememberParams) (writer : Writer)
      (registered : Timestamp) (clock : ℕ → Clock)
  | reflect (service : Service) (params : Reflect.ReflectParams) (writer : Writer)
      (registered : Timestamp) (clock : ℕ → Clock)
  | forget (session : ℕ) (service : Service) (params : Forget.ForgetParams)
      (now : MemoryId → Timestamp)

variable [Hashing]

def serve (s : Server) : Call → Option Server
  | .remember service params writer registered clock =>
    some { s with db := (Remember.run service s.db params writer registered clock).1 }
  | .reflect service params writer registered clock =>
    some { s with db := (Reflect.run service s.db params writer registered clock).1 }
  | .forget session service params now =>
    let after := (Forget.run service s.db (s.pending session) params now).1
    some ⟨after.1, Function.update s.pending session after.2⟩

/-! ### What a call does to the store -/

omit [Hashing] in
/-- The operations of the tools, deletions apart. -/
def Writes : Op → Prop
  | .insertBatch _ _ | .ensureSpace _ _ => True
  | .forget request _ => request.purge = false
  | _ => False

/-- A run of them leads from one database to the other. -/
def WritesTo (db db' : Db) : Prop :=
  ∃ steps, Run step db steps db' ∧ ∀ e ∈ steps, Writes e.action

variable {db db' : Db} {service : Service}

theorem WritesTo.refl (db : Db) : WritesTo db db :=
  ⟨[], .nil db, fun _ he => absurd he List.not_mem_nil⟩

theorem WritesTo.trans {db₁ : Db} (h : WritesTo db db₁) (h' : WritesTo db₁ db') :
    WritesTo db db' := by
  obtain ⟨steps, hrun, hwrites⟩ := h
  obtain ⟨more, hrun', hwrites'⟩ := h'
  exact ⟨_, hrun.append hrun', fun e he => (List.mem_append.mp he).elim (hwrites e) (hwrites' e)⟩

theorem WritesTo.single {op : Op} (h : step db op = some db') (hop : Writes op) :
    WritesTo db db' :=
  ⟨[⟨db, op, db'⟩], .cons h (.nil db'), fun _ he => List.mem_singleton.mp he ▸ hop⟩

omit [Hashing] in
theorem register_frame {name space : SpaceName} {now : Timestamp}
    (h : register service db name now = .ok (db', space)) : ∃ t, db' = { db with space := t } := by
  unfold register at h
  split_ifs at h
  · cases h
    exact ⟨db.space, rfl⟩
  · split at h
    · cases h
    · next hens =>
      cases h
      unfold ensureSpace at hens
      split at hens
      · cases hens
        exact ⟨db.space, rfl⟩
      · split at hens
        · next t _ =>
          cases hens
          exact ⟨t, rfl⟩
        · cases hens

omit [Hashing] in
/-- The space of a write is all that is registered before it. -/
theorem resolveSpace_frame {requested : Option Text} {now : Timestamp} {space : SpaceName}
    (h : resolveSpace service db requested now = .ok (db', space)) :
    ∃ t, db' = { db with space := t } := by
  unfold resolveSpace at h
  split at h
  · cases h
    exact ⟨db.space, rfl⟩
  · split_ifs at h
    · cases h
      exact ⟨db.space, rfl⟩
    · exact register_frame h
    · split at h
      · cases h
      · exact register_frame h

theorem register_writes {name space : SpaceName} {now : Timestamp}
    (h : register service db name now = .ok (db', space)) : WritesTo db db' := by
  unfold register at h
  split_ifs at h
  · cases h
    exact .refl db
  · split at h
    · cases h
    · next hens =>
      cases h
      have hstep : step db (.ensureSpace name now) = some db' := step_eq_some.mpr hens
      exact .single hstep trivial

theorem resolveSpace_writes {requested : Option Text} {now : Timestamp} {space : SpaceName}
    (h : resolveSpace service db requested now = .ok (db', space)) : WritesTo db db' := by
  unfold resolveSpace at h
  split at h
  · cases h
    exact .refl db
  · split_ifs at h
    · cases h
      exact .refl db
    · exact register_writes h
    · split at h
      · cases h
      · exact register_writes h

theorem insertBatch_writes {batch : Batch} {clock : ℕ → Clock} {out : BatchOutcome}
    (h : insertBatch db batch clock = .ok (db', out)) : WritesTo db db' := by
  have hstep : step db (.insertBatch batch clock) = some db' :=
    step_eq_some.mpr (map_fst_ok.mpr ⟨out, h⟩)
  exact .single hstep trivial

theorem remember_writes (params : Remember.RememberParams) (writer : Writer)
    (registered : Timestamp) (clock : ℕ → Clock) :
    WritesTo db (Remember.run service db params writer registered clock).1 := by
  unfold Remember.run
  split
  · exact .refl db
  · next db₁ space hspace =>
    refine (resolveSpace_writes hspace).trans ?_
    unfold Remember.store
    split
    · exact .refl db₁
    · dsimp only
      split_ifs
      · exact .refl db₁
      · split
        · exact .refl db₁
        · next hins => exact insertBatch_writes hins

theorem reflect_writes (params : Reflect.ReflectParams) (writer : Writer) (registered : Timestamp)
    (clock : ℕ → Clock) :
    WritesTo db (Reflect.run service db params writer registered clock).1 := by
  unfold Reflect.run
  split
  · exact .refl db
  · next db₁ space hspace =>
    refine (resolveSpace_writes hspace).trans ?_
    unfold Reflect.store
    split
    · exact .refl db₁
    · exact .refl db₁
    · split
      · exact .refl db₁
      · next hins => split <;> exact insertBatch_writes hins

/-! ### What a forget does to the store -/

/-- A call that goes through as a purge of what it selected. -/
structure Forget.Purges (service : Service) (db : Db) (pending : Forget.Pending)
    (params : Forget.ForgetParams) (spaces : List SpaceName) (targets acted : List Forget.Target) :
    Prop where
  purge : params.purge = true
  wet : params.dryRun = false
  searched : Tools.spaces service db params.space = .ok spaces
  selected : ∃ pending' selection,
    Forget.select service db pending spaces params = (pending', .ok selection) ∧
      selection.targets = targets ∧ (Forget.unseen selection.previewed acted).isEmpty = true
  acting : Forget.acting db true params.cascade targets = .ok acted

omit [Hashing] in
/-- A purge that goes through is the store's own, and is reported. -/
theorem Forget.Purges.run {pending : Forget.Pending} {params : Forget.ForgetParams}
    {spaces : List SpaceName} {targets acted : List Forget.Target}
    (h : Forget.Purges service db pending params spaces targets acted)
    (now : MemoryId → Timestamp) : ∃ pending', Forget.run service db pending params now =
      (((forgetPurge db (Forget.forgetRequest spaces true acted)).1, pending'),
        .ok (Forget.doneResult spaces true acted
          (forgetPurge db (Forget.forgetRequest spaces true acted)).2)) := by
  obtain ⟨hpurge, hwet, hspaces, ⟨pending', selection, hselect, rfl, hseen⟩, hacting⟩ := h
  refine ⟨pending', ?_⟩
  simp only [Forget.run, Forget.execute, hpurge, hwet, hspaces, hselect, hacting, hseen,
    Store.forget, Forget.forgetRequest, Bool.not_true, Bool.and_false, Bool.false_eq_true,
    if_false, if_true]

/-- A call writes, or leaves the store alone, or purges what it selected. -/
theorem forget_cases (service : Service) (db : Db) (pending : Forget.Pending)
    (params : Forget.ForgetParams) (now : MemoryId → Timestamp) :
    WritesTo db (Forget.run service db pending params now).1.1 ∨
      ∃ spaces targets acted, Forget.Purges service db pending params spaces targets acted := by
  unfold Forget.run
  split_ifs
  · exact .inl (.refl db)
  · split
    · exact .inl (.refl db)
    · next spaces hspaces =>
      split
      · exact .inl (.refl db)
      · next pending' selection hselect =>
        unfold Forget.execute
        split
        · exact .inl (.refl db)
        · next acted hacted =>
          split_ifs with hseen hdry
          · exact .inl (.refl db)
          · split
            · exact .inl (.refl db)
            · next db' out hforget =>
              cases hpurge : params.purge with
              | false =>
                rw [hpurge] at hforget
                have hstep : step db (.forget (Forget.forgetRequest spaces false acted) now) =
                    some db' := step_eq_some.mpr (map_fst_ok.mpr ⟨out, hforget⟩)
                exact .inl (.single hstep rfl)
              | true =>
                rw [hpurge] at hacted
                exact .inr ⟨spaces, selection.targets, acted, hpurge,
                  (Bool.not_eq_true _).mp hdry, hspaces,
                  ⟨pending', selection, hselect, rfl, hseen⟩, hacted⟩
          · exact .inl (.refl db)

omit [Hashing] in
/-- A call that purges what it selected. -/
def Call.Purges (s : Server) (call : Call) (spaces : List SpaceName)
    (targets acted : List Forget.Target) : Prop :=
  match call with
  | .forget session service params _ =>
    Forget.Purges service s.db (s.pending session) params spaces targets acted
  | _ => False

variable {s t : Server} {call : Call}

/-- What a call does to the store: it writes, or it purges. -/
theorem serve_cases (h : serve s call = some t) :
    WritesTo s.db t.db ∨ ∃ spaces targets acted, call.Purges s spaces targets acted := by
  cases call with
  | remember service params writer registered clock =>
    cases h
    exact .inl (remember_writes params writer registered clock)
  | reflect service params writer registered clock =>
    cases h
    exact .inl (reflect_writes params writer registered clock)
  | forget session service params now =>
    cases h
    exact forget_cases service s.db (s.pending session) params now

theorem serve_purges (h : serve s call = some t) {spaces : List SpaceName}
    {targets acted : List Forget.Target} (hp : call.Purges s spaces targets acted) :
    t.db = (forgetPurge s.db (Forget.forgetRequest spaces true acted)).1 := by
  cases call with
  | forget session service params now =>
    obtain ⟨pending', hrun⟩ := Forget.Purges.run hp now
    cases h
    change (Forget.run service s.db (s.pending session) params now).1.1 = _
    rw [hrun]
  | _ => exact hp.elim

/-- A call is a run of the store's own operations. -/
theorem serve_run (h : serve s call = some t) : ∃ steps, Run step s.db steps t.db := by
  rcases serve_cases h with ⟨steps, hrun, -⟩ | ⟨spaces, targets, acted, hp⟩
  · exact ⟨steps, hrun⟩
  · have hpurge : Store.forget s.db (Forget.forgetRequest spaces true acted) (fun _ => 0) =
        .ok (forgetPurge s.db (Forget.forgetRequest spaces true acted)) := rfl
    have hstep : step s.db (.forget (Forget.forgetRequest spaces true acted) fun _ => 0) = some _ :=
      step_eq_some.mpr (map_fst_ok.mpr ⟨_, hpurge⟩)
    rw [serve_purges h hp]
    exact ⟨_, .cons hstep (.nil _)⟩

/-- The database after a call is reached by the store's own operations. -/
theorem serve_reachable (h : serve s call = some t) (hs : s.db.Reachable) : t.db.Reachable := by
  obtain ⟨dimension, before, hbefore⟩ := hs
  obtain ⟨steps, hrun⟩ := serve_run h
  exact ⟨dimension, _, hbefore.append hrun⟩

theorem reachable_of_run {dimension : ℕ} {steps : List (Transition.Step Server Call)}
    (h : Run serve (Server.empty dimension) steps t) : t.db.Reachable :=
  (h.invariant (I := fun s => s.db.Reachable) (Q := fun _ => True)
    (fun _ _ _ hs _ hi => serve_reachable hs hi) (fun _ _ => trivial) ⟨dimension, [], .nil _⟩).1

/-! ### Small scripts -/

/-- A session in the space of the scripts, without an embedder. -/
def terminal : Service where
  space := agmem
  pool := 10
  embedder := .noop
  engine := ⟨fun _ _ _ => .ok [], fun _ _ => []⟩

/-- A one-letter claim is remembered, in place of the rows with the given numbers. -/
def Call.say (start : Timestamp) (letter : Char) (supersedes : List ℕ) : Call :=
  .remember terminal ⟨none, [⟨[letter], none, [], [], none,
    supersedes.map fun id => .reads ⟨id⟩, none⟩], none⟩ agent start (ticking start)

/-- A one-letter episode is filed under the title "t". -/
def Call.file (start : Timestamp) (letter : Char) (docKind : Option DocKind) : Call :=
  .remember terminal ⟨none, [], some ⟨[letter], none, none, some ['t'], docKind, [], none⟩⟩ agent
    start (ticking start)

/-- The memory with the given number is purged. -/
def Call.purge (id : ℕ) : Call :=
  .forget 0 terminal ⟨[.reads (.memory ⟨id⟩)], none, none, true, false, false⟩ fun _ => 0

end Agmem.Tools
