import Agmem.Transition.Since
import Agmem.Tools.Forget

/-! The forget calls of a session, any number of them under way at once. A call names its spaces,
makes its choice against the slot of the session, looks for its targets while the store may change
under it, and settles. Nothing is assumed of what its reads find. An execution by query takes a
confirmation that a dry run of the same scope left in the slot, every confirmation goes to one
execution, and a row that the dry run did not show is not touched. -/

namespace Agmem.Tools.Confirmation

open Core Store Relational Transition Forget

/-- The query of a call, if it says something. -/
def asked (params : ForgetParams) : Option Text :=
  (params.query.map trim).filter fun text => !text.isEmpty

/-- What a call may arm, and the ids it may act on. -/
structure Offer where
  armable : Option Scope
  previewed : Option (List ℕ)

/-- A query to execute is confirmed first. -/
def confirmed (pending : Pending) (scope : Scope) : Pending × Except ErrorData Offer :=
  match confirm pending scope with
  | (pending, .error e) => (pending, .error e)
  | (pending, .ok previewed) => (pending, .ok ⟨none, some previewed⟩)

/-- The choice of a selector. -/
def chooses (pending : Pending) (spaces : List SpaceName) (params : ForgetParams) :
    Pending × Except ErrorData Offer :=
  match params.ids.isEmpty, asked params with
  | false, none => (pending, .ok ⟨none, none⟩)
  | true, some text =>
    if params.dryRun then (pending, .ok ⟨some ⟨text, spaces, params.purge⟩, none⟩)
    else confirmed pending ⟨text, spaces, params.purge⟩
  | false, some _ => (pending, .error (.invalid .idsAndQuery))
  | true, none => (pending, .error (.invalid .nothingSelected))

/-- What the reads of a call find, with the store to itself: the targets it acts on. -/
def found (service : Service) (db : Db) (spaces : List SpaceName) (params : ForgetParams) :
    Except ErrorData (List Target) :=
  match asked params with
  | some text =>
    acting db params.purge params.cascade (byQuery service db spaces text)
  | none =>
    match byIds db spaces params.ids params.purge with
    | .error e => .error e
    | .ok targets => acting db params.purge params.cascade targets

/-- The end of a call: the snapshot, and then the slot or the store. -/
def settle (db : Db) (pending : Pending) (spaces : List SpaceName) (params : ForgetParams)
    (offer : Offer) (targets : List Target) (now : MemoryId → Timestamp) :
    (Db × Pending) × Except ErrorData ForgetResult :=
  if (unseen offer.previewed targets).isEmpty then
    if params.dryRun then
      let armed := match offer.armable with
        | none => pending
        | some scope => some (scope, targets.map Target.id)
      ((db, armed), .ok (dryResult spaces params.purge targets))
    else
      match Store.forget db (forgetRequest spaces params.purge targets) now with
      | .error e => ((db, pending), .error (storeError e))
      | .ok (db, forgotten) =>
        ((db, pending), .ok (doneResult spaces params.purge targets forgotten))
  else ((db, pending), .error (.invalid (.unseen (unseen offer.previewed targets))))

/-- The end of a call whose reads may have failed. -/
def settled (db : Db) (pending : Pending) (spaces : List SpaceName) (params : ForgetParams)
    (offer : Offer) (now : MemoryId → Timestamp) :
    Except ErrorData (List Target) → (Db × Pending) × Except ErrorData ForgetResult
  | .error e => ((db, pending), .error e)
  | .ok targets => settle db pending spaces params offer targets now

/-! ### The session -/

inductive Phase where
  | received (params : ForgetParams)
  | looking (params : ForgetParams) (spaces : List SpaceName) (offer : Offer)
  | answered (result : Except ErrorData ForgetResult)

structure Session (ι : Type*) where
  store : Db
  pending : Pending
  calls : ι → Option Phase

inductive Action (ι : Type*) where
  /-- A call comes in. -/
  | receive (call : ι) (params : ForgetParams)
  /-- It has its spaces, or could not read them, and chooses. -/
  | choose (call : ι) (spaces : Except ErrorData (List SpaceName))
  /-- It has its targets, or could not read them, and settles. -/
  | finish (call : ι) (targets : Except ErrorData (List Target)) (now : MemoryId → Timestamp)
  /-- Whatever anyone else does to the store. -/
  | other (store : Db)

variable {ι : Type*} [DecidableEq ι]

def Session.set (S : Session ι) (i : ι) (phase : Phase) : Session ι :=
  { S with calls := Function.update S.calls i (some phase) }

def initial (db : Db) : Session ι := ⟨db, none, fun _ => none⟩

def receive (S : Session ι) (i : ι) (params : ForgetParams) : Session ι :=
  S.set i (if params.cascade && !params.purge then
    .answered (.error (.invalid .cascadeWithoutPurge)) else .received params)

def choose (S : Session ι) (i : ι) (params : ForgetParams) :
    Except ErrorData (List SpaceName) → Session ι
  | .error e => S.set i (.answered (.error e))
  | .ok spaces =>
    let S' : Session ι := { S with pending := (chooses S.pending spaces params).1 }
    match (chooses S.pending spaces params).2 with
    | .error e => S'.set i (.answered (.error e))
    | .ok offer => S'.set i (.looking params spaces offer)

def finish (S : Session ι) (i : ι) (params : ForgetParams) (spaces : List SpaceName)
    (offer : Offer) (now : MemoryId → Timestamp) (targets : Except ErrorData (List Target)) :
    Session ι :=
  let out := settled S.store S.pending spaces params offer now targets
  { S with store := out.1.1, pending := out.1.2 }.set i (.answered out.2)

def step (S : Session ι) : Action ι → Option (Session ι)
  | .receive i params =>
    match S.calls i with
    | none => some (receive S i params)
    | some _ => none
  | .choose i spaces =>
    match S.calls i with
    | some (.received params) => some (choose S i params spaces)
    | _ => none
  | .finish i targets now =>
    match S.calls i with
    | some (.looking params spaces offer) => some (finish S i params spaces offer now targets)
    | _ => none
  | .other store => some { S with store := store }

/-! ### What a step can do -/

variable {S T : Session ι} {i j : ι} {params : ForgetParams} {spaces : List SpaceName}
  {offer : Offer} {db : Db} {pending : Pending}

/-- A call that is to execute a query. -/
structure Executing (params : ForgetParams) (text : Text) : Prop where
  ids : params.ids = []
  query : asked params = some text
  dryRun : params.dryRun = false

theorem confirmed_cases (pending : Pending) (scope : Scope) :
    (∃ shown, pending = some (scope, shown) ∧
      confirmed pending scope = (none, .ok ⟨none, some shown⟩)) ∨
    (∀ shown, pending ≠ some (scope, shown)) ∧
      confirmed pending scope = (pending, .error (.invalid .unconfirmed)) := by
  cases pending with
  | none => exact .inr ⟨nofun, rfl⟩
  | some armed =>
    obtain ⟨armed, shown⟩ := armed
    by_cases hscope : armed = scope
    · subst hscope
      exact .inl ⟨shown, rfl, by simp [confirmed, confirm]⟩
    · refine .inr ⟨fun shown' h => hscope (congrArg Prod.fst (Option.some.inj h)), ?_⟩
      simp [confirmed, confirm, hscope]

theorem chooses_executing {text : Text} (h : Executing params text) :
    chooses pending spaces params = confirmed pending ⟨text, spaces, params.purge⟩ := by
  simp only [chooses, h.ids, h.query, h.dryRun, List.isEmpty_nil, Bool.false_eq_true, if_false]

/-- What a choice can do: refuse, look for the ids of the call, look for what a dry run shows, or
spend a confirmation. Only the last one changes the slot. -/
theorem chooses_cases (pending : Pending) (spaces : List SpaceName) (params : ForgetParams) :
    (∃ e, chooses pending spaces params = (pending, .error e)) ∨
    (params.ids ≠ [] ∧ chooses pending spaces params = (pending, .ok ⟨none, none⟩)) ∨
    (∃ text, asked params = some text ∧ params.dryRun = true ∧
      chooses pending spaces params = (pending, .ok ⟨some ⟨text, spaces, params.purge⟩, none⟩)) ∨
    (∃ text, Executing params text ∧ ∃ shown,
      pending = some (⟨text, spaces, params.purge⟩, shown) ∧
      chooses pending spaces params = (none, .ok ⟨none, some shown⟩)) := by
  by_cases hids : params.ids = []
  · cases hquery : asked params with
    | none => exact .inl ⟨.invalid .nothingSelected, by simp [chooses, hids, hquery]⟩
    | some text =>
      cases hdry : params.dryRun with
      | true => exact .inr (.inr (.inl ⟨text, rfl, rfl, by simp [chooses, hids, hquery, hdry]⟩))
      | false =>
        have hexec : Executing params text := ⟨hids, hquery, hdry⟩
        rcases confirmed_cases pending ⟨text, spaces, params.purge⟩ with ⟨shown, hp, h⟩ | ⟨-, h⟩
        · exact .inr (.inr (.inr ⟨text, hexec, shown, hp, by rw [chooses_executing hexec, h]⟩))
        · exact .inl ⟨_, by rw [chooses_executing hexec, h]⟩
  · have hsome : params.ids.isEmpty = false := by simpa using hids
    cases hquery : asked params with
    | none => exact .inr (.inl ⟨hids, by simp [chooses, hsome, hquery]⟩)
    | some text => exact .inl ⟨.invalid .idsAndQuery, by simp [chooses, hsome, hquery]⟩

/-- The slot after a call has settled: as it was, or armed with what a dry run shows. -/
theorem settle_pending (db : Db) (pending : Pending) (spaces : List SpaceName)
    (params : ForgetParams) (offer : Offer) (targets : List Target)
    (now : MemoryId → Timestamp) :
    (settle db pending spaces params offer targets now).1.2 = pending ∨
      ∃ scope, offer.armable = some scope ∧ params.dryRun = true ∧
        settle db pending spaces params offer targets now =
          ((db, some (scope, targets.map Target.id)),
            .ok (dryResult spaces params.purge targets)) := by
  unfold settle
  split_ifs with hseen hdry
  · cases harm : offer.armable with
    | none => exact .inl rfl
    | some scope => exact .inr ⟨scope, rfl, hdry, rfl⟩
  · split
    · exact .inl rfl
    · exact .inl rfl
  · exact .inl rfl

/-- The store after a call has settled: as it was, or after the statement for its targets, all of
which it may act on. -/
theorem settle_store (db : Db) (pending : Pending) (spaces : List SpaceName)
    (params : ForgetParams) (offer : Offer) (targets : List Target)
    (now : MemoryId → Timestamp) :
    (settle db pending spaces params offer targets now).1.1 = db ∨
      unseen offer.previewed targets = [] ∧ ∃ forgotten,
        Store.forget db (forgetRequest spaces params.purge targets) now =
          .ok ((settle db pending spaces params offer targets now).1.1, forgotten) := by
  unfold settle
  split_ifs with hseen hdry
  · exact .inl rfl
  · split
    · exact .inl rfl
    · rename_i forgotten hforget
      exact .inr ⟨List.isEmpty_iff.mp hseen, forgotten, hforget⟩
  · exact .inl rfl

/-- A step that is not a choice or an end leaves the slot alone, and each of them does to it and to
its call what the functions say. -/
theorem step_choose (h : step S (.choose i (.ok spaces)) = some T) : ∃ params,
    S.calls i = some (.received params) ∧ T.store = S.store ∧
      T.pending = (chooses S.pending spaces params).1 ∧
      ((∃ e, (chooses S.pending spaces params).2 = .error e ∧
          T.calls = Function.update S.calls i (some (.answered (.error e)))) ∨
        ∃ offer, (chooses S.pending spaces params).2 = .ok offer ∧
          T.calls = Function.update S.calls i (some (.looking params spaces offer))) := by
  simp only [step] at h
  split at h
  · rename_i params hcall
    cases h
    refine ⟨params, hcall, ?_⟩
    unfold choose
    dsimp only
    cases hchosen : (chooses S.pending spaces params).2 with
    | error e => exact ⟨rfl, rfl, .inl ⟨e, rfl, rfl⟩⟩
    | ok offer => exact ⟨rfl, rfl, .inr ⟨offer, rfl, rfl⟩⟩
  · cases h

theorem step_finish {targets : List Target} {now : MemoryId → Timestamp}
    (h : step S (.finish i (.ok targets) now) = some T) : ∃ params spaces offer,
      S.calls i = some (.looking params spaces offer) ∧
      T.store = (settle S.store S.pending spaces params offer targets now).1.1 ∧
      T.pending = (settle S.store S.pending spaces params offer targets now).1.2 ∧
      T.calls = Function.update S.calls i
        (some (.answered (settle S.store S.pending spaces params offer targets now).2)) := by
  simp only [step] at h
  split at h
  · rename_i params spaces offer hcall
    cases h
    exact ⟨params, spaces, offer, hcall, rfl, rfl, rfl⟩
  · cases h

/-- What the other steps do: the slot stays, and a call comes in or fails. -/
theorem step_aside {a : Action ι} (h : step S a = some T)
    (hchoose : ∀ i spaces, a ≠ .choose i (.ok spaces))
    (hfinish : ∀ i targets now, a ≠ .finish i (.ok targets) now) :
    T.pending = S.pending ∧
      (T.calls = S.calls ∨ ∃ i, (∃ params, T.calls = Function.update S.calls i
        (some (.received params))) ∨ ∃ result, T.calls = Function.update S.calls i
          (some (.answered result))) := by
  cases a with
  | other store =>
    cases h
    exact ⟨rfl, .inl rfl⟩
  | receive i params =>
    simp only [step] at h
    split at h
    · cases h
      unfold receive
      split_ifs
      · exact ⟨rfl, .inr ⟨i, .inr ⟨_, rfl⟩⟩⟩
      · exact ⟨rfl, .inr ⟨i, .inl ⟨_, rfl⟩⟩⟩
    · cases h
  | choose i spaces =>
    cases spaces with
    | ok spaces => exact absurd rfl (hchoose i spaces)
    | error e =>
      simp only [step] at h
      split at h
      · cases h
        exact ⟨rfl, .inr ⟨i, .inr ⟨_, rfl⟩⟩⟩
      · cases h
  | finish i targets now =>
    cases targets with
    | ok targets => exact absurd rfl (hfinish i targets now)
    | error e =>
      simp only [step] at h
      split at h
      · cases h
        exact ⟨rfl, .inr ⟨i, .inr ⟨_, rfl⟩⟩⟩
      · cases h

theorem looking_of_update {phase : Phase}
    (hcalls : T.calls = Function.update S.calls j (some phase))
    (hphase : ∀ params spaces offer, phase ≠ .looking params spaces offer)
    (hT : T.calls i = some (.looking params spaces offer)) :
    S.calls i = some (.looking params spaces offer) := by
  rw [hcalls] at hT
  by_cases hij : i = j
  · subst hij
    rw [Function.update_self] at hT
    exact absurd (Option.some.inj hT) (hphase params spaces offer)
  · rwa [Function.update_of_ne hij] at hT

/-- A call looks for its targets since it chose. -/
theorem looking_kept {a : Action ι} (h : step S a = some T)
    (hT : T.calls i = some (.looking params spaces offer)) :
    S.calls i = some (.looking params spaces offer) ∨
      a = .choose i (.ok spaces) ∧ S.calls i = some (.received params) ∧
        chooses S.pending spaces params = (T.pending, .ok offer) := by
  by_cases hchoose : ∃ j found, a = .choose j (.ok found)
  · obtain ⟨j, found, rfl⟩ := hchoose
    obtain ⟨asking, hcall, -, hpending, ⟨e, -, hcalls⟩ | ⟨taken, htaken, hcalls⟩⟩ := step_choose h
    · exact .inl (looking_of_update hcalls nofun hT)
    · rw [hcalls] at hT
      by_cases hij : i = j
      · subst hij
        simp only [Function.update_self, Option.some.injEq, Phase.looking.injEq] at hT
        obtain ⟨rfl, rfl, rfl⟩ := hT
        exact .inr ⟨rfl, hcall, Prod.ext hpending.symm htaken⟩
      · exact .inl (by rwa [Function.update_of_ne hij] at hT)
  · by_cases hfinish : ∃ j targets now, a = .finish j (.ok targets) now
    · obtain ⟨j, targets, now, rfl⟩ := hfinish
      obtain ⟨_, _, _, -, -, -, hcalls⟩ := step_finish h
      exact .inl (looking_of_update hcalls nofun hT)
    · obtain ⟨-, hcalls⟩ := step_aside h (fun j found hj => hchoose ⟨j, found, hj⟩)
        fun j targets now hj => hfinish ⟨j, targets, now, hj⟩
      rcases hcalls with hcalls | ⟨j, ⟨_, hcalls⟩ | ⟨_, hcalls⟩⟩
      · exact .inl (hcalls ▸ hT)
      · exact .inl (looking_of_update hcalls nofun hT)
      · exact .inl (looking_of_update hcalls nofun hT)

/-- What a step does to the slot: nothing, a call that is to execute a query takes what was armed
for it, or a dry run arms it. -/
theorem slot_cases {a : Action ι} (h : step S a = some T) :
    T.pending = S.pending ∨
      (∃ i spaces params text shown, a = .choose i (.ok spaces) ∧
        S.calls i = some (.received params) ∧ Executing params text ∧
        S.pending = some (⟨text, spaces, params.purge⟩, shown) ∧ T.pending = none) ∨
      ∃ i params spaces offer scope targets now, a = .finish i (.ok targets) now ∧
        S.calls i = some (.looking params spaces offer) ∧ offer.armable = some scope ∧
        params.dryRun = true ∧ T.pending = some (scope, targets.map Target.id) ∧
        T.calls i = some (.answered (.ok (dryResult spaces params.purge targets))) := by
  by_cases hchoose : ∃ j found, a = .choose j (.ok found)
  · obtain ⟨j, found, rfl⟩ := hchoose
    obtain ⟨asking, hcall, -, hpending, -⟩ := step_choose h
    rw [hpending]
    rcases chooses_cases S.pending found asking with
      ⟨_, hc⟩ | ⟨-, hc⟩ | ⟨_, -, -, hc⟩ | ⟨text, hexec, shown, hslot, hc⟩
    · exact .inl (by rw [hc])
    · exact .inl (by rw [hc])
    · exact .inl (by rw [hc])
    · exact .inr (.inl ⟨j, found, asking, text, shown, rfl, hcall, hexec, hslot, by rw [hc]⟩)
  · by_cases hfinish : ∃ j targets now, a = .finish j (.ok targets) now
    · obtain ⟨j, targets, now, rfl⟩ := hfinish
      obtain ⟨params, spaces, offer, hcall, -, hpending, hcalls⟩ := step_finish h
      rw [hpending]
      rcases settle_pending S.store S.pending spaces params offer targets now with
        hsame | ⟨scope, harm, hdry, hsettle⟩
      · exact .inl hsame
      · rw [hsettle] at hcalls ⊢
        refine .inr (.inr ⟨j, params, spaces, offer, scope, targets, now, rfl, hcall, harm, hdry,
          rfl, ?_⟩)
        rw [hcalls, Function.update_self]
    · exact .inl (step_aside h (fun j found hj => hchoose ⟨j, found, hj⟩)
        fun j targets now hj => hfinish ⟨j, targets, now, hj⟩).1

/-- Every call that looks for its targets has chosen. -/
def Chosen (S : Session ι) : Prop :=
  ∀ i params spaces offer, S.calls i = some (.looking params spaces offer) →
    ∃ pending, (chooses pending spaces params).2 = .ok offer

theorem chosen_of_run {steps : List (Step (Session ι) (Action ι))}
    (h : Run step (initial db) steps S) : Chosen S := by
  refine (h.invariant (I := Chosen) (Q := fun _ => True) (fun s a t hs _ hI => ?_)
    (fun _ _ => trivial) nofun).1
  intro i params spaces offer ht
  rcases looking_kept hs ht with hlooking | ⟨-, -, hchooses⟩
  · exact hI i params spaces offer hlooking
  · exact ⟨_, congrArg Prod.snd hchooses⟩

/-- What a call that chose may arm is the scope of its query. -/
theorem armable_scope {scope : Scope} (h : (chooses pending spaces params).2 = .ok offer)
    (ha : offer.armable = some scope) :
    asked params = some scope.query ∧ spaces = scope.spaces ∧ params.purge = scope.purge := by
  rcases chooses_cases pending spaces params with
    ⟨_, hc⟩ | ⟨-, hc⟩ | ⟨text, hquery, -, hc⟩ | ⟨_, -, _, -, hc⟩
  · rw [hc] at h
    cases h
  · rw [hc] at h
    cases h
    cases ha
  · rw [hc] at h
    cases h
    cases ha
    exact ⟨hquery, rfl, rfl⟩
  · rw [hc] at h
    cases h
    cases ha

/-! ### Arming, spending, executing -/

/-- The end of a dry run: it shows these ids and leaves them in the slot. -/
def Arms (e : Step (Session ι) (Action ι)) (scope : Scope) (shown : List ℕ) : Prop :=
  ∃ i params offer targets now, e.action = .finish i (.ok targets) now ∧
    e.source.calls i = some (.looking params scope.spaces offer) ∧ params.dryRun = true ∧
    asked params = some scope.query ∧ params.purge = scope.purge ∧
    e.target.pending = some (scope, shown) ∧
    ∃ result, e.target.calls i = some (.answered (.ok result)) ∧ result.dryRun = true ∧
      result.matched.map ForgetMatch.id = shown

/-- The choice of a call that is to execute the scope and takes its confirmation out of the slot. -/
def Spends (e : Step (Session ι) (Action ι)) (i : ι) (scope : Scope) (shown : List ℕ) : Prop :=
  e.action = .choose i (.ok scope.spaces) ∧
    (∃ params, e.source.calls i = some (.received params) ∧ Executing params scope.query ∧
      params.purge = scope.purge) ∧
    e.source.pending = some (scope, shown) ∧ e.target.pending = none

/-- The end of a call that executes a query. -/
def Executes (e : Step (Session ι) (Action ι)) (i : ι) (scope : Scope) (targets : List Target) :
    Prop :=
  ∃ params offer now, e.action = .finish i (.ok targets) now ∧
    e.source.calls i = some (.looking params scope.spaces offer) ∧
    Executing params scope.query ∧ params.purge = scope.purge

/-- The choice at place `c` of a run takes what the dry run at place `m` left in the slot, and
nothing spent or replaced it between the two. -/
structure Takes (steps : List (Step (Session ι) (Action ι))) (m c : ℕ) (i : ι) (scope : Scope)
    (shown : List ℕ) : Prop where
  lt : m < c
  armed : ∃ e, steps[m]? = some e ∧ Arms e scope shown
  spent : ∃ e, steps[c]? = some e ∧ Spends e i scope shown
  held : ∀ l e, m < l → l < c → steps[l]? = some e → e.target.pending = some (scope, shown)

/-- The execution at place `n` of a run is the end of the call that took its confirmation at place
`c`: the call has been looking for its targets since. -/
structure Confirms (steps : List (Step (Session ι) (Action ι))) (m c n : ℕ) (i : ι)
    (scope : Scope) (shown : List ℕ) : Prop where
  takes : Takes steps m c i scope shown
  lt : c < n
  executed : ∃ e targets, steps[n]? = some e ∧ Executes e i scope targets
  looking : ∀ l e, c < l → l < n → steps[l]? = some e →
    ∃ params spaces offer, e.target.calls i = some (.looking params spaces offer)

/-- Rows that were not shown are as they were. -/
structure Spared (db db' : Db) (shown : List ℕ) : Prop where
  memory : ∀ r ∈ db.memory, r.id.ulid ∉ shown → r ∈ db'.memory
  episode : ∀ p ∈ db.episode, p.id.ulid ∉ shown → p ∈ db'.episode
  chunk : ∀ c ∈ db.episodeChunk, c.episode.ulid ∉ shown → c ∈ db'.episodeChunk

variable {steps : List (Step (Session ι) (Action ι))} {scope : Scope} {shown : List ℕ}

/-- A call that chose to execute a query spent its confirmation. -/
theorem chooses_spends {pending' : Pending}
    (h : chooses pending spaces params = (pending', .ok offer)) {text : Text}
    (hexec : Executing params text) : ∃ shown,
      pending = some (⟨text, spaces, params.purge⟩, shown) ∧ pending' = none ∧
        offer = ⟨none, some shown⟩ := by
  rw [chooses_executing hexec] at h
  rcases confirmed_cases pending ⟨text, spaces, params.purge⟩ with ⟨shown, hp, hc⟩ | ⟨-, hc⟩
  · rw [hc] at h
    cases h
    exact ⟨shown, hp, rfl, rfl⟩
  · rw [hc] at h
    cases h

/-- What a step of a run does to a slot, by its events. -/
theorem slot_events (h : Run step (initial db) steps S) {n : ℕ} {e : Step (Session ι) (Action ι)}
    (he : steps[n]? = some e) : e.target.pending = e.source.pending ∨
      (∃ i scope shown, Spends e i scope shown) ∨ ∃ scope shown, Arms e scope shown := by
  rcases slot_cases (h.step_eq he) with
    hsame | ⟨i, spaces, params, text, shown, haction, hcall, hexec, hslot, hempty⟩ |
      ⟨i, params, spaces, offer, scope, targets, now, haction, hcall, harm, hdry, harmed, hanswer⟩
  · exact .inl hsame
  · exact .inr (.inl ⟨i, ⟨text, spaces, params.purge⟩, shown, haction,
      ⟨params, hcall, hexec, rfl⟩, hslot, hempty⟩)
  · obtain ⟨pending, hchosen⟩ := chosen_of_run (h.take he) i params spaces offer hcall
    obtain ⟨hquery, rfl, hpurge⟩ := armable_scope hchosen harm
    refine .inr (.inr ⟨scope, _, i, params, offer, targets, now, haction, hcall, hdry, hquery,
      hpurge, harmed, _, hanswer, rfl, ?_⟩)
    rw [dryResult, List.map_map]
    refine List.map_congr_left fun target _ => ?_
    cases target <;> rfl

theorem spared_refl (db : Db) (shown : List ℕ) : Spared db db shown :=
  ⟨fun _ h _ => h, fun _ h _ => h, fun _ h _ => h⟩

/-- A statement touches only the rows it names, and the slices of the episodes it names. -/
theorem spared_of_forget {request : Store.Forget} {now : MemoryId → Timestamp} {db' : Db}
    {out : Forgotten} (h : Store.forget db request now = .ok (db', out))
    (hm : ∀ id ∈ request.memories, id.ulid ∈ shown)
    (he : ∀ id ∈ request.episodes, id.ulid ∈ shown) : Spared db db' shown := by
  unfold Store.forget at h
  split_ifs at h with hpurge
  · cases h
    refine ⟨fun r hr hid => ?_, fun p hp hid => ?_, fun c hc hid => ?_⟩
    · exact Table.mem_deleteKeys.mpr ⟨hr, fun hin => hid (hm r.id hin.1)⟩
    · exact Table.mem_deleteKeys.mpr ⟨hp, fun hin => hid (he p.id hin.1)⟩
    · refine Table.mem_delete.mpr ⟨hc, ?_⟩
      have hnot : c.episode ∉ request.episodes := fun hin => hid (he _ hin)
      simp [hnot]
  · obtain ⟨t, closed, hu, rfl⟩ := forgetSoft_eq_ok h
    refine ⟨fun r hr hid => ?_, fun _ hp _ => hp, fun _ hc _ => hc⟩
    have hlive : ∀ r : MemoryRecord, (decide (r.space ∈ request.spaces) && r.isLive) = true →
        r.isLive = true := fun r hr => (Bool.and_eq_true_iff.mp hr).2
    have hnot : r.id ∉ request.memories := fun hin => hid (hm _ hin)
    show r ∈ t.rows
    rw [rows_of_update (closes_closedAs hlive .forgotten now) hu]
    refine List.mem_map.mpr ⟨r, hr, ?_⟩
    simp [hnot]

/-- The targets of a statement are named by their ids. -/
theorem mem_of_request (spaces : List SpaceName) {targets : List Target}
    (hall : ∀ t ∈ targets, t.id ∈ shown) (purge : Bool) :
    (∀ id ∈ (forgetRequest spaces purge targets).memories, id.ulid ∈ shown) ∧
      ∀ id ∈ (forgetRequest spaces purge targets).episodes, id.ulid ∈ shown := by
  constructor
  · intro id hid
    obtain ⟨t, ht, hid⟩ := List.mem_filterMap.mp hid
    cases t with
    | memory space record cascadedFrom =>
      cases hid
      exact hall _ ht
    | episode space detail => cases hid
  · intro id hid
    obtain ⟨t, ht, hid⟩ := List.mem_filterMap.mp hid
    cases t with
    | memory space record cascadedFrom => cases hid
    | episode space detail =>
      cases hid
      exact hall _ ht

/-- A settlement that may act on nothing but what was shown spares the rest. -/
theorem settle_spared (db : Db) (pending : Pending) (spaces : List SpaceName)
    (params : ForgetParams) (armable : Option Scope) (shown : List ℕ) (targets : List Target)
    (now : MemoryId → Timestamp) :
    let db' := (settle db pending spaces params ⟨armable, some shown⟩ targets now).1.1
    (db' = db ∨ ∀ t ∈ targets, t.id ∈ shown) ∧ Spared db db' shown := by
  rcases settle_store db pending spaces params ⟨armable, some shown⟩ targets now with
    hsame | ⟨hseen, forgotten, hforget⟩
  · dsimp only
    rw [hsame]
    exact ⟨.inl rfl, spared_refl db shown⟩
  · have hall : ∀ t ∈ targets, t.id ∈ shown := fun t ht => by
      by_contra hnot
      have hin : t.id ∈ unseen (some shown) targets :=
        List.mem_filter.mpr ⟨List.mem_map_of_mem ht, by simpa using hnot⟩
      rw [hseen] at hin
      exact List.not_mem_nil hin
    obtain ⟨hm, he⟩ := mem_of_request spaces hall params.purge
    exact ⟨.inr hall, spared_of_forget hforget hm he⟩

/-! ### Every execution is confirmed -/

/-- The slot holds what the last dry run left in it. -/
theorem exists_takes (h : Run step (initial db) steps S) {c : ℕ} {e : Step (Session ι) (Action ι)}
    (he : steps[c]? = some e) (hspends : Spends e i scope shown) :
    ∃ m, Takes steps m c i scope shown := by
  obtain ⟨-, -, hslot, -⟩ := id hspends
  have hkeep : ∀ s a t, step s a = some t → t.pending = some (scope, shown) →
      s.pending = some (scope, shown) ∨
        (⟨s, a, t⟩ : Step (Session ι) (Action ι)).source.pending ≠ t.pending := by
    intro s a t _ ht
    by_cases hs : s.pending = some (scope, shown)
    · exact .inl hs
    · exact .inr (ht ▸ hs)
  obtain ⟨m, a, hmc, ha, hchange, harmed, hheld⟩ := h.since_start
    (A := fun e => e.source.pending ≠ e.target.pending) hkeep nofun he hslot
  refine ⟨m, hmc, ⟨a, ha, ?_⟩, ⟨e, he, hspends⟩, fun l f hl hlc hf => (hheld l f hl hlc hf).2⟩
  rcases slot_events h ha with hsame | ⟨_, _, _, -, -, -, hempty⟩ | ⟨scope', shown', harms⟩
  · exact absurd hsame.symm hchange
  · rw [hempty] at harmed
    cases harmed
  · obtain ⟨-, -, -, -, -, -, -, -, -, -, hslot', -⟩ := id harms
    rw [hslot', Option.some.injEq, Prod.mk.injEq] at harmed
    obtain ⟨rfl, rfl⟩ := harmed
    exact harms

omit [DecidableEq ι] in
/-- A dry run is taken once. -/
theorem Takes.unique {m c c' : ℕ} {i' : ι} {scope' : Scope} {shown' : List ℕ}
    (h : Takes steps m c i scope shown) (h' : Takes steps m c' i' scope' shown') :
    c = c' ∧ i = i' := by
  have hno : ∀ {c c' i i' scope scope' shown shown'}, Takes steps m c i scope shown →
      Takes steps m c' i' scope' shown' → ¬ c < c' := by
    intro c c' i i' scope scope' shown shown' h h' hlt
    obtain ⟨e, he, -, -, -, hempty⟩ := h.spent
    have := h'.held c e h.lt hlt he
    rw [hempty] at this
    cases this
  have hc : c = c' := by
    have h₁ := hno h h'
    have h₂ := hno h' h
    omega
  subst hc
  refine ⟨rfl, ?_⟩
  obtain ⟨e, he, haction, -⟩ := h.spent
  obtain ⟨e', he', haction', -⟩ := h'.spent
  rw [he] at he'
  cases he'
  rw [haction, Action.choose.injEq] at haction'
  exact haction'.1

/-- An execution of a query ends a call that took its confirmation, and acts on nothing but what the
dry run showed. -/
theorem exists_confirms (h : Run step (initial db) steps S) {n : ℕ}
    {e : Step (Session ι) (Action ι)} {targets : List Target} (he : steps[n]? = some e)
    (hexec : Executes e i scope targets) : ∃ m c shown, Confirms steps m c n i scope shown ∧
      (e.target.store = e.source.store ∨ ∀ t ∈ targets, t.id ∈ shown) ∧
      Spared e.source.store e.target.store shown := by
  obtain ⟨params, offer, now, haction, hcall, hquery, hpurge⟩ := id hexec
  obtain ⟨c, d, hcn, hd, ⟨hchoice, hreceived, hchooses⟩, -, hlooking⟩ := h.since_start
    (P := fun S => S.calls i = some (.looking params scope.spaces offer))
    (A := fun e => e.action = .choose i (.ok scope.spaces) ∧
      e.source.calls i = some (.received params) ∧
      chooses e.source.pending scope.spaces params = (e.target.pending, .ok offer))
    (fun _ _ _ hs ht => looking_kept hs ht) nofun he hcall
  obtain ⟨shown, hslot, hempty, rfl⟩ := chooses_spends hchooses hquery
  rw [hpurge] at hslot
  obtain ⟨m, htakes⟩ := exists_takes h hd
    ⟨hchoice, ⟨params, hreceived, hquery, hpurge⟩, hslot, hempty⟩
  refine ⟨m, c, shown, ⟨htakes, hcn, ⟨e, targets, he, hexec⟩,
    fun l f hl hln hf => ⟨_, _, _, (hlooking l f hl hln hf).2⟩⟩, ?_⟩
  have hstep := h.step_eq he
  rw [haction] at hstep
  obtain ⟨params', spaces', offer', hcall', hstore, -, -⟩ := step_finish hstep
  rw [hcall] at hcall'
  simp only [Option.some.injEq, Phase.looking.injEq] at hcall'
  obtain ⟨rfl, rfl, rfl⟩ := hcall'
  rw [hstore]
  exact settle_spared e.source.store e.source.pending scope.spaces params none shown targets now

/-- A confirmation goes to one execution. -/
theorem Confirms.unique (hrun : Run step (initial db) steps S) {m c c' n n' : ℕ} {i' : ι}
    {scope' : Scope} {shown' : List ℕ} (h : Confirms steps m c n i scope shown)
    (h' : Confirms steps m c' n' i' scope' shown') : n = n' := by
  obtain ⟨rfl, rfl⟩ := h.takes.unique h'.takes
  have hno : ∀ {n n' scope scope' shown shown'}, Confirms steps m c n i scope shown →
      Confirms steps m c n' i scope' shown' → ¬ n < n' := by
    intro n n' scope scope' shown shown' h h' hlt
    obtain ⟨e, targets, he, params, offer, now, haction, -⟩ := h.executed
    have hstep := hrun.step_eq he
    rw [haction] at hstep
    obtain ⟨_, _, _, -, -, -, hcalls⟩ := step_finish hstep
    obtain ⟨_, _, _, hlooking⟩ := h'.looking n e h.lt hlt he
    rw [hcalls, Function.update_self] at hlooking
    cases hlooking
  have h₁ := hno h h'
  have h₂ := hno h' h
  omega

/-- A call that is to execute a query for which nothing is armed leaves the slot and the store as
they are, and is told to dry-run it first. -/
theorem mismatch_refused {text : Text} (h : step S (.choose i (.ok spaces)) = some T)
    (hcall : S.calls i = some (.received params)) (hexec : Executing params text)
    (hnot : ∀ shown, S.pending ≠ some (⟨text, spaces, params.purge⟩, shown)) :
    T.pending = S.pending ∧ T.store = S.store ∧
      T.calls i = some (.answered (.error (.invalid .unconfirmed))) := by
  obtain ⟨params', hcall', hstore, hpending, hcalls⟩ := step_choose h
  rw [hcall] at hcall'
  cases hcall'
  have hchosen : chooses S.pending spaces params =
      (S.pending, .error (.invalid .unconfirmed)) := by
    rw [chooses_executing hexec]
    rcases confirmed_cases S.pending ⟨text, spaces, params.purge⟩ with ⟨shown, hp, -⟩ | ⟨-, hc⟩
    · exact absurd hp (hnot shown)
    · exact hc
  rw [hchosen] at hpending hcalls
  refine ⟨hpending, hstore, ?_⟩
  rcases hcalls with ⟨e, he, hcalls⟩ | ⟨offer, hoffer, -⟩
  · cases he
    rw [hcalls, Function.update_self]
  · cases hoffer

/-- In every run of the calls of a session, whatever else happens to the store meanwhile: an
execution of a query is confirmed by a dry run of the same scope, acts on nothing that it did not
show and spares every other row; a dry run is taken by one call and confirms one execution; only a
call with the scope that is armed takes it; and one with another scope changes nothing. -/
theorem forget_confirmed (h : Run step (initial db) steps S) :
    (∀ n e i scope targets, steps[n]? = some e → Executes e i scope targets →
      ∃ m c shown, Confirms steps m c n i scope shown ∧
        (e.target.store = e.source.store ∨ ∀ t ∈ targets, t.id ∈ shown) ∧
        Spared e.source.store e.target.store shown) ∧
    (∀ m c c' i i' scope scope' shown shown', Takes steps m c i scope shown →
      Takes steps m c' i' scope' shown' → c = c' ∧ i = i') ∧
    (∀ m c c' n n' i i' scope scope' shown shown', Confirms steps m c n i scope shown →
      Confirms steps m c' n' i' scope' shown' → n = n') ∧
    (∀ (n : ℕ) (e : Step (Session ι) (Action ι)), steps[n]? = some e →
      e.target.pending = e.source.pending ∨
      (∃ i scope shown, Spends e i scope shown) ∨ ∃ scope shown, Arms e scope shown) ∧
    ∀ (n : ℕ) (e : Step (Session ι) (Action ι)) (i : ι) (spaces : List SpaceName)
      (params : ForgetParams) (text : Text), steps[n]? = some e →
      e.action = .choose i (.ok spaces) → e.source.calls i = some (.received params) →
      Executing params text →
      (∀ shown, e.source.pending ≠ some (⟨text, spaces, params.purge⟩, shown)) →
      e.target.pending = e.source.pending ∧ e.target.store = e.source.store ∧
        e.target.calls i = some (.answered (.error (.invalid .unconfirmed))) := by
  refine ⟨fun n e i scope targets he hexec => exists_confirms h he hexec,
    fun m c c' i i' scope scope' shown shown' ht ht' => ht.unique ht',
    fun m c c' n n' i i' scope scope' shown shown' hc hc' => hc.unique h hc',
    fun n e he => slot_events h he, ?_⟩
  intro n e i spaces params text he haction hcall hexec hnot
  have hstep := h.step_eq he
  rw [haction] at hstep
  exact mismatch_refused hstep hcall hexec hnot

/-- A session of a store with one claim: the dry run of a query, and its execution. -/
def noted : Db :=
  match @Store.step plain (Db.empty 0) (remember 20 [Store.claim 'a' [] none]) with
  | some db => db
  | none => Db.empty 0

def notedTargets : List Target := noted.memory.rows.map fun r => .memory r.space r none

def forgetting (dryRun : Bool) : ForgetParams := ⟨[], some ['a'], none, false, dryRun, false⟩

def noteScope : Scope := ⟨['a'], [agmem], false⟩

theorem noted_confirmed : ∃ (steps : List (Step (Session ℕ) (Action ℕ))) (S : Session ℕ),
    Run step (initial noted) steps S ∧ notedTargets ≠ [] ∧ ∃ m c shown,
      Confirms steps m c 5 1 noteScope shown := by
  have hrun : Run step (initial noted)
      [⟨_, .receive 0 (forgetting true), _⟩, ⟨_, .choose 0 (.ok [agmem]), _⟩,
        ⟨_, .finish 0 (.ok notedTargets) fun _ => 30, _⟩, ⟨_, .receive 1 (forgetting false), _⟩,
        ⟨_, .choose 1 (.ok [agmem]), _⟩, ⟨_, .finish 1 (.ok notedTargets) fun _ => 40, _⟩] _ :=
    .cons rfl (.cons rfl (.cons rfl (.cons rfl (.cons rfl (.cons rfl (.nil _))))))
  have hexec : Executing (forgetting false) noteScope.query := ⟨rfl, by decide, rfl⟩
  obtain ⟨m, c, shown, hconfirms, -⟩ := (forget_confirmed hrun).1 5 _ 1 noteScope notedTargets rfl
    ⟨forgetting false, ⟨none, some (notedTargets.map Target.id)⟩, _, rfl, rfl, hexec, rfl⟩
  exact ⟨_, _, hrun, by decide, m, c, shown, hconfirms⟩

/-! ### A call in one piece -/

theorem execute_eq (service : Service) (db : Db) (now : MemoryId → Timestamp) (offer : Offer)
    {targets : List Target}
    (hfound : found service db spaces params = acting db params.purge params.cascade targets) :
    execute db pending spaces params ⟨targets, offer.armable, offer.previewed⟩ now =
      settled db pending spaces params offer now (found service db spaces params) := by
  rw [hfound]
  unfold execute
  cases acting db params.purge params.cascade targets with
  | error e => rfl
  | ok targets => rfl

theorem run_refused {service : Service} {now : MemoryId → Timestamp} {e : ErrorData}
    (hcascade : (params.cascade && !params.purge) = false)
    (hspaces : Tools.spaces service db params.space = .ok spaces)
    (hchosen : chooses pending spaces params = (pending', .error e)) :
    Forget.run service db pending params now = ((db, pending'), .error e) := by
  have hq : (params.query.map trim).filter (fun text => !text.isEmpty) = asked params := rfl
  unfold chooses at hchosen
  unfold Forget.run
  simp only [hcascade, hspaces, select, hq, Bool.false_eq_true, if_false]
  cases hids : params.ids.isEmpty <;> cases hquery : asked params <;>
    simp only [hids, hquery] at hchosen ⊢
  · cases hchosen
  · cases hchosen
    rfl
  · cases hchosen
    rfl
  · unfold confirmed at hchosen
    split_ifs at hchosen ⊢
    · cases hchosen
    · cases hconfirm : confirm pending ⟨_, spaces, params.purge⟩ with
      | mk p r =>
        cases r <;> simp only [hconfirm] at hchosen ⊢ <;> cases hchosen
        rfl

theorem run_chosen {service : Service} {now : MemoryId → Timestamp}
    (hcascade : (params.cascade && !params.purge) = false)
    (hspaces : Tools.spaces service db params.space = .ok spaces)
    (hchosen : chooses pending spaces params = (pending', .ok offer)) :
    Forget.run service db pending params now =
      settled db pending' spaces params offer now (found service db spaces params) := by
  have hq : (params.query.map trim).filter (fun text => !text.isEmpty) = asked params := rfl
  unfold chooses at hchosen
  unfold Forget.run
  simp only [hcascade, hspaces, select, hq, Bool.false_eq_true, if_false]
  cases hids : params.ids.isEmpty <;> cases hquery : asked params <;>
    simp only [hids, hquery] at hchosen ⊢
  · cases hchosen
    cases hby : byIds db spaces params.ids params.purge with
    | error e => simp only [found, hquery, hby, settled]
    | ok targets =>
      have hfound : found service db spaces params =
          acting db params.purge params.cascade targets := by simp only [found, hquery, hby]
      exact execute_eq service db now ⟨none, none⟩ hfound
  · cases hchosen
  · cases hchosen
  · rename_i text
    have hfound : found service db spaces params =
        acting db params.purge params.cascade (byQuery service db spaces text) := by
      simp only [found, hquery]
    split_ifs at hchosen ⊢
    · cases hchosen
      exact execute_eq service db now ⟨some _, none⟩ hfound
    · unfold confirmed at hchosen
      cases hconfirm : confirm pending ⟨_, spaces, params.purge⟩ with
      | mk p r =>
        cases r <;> simp only [hconfirm] at hchosen ⊢ <;> cases hchosen
        exact execute_eq service db now ⟨none, some _⟩ hfound

/-- A call that was received goes on to its end in one or two steps. -/
theorem received_steps (service : Service) (now : MemoryId → Timestamp) {params : ForgetParams}
    (hcall : S.calls i = some (.received params))
    (hcascade : (params.cascade && !params.purge) = false) : ∃ steps T, Run step S steps T ∧
      (T.store, T.pending) = (Forget.run service S.store S.pending params now).1 ∧
      T.calls i = some (.answered (Forget.run service S.store S.pending params now).2) := by
  have hchoose (result) : step S (.choose i result) = some (choose S i params result) := by
    simp only [step, hcall]
  cases hspaces : Tools.spaces service S.store params.space with
  | error e =>
    refine ⟨_, _, .cons (hchoose (.error e)) (.nil _), ?_⟩
    simp [choose, Forget.run, hcascade, hspaces, Session.set]
  | ok spaces =>
    cases hchosen : chooses S.pending spaces params with
    | mk pending result =>
      cases result with
      | error e =>
        refine ⟨_, _, .cons (hchoose (.ok spaces)) (.nil _), ?_⟩
        rw [run_refused hcascade hspaces hchosen]
        simp [choose, hchosen, Session.set]
      | ok offer =>
        obtain ⟨L, hL⟩ : ∃ L, choose S i params (.ok spaces) = L := ⟨_, rfl⟩
        have hlooking : L.calls i = some (.looking params spaces offer) ∧ L.store = S.store ∧
            L.pending = pending := by
          rw [← hL]
          simp [choose, hchosen, Session.set]
        have hfinish : step L (.finish i (found service S.store spaces params) now) =
            some (finish L i params spaces offer now (found service S.store spaces params)) := by
          simp only [step, hlooking.1]
        refine ⟨_, _, .cons (hL ▸ hchoose (.ok spaces)) (.cons hfinish (.nil _)), ?_⟩
        rw [run_chosen hcascade hspaces hchosen]
        simp [finish, hlooking.2.1, hlooking.2.2, Session.set]

/-- A call in one piece is a run of the session: what it does to the slot and to the store, and its
answer, are what a call with the session to itself comes to. -/
theorem run_steps (service : Service) (now : MemoryId → Timestamp) (params : ForgetParams)
    (hfree : S.calls i = none) : ∃ steps T, Run step S steps T ∧
      (T.store, T.pending) = (Forget.run service S.store S.pending params now).1 ∧
      T.calls i = some (.answered (Forget.run service S.store S.pending params now).2) := by
  have hreceive : step S (.receive i params) = some (receive S i params) := by
    simp only [step, hfree]
  cases hcascade : params.cascade && !params.purge with
  | true =>
    refine ⟨_, _, .cons hreceive (.nil _), ?_⟩
    simp only [receive, Forget.run, hcascade, if_true, Session.set, Function.update_self, and_self]
  | false =>
    have hcall : (receive S i params).calls i = some (.received params) := by
      simp [receive, hcascade, Session.set]
    obtain ⟨steps, T, hrun, hstore, hanswer⟩ := received_steps service now hcall hcascade
    exact ⟨_, T, .cons hreceive hrun, hstore, hanswer⟩

end Agmem.Tools.Confirmation
