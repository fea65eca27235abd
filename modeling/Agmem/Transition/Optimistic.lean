import Agmem.Transition.Run
import Mathlib.Logic.Function.Basic

/-! Callers that share a store. A caller takes a few reads, one at a time, and then runs a
transaction on what it read. The steps of the callers interleave. A transaction runs as one
step on the store as it is, or it is aborted because another one committed since it was
opened; a caller whose attempt fails in a way it takes for a lost race starts over, as long as
it has retries left. -/

namespace Agmem.Transition.Optimistic

variable {ι σ ν ε ρ : Type*}

/-- The reads of a caller fill in a note, and its transaction starts from the note; attempts are
counted from zero. -/
structure Caller (σ ν ε ρ : Type*) where
  start : ν
  reads : List (σ → ν → Except ε ν)
  body : ℕ → ν → σ → Except ε (σ × ρ)
  race : ε → Bool
  retries : ℕ

/-- The reads in order, on one store. -/
def readAll (s : σ) : List (σ → ν → Except ε ν) → ν → Except ε ν
  | [], note => .ok note
  | read :: reads, note =>
    match read s note with
    | .error e => .error e
    | .ok note => readAll s reads note

/-- An attempt in whose middle nothing else happens. -/
def Caller.once (c : Caller σ ν ε ρ) (k : ℕ) (s : σ) : Except ε (σ × ρ) :=
  match readAll s c.reads c.start with
  | .error e => .error e
  | .ok note => c.body k note s

/-- Attempts from number `k` on, `left` of them retries, with the store to itself. -/
def Caller.attempts (c : Caller σ ν ε ρ) (s : σ) : ℕ → ℕ → Except ε (σ × ρ)
  | k, 0 => c.once k s
  | k, left + 1 =>
    match c.once k s with
    | .error e => if c.race e then c.attempts s (k + 1) left else .error e
    | .ok out => .ok out

/-- Where a caller stands. -/
inductive Phase (σ ν ε ρ : Type*) where
  | reading (attempt : ℕ) (left : List (σ → ν → Except ε ν)) (note : ν)
  | opened (attempt : ℕ) (note : ν) (since : ℕ)
  | done (result : Except ε ρ)

structure State (ι σ ν ε ρ : Type*) where
  store : σ
  commits : ℕ
  phase : ι → Phase σ ν ε ρ

/-- The next thing a caller does. -/
inductive Move (ε : Type*) where
  | read
  | begin
  | commit
  | lose (error : ε)

structure Action (ι ε : Type*) where
  caller : ι
  move : Move ε

/-- A failed attempt is the end, or the start of the next. -/
def Caller.failed (c : Caller σ ν ε ρ) (k : ℕ) (e : ε) : Phase σ ν ε ρ :=
  if c.race e = true ∧ k < c.retries then .reading (k + 1) c.reads c.start else .done (.error e)

def initial (c : ι → Caller σ ν ε ρ) (s : σ) : State ι σ ν ε ρ :=
  ⟨s, 0, fun i => .reading 0 (c i).reads (c i).start⟩

variable [DecidableEq ι]

/-- A caller moves on; the store stands. -/
def State.advance (S : State ι σ ν ε ρ) (i : ι) (p : Phase σ ν ε ρ) : State ι σ ν ε ρ :=
  { S with phase := Function.update S.phase i p }

def step (c : ι → Caller σ ν ε ρ) (S : State ι σ ν ε ρ) (a : Action ι ε) :
    Option (State ι σ ν ε ρ) :=
  match a.move, S.phase a.caller with
  | .read, .reading k (read :: left) note =>
    match read S.store note with
    | .error e => some (S.advance a.caller ((c a.caller).failed k e))
    | .ok note => some (S.advance a.caller (.reading k left note))
  | .begin, .reading k [] note => some (S.advance a.caller (.opened k note S.commits))
  | .commit, .opened k note _ =>
    match (c a.caller).body k note S.store with
    | .error e => some (S.advance a.caller ((c a.caller).failed k e))
    | .ok (t, r) => some ⟨t, S.commits + 1, Function.update S.phase a.caller (.done (.ok r))⟩
  | .lose e, .opened k _ since =>
    if (c a.caller).race e = true ∧ since < S.commits then
      some (S.advance a.caller ((c a.caller).failed k e))
    else none
  | _, _ => none

/-! ### What a step can do -/

/-- The ways in which a caller can move. -/
inductive Moves (c : Caller σ ν ε ρ) (S : State ι σ ν ε ρ) (i : ι) : State ι σ ν ε ρ → Prop
  | readOk {k : ℕ} {read : σ → ν → Except ε ν} {left : List (σ → ν → Except ε ν)} {note note' : ν}
      (at_ : S.phase i = .reading k (read :: left) note) (ok : read S.store note = .ok note') :
      Moves c S i (S.advance i (.reading k left note'))
  | readError {k : ℕ} {read : σ → ν → Except ε ν} {left : List (σ → ν → Except ε ν)} {note : ν}
      {e : ε}
      (at_ : S.phase i = .reading k (read :: left) note) (error : read S.store note = .error e) :
      Moves c S i (S.advance i (c.failed k e))
  | opens {k : ℕ} {note : ν} (at_ : S.phase i = .reading k [] note) :
      Moves c S i (S.advance i (.opened k note S.commits))
  | commits {k since : ℕ} {note : ν} {t : σ} {r : ρ} (at_ : S.phase i = .opened k note since)
      (ok : c.body k note S.store = .ok (t, r)) :
      Moves c S i ⟨t, S.commits + 1, Function.update S.phase i (.done (.ok r))⟩
  | bodyError {k since : ℕ} {note : ν} {e : ε} (at_ : S.phase i = .opened k note since)
      (error : c.body k note S.store = .error e) : Moves c S i (S.advance i (c.failed k e))
  | loses {k since : ℕ} {note : ν} {e : ε} (at_ : S.phase i = .opened k note since)
      (race : c.race e = true) (overtaken : since < S.commits) :
      Moves c S i (S.advance i (c.failed k e))

theorem step_moves {c : ι → Caller σ ν ε ρ} {S T : State ι σ ν ε ρ} {a : Action ι ε}
    (h : step c S a = some T) : Moves (c a.caller) S a.caller T := by
  unfold step at h
  split at h
  · next hat =>
    split at h
    · next herr =>
      cases h
      exact .readError hat herr
    · next hok =>
      cases h
      exact .readOk hat hok
  · next hat =>
    cases h
    exact .opens hat
  · next hat =>
    split at h
    · next herr =>
      cases h
      exact .bodyError hat herr
    · next hok =>
      cases h
      exact .commits hat hok
  · next hat =>
    split_ifs at h with hrace
    cases h
    exact .loses hat hrace.1 hrace.2
  · cases h

theorem readAll_append {s : σ} {front back : List (σ → ν → Except ε ν)} {note : ν} :
    readAll s (front ++ back) note = match readAll s front note with
      | .error e => .error e
      | .ok note => readAll s back note := by
  induction front generalizing note with
  | nil => rfl
  | cons read front ih =>
    simp only [List.cons_append, readAll]
    cases read s note with
    | error e => rfl
    | ok note => exact ih

theorem readAll_concat_ok {s : σ} {front : List (σ → ν → Except ε ν)} {read : σ → ν → Except ε ν}
    {start note note' : ν} (h : readAll s front start = .ok note) (hr : read s note = .ok note') :
    readAll s (front ++ [read]) start = .ok note' := by
  simp [readAll_append, h, readAll, hr]

theorem readAll_error {s : σ} {front left : List (σ → ν → Except ε ν)} {read : σ → ν → Except ε ν}
    {start note : ν} {e : ε} (h : readAll s front start = .ok note)
    (hr : read s note = .error e) : readAll s (front ++ read :: left) start = .error e := by
  simp [readAll_append, h, readAll, hr]

/-! ### Callers whose reads do not depend on the store

Their commits are attempts on the store as it is, so the store is what a serial run of attempts
makes of it. -/

section Blind

/-- The reads are answered alike on every store. -/
def Blind (c : Caller σ ν ε ρ) : Prop :=
  ∀ read ∈ c.reads, ∀ s t note, read s note = read t note

theorem readAll_congr {reads : List (σ → ν → Except ε ν)}
    (h : ∀ read ∈ reads, ∀ s t note, read s note = read t note) (s t : σ) (note : ν) :
    readAll s reads note = readAll t reads note := by
  induction reads generalizing note with
  | nil => rfl
  | cons read reads ih =>
    obtain ⟨hread, hreads⟩ := List.forall_mem_cons.mp h
    simp only [readAll, hread s t note]
    cases read t note with
    | error e => rfl
    | ok note => exact ih hreads note

/-- The note of a caller is what the reads behind it give. -/
def Noted (c : Caller σ ν ε ρ) (s : σ) : Phase σ ν ε ρ → Prop
  | .reading _ left note => ∃ front, c.reads = front ++ left ∧ readAll s front c.start = .ok note
  | .opened _ note _ => readAll s c.reads c.start = .ok note
  | .done _ => True

theorem noted_failed (c : Caller σ ν ε ρ) (s : σ) (k : ℕ) (e : ε) : Noted c s (c.failed k e) := by
  unfold Caller.failed
  split_ifs
  · exact ⟨[], rfl, rfl⟩
  · trivial

omit [DecidableEq ι] in
theorem noted_initial (c : ι → Caller σ ν ε ρ) (s : σ) (i : ι) :
    Noted (c i) (initial c s).store ((initial c s).phase i) := ⟨[], rfl, rfl⟩

theorem Noted.congr {c : Caller σ ν ε ρ} (hb : Blind c) {s : σ} {p : Phase σ ν ε ρ}
    (h : Noted c s p) (t : σ) : Noted c t p := by
  cases p with
  | reading k left note =>
    obtain ⟨front, hreads, hnote⟩ := h
    refine ⟨front, hreads, ?_⟩
    rwa [readAll_congr (fun read hread => hb read (hreads ▸ List.mem_append_left _ hread)) t s]
  | opened k note since =>
    change readAll t c.reads c.start = .ok note
    rwa [readAll_congr hb t s]
  | done r => trivial

variable {c : ι → Caller σ ν ε ρ} {S T : State ι σ ν ε ρ} {a : Action ι ε}

omit [DecidableEq ι] in
/-- A step that reaches the store is an attempt on it. -/
theorem once_of_commit {i : ι} {k since : ℕ} {note : ν} (hn : Noted (c i) S.store (S.phase i))
    (hat : S.phase i = .opened k note since) :
    (c i).once k S.store = (c i).body k note S.store := by
  rw [hat] at hn
  simp only [Caller.once, show readAll S.store (c i).reads (c i).start = .ok note from hn]

theorem noted_moves (hb : ∀ i, Blind (c i)) {i : ι} (h : Moves (c i) S i T)
    (hn : ∀ j, Noted (c j) S.store (S.phase j)) (j : ι) : Noted (c j) T.store (T.phase j) := by
  have hadvance {p : Phase σ ν ε ρ} (hp : Noted (c i) S.store p) :
      Noted (c j) S.store ((S.advance i p).phase j) := by
    by_cases hj : j = i
    · subst hj
      simpa [State.advance] using hp
    · simpa [State.advance, Function.update_of_ne hj] using hn j
  cases h with
  | @readOk k read left note note' hat hok =>
    have hi := hn i
    rw [hat] at hi
    obtain ⟨front, hreads, hnote⟩ := hi
    exact hadvance ⟨front ++ [read], by simp [hreads], readAll_concat_ok hnote hok⟩
  | readError hat herr => exact hadvance (noted_failed _ _ _ _)
  | opens hat =>
    have hi := hn i
    rw [hat] at hi
    obtain ⟨front, hreads, hnote⟩ := hi
    rw [List.append_nil] at hreads
    exact hadvance (show readAll S.store (c i).reads (c i).start = _ from hreads ▸ hnote)
  | @commits k since note t r hat hok =>
    refine Noted.congr (hb j) (s := S.store) ?_ t
    by_cases hj : j = i
    · subst hj
      simp only [Function.update_self]
      trivial
    · simpa only [Function.update_of_ne hj] using hn j
  | bodyError hat herr => exact hadvance (noted_failed _ _ _ _)
  | loses hat hrace hover => exact hadvance (noted_failed _ _ _ _)

theorem failed_ne_ok (c : Caller σ ν ε ρ) (k : ℕ) (e : ε) (r : ρ) :
    c.failed k e ≠ .done (.ok r) := by
  unfold Caller.failed
  split_ifs <;> simp

/-- What is kept by every attempt that goes through, and told to its caller, holds of the store
and of every caller that is done. -/
theorem blind_step {I : σ → Prop} {P : ι → ρ → σ → Prop} (hb : ∀ i, Blind (c i))
    (hI : ∀ i k s t r, (c i).once k s = .ok (t, r) → I s →
      I t ∧ P i r t ∧ ∀ j q, P j q s → P j q t)
    (h : step c S a = some T) (hi : I S.store) (hn : ∀ i, Noted (c i) S.store (S.phase i))
    (hp : ∀ i r, S.phase i = .done (.ok r) → P i r S.store) :
    I T.store ∧ (∀ i, Noted (c i) T.store (T.phase i)) ∧
      ∀ i r, T.phase i = .done (.ok r) → P i r T.store := by
  have hmoves := step_moves h
  have hadvance {p : Phase σ ν ε ρ} (hne : ∀ r, p ≠ .done (.ok r)) :
      ∀ i r, (S.advance a.caller p).phase i = .done (.ok r) → P i r S.store := by
    intro i r hat
    by_cases hia : i = a.caller
    · subst hia
      exact absurd (by simpa [State.advance] using hat) (hne r)
    · exact hp i r (by simpa [State.advance, Function.update_of_ne hia] using hat)
  refine ⟨?_, noted_moves hb hmoves hn, ?_⟩
  · cases hmoves with
    | commits hat hok => exact (hI _ _ _ _ _ ((once_of_commit (hn _) hat).trans hok) hi).1
    | _ => exact hi
  · cases hmoves with
    | readOk hat hok => exact hadvance (by simp)
    | readError hat herr => exact hadvance (failed_ne_ok _ _ _)
    | opens hat => exact hadvance (by simp)
    | @commits k since note t r hat hok =>
      obtain ⟨-, hnew, hold⟩ := hI _ _ _ _ _ ((once_of_commit (hn _) hat).trans hok) hi
      intro i q hq
      by_cases hia : i = a.caller
      · subst hia
        simp only [Function.update_self, Phase.done.injEq, Except.ok.injEq] at hq
        exact hq ▸ hnew
      · exact hold i q (hp i q (by simpa only [Function.update_of_ne hia] using hq))
    | bodyError hat herr => exact hadvance (failed_ne_ok _ _ _)
    | loses hat hrace hover => exact hadvance (failed_ne_ok _ _ _)

variable {s : σ} {steps : List (Step (State ι σ ν ε ρ) (Action ι ε))}

theorem blind_invariant {I : σ → Prop} {P : ι → ρ → σ → Prop} (hb : ∀ i, Blind (c i))
    (hI : ∀ i k s t r, (c i).once k s = .ok (t, r) → I s →
      I t ∧ P i r t ∧ ∀ j q, P j q s → P j q t)
    (h : Run (step c) (initial c s) steps S) (h₀ : I s) :
    I S.store ∧ ∀ i r, S.phase i = .done (.ok r) → P i r S.store := by
  have hrun := h.invariant (Q := fun _ => True)
    (I := fun S => I S.store ∧ (∀ i, Noted (c i) S.store (S.phase i)) ∧
      ∀ i r, S.phase i = .done (.ok r) → P i r S.store)
    (fun S a T hs _ hg => blind_step hb hI hs hg.1 hg.2.1 hg.2.2) (fun _ _ => trivial)
    ⟨h₀, noted_initial c s, fun i r hat => by cases hat⟩
  exact ⟨hrun.1.1, hrun.1.2.2⟩

omit [DecidableEq ι] in
/-- An attempt is aborted that may not be retried. -/
def LastLoss (c : ι → Caller σ ν ε ρ) (e : Step (State ι σ ν ε ρ) (Action ι ε)) : Prop :=
  ∃ k note since error, e.source.phase e.action.caller = .opened k note since ∧
    e.action.move = .lose error ∧ (c e.action.caller).retries ≤ k

omit [DecidableEq ι] in
/-- A step at which a caller is turned away, where its attempts go through just on the stores that
`F` admits. -/
def TurnsAway (c : ι → Caller σ ν ε ρ) (F : ι → σ → Prop)
    (e : Step (State ι σ ν ε ρ) (Action ι ε)) : Prop :=
  LastLoss c e ∨ e.action.move = .commit ∧ ¬ F e.action.caller e.source.store

omit [DecidableEq ι] in
/-- No caller was sent away with an error. -/
def Served (S : State ι σ ν ε ρ) : Prop := ∀ i e, S.phase i ≠ .done (.error e)

omit [DecidableEq ι] in
/-- The attempts of a caller depend on the store as `F` says, and one that is refused is not
retried. -/
structure Decided (c : Caller σ ν ε ρ) (F : σ → Prop) (s : σ) : Prop where
  reads : ∀ read ∈ c.reads, ∀ note, ∃ note', read s note = .ok note'
  ok : F s → ∀ k, ∃ out, c.once k s = .ok out
  error : ¬ F s → ∀ k, ∃ e, c.once k s = .error e ∧ c.race e = false

omit [DecidableEq ι] in
theorem Decided.of_error {c : Caller σ ν ε ρ} {F : σ → Prop} {s : σ} (hd : Decided c F s) {k : ℕ}
    {e : ε} (h : c.once k s = .error e) : ¬ F s ∧ c.race e = false := by
  have hno : ¬ F s := by
    intro hF
    obtain ⟨out, hout⟩ := hd.ok hF k
    rw [h] at hout
    cases hout
  obtain ⟨e', he', hrace⟩ := hd.error hno k
  rw [h] at he'
  cases he'
  exact ⟨hno, hrace⟩

omit [DecidableEq ι] in
theorem Decided.of_ok {c : Caller σ ν ε ρ} {F : σ → Prop} {s : σ} (hd : Decided c F s) {k : ℕ}
    {out : σ × ρ} (h : c.once k s = .ok out) : F s := by
  by_contra hno
  obtain ⟨e, he, -⟩ := hd.error hno k
  rw [h] at he
  cases he

/-- A caller that has not come to an end moves on: the others are served as before. -/
theorem served_update {i : ι} (hopen : ∀ r, S.phase i ≠ .done r) (p : Phase σ ν ε ρ) :
    (∀ j e, Function.update S.phase i p j ≠ .done (.error e)) ↔
      Served S ∧ ∀ e, p ≠ .done (.error e) := by
  constructor
  · intro hs
    refine ⟨fun j e => ?_, fun e => by simpa using hs i e⟩
    by_cases hji : j = i
    · exact hji ▸ hopen _
    · simpa only [Function.update_of_ne hji] using hs j e
  · rintro ⟨hs, hp⟩ j e
    by_cases hji : j = i
    · subst hji
      simpa using hp e
    · simpa only [Function.update_of_ne hji] using hs j e

section Turning

variable {F : ι → σ → Prop}

omit [DecidableEq ι] in
theorem not_turnsAway (hlose : ∀ e, a.move ≠ .lose e) (hcommit : a.move ≠ .commit) :
    ¬ TurnsAway c F ⟨S, a, T⟩ := by
  rintro (⟨_, _, _, e, _, hmove, _⟩ | ⟨hmove, -⟩)
  · exact hlose e hmove
  · exact hcommit hmove

omit [DecidableEq ι] in
theorem turnsAway_commit (h : a.move = .commit) :
    TurnsAway c F ⟨S, a, T⟩ ↔ ¬ F a.caller S.store := by
  constructor
  · rintro (⟨_, _, _, e, _, hmove, _⟩ | ⟨-, hno⟩)
    · rw [h] at hmove
      cases hmove
    · exact hno
  · exact fun hno => .inr ⟨h, hno⟩

omit [DecidableEq ι] in
theorem turnsAway_lose {e : ε} {k since : ℕ} {note : ν} (h : a.move = .lose e)
    (hat : S.phase a.caller = .opened k note since) :
    TurnsAway c F ⟨S, a, T⟩ ↔ (c a.caller).retries ≤ k := by
  constructor
  · rintro (⟨k', note', since', e', hat', -, hk⟩ | ⟨hcommit, -⟩)
    · rw [hat] at hat'
      cases hat'
      exact hk
    · rw [h] at hcommit
      cases hcommit
  · exact fun hk => .inl ⟨k, note, since, e, hat, h, hk⟩

end Turning

/-- A caller is turned away by the abort of its last attempt, or by a store that does not admit
it. -/
theorem served_step {F : ι → σ → Prop} (hd : ∀ i, Decided (c i) (F i) S.store)
    (h : step c S a = some T) (hn : ∀ i, Noted (c i) S.store (S.phase i)) :
    Served T ↔ Served S ∧ ¬ TurnsAway c F ⟨S, a, T⟩ := by
  unfold step at h
  split at h
  · next k read left note hmove hat =>
    have hi := hn a.caller
    rw [hat] at hi
    obtain ⟨front, hreads, -⟩ := hi
    obtain ⟨note', hok⟩ := (hd a.caller).reads read (by simp [hreads]) note
    rw [hok] at h
    cases h
    rw [and_iff_left (not_turnsAway (by simp [hmove]) (by simp [hmove]))]
    exact (served_update (by simp [hat]) _).trans (by simp)
  · next k note hmove hat =>
    cases h
    rw [and_iff_left (not_turnsAway (by simp [hmove]) (by simp [hmove]))]
    exact (served_update (by simp [hat]) _).trans (by simp)
  · next k note since hmove hat =>
    have honce := once_of_commit (hn _) hat
    rw [turnsAway_commit hmove, not_not]
    split at h
    · next e herr =>
      cases h
      obtain ⟨hno, hrace⟩ := (hd a.caller).of_error (honce.trans herr)
      simp only [hno, and_false, iff_false]
      refine fun hs => ((served_update (by simp [hat]) _).mp hs).2 e ?_
      simp [Caller.failed, hrace]
    · next t r hok =>
      cases h
      rw [and_iff_left ((hd a.caller).of_ok (honce.trans hok))]
      exact (served_update (by simp [hat]) _).trans (by simp)
  · next e k note since hmove hat =>
    split_ifs at h with hrace
    cases h
    rw [turnsAway_lose hmove hat]
    refine (served_update (by simp [hat]) _).trans (and_congr_right fun _ => ?_)
    unfold Caller.failed
    by_cases hk : k < (c a.caller).retries
    · simp [hrace.1, hk]
    · simp [hk]
  · cases h

/-- Everyone is served exactly when no step turns a caller away. -/
theorem served_iff {I : σ → Prop} {F : ι → σ → Prop} (hb : ∀ i, Blind (c i))
    (hI : ∀ i k s t r, (c i).once k s = .ok (t, r) → I s → I t)
    (hd : ∀ i s, I s → Decided (c i) (F i) s) (h : Run (step c) (initial c s) steps S)
    (h₀ : I s) : Served S ↔ ∀ e ∈ steps, ¬ TurnsAway c F e := by
  have hiff := h.iff_forall (P := Served) (K := fun _ => True) (Q := fun e => ¬ TurnsAway c F e)
    (I := fun S => I S.store ∧ ∀ i, Noted (c i) S.store (S.phase i))
    (fun S a T hs _ hg => by
      obtain ⟨hi, hn, -⟩ := blind_step (P := fun _ _ _ => True) hb
        (fun i k s t r hok hi => ⟨hI i k s t r hok hi, trivial, fun _ _ _ => trivial⟩) hs hg.1 hg.2
        fun _ _ _ => trivial
      exact ⟨hi, hn⟩)
    (fun S a T hs _ hg => served_step (fun i => hd i _ hg.1) hs hg.2) (fun _ _ => trivial)
    ⟨h₀, noted_initial c s⟩
  rw [hiff]
  exact and_iff_right fun i e hat => by cases hat

end Blind

end Agmem.Transition.Optimistic
