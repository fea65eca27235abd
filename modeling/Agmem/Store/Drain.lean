import Mathlib.Data.Prod.Lex
import Agmem.Store.VectorSpace
import Agmem.Store.Reindex
import Agmem.Transition.Loop

/-! The two passes that embed all pending rows. The one behind a server goes on as long as fewer
rows are left, and gives up after some failures in a row; the one that has the store to itself stops
at the first batch that fails or leaves as many. Each ends whatever its batches come to. -/

namespace Agmem.Store.Reindex

open Core Relational Transition

/-! ### The pass behind a server -/

/-- Passages per embed call in the background drain. -/
def DRAIN_BATCH : ℕ := 16

/-- Consecutive failed batches after which the drain stops. -/
def DRAIN_GIVE_UP : ℕ := 5

/-- The drain between two batches; `shown` is the progress that the sessions are told. -/
structure Drain where
  db : Db
  failures : ℕ
  previous : ℕ
  shown : ℕ

inductive Exit where
  | drained
  | gaveUp
deriving DecidableEq

inductive Verdict where
  | progress
  | failed
deriving DecidableEq

def Drain.start (db : Db) (pending : ℕ) : Drain := ⟨db, 0, pending, pending⟩

/-- `failures += 1` -/
def Drain.failed (S : Drain) (db : Db) : Drain := { S with db := db, failures := S.failures + 1 }

/-- `if failures >= DRAIN_GIVE_UP` -/
def Drain.unlessGivenUp (S : Drain) : Drain ⊕ (Exit × Drain) :=
  if DRAIN_GIVE_UP ≤ S.failures then .inr (.gaveUp, S) else .inl S

/-- One turn of the drain. -/
def drainTurn (round : Round) (S : Drain) : Verdict × (Drain ⊕ (Exit × Drain)) :=
  match embedBatch round S.db DRAIN_BATCH with
  | (db, .ok left) =>
    if left < S.previous ∨ left = 0 then
      let S : Drain := ⟨db, 0, left, left⟩
      if left = 0 then (.progress, .inr (.drained, S)) else (.progress, S.unlessGivenUp)
    else (.failed, (S.failed db).unlessGivenUp)
  | (db, .error _) => (.failed, (S.failed db).unlessGivenUp)

/-- What a turn of the drain can come to. -/
theorem drainTurn_cases (round : Round) (S : Drain) :
    (∃ T, drainTurn round S = (.progress, .inr (.drained, T)) ∧ pendingCount T.db = 0) ∨
    (∃ T, drainTurn round S = (.progress, .inl T) ∧ T.failures = 0 ∧ T.previous < S.previous) ∨
    ∃ T, T.failures = S.failures + 1 ∧ T.previous = S.previous ∧
      (T.failures < DRAIN_GIVE_UP ∧ drainTurn round S = (.failed, .inl T) ∨
        DRAIN_GIVE_UP ≤ T.failures ∧ drainTurn round S = (.failed, .inr (.gaveUp, T))) := by
  have hfailed (db : Db) :
      (S.failed db).failures < DRAIN_GIVE_UP ∧ (S.failed db).unlessGivenUp = .inl (S.failed db) ∨
        DRAIN_GIVE_UP ≤ (S.failed db).failures ∧
          (S.failed db).unlessGivenUp = .inr (.gaveUp, S.failed db) := by
    rcases lt_or_ge (S.failed db).failures DRAIN_GIVE_UP with hlt | hge
    · exact .inl ⟨hlt, if_neg hlt.not_ge⟩
    · exact .inr ⟨hge, if_pos hge⟩
  unfold drainTurn
  rcases hbatch : embedBatch round S.db DRAIN_BATCH with ⟨db, error | left⟩
  · dsimp only
    refine .inr (.inr ⟨S.failed db, rfl, rfl, ?_⟩)
    exact (hfailed db).imp (And.imp_right fun h => by rw [h]) (And.imp_right fun h => by rw [h])
  · have hleft := embedBatch_left (by decide) hbatch
    dsimp only
    split_ifs with hprogress hzero
    · exact .inl ⟨_, rfl, hleft.trans hzero⟩
    · exact .inr (.inl ⟨_, rfl, rfl, hprogress.resolve_right hzero⟩)
    · refine .inr (.inr ⟨S.failed db, rfl, rfl, ?_⟩)
      exact (hfailed db).imp (And.imp_right fun h => by rw [h]) (And.imp_right fun h => by rw [h])

/-- Fewer rows are left, or as many and another failure is counted. -/
theorem drain_ends (rounds : ℕ → Round) (S : Drain) :
    ∃ verdicts exit, Loop drainTurn rounds S verdicts exit := by
  refine Loop.ends (fun S : Drain => toLex (S.previous, DRAIN_GIVE_UP - S.failures))
    (fun round S w T h => ?_) rounds S
  rw [Prod.Lex.toLex_lt_toLex]
  rcases drainTurn_cases round S with ⟨T', hturn, -⟩ | ⟨T', hturn, -, hprevious⟩ |
    ⟨T', hfailures, hprevious, ⟨hlt, hturn⟩ | ⟨-, hturn⟩⟩
  · cases hturn.symm.trans h
  · cases hturn.symm.trans h
    exact .inl hprevious
  · cases hturn.symm.trans h
    exact .inr ⟨hprevious, by omega⟩
  · cases hturn.symm.trans h

/-- The drain ends with no row pending, or after as many failures in a row as it allows. -/
theorem drain_exits {rounds : ℕ → Round} {S : Drain} {verdicts : List Verdict} {exit : Exit × Drain}
    (h : Loop drainTurn rounds S verdicts exit) (hS : S.failures < DRAIN_GIVE_UP) :
    exit.1 = .drained ∧ pendingCount exit.2.db = 0 ∨ exit.1 = .gaveUp ∧
      ∃ earlier, List.replicate S.failures .failed ++ verdicts =
        earlier ++ List.replicate DRAIN_GIVE_UP .failed := by
  induction h with
  | @last rounds S verdict exit hturn =>
    rcases drainTurn_cases (rounds 0) S with ⟨T, hturn', hzero⟩ | ⟨T, hturn', -⟩ |
      ⟨T, hfailures, -, ⟨-, hturn'⟩ | ⟨hge, hturn'⟩⟩
    · cases hturn.symm.trans hturn'
      exact .inl ⟨rfl, hzero⟩
    · cases hturn.symm.trans hturn'
    · cases hturn.symm.trans hturn'
    · cases hturn.symm.trans hturn'
      refine .inr ⟨rfl, [], ?_⟩
      rw [← List.replicate_succ', List.nil_append]
      congr 1
      omega
  | @next rounds S T verdict verdicts exit hturn hrest ih =>
    rcases drainTurn_cases (rounds 0) S with ⟨T', hturn', -⟩ | ⟨T', hturn', hfailures, -⟩ |
      ⟨T', hfailures, -, ⟨hlt, hturn'⟩ | ⟨-, hturn'⟩⟩
    · cases hturn.symm.trans hturn'
    · cases hturn.symm.trans hturn'
      rw [hfailures, List.replicate_zero, List.nil_append] at ih
      refine (ih (by decide)).imp_right fun ⟨hgave, earlier, heq⟩ => ⟨hgave, ?_⟩
      refine ⟨List.replicate S.failures .failed ++ .progress :: earlier, ?_⟩
      rw [heq, List.append_assoc, List.cons_append]
    · cases hturn.symm.trans hturn'
      refine (ih hlt).imp_right fun ⟨hgave, earlier, heq⟩ => ⟨hgave, earlier, ?_⟩
      rw [← heq, hfailures, List.replicate_succ', List.append_assoc, List.singleton_append]
    · cases hturn.symm.trans hturn'

/-! ### The offline pass -/

/-- Passages per embed call in the offline pass. -/
def BATCH : ℕ := 128

/-- The rows of a store, and the embedder on record. -/
structure Stored where
  db : Db
  embedder : VectorSpace.Meta

/-- Drop every vector and rebuild both indexes. -/
def resetVectors (db : Db) (dim : ℕ) : Db :=
  { db with
    memory := db.memory.rewrite (fun r => { r with embedding := none }) (fun _ => rfl) fun _ => rfl
    episodeChunk := db.episodeChunk.rewrite (fun c => { c with embedding := none }) (fun _ => rfl)
      fun _ => rfl
    dimension := dim }

/-- The requests before the first batch. -/
inductive Opening where
  | storedEmbedder
  | resetVectors
  | setEmbedder
  | pendingCount
deriving DecidableEq

inductive ExecuteError where
  /-- "--embedder none produces no vectors, so there is no space to reindex into; …" -/
  | dimensionless
  | db (error : EngineError)
  | batch (error : BatchError)
  /-- "a batch left … of … row(s) still pending; refusing to loop" -/
  | unchanged (left remaining : ℕ)

/-- What one run did. -/
structure Report where
  model : Text
  dim : ℕ
  embedded : ℕ
  moved : Bool

/-- The store in the space of the embedder, and whether it was moved there. -/
def settled (e : VectorSpace.Embedder) (refuses : Opening → Option EngineError) (S : Stored) :
    Except ExecuteError (Stored × Bool) :=
  match refuses .storedEmbedder with
  | some error => .error (.db error)
  | none =>
    if S.embedder.stored.any fun stored => stored.matches e then .ok (S, false)
    else
      match refuses .resetVectors, refuses .setEmbedder with
      | some error, _ => .error (.db error)
      | none, some error => .error (.db error)
      | none, none => .ok (⟨resetVectors S.db e.dim, .of e⟩, true)

/-- Where the batches begin, and how many rows are pending there. -/
def opened (e : VectorSpace.Embedder) (refuses : Opening → Option EngineError) (S : Stored) :
    Except ExecuteError (Stored × Bool × ℕ) :=
  if e.dim = 0 then .error .dimensionless
  else
    match settled e refuses S with
    | .error error => .error error
    | .ok (S, moved) =>
      match refuses .pendingCount with
      | some error => .error (.db error)
      | none => .ok (S, moved, pendingCount S.db)

/-- The offline pass between two batches. -/
structure Pass where
  db : Db
  remaining : ℕ
  embedded : ℕ

/-- `while remaining > 0` -/
def executeTurn (round : Round) (P : Pass) : ℕ × (Pass ⊕ Except ExecuteError Pass) :=
  (P.remaining,
    if P.remaining = 0 then .inr (.ok P)
    else
      match embedBatch round P.db BATCH with
      | (_, .error error) => .inr (.error (.batch error))
      | (db, .ok left) =>
        if left < P.remaining then .inl ⟨db, left, P.embedded + (P.remaining - left)⟩
        else .inr (.error (.unchanged left P.remaining)))

/-- What the pass comes to, with the number of pending rows at each of its turns. -/
def Executes (e : VectorSpace.Embedder) (refuses : Opening → Option EngineError)
    (rounds : ℕ → Round) (S : Stored) (remaining : List ℕ)
    (result : Except ExecuteError (Stored × Report)) : Prop :=
  match opened e refuses S with
  | .error error => remaining = [] ∧ result = .error error
  | .ok (S, moved, total) => ∃ last, Loop executeTurn rounds ⟨S.db, total, 0⟩ remaining last ∧
      result = last.map fun P => (⟨P.db, S.embedder⟩, ⟨e.modelId, e.dim, P.embedded, moved⟩)

theorem executeTurn_next {round : Round} {P Q : Pass} {remaining : ℕ}
    (h : executeTurn round P = (remaining, .inl Q)) : Q.remaining < P.remaining ∧
      pendingCount Q.db = Q.remaining ∧ Q.embedded = P.embedded + (P.remaining - Q.remaining) := by
  obtain ⟨-, h⟩ := Prod.mk.inj h
  split_ifs at h
  split at h
  · cases h
  · next hbatch =>
    split_ifs at h with hlt
    cases h
    exact ⟨hlt, embedBatch_left (by decide) hbatch, rfl⟩

theorem executeTurn_last {round : Round} {P : Pass} {remaining : ℕ}
    {result : Except ExecuteError Pass} (h : executeTurn round P = (remaining, .inr result)) :
    (P.remaining = 0 ∧ result = .ok P) ∨ ∃ error, result = .error error := by
  obtain ⟨-, h⟩ := Prod.mk.inj h
  split_ifs at h with hzero
  · cases h
    exact .inl ⟨hzero, rfl⟩
  · split at h
    · cases h
      exact .inr ⟨_, rfl⟩
    · split_ifs at h
      cases h
      exact .inr ⟨_, rfl⟩

theorem execute_ends (e : VectorSpace.Embedder) (refuses : Opening → Option EngineError)
    (rounds : ℕ → Round) (S : Stored) :
    ∃ remaining result, Executes e refuses rounds S remaining result := by
  unfold Executes
  cases opened e refuses S with
  | error error => exact ⟨[], _, rfl, rfl⟩
  | ok found =>
    have hloop : ∃ remaining last,
        Loop executeTurn rounds ⟨found.1.db, found.2.2, 0⟩ remaining last :=
      Loop.ends Pass.remaining (fun _ _ _ _ h => (executeTurn_next h).1) _ _
    obtain ⟨remaining, last, hloop⟩ := hloop
    exact ⟨remaining, _, last, hloop, rfl⟩

theorem opened_count {e : VectorSpace.Embedder} {refuses : Opening → Option EngineError}
    {S T : Stored} {moved : Bool} {total : ℕ} (h : opened e refuses S = .ok (T, moved, total)) :
    total = pendingCount T.db := by
  unfold opened at h
  split_ifs at h
  split at h
  · cases h
  · split at h
    · cases h
    · cases h
      rfl

/-- The pending rows grow fewer with every batch; where the pass succeeds none is left, and as many
were embedded as were pending when the batches began. -/
theorem execute_counts {e : VectorSpace.Embedder} {refuses : Opening → Option EngineError}
    {rounds : ℕ → Round} {S : Stored} {remaining : List ℕ}
    {result : Except ExecuteError (Stored × Report)}
    (h : Executes e refuses rounds S remaining result) :
    remaining.IsChain (· > ·) ∧ ∀ T report, result = .ok (T, report) →
      pendingCount T.db = 0 ∧ ∃ S₀ moved, opened e refuses S = .ok (S₀, moved, report.embedded) ∧
        report.embedded = pendingCount S₀.db := by
  unfold Executes at h
  cases hopened : opened e refuses S with
  | error error =>
    rw [hopened] at h
    obtain ⟨rfl, rfl⟩ := h
    exact ⟨.nil, fun _ _ h => nomatch h⟩
  | ok found =>
    obtain ⟨S₀, moved, total⟩ := found
    rw [hopened] at h
    obtain ⟨last, hloop, rfl⟩ := h
    have htotal := opened_count hopened
    refine ⟨?_, fun T report hresult => ?_⟩
    · exact (hloop.marks_chain (m := Pass.remaining) (R := (· < ·)) (fun _ _ => rfl)
        fun _ _ _ _ h => (executeTurn_next h).1).2
    · -- what was embedded and what is left are the total
      have hkept := hloop.keeps
        (I := fun P => pendingCount P.db = P.remaining ∧ P.embedded + P.remaining = total)
        (P := fun last => ∀ P, last = .ok P → pendingCount P.db = 0 ∧ P.embedded = total)
        (fun round P w Q hturn hP => ?_) (fun round P w result hturn hP Q hQ => ?_)
        ⟨htotal.symm, Nat.zero_add total⟩
      · cases last with
        | error error => cases hresult
        | ok P =>
          cases hresult
          obtain ⟨hzero, hembedded⟩ := hkept P rfl
          exact ⟨hzero, S₀, moved, by rw [hembedded], hembedded.trans htotal⟩
      · obtain ⟨hlt, hcount, hembedded⟩ := executeTurn_next hturn
        exact ⟨hcount, by omega⟩
      · rcases executeTurn_last hturn with ⟨hzero, rfl⟩ | ⟨error, rfl⟩
        · cases hQ
          exact ⟨hP.1.trans hzero, by omega⟩
        · cases hQ

/-- Whatever the model answers, the engine refuses and other writers do, the drain ends, with no row
pending or after failing as often in a row as it allows; and the offline pass ends, has fewer rows
pending at each of its turns, and where it succeeds has left none and reports as many as there were.
What a batch has stored is selected by none after it. -/
theorem reindex_ends :
    (∀ rounds db pending,
      (∃ verdicts exit, Loop drainTurn rounds (.start db pending) verdicts exit) ∧
      ∀ verdicts exit, Loop drainTurn rounds (.start db pending) verdicts exit →
        exit.1 = .drained ∧ pendingCount exit.2.db = 0 ∨ exit.1 = .gaveUp ∧
          ∃ earlier, verdicts = earlier ++ List.replicate DRAIN_GIVE_UP .failed) ∧
    (∀ e refuses rounds S,
      (∃ remaining result, Executes e refuses rounds S remaining result) ∧
      ∀ remaining result, Executes e refuses rounds S remaining result →
        remaining.IsChain (· > ·) ∧ ∀ T report, result = .ok (T, report) →
          pendingCount T.db = 0 ∧ ∃ S₀ moved,
            opened e refuses S = .ok (S₀, moved, report.embedded) ∧
              report.embedded = pendingCount S₀.db) ∧
    (∀ db limit vectors db', writeVectors db (pending db limit) vectors = .ok db' →
      waiting db' = (waiting db).drop limit ∧ pendingCount db' = pendingCount db - limit) := by
  refine ⟨fun rounds db pending => ⟨drain_ends rounds _, fun verdicts exit h => ?_⟩,
    fun e refuses rounds S => ⟨execute_ends e refuses rounds S, fun _ _ h => execute_counts h⟩,
    fun db limit vectors db' h => ?_⟩
  · exact drain_exits h (by decide : (0 : ℕ) < DRAIN_GIVE_UP)
  · have hwaiting := waiting_after_batch h
    exact ⟨hwaiting, by rw [pendingCount_eq, hwaiting, List.length_drop, pendingCount_eq]⟩

/-- With the store to itself and a model that answers, the drain leaves no row pending. -/
theorem drain_quiet {rounds : ℕ → Round} {S : Drain} {verdicts : List Verdict}
    {exit : Exit × Drain} (h : Loop drainTurn rounds S verdicts exit)
    (hquiet : ∀ n, (rounds n).Quiet S.db.dimension) (hS : S.previous = pendingCount S.db) :
    exit.1 = .drained := by
  have hturn (rounds : ℕ → Round) (S : Drain) (hquiet : (rounds 0).Quiet S.db.dimension)
      (hS : S.previous = pendingCount S.db) : ∃ T : Drain, T.db.dimension = S.db.dimension ∧
        T.previous = pendingCount T.db ∧
        (drainTurn (rounds 0) S = (.progress, .inr (.drained, T)) ∨
          drainTurn (rounds 0) S = (.progress, .inl T)) := by
    obtain ⟨db', hbatch, hdim⟩ := embedBatch_quiet hquiet (by decide : 0 < DRAIN_BATCH)
    have hleft := embedBatch_left (by decide) hbatch
    refine ⟨⟨db', 0, pendingCount S.db - DRAIN_BATCH, pendingCount S.db - DRAIN_BATCH⟩, hdim,
      hleft.symm, ?_⟩
    have hprogress : pendingCount S.db - DRAIN_BATCH < S.previous ∨
        pendingCount S.db - DRAIN_BATCH = 0 := by
      unfold DRAIN_BATCH
      omega
    unfold drainTurn
    rw [hbatch]
    dsimp only
    rw [if_pos hprogress]
    split_ifs
    · exact .inl rfl
    · exact .inr rfl
  induction h with
  | @last rounds S verdict exit hlast =>
    obtain ⟨T, -, -, hturn | hturn⟩ := hturn rounds S (hquiet 0) hS
    · cases hlast.symm.trans hturn
      rfl
    · cases hlast.symm.trans hturn
  | @next rounds S T' verdict verdicts exit hnext hrest ih =>
    obtain ⟨T, hdim, hprevious, hturn | hturn⟩ := hturn rounds S (hquiet 0) hS
    · cases hnext.symm.trans hturn
    · cases hnext.symm.trans hturn
      exact ih (fun n => hdim ▸ hquiet (n + 1)) hprevious

end Agmem.Store.Reindex
