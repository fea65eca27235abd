import Agmem.Transition.Batch

/-! A state that is brought up to date in batches. A version says how many of them have been run,
and is written after each, in a statement of its own; a bootstrap is run every time, so that there
is a version to read. If every batch may be cut off and run again, so may the whole. -/

namespace Agmem.Transition.Versioned

open Batch

variable {σ τ ε : Type*}

structure Ladder (σ τ ε : Type*) where
  run : σ → τ → Except ε σ
  version : σ → ℕ
  bootstrap : List τ
  batches : List (List τ)
  /-- The write of a version. -/
  bump : ℕ → τ
  /-- A version beyond the last batch. -/
  tooNew : ℕ → ε

namespace Ladder

/-- The pending batches, each followed by the write of the version it makes. -/
def climb (L : Ladder σ τ ε) (s : σ) (version : ℕ) : List (List τ) → σ × Except ε ℕ
  | [] => (s, .ok version)
  | batch :: rest =>
    match check L.run s batch with
    | some e => (finish L.run s batch, .error e)
    | none =>
      match L.run (finish L.run s batch) (L.bump (version + 1)) with
      | .error e => (finish L.run s batch, .error e)
      | .ok t => L.climb t (version + 1) rest

def ensure (L : Ladder σ τ ε) (s : σ) : σ × Except ε ℕ :=
  let t := finish L.run s L.bootstrap
  match check L.run s L.bootstrap with
  | some e => (t, .error e)
  | none =>
    if L.batches.length < L.version t then (t, .error (L.tooNew (L.version t)))
    else L.climb t (L.version t) (L.batches.drop (L.version t))

/-- The states between the statements of `climb`. -/
def climbPoints (L : Ladder σ τ ε) (s : σ) (version : ℕ) : List (List τ) → List σ
  | [] => [s]
  | batch :: rest => visits L.run s batch ++
    match check L.run s batch with
    | some _ => []
    | none =>
      match L.run (finish L.run s batch) (L.bump (version + 1)) with
      | .error _ => []
      | .ok t => L.climbPoints t (version + 1) rest

/-- The states between the statements of `ensure`, the first and the last included. -/
def points (L : Ladder σ τ ε) (s : σ) : List σ :=
  let t := finish L.run s L.bootstrap
  visits L.run s L.bootstrap ++
    match check L.run s L.bootstrap with
    | some _ => []
    | none =>
      if L.batches.length < L.version t then []
      else L.climbPoints t (L.version t) (L.batches.drop (L.version t))

/-- What a ladder has to satisfy to be climbed again: its scripts may be run again, what the
bootstrap did lasts, and only the write of a version changes it. -/
structure Lawful (L : Ladder σ τ ε) : Prop where
  bootstrap : Rerunnable L.run L.bootstrap
  batches : ∀ batch ∈ L.batches, Rerunnable L.run batch
  lasts : ∀ st ∈ L.bootstrap, ∀ batch ∈ L.batches, ∀ st' ∈ batch, Lasts L.run st st'
  lasts_bump : ∀ st ∈ L.bootstrap, ∀ n, Lasts L.run st (L.bump n)
  version_batches : ∀ batch ∈ L.batches, ∀ st ∈ batch, ∀ s,
    L.version (after L.run s st) = L.version s
  version_bump : ∀ n s t, L.run s (L.bump n) = .ok t → L.version t = n

variable {L : Ladder σ τ ε} {s t : σ}

/-- The bootstrap has nothing left to do. -/
def Booted (L : Ladder σ τ ε) (s : σ) : Prop := ∀ st ∈ L.bootstrap, Settled L.run s st none

theorem Lawful.booted_finish (hL : L.Lawful) (before left : List τ)
    (hbatch : before ++ left ∈ L.batches) (hs : L.Booted s) :
    L.Booted (finish L.run s before) ∧ L.version (finish L.run s before) = L.version s := by
  constructor
  · intro st hst
    exact (hs st hst).finish fun st' hst' =>
      hL.lasts st hst _ hbatch st' (List.mem_append_left _ hst')
  · exact finish_induction (P := fun t => L.version t = L.version s)
      (fun t st hst ht => (hL.version_batches _ hbatch st (List.mem_append_left _ hst) t).trans ht)
      rfl

/-- The batch that is next where some are left. -/
theorem next_batch {batch : List τ} {rest : List (List τ)} {v : ℕ}
    (h : batch :: rest = L.batches.drop v) :
    ∃ hlt : v < L.batches.length, batch = L.batches[v] ∧ rest = L.batches.drop (v + 1) := by
  have hlt : v < L.batches.length := by
    by_contra hge
    rw [List.drop_eq_nil_of_le (by omega)] at h
    cases h
  rw [List.drop_eq_getElem_cons hlt, List.cons.injEq] at h
  exact ⟨hlt, h⟩

theorem Lawful.booted_bump (hL : L.Lawful) {n : ℕ} (h : L.run s (L.bump n) = .ok t)
    (hs : L.Booted s) : L.Booted t := by
  intro st hst
  rw [← after_ok h]
  exact hL.lasts_bump st hst n s none (hs st hst)

/-- Left anywhere on its way up, the climb goes on from the batch it was in. -/
theorem Lawful.climb_resume (hL : L.Lawful) : ∀ (rest : List (List τ)) (s : σ) (v : ℕ),
    rest = L.batches.drop v → v ≤ L.batches.length → L.version s = v → L.Booted s →
    t ∈ L.climbPoints s v rest → L.Booted t ∧ L.version t ≤ L.batches.length ∧
      L.climb t (L.version t) (L.batches.drop (L.version t)) = L.climb s v rest
  | [], s, v, hrest, hv, hs, hboot, ht => by
    obtain rfl := List.mem_singleton.mp ht
    rw [hs, ← hrest]
    exact ⟨hboot, hv, rfl⟩
  | batch :: rest, s, v, hrest, hv, hs, hboot, ht => by
    obtain ⟨hlt, hbatch, hnext⟩ := next_batch hrest
    have hmem : batch ∈ L.batches := hbatch ▸ List.getElem_mem hlt
    obtain ht | ht := List.mem_append.mp ht
    · -- within the batch, which is run again from its start
      obtain ⟨hfinish, hcheck⟩ := (hL.batches batch hmem).resume ht
      obtain ⟨before, left, rfl, rfl⟩ := mem_visits.mp ht
      obtain ⟨hboot', hversion⟩ := hL.booted_finish before left hmem hboot
      refine ⟨hboot', by omega, ?_⟩
      rw [hversion, hs, ← hrest]
      simp only [climb, hfinish, hcheck]
    · split at ht
      · cases ht
      · next hcheck =>
        split at ht
        · cases ht
        · next u hu =>
          obtain ⟨hboot', -⟩ := hL.booted_finish batch [] (by rwa [List.append_nil]) hboot
          have hrec := hL.climb_resume rest u (v + 1) hnext hlt
            (hL.version_bump _ _ _ hu) (hL.booted_bump hu hboot') ht
          simpa only [climb, hcheck, hu] using hrec

/-- Cut off anywhere and started again, the whole ends as if it had not been cut off. -/
theorem Lawful.ensure_resume (hL : L.Lawful) (ht : t ∈ L.points s) : L.ensure t = L.ensure s := by
  obtain ht | ht := List.mem_append.mp ht
  · obtain ⟨hfinish, hcheck⟩ := hL.bootstrap.resume ht
    simp only [ensure, hfinish, hcheck]
  · split at ht
    · cases ht
    · next hcheck =>
      split_ifs at ht with hnew
      · cases ht
      · obtain ⟨hboot, hversion, hclimb⟩ := hL.climb_resume _ _ _ rfl (Nat.not_lt.mp hnew) rfl
          (hL.bootstrap.settled hcheck) ht
        obtain ⟨hfinish, hcheck'⟩ := finish_of_settled hboot
        simp only [ensure, hfinish, hcheck', hcheck, if_neg hnew, if_neg (Nat.not_lt.mpr hversion),
          hclimb]

section Induction

variable {P : σ → Prop}
  (hbatch : ∀ batch ∈ L.batches, ∀ st ∈ batch, ∀ s, P s → P (after L.run s st))
  (hbump : ∀ n s t, L.run s (L.bump n) = .ok t → P s → P t)
include hbatch hbump

theorem climb_induction : ∀ (rest : List (List τ)) (s : σ) (v : ℕ),
    (∀ batch ∈ rest, batch ∈ L.batches) → P s →
    P (L.climb s v rest).1 ∧ ∀ t ∈ L.climbPoints s v rest, P t
  | [], s, v, _, hs => ⟨hs, fun t ht => List.mem_singleton.mp ht ▸ hs⟩
  | batch :: rest, s, v, hrest, hs => by
    obtain ⟨hmem, hrest⟩ := List.forall_mem_cons.mp hrest
    have hvisits : ∀ t ∈ visits L.run s batch, P t :=
      visits_induction (fun t st hst => hbatch _ hmem st hst t) hs
    have hfinish : P (finish L.run s batch) :=
      finish_induction (fun t st hst => hbatch _ hmem st hst t) hs
    simp only [climb, climbPoints, List.mem_append]
    split
    · exact ⟨hfinish, fun t ht => hvisits t (by simpa using ht)⟩
    · split
      · exact ⟨hfinish, fun t ht => hvisits t (by simpa using ht)⟩
      · next u hu =>
        obtain ⟨hend, hpoints⟩ := climb_induction rest u (v + 1) hrest (hbump _ _ _ hu hfinish)
        refine ⟨hend, fun t ht => ?_⟩
        obtain ht | ht := ht
        · exact hvisits t ht
        · exact hpoints t ht

/-- What every statement keeps holds between any two of them, and at the end. -/
theorem points_induction (hboot : ∀ st ∈ L.bootstrap, ∀ s, P s → P (after L.run s st)) (hs : P s) :
    P (L.ensure s).1 ∧ ∀ t ∈ L.points s, P t := by
  have hvisits : ∀ t ∈ visits L.run s L.bootstrap, P t :=
    visits_induction (fun t st hst => hboot st hst t) hs
  have hfinish : P (finish L.run s L.bootstrap) :=
    finish_induction (fun t st hst => hboot st hst t) hs
  obtain ⟨hend, hpoints⟩ := climb_induction hbatch hbump
    (L.batches.drop (L.version (finish L.run s L.bootstrap))) (finish L.run s L.bootstrap)
    (L.version (finish L.run s L.bootstrap)) (fun _ h => List.mem_of_mem_drop h) hfinish
  simp only [ensure, points, List.mem_append]
  split
  · exact ⟨hfinish, fun t ht => hvisits t (by simpa using ht)⟩
  · split_ifs
    · exact ⟨hfinish, fun t ht => hvisits t (by simpa using ht)⟩
    · refine ⟨hend, fun t ht => ?_⟩
      obtain ht | ht := ht
      · exact hvisits t ht
      · exact hpoints t ht

end Induction

/-- If each batch goes through where the ones before it have, the climb reaches the last version. -/
theorem climb_ok {P : ℕ → σ → Prop}
    (hstep : ∀ v, (hv : v < L.batches.length) → ∀ s, P v s →
      check L.run s L.batches[v] = none ∧ ∃ t,
        L.run (finish L.run s L.batches[v]) (L.bump (v + 1)) = .ok t ∧ P (v + 1) t) :
    ∀ (rest : List (List τ)) (s : σ) (v : ℕ), rest = L.batches.drop v → v ≤ L.batches.length →
      P v s → ∃ t, L.climb s v rest = (t, .ok L.batches.length) ∧ P L.batches.length t
  | [], s, v, hrest, hv, hs => by
    have hlen := List.drop_eq_nil_iff.mp hrest.symm
    obtain rfl : v = L.batches.length := by omega
    exact ⟨s, rfl, hs⟩
  | batch :: rest, s, v, hrest, hv, hs => by
    obtain ⟨hlt, hbatch, hrest⟩ := next_batch hrest
    obtain ⟨hcheck, t, ht, hready⟩ := hstep v hlt s hs
    rw [← hbatch] at hcheck ht
    simp only [climb, hcheck, ht]
    exact climb_ok hstep rest t (v + 1) hrest hlt hready

end Ladder

end Agmem.Transition.Versioned
