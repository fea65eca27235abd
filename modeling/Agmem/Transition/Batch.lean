import Mathlib.Data.List.TakeDrop

/-! Scripts of statements that are commits of their own. A statement that fails leaves the state as
it was, the ones after it are run all the same, and the caller is told of the first that failed. A
script whose statements, once run, have nothing left to do may be cut off anywhere and run again
from its start. -/

namespace Agmem.Transition.Batch

variable {σ τ ε : Type*} (run : σ → τ → Except ε σ)

def after (s : σ) (st : τ) : σ :=
  match run s st with
  | .ok t => t
  | .error _ => s

def outcome (s : σ) (st : τ) : Option ε :=
  match run s st with
  | .ok _ => none
  | .error e => some e

/-- The state a script leaves. -/
def finish (s : σ) (script : List τ) : σ := script.foldl (after run) s

/-- The first error of a script. -/
def check (s : σ) : List τ → Option ε
  | [] => none
  | st :: script => (outcome run s st).or (check (after run s st) script)

/-- The states a script passes through, both ends included. -/
def visits (s : σ) : List τ → List σ
  | [] => [s]
  | st :: script => s :: visits (after run s st) script

variable {run} {s t : σ} {st : τ} {script more : List τ}

theorem after_ok (h : run s st = .ok t) : after run s st = t := by simp [after, h]

theorem outcome_ok (h : run s st = .ok t) : outcome run s st = none := by simp [outcome, h]

theorem after_error {e : ε} (h : run s st = .error e) : after run s st = s := by simp [after, h]

theorem outcome_error {e : ε} (h : run s st = .error e) : outcome run s st = some e := by
  simp [outcome, h]

@[simp] theorem finish_nil : finish run s [] = s := rfl

@[simp] theorem finish_cons :
    finish run s (st :: script) = finish run (after run s st) script := rfl

theorem finish_append :
    finish run s (script ++ more) = finish run (finish run s script) more := List.foldl_append

@[simp] theorem check_nil : check run s [] = none := rfl

@[simp] theorem check_cons :
    check run s (st :: script) = (outcome run s st).or (check run (after run s st) script) := rfl

theorem check_append : check run s (script ++ more) =
    (check run s script).or (check run (finish run s script) more) := by
  induction script generalizing s with
  | nil => simp
  | cons st script ih => simp only [List.cons_append, check_cons, finish_cons, ih, Option.or_assoc]

theorem mem_visits : t ∈ visits run s script ↔
    ∃ before left, script = before ++ left ∧ t = finish run s before := by
  induction script generalizing s with
  | nil =>
    simp only [visits, List.mem_singleton]
    constructor
    · intro h
      exact ⟨[], [], rfl, h⟩
    · rintro ⟨before, left, h, rfl⟩
      simp [(List.append_eq_nil_iff.mp h.symm).1]
  | cons st script ih =>
    simp only [visits, List.mem_cons, ih]
    constructor
    · rintro (rfl | ⟨before, left, rfl, rfl⟩)
      · exact ⟨[], st :: script, rfl, rfl⟩
      · exact ⟨st :: before, left, rfl, rfl⟩
    · rintro ⟨before, left, h, rfl⟩
      cases before with
      | nil => exact .inl rfl
      | cons st' before =>
        cases h
        exact .inr ⟨before, left, rfl, rfl⟩

/-- What each statement of a script keeps, the script keeps. -/
theorem finish_induction {P : σ → Prop} (h : ∀ s, ∀ st ∈ script, P s → P (after run s st))
    (h₀ : P s) : P (finish run s script) := by
  induction script generalizing s with
  | nil => exact h₀
  | cons st script ih =>
    exact ih (fun s st' hst' => h s st' (List.mem_cons_of_mem _ hst'))
      (h s st List.mem_cons_self h₀)

/-- What every statement keeps holds between any two of them. -/
theorem visits_induction {P : σ → Prop} (h : ∀ s, ∀ st ∈ script, P s → P (after run s st))
    (h₀ : P s) : ∀ t ∈ visits run s script, P t := by
  intro t ht
  obtain ⟨before, left, rfl, rfl⟩ := mem_visits.mp ht
  exact finish_induction (fun s st hst => h s st (List.mem_append_left _ hst)) h₀

/-- If each statement goes through wherever the ones before it have, the script does. -/
theorem finish_ok {P : σ → Prop} (h : ∀ st ∈ script, ∀ s, P s → ∃ t, run s st = .ok t ∧ P t)
    (h₀ : P s) : check run s script = none ∧ P (finish run s script) := by
  induction script generalizing s with
  | nil => exact ⟨rfl, h₀⟩
  | cons st script ih =>
    obtain ⟨t, hrun, ht⟩ := h st List.mem_cons_self s h₀
    rw [check_cons, finish_cons, after_ok hrun, outcome_ok hrun, Option.none_or]
    exact ih (fun st' hst' => h st' (List.mem_cons_of_mem _ hst')) ht

/-! ### Running again -/

variable (run) in
/-- The statement has nothing left to do here, and is answered like this. -/
def Settled (s : σ) (st : τ) (r : Option ε) : Prop := after run s st = s ∧ outcome run s st = r

variable (run) in
/-- Where the one statement has nothing left to do, it has none after the other either. -/
def Lasts (st st' : τ) : Prop := ∀ s r, Settled run s st r → Settled run (after run s st') st r

variable (run) in
/-- Each statement settles, for as long as the script goes on. -/
structure Rerunnable (script : List τ) : Prop where
  settles : ∀ st ∈ script, ∀ s, Settled run (after run s st) st (outcome run s st)
  lasts : script.Pairwise (Lasts run)

theorem settled_iff {r : Option ε} : Settled run s st r ↔
    (r = none ∧ run s st = .ok s) ∨ ∃ e, r = some e ∧ run s st = .error e := by
  unfold Settled after outcome
  cases run s st with
  | ok t => simp [eq_comm, and_comm]
  | error e => simp [eq_comm]

/-- A statement settles if it succeeds without effect wherever it has succeeded. -/
theorem settles_of_idempotent (h : ∀ s t, run s st = .ok t → run t st = .ok t) (s : σ) :
    Settled run (after run s st) st (outcome run s st) := by
  cases hs : run s st with
  | ok t =>
    rw [after_ok hs, outcome_ok hs]
    exact settled_iff.mpr (.inl ⟨rfl, h s t hs⟩)
  | error e =>
    rw [after_error hs, outcome_error hs]
    exact settled_iff.mpr (.inr ⟨e, rfl, hs⟩)

/-- To last is to go through without effect where it did, and to fail where it did. -/
theorem lasts_of {st' : τ}
    (hok : ∀ s, run s st = .ok s → run (after run s st') st = .ok (after run s st'))
    (herror : ∀ s e, run s st = .error e → run (after run s st') st = .error e) :
    Lasts run st st' := by
  intro s r hs
  obtain ⟨rfl, h⟩ | ⟨e, rfl, h⟩ := settled_iff.mp hs
  · exact settled_iff.mpr (.inl ⟨rfl, hok s h⟩)
  · exact settled_iff.mpr (.inr ⟨e, rfl, herror s e h⟩)

theorem Settled.finish {r : Option ε} (h : Settled run s st r)
    (hl : ∀ st' ∈ script, Lasts run st st') : Settled run (finish run s script) st r := by
  induction script generalizing s with
  | nil => exact h
  | cons st' script ih =>
    exact ih (hl st' List.mem_cons_self s r h) (fun q hq => hl q (List.mem_cons_of_mem _ hq))

theorem Rerunnable.of_append_left (h : Rerunnable run (script ++ more)) : Rerunnable run script :=
  ⟨fun st hst => h.settles st (List.mem_append_left _ hst), (List.pairwise_append.mp h.lasts).1⟩

theorem Rerunnable.of_cons (h : Rerunnable run (st :: script)) : Rerunnable run script :=
  ⟨fun q hq => h.settles q (List.mem_cons_of_mem _ hq), (List.pairwise_cons.mp h.lasts).2⟩

/-- The first statement of a script has nothing left to do at its end. -/
theorem Rerunnable.head (h : Rerunnable run (st :: script)) :
    Settled run (finish run s (st :: script)) st (outcome run s st) :=
  (h.settles st List.mem_cons_self s).finish (List.pairwise_cons.mp h.lasts).1

/-- A script that has just been run has nothing left to do. -/
theorem Rerunnable.again (h : Rerunnable run script) :
    finish run (finish run s script) script = finish run s script ∧
      check run (finish run s script) script = check run s script := by
  induction script generalizing s with
  | nil => exact ⟨rfl, rfl⟩
  | cons st script ih =>
    obtain ⟨hstate, houtcome⟩ := h.head (s := s)
    obtain ⟨hfinish, hcheck⟩ := ih h.of_cons (s := after run s st)
    simp only [finish_cons] at hstate houtcome
    simp only [finish_cons, check_cons, hstate, houtcome, hfinish, hcheck, and_self]

/-- Without an error, none of the statements of a script has anything left to do. -/
theorem Rerunnable.settled (h : Rerunnable run script) (hcheck : check run s script = none) :
    ∀ st ∈ script, Settled run (finish run s script) st none := by
  induction script generalizing s with
  | nil => simp
  | cons st script ih =>
    rw [check_cons, Option.or_eq_none_iff] at hcheck
    have hhead := h.head (s := s)
    rw [hcheck.1] at hhead
    exact List.forall_mem_cons.mpr ⟨hhead, ih h.of_cons hcheck.2⟩

/-- Cut off anywhere and run again from its start, a script ends as if it had not been cut off. -/
theorem Rerunnable.resume (h : Rerunnable run script) (ht : t ∈ visits run s script) :
    finish run t script = finish run s script ∧ check run t script = check run s script := by
  obtain ⟨before, left, rfl, rfl⟩ := mem_visits.mp ht
  obtain ⟨hfinish, hcheck⟩ := (h.of_append_left).again (s := s)
  simp only [finish_append, check_append, hfinish, hcheck, and_self]

/-- A script none of whose statements has anything left to do. -/
theorem finish_of_settled (h : ∀ st ∈ script, Settled run s st none) :
    finish run s script = s ∧ check run s script = none := by
  induction script with
  | nil => exact ⟨rfl, rfl⟩
  | cons st script ih =>
    obtain ⟨hst, hscript⟩ := List.forall_mem_cons.mp h
    simp only [finish_cons, check_cons, hst.1, hst.2, Option.none_or]
    exact ih hscript

end Agmem.Transition.Batch
