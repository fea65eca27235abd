import Agmem.Daemon.Retirement

/-! What a client hears that is of the daemon's release and configuration. Its handshake is answered
"ok" or "retiring" whenever it is answered. It is not where the listener is dropped, or what is left
of the daemon cut off, while the client waits for the loop to accept it or for its task to answer;
and nowhere else. -/

namespace Agmem.Daemon.Serve

open Core Transition

variable {ι : Type*} [DecidableEq ι] {V : Type} [LinearOrder V] {parse : Text → Option V}
  {own : Handshake} {idleTimeout : ℕ} {line : ι → Line} {S T : State ι} {a : Action ι}

/-- A client that asks for what the daemon serves, and is still there. -/
def Patient (own : Handshake) (line : ι → Line) (S : State ι) (c : ι) : Prop :=
  line c = .asks own ∧ S.gone c = false

/-- Every such client whose connection has ended, or that has heard, is attached or tries again. -/
def Answering (own : Handshake) (line : ι → Line) (S : State ι) : Prop :=
  ∀ c, Patient own line S c → S.closed c = true ∨ S.heard c ≠ none →
    ∃ attached, attachOnce (S.heard c) = .ok attached

/-- A client waits for the loop to accept it, or for its task to answer. -/
def Waits (S : State ι) (c : ι) : Prop :=
  c ∈ S.backlog ∨ S.task c = some .reading ∨ ∃ decision, S.task c = some (.decided decision)

/-- Nobody waits where the daemon cuts off what is left, and nobody waits to be accepted where a
retirement drops the listener. -/
def Attended (own : Handshake) (line : ι → Line) (e : Step (State ι) (Action ι)) : Prop :=
  ∀ c, Patient own line e.source c →
    (e.action = .exit ∨ e.action = .acceptFails → ¬ Waits e.source c) ∧
    ∀ d, e.action = .join d → e.source.task d = some (.ended .retiring) →
      e.source.draining = false → c ∉ e.source.backlog

/-! ### The answer itself -/

/-- Whatever the daemon decides on for such a client, it may attach or try again. -/
structure Willing (own : Handshake) (line : ι → Line) (S : State ι) : Prop where
  decided : ∀ c decision, line c = .asks own → S.task c = some (.decided decision) →
    (Ack.of decision).ok = true ∨ (Ack.of decision).retiring = true
  heard : ∀ c ack, line c = .asks own → S.heard c = some ack → ack.ok = true ∨ ack.retiring = true

omit [DecidableEq ι] in
theorem willing_initial : Willing own line (initial : State ι) := ⟨nofun, nofun⟩

omit [DecidableEq ι] in
theorem decision_own (S : State ι) : (Ack.of (S.decision parse own own)).ok = true ∨
    (Ack.of (S.decision parse own own)).retiring = true := by
  unfold State.decision
  split_ifs
  · exact .inr rfl
  · rcases accept_self parse own with h | h
    · rw [h]
      exact .inl rfl
    · rw [h]
      exact .inr rfl

omit [DecidableEq ι] in
theorem Willing.goesOn (h : Willing own line S) {c : ι} (hs : SameBut c S T)
    (hdecided : ∀ decision, line c = .asks own → T.task c = some (.decided decision) →
      (Ack.of decision).ok = true ∨ (Ack.of decision).retiring = true)
    (hheard : ∀ ack, line c = .asks own → T.heard c = some ack →
      ack.ok = true ∨ ack.retiring = true) : Willing own line T := by
  refine ⟨fun d decision hline hd => ?_, fun d ack hline hd => ?_⟩
  · by_cases hne : d = c
    · subst hne
      exact hdecided decision hline hd
    · exact h.decided d decision hline (hs.task d hne ▸ hd)
  · by_cases hne : d = c
    · subst hne
      exact hheard ack hline hd
    · exact h.heard d ack hline (hs.heard d hne ▸ hd)

theorem Willing.finishes (h : Willing own line S) (c : ι) (how : SessionEnd) :
    Willing own line (S.finish c how) := by
  refine h.goesOn (finish_sameBut S c how) (fun decision _ hd => ?_)
    fun ack hline => h.heard c ack hline
  rw [finish_task, Function.update_self] at hd
  cases hd

theorem Willing.dismisses (h : Willing own line S) (c : ι) : Willing own line (dismiss S c) :=
  ⟨fun d decision hline hd => h.decided d decision hline (task_of_dismiss S c hd), h.heard⟩

theorem Moves.willing (hm : Moves parse own idleTimeout line S a T) (h : Willing own line S) :
    Willing own line T := by
  cases hm with
  | connect listening new => exact ⟨h.decided, h.heard⟩
  | leave c => exact ⟨h.decided, h.heard⟩
  | @accept c backlog turning waiting =>
    refine ⟨fun d decision hline hd => ?_, h.heard⟩
    by_cases hne : d = c
    · subst hne
      simp at hd
    · exact h.decided d decision hline ((Function.update_of_ne hne ..).symm.trans hd)
  | acceptFails turning => exact ⟨nofun, h.heard⟩
  | @handle c reading =>
    cases hline : line c with
    | eof => exact h.finishes c .detached
    | malformed => exact h.finishes c .detached
    | asks asked =>
      refine h.goesOn (handle_sameBut S c _) (fun decision hown hd => ?_)
        fun ack hown => h.heard c ack hown
      rw [hline, Line.asks.injEq] at hown
      rw [handle_task, hown, Option.some.injEq, Task.decided.injEq] at hd
      exact hd ▸ decision_own S
  | hangUp reading gone => exact h.finishes _ .detached
  | @answer c decision decided =>
    obtain ⟨hheard, htask⟩ := answer_own S c decision
    refine h.goesOn (answer_sameBut S c decision) (fun other _ hd => ?_) fun ack hline hack => ?_
    · rcases htask with ⟨-, htask, -⟩ | ⟨_, -, htask, -⟩ <;> rw [htask] at hd <;> cases hd
    · rw [hheard, Option.some.injEq] at hack
      exact hack ▸ h.decided c decision hline decided
  | lose decided gone => exact h.finishes _ .detached
  | detach serving => exact h.finishes _ .detached
  | @join c how turning ended =>
    have hdismissed := h.dismisses c
    rcases join_cases S c how with ⟨_, -, -, hjoin⟩ | ⟨-, -, hjoin⟩ | ⟨-, -, hjoin⟩
    all_goals
      rw [hjoin]
      exact ⟨hdismissed.decided, hdismissed.heard⟩
  | drained turning draining => exact ⟨h.decided, h.heard⟩
  | idle turning draining empty => exact ⟨h.decided, h.heard⟩
  | exit stopped => exact ⟨nofun, h.heard⟩

/-- So only the end of a connection without an answer fails such a client. -/
def Heard (own : Handshake) (line : ι → Line) (S : State ι) : Prop :=
  ∀ c, Patient own line S c → S.closed c = true → S.heard c ≠ none

omit [DecidableEq ι] in
theorem answering_iff (h : Willing own line S) : Answering own line S ↔ Heard own line S := by
  constructor
  · intro hanswering c hpatient hclosed hnone
    obtain ⟨attached, hattached⟩ := hanswering c hpatient (.inl hclosed)
    rw [hnone] at hattached
    cases hattached
  · intro hheard c hpatient hended
    have hsome : S.heard c ≠ none := hended.elim (hheard c hpatient) id
    obtain ⟨ack, hack⟩ := Option.ne_none_iff_exists'.mp hsome
    rw [hack]
    exact attachOnce_isOk.mpr (h.heard c ack hpatient.1 hack)

/-! ### Where nobody answers -/

/-- A step of one session that no such client is left without an answer by. -/
theorem Heard.of_sameBut (h : Heard own line S) {c : ι} (hsame : SameBut c S T)
    (hc : T.heard c = none → ¬ Patient own line S c) : Heard own line T := by
  intro d hpatient hclosed hnone
  have hbefore : Patient own line S d := ⟨hpatient.1, hsame.gone ▸ hpatient.2⟩
  by_cases hne : d = c
  · subst hne
    exact hc hnone hbefore
  · exact h d hbefore ((hsame.closed d hne).symm.trans hclosed)
      ((hsame.heard d hne).symm.trans hnone)

/-- A step that cuts nobody off and drops no listener. -/
def Action.quiet : Action ι → Bool
  | .acceptFails | .join _ | .exit => false
  | _ => true

omit [DecidableEq ι] in
theorem attended_of_quiet (h : a.quiet = true) : Attended own line ⟨S, a, T⟩ := by
  have hexit : a ≠ .exit ∧ a ≠ .acceptFails := by
    constructor <;> (rintro rfl; cases h)
  have hjoin (c : ι) : a ≠ .join c := by
    rintro rfl
    cases h
  exact fun _ _ => ⟨fun hor => absurd hor (by simp [hexit]), fun d hd => absurd hd (hjoin d)⟩

/-- What was left is cut off: exactly those who waited have not heard. -/
theorem heard_exit_iff (hsane : Sane S) (h : Heard own line S) :
    Heard own line (exit S) ↔ ∀ c, Patient own line S c → ¬ Waits S c := by
  constructor
  · intro hexit c hpatient hwaits
    have hfresh : (exit S).closed c = true ∧ S.heard c = none := by
      rcases hwaits with hin | hreading | ⟨decision, hdecided⟩
      · exact ⟨by simp [exit, hin], (hsane.queue c hin).2.2.1⟩
      · exact ⟨by simp [exit, hreading], ((hsane.proper c).reading hreading).1⟩
      · exact ⟨by simp [exit, hdecided], ((hsane.proper c).decided decision hdecided).1⟩
    exact hexit c hpatient hfresh.1 hfresh.2
  · intro hall c hpatient hclosed hnone
    have hno := hall c hpatient
    simp only [exit, Bool.or_eq_true, decide_eq_true_eq, Option.isSome_iff_exists] at hclosed
    rcases hclosed with (hclosed | hin) | ⟨phase, hphase⟩
    · exact h c hpatient hclosed hnone
    · exact hno (.inl hin)
    · cases phase with
      | reading => exact hno (.inr (.inl hphase))
      | decided decision => exact hno (.inr (.inr ⟨decision, hphase⟩))
      | serving =>
        have hnone' : S.heard c = none := hnone
        rw [((hsane.proper c).serving hphase).1] at hnone'
        cases hnone'
      | ended how => exact h c hpatient ((hsane.proper c).ended how hphase) hnone

/-- The listener is dropped: exactly those who waited to be accepted have not heard. -/
theorem heard_retire_iff (hsane : Sane S) (h : Heard own line S) :
    Heard own line (retire S) ↔ ∀ c, Patient own line S c → c ∉ S.backlog := by
  constructor
  · intro hretire c hpatient hin
    exact hretire c hpatient (by simp [retire, hin]) (hsane.queue c hin).2.2.1
  · intro hall c hpatient hclosed hnone
    simp only [retire, Bool.or_eq_true, decide_eq_true_eq] at hclosed
    rcases hclosed with hclosed | hin
    · exact h c hpatient hclosed hnone
    · exact hall c hpatient hin

omit [DecidableEq ι] in
theorem not_patient_of_gone {c : ι} (hgone : S.gone c = true) : ¬Patient own line S c := by
  intro hpatient
  rw [hpatient.2] at hgone
  cases hgone

/-- Who leaves waits for no answer. -/
theorem Heard.leave (h : Heard own line S) (c : ι) :
    Heard own line { S with gone := Function.update S.gone c true } := by
  intro d hpatient hclosed hnone
  refine h d ⟨hpatient.1, ?_⟩ hclosed hnone
  have hstays := hpatient.2
  by_cases hne : d = c
  · subst hne
    simp at hstays
  · exact (Function.update_of_ne hne ..).symm.trans hstays

theorem Heard.finish {c : ι} (h : Heard own line S) (how : SessionEnd)
    (hc : S.heard c = none → ¬Patient own line S c) : Heard own line (S.finish c how) :=
  h.of_sameBut (finish_sameBut S c how) hc

/-- A session that ends before its line was read had no line to be answered. -/
theorem Heard.handle (h : Heard own line S) (c : ι) :
    Heard own line (handle parse own S c (line c)) := by
  cases hline : line c with
  | eof => exact h.finish .detached fun _ hpatient => by simp [hpatient.1] at hline
  | malformed => exact h.finish .detached fun _ hpatient => by simp [hpatient.1] at hline
  | asks asked => exact h

/-- The loop drops its listener where the first session that retires it has ended. -/
theorem heard_join_iff {c : ι} {how : SessionEnd} (ended : S.task c = some (.ended how))
    (hsane : Sane S) (h : Heard own line S) :
    Heard own line (join S c how) ↔ Attended own line ⟨S, .join c, join S c how⟩ := by
  rcases join_cases S c how with
    ⟨stage, -, hdraining, hjoin⟩ | ⟨hdraining, rfl, hjoin⟩ | ⟨hdraining, rfl, hjoin⟩
  · rw [hjoin]
    refine iff_of_true h fun d _ => ⟨fun hor => absurd hor (by simp), fun e he _ hno => ?_⟩
    simp [hdraining] at hno
  · rw [hjoin, heard_retire_iff (hsane.dismisses c) h]
    refine forall₂_congr fun d _ =>
      ⟨fun hno => ⟨fun hor => absurd hor (by simp), fun _ _ _ _ => hno⟩,
      fun hatt => hatt.2 c rfl ended hdraining⟩
  · rw [hjoin]
    refine iff_of_true h fun d _ => ⟨fun hor => absurd hor (by simp), fun e he hretiring _ => ?_⟩
    cases he
    rw [ended] at hretiring
    cases hretiring

theorem Moves.heard_iff (hm : Moves parse own idleTimeout line S a T) (hsane : Sane S)
    (h : Heard own line S) : Heard own line T ↔ Attended own line ⟨S, a, T⟩ := by
  have hquiet (hT : Heard own line T) (ha : a.quiet = true) :
      Heard own line T ↔ Attended own line ⟨S, a, T⟩ := iff_of_true hT (attended_of_quiet ha)
  cases hm with
  | connect listening new => exact hquiet h rfl
  | leave c => exact hquiet (h.leave c) rfl
  | accept turning waiting => exact hquiet h rfl
  | acceptFails turning =>
    rw [heard_exit_iff hsane h]
    exact forall₂_congr fun c _ => ⟨fun hno => ⟨fun _ => hno, nofun⟩, fun hatt => hatt.1 (.inr rfl)⟩
  | @handle c reading => exact hquiet (h.handle c) rfl
  | hangUp reading gone =>
    exact hquiet (h.finish .detached fun _ => not_patient_of_gone gone) rfl
  | @answer c decision decided =>
    refine hquiet (h.of_sameBut (answer_sameBut S c decision) fun hnone => ?_) rfl
    rw [(answer_own S c decision).1] at hnone
    cases hnone
  | lose decided gone =>
    exact hquiet (h.finish .detached fun _ => not_patient_of_gone gone) rfl
  | @detach c serving =>
    refine hquiet (h.finish .detached fun hnone => ?_) rfl
    have hnone : S.heard c = none := hnone
    rw [((hsane.proper c).serving serving).1] at hnone
    cases hnone
  | @join c how turning ended => exact heard_join_iff ended hsane h
  | drained turning draining => exact hquiet h rfl
  | idle turning draining empty => exact hquiet h rfl
  | exit stopped =>
    rw [heard_exit_iff hsane h]
    exact forall₂_congr fun c _ => ⟨fun hno => ⟨fun _ => hno, nofun⟩, fun hatt => hatt.1 (.inl rfl)⟩

variable {steps : List (Step (State ι) (Action ι))}

/-- In every run, every client of the daemon's release and configuration whose connection has ended
has been answered, and is attached or tries again, exactly where nobody waits when the daemon cuts
off what is left or drops its listener. -/
theorem everybody_answered_iff (h : Run (step parse own idleTimeout line) initial steps S) :
    (∀ e ∈ steps, Answering own line e.target) ↔ ∀ e ∈ steps, Attended own line e := by
  have hinv := h.invariant (I := fun S => Sane S ∧ Willing own line S) (Q := fun _ => True)
    (fun _ _ _ hs _ hI => ⟨(step_moves hs).sane hI.1, (step_moves hs).willing hI.2⟩)
    (fun _ _ => trivial) ⟨sane_initial, willing_initial⟩
  have hheard : (∀ e ∈ steps, Heard own line e.target) ↔ ∀ e ∈ steps, Attended own line e :=
    h.forall_iff (I := Sane) (P := Heard own line) (K := fun _ => True)
      (fun _ _ _ hs _ hI => (step_moves hs).sane hI)
      (fun _ _ _ hs _ hI hP => (step_moves hs).heard_iff hI hP) (fun _ _ => trivial) sane_initial
      nofun
  rw [← hheard]
  exact forall₂_congr fun e he => answering_iff (hinv.2 e he).2.2

/-- Everybody is of the daemon's release. -/
def sameRelease (_ : ℕ) : Line := .asks (released '3')

/-- A client connects while a daemon with nobody attached stops, and is cut off. -/
theorem cut_off_when_idle :
    ∃ (steps : List (Step (State ℕ) (Action ℕ))) (S : State ℕ),
      Run (step singleDigits (released '3') 60 sameRelease) initial steps S ∧
      Patient (released '3') sameRelease S 0 ∧ S.arrived 0 = true ∧ S.closed 0 = true ∧
      attachOnce (S.heard 0) = .error .closedWithoutAnswering :=
  ⟨[⟨_, .connect 0, _⟩, ⟨_, .idle, _⟩, ⟨_, .exit, _⟩], _,
    .cons rfl (.cons rfl (.cons rfl (.nil _))), ⟨rfl, rfl⟩, rfl, rfl, rfl⟩

omit [DecidableEq ι] in
theorem attended_join {c : ι} (h : S.backlog = []) : Attended own line ⟨S, .join c, T⟩ := fun d _ =>
  ⟨fun hor => absurd hor (by simp), fun _ _ _ _ => h ▸ List.not_mem_nil⟩

omit [DecidableEq ι] in
theorem attended_exit (h : S.backlog = []) (htask : ∀ c, S.task c = none) :
    Attended own line ⟨S, .exit, T⟩ := fun c _ =>
  ⟨fun _ hwaits => by simp [Waits, h, htask] at hwaits, nofun⟩

/-- A newer session retires a daemon that serves one client and has accepted another: the one is
served to its end, the other is told to try again, and then the daemon stops. -/
theorem answered_through_retirement :
    ∃ (steps : List (Step (State ℕ) (Action ℕ))) (S : State ℕ),
      Run (step singleDigits (released '3') 60 upgrade) initial steps S ∧ S.stage = .exited ∧
      attachOnce (S.heard 1) = .ok .serving ∧ attachOnce (S.heard 2) = .ok .daemonRetired ∧
      ∀ e ∈ steps, Answering (released '3') upgrade e.target := by
  have hrun : Run (step singleDigits (released '3') 60 upgrade) initial
      [⟨_, .connect 1, _⟩, ⟨_, .accept, _⟩, ⟨_, .handle 1, _⟩, ⟨_, .answer 1, _⟩,
        ⟨_, .connect 0, _⟩, ⟨_, .accept, _⟩, ⟨_, .handle 0, _⟩, ⟨_, .connect 2, _⟩,
        ⟨_, .accept, _⟩, ⟨_, .answer 0, _⟩, ⟨_, .join 0, _⟩, ⟨_, .handle 2, _⟩,
        ⟨_, .answer 2, _⟩, ⟨_, .detach 1, _⟩, ⟨_, .join 1, _⟩, ⟨_, .join 2, _⟩,
        ⟨_, .exit, _⟩] _ :=
    .cons rfl <| .cons rfl <| .cons rfl <| .cons rfl <| .cons rfl <| .cons rfl <| .cons rfl <|
    .cons rfl <| .cons rfl <| .cons rfl <| .cons rfl <| .cons rfl <| .cons rfl <| .cons rfl <|
    .cons rfl <| .cons rfl <| .cons rfl <| .nil _
  refine ⟨_, _, hrun, rfl, rfl, rfl, (everybody_answered_iff hrun).mpr fun e he => ?_⟩
  simp only [List.mem_cons, List.not_mem_nil, or_false] at he
  rcases he with rfl | rfl | rfl | rfl | rfl | rfl | rfl | rfl | rfl | rfl | rfl | rfl | rfl | rfl |
    rfl | rfl | rfl <;> first | exact attended_of_quiet rfl | exact attended_join rfl | skip
  refine attended_exit rfl fun c => ?_
  match c with
  | 0 | 1 | 2 | n + 3 => rfl

end Agmem.Daemon.Serve
