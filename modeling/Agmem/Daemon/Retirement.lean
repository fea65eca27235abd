import Agmem.Daemon.Serve
import Agmem.Transition.Since

/-! The end of a release. A session is told "retiring" by its task, and the flag that has the others
told so is set by the loop, when it joins that task. Between the two a handshake is taken as if
nothing had happened. Where no handshake that the daemon would take is handled in between, nobody
who comes after the first to be told is taken. -/

namespace Agmem.Daemon.Serve

open Core Transition

variable {ι : Type*} [DecidableEq ι] {V : Type} [LinearOrder V] {parse : Text → Option V}
  {own : Handshake} {idleTimeout : ℕ} {line : ι → Line} {S T : State ι} {a : Action ι}

/-- Somebody has been answered "retiring". -/
def Retired (S : State ι) : Prop := ∃ c ack, S.heard c = some ack ∧ ack.retiring = true

/-- Whoever was answered so has the flag set, or is still to be joined. -/
structure Flagged (S : State ι) : Prop where
  told : ∀ c ack, S.heard c = some ack → ack.retiring = true →
    S.retiring = true ∨ S.task c = some (.ended .retiring) ∨ S.stage = .exited
  ended : ∀ c, S.task c = some (.ended .retiring) →
    ∃ ack, S.heard c = some ack ∧ ack.retiring = true
  draining : S.draining = true → S.retiring = true

/-! ### The flag -/

omit [DecidableEq ι] in
theorem flagged_initial : Flagged (initial : State ι) := ⟨nofun, nofun, nofun⟩

omit [DecidableEq ι] in
theorem Flagged.goesOn (h : Flagged S) {c : ι} (hs : SameBut c S T)
    (htold : ∀ ack, T.heard c = some ack → ack.retiring = true → T.task c = some (.ended .retiring))
    (hended : T.task c = some (.ended .retiring) →
      ∃ ack, T.heard c = some ack ∧ ack.retiring = true) : Flagged T := by
  refine ⟨fun d ack hd hretiring => ?_, fun d hd => ?_, fun hd => ?_⟩
  · by_cases hne : d = c
    · subst hne
      exact .inr (.inl (htold ack hd hretiring))
    · rw [hs.heard d hne] at hd
      rw [hs.retiring, hs.task d hne, hs.stage]
      exact h.told d ack hd hretiring
  · by_cases hne : d = c
    · subst hne
      exact hended hd
    · rw [hs.heard d hne]
      exact h.ended d (hs.task d hne ▸ hd)
  · rw [hs.retiring]
    exact h.draining (hs.draining ▸ hd)

omit [DecidableEq ι] in
/-- A session that has heard nothing, and does not end as one that retires the daemon. -/
theorem Flagged.quiet (h : Flagged S) {c : ι} (hs : SameBut c S T)
    (hheard : ∀ ack, T.heard c = some ack → ack.retiring = false)
    (hended : T.task c ≠ some (.ended .retiring)) : Flagged T := by
  refine h.goesOn hs (fun ack hack hretiring => ?_) fun he => absurd he hended
  rw [hheard ack hack] at hretiring
  cases hretiring

theorem finish_task_ne (S : State ι) (c : ι) :
    (S.finish c .detached).task c ≠ some (.ended .retiring) := by
  rw [finish_task, Function.update_self]
  simp

theorem Flagged.answers (h : Flagged S) {c : ι} (decision : Except Refusal Unit) :
    Flagged (answer S c decision) := by
  obtain ⟨hheard, ⟨rfl, htask, -⟩ | ⟨refusal, rfl, htask, -⟩⟩ := answer_own S c decision
  · refine h.quiet (answer_sameBut S c _) (fun ack hack => ?_) (by simp [htask])
    rw [hheard, Option.some.injEq] at hack
    rw [← hack]
    rfl
  · refine h.goesOn (answer_sameBut S c _) (fun ack hack hretiring => ?_) fun hended => ?_
    · rw [hheard, Option.some.injEq] at hack
      have hretire : refusal.retire = true := by
        rw [← hack] at hretiring
        exact hretiring
      rw [htask, if_pos hretire]
    · rw [htask] at hended
      by_cases hretire : refusal.retire = true
      · exact ⟨_, hheard, hretire⟩
      · rw [if_neg hretire] at hended
        cases hended

/-- The loop sets the flag when it joins the first task that ended so. -/
theorem Flagged.joins (h : Flagged S) {c : ι} {how : SessionEnd} (hturning : S.stage = .turning)
    (hended : S.task c = some (.ended how)) : Flagged (join S c how) := by
  have hafter : ∀ d, (dismiss S c).task d = some (.ended .retiring) →
      ∃ ack, S.heard d = some ack ∧ ack.retiring = true :=
    fun d hd => h.ended d (task_of_dismiss S c hd)
  -- what was told before the join is flagged, unless this is the task that is to say so
  have htold : ∀ d ack, S.heard d = some ack → ack.retiring = true →
      S.retiring = true ∨ how = .retiring ∨ (dismiss S c).task d = some (.ended .retiring) := by
    intro d ack hd hretiring
    rcases h.told d ack hd hretiring with hset | htold | hexited
    · exact .inl hset
    · by_cases hne : d = c
      · subst hne
        rw [hended] at htold
        cases htold
        exact .inr (.inl rfl)
      · exact .inr (.inr ((Function.update_of_ne hne ..).trans htold))
    · rw [hturning] at hexited
      cases hexited
  rcases join_cases S c how with
    ⟨stage, -, hdraining, hjoin⟩ | ⟨-, -, hjoin⟩ | ⟨hdraining, rfl, hjoin⟩
  · rw [hjoin]
    exact ⟨fun _ _ _ _ => .inl (h.draining hdraining), hafter, fun _ => h.draining hdraining⟩
  · rw [hjoin]
    exact ⟨fun _ _ _ _ => .inl rfl, hafter, fun _ => rfl⟩
  · rw [hjoin]
    refine ⟨fun d ack hd hretiring => ?_, hafter, h.draining⟩
    rcases htold d ack hd hretiring with hset | hno | hstill
    · exact .inl hset
    · cases hno
    · exact .inr (.inl hstill)

theorem Flagged.exits (h : Flagged S) : Flagged (exit S) :=
  ⟨fun _ _ _ _ => .inr (.inr rfl), nofun, h.draining⟩

omit [DecidableEq ι] in
/-- A loop that turned and stops. -/
theorem Flagged.stops (h : Flagged S) (hturning : S.stage = .turning) :
    Flagged { S with stage := .stopped } := by
  refine ⟨fun d ack hd hretiring => ?_, h.ended, h.draining⟩
  rcases h.told d ack hd hretiring with hset | htold | hexited
  · exact .inl hset
  · exact .inr (.inl htold)
  · rw [hturning] at hexited
    cases hexited

/-- Whoever is accepted was told nothing yet. -/
theorem Flagged.accepts (h : Flagged S) {c : ι} (hnone : S.heard c = none) (backlog : List ι) :
    Flagged { S with
      backlog := backlog
      attached := S.attached ++ [c]
      task := Function.update S.task c (some .reading) } := by
  have hother : ∀ d, d = c ∨ Function.update S.task c (some Task.reading) d = S.task d := fun d =>
    (eq_or_ne d c).imp_right fun hd => Function.update_of_ne hd ..
  refine ⟨fun d ack hd hretiring => ?_, fun d hd => ?_, h.draining⟩
  · rcases hother d with rfl | hsame
    · have hd : S.heard d = some ack := hd
      rw [hnone] at hd
      cases hd
    · rcases h.told d ack hd hretiring with hset | htold | hexited
      · exact .inl hset
      · exact .inr (.inl (hsame.trans htold))
      · exact .inr (.inr hexited)
  · rcases hother d with rfl | hsame
    · simp only [Function.update_self, Option.some.injEq, reduceCtorEq] at hd
    · exact h.ended d (hsame.symm.trans hd)

/-- Every step keeps the flag in place. -/
theorem Moves.flagged (hm : Moves parse own idleTimeout line S a T) (hsane : Sane S)
    (h : Flagged S) : Flagged T := by
  have hsilent : ∀ {c ack}, S.heard c = none → S.heard c = some ack → ack.retiring = false := by
    intro c ack hnone hack
    rw [hnone] at hack
    cases hack
  cases hm with
  | connect listening new => exact ⟨h.told, h.ended, h.draining⟩
  | leave c => exact ⟨h.told, h.ended, h.draining⟩
  | @accept c backlog turning waiting =>
    exact h.accepts (hsane.queue c (waiting ▸ List.mem_cons_self)).2.2.1 backlog
  | acceptFails turning => exact h.exits
  | @handle c reading =>
    have hheard := ((hsane.proper c).reading reading).1
    refine h.quiet (handle_sameBut S c (line c)) (fun ack hack => hsilent hheard ?_) ?_
    · cases hline : line c <;> rw [hline] at hack <;> exact hack
    · cases hline : line c with
      | eof => exact finish_task_ne S c
      | malformed => exact finish_task_ne S c
      | asks asked => simp [handle_task]
  | @hangUp c reading gone =>
    exact h.quiet (finish_sameBut S c .detached)
      (fun ack hack => hsilent ((hsane.proper c).reading reading).1 hack) (finish_task_ne S c)
  | answer decided => exact h.answers _
  | @lose c decision decided gone =>
    exact h.quiet (finish_sameBut S c .detached)
      (fun ack hack => hsilent ((hsane.proper c).decided decision decided).1 hack)
      (finish_task_ne S c)
  | @detach c serving =>
    refine h.quiet (finish_sameBut S c .detached) (fun ack hack => ?_) (finish_task_ne S c)
    rw [finish_heard, ((hsane.proper c).serving serving).1, Option.some.injEq] at hack
    rw [← hack]
    rfl
  | join turning ended => exact h.joins turning ended
  | drained turning draining => exact h.stops turning
  | idle turning draining empty => exact h.stops turning
  | exit stopped => exact h.exits

/-! ### Before and after the first to be told -/

/-- No handshake that the daemon would take is handled while a session that was told "retiring" is
still to be joined and none has been. -/
def Orderly (parse : Text → Option V) (own : Handshake) (line : ι → Line)
    (e : Step (State ι) (Action ι)) : Prop :=
  ∀ c asked, e.action = .handle c → line c = .asks asked → own.accept parse asked = .ok () →
    (∃ d, e.source.task d = some (.ended .retiring)) → e.source.retiring = true

/-- A handshake that is handled after somebody was told "retiring" is not taken. -/
def Sound (e : Step (State ι) (Action ι)) : Prop :=
  ∀ c, e.action = .handle c → Retired e.source → e.target.task c ≠ some (.decided (.ok ()))

theorem step_handle {c : ι} (h : step parse own idleTimeout line S (.handle c) = some T) :
    S.task c = some .reading ∧ T = handle parse own S c (line c) := by
  cases step_moves h with
  | handle reading => exact ⟨reading, rfl⟩

/-- What is taken is a handshake that the daemon would take, and the flag is not set. -/
theorem taken_iff {c : ι} (h : step parse own idleTimeout line S (.handle c) = some T) :
    T.task c = some (.decided (.ok ())) ↔
      ∃ asked, line c = .asks asked ∧ S.retiring = false ∧ own.accept parse asked = .ok () := by
  obtain ⟨-, rfl⟩ := step_handle h
  cases line c with
  | eof => simp [handle, finish_task]
  | malformed => simp [handle, finish_task]
  | asks asked =>
    rw [handle_task, State.decision]
    cases S.retiring with
    | true => simp
    | false => simp

theorem sound_iff_orderly (h : step parse own idleTimeout line S a = some T) (hsane : Sane S)
    (hflagged : Flagged S) : Sound ⟨S, a, T⟩ ↔ Orderly parse own line ⟨S, a, T⟩ := by
  constructor
  · rintro hsound c asked rfl hline haccept ⟨d, hd⟩
    by_contra hflag
    obtain ⟨ack, hack, hretiring⟩ := hflagged.ended d hd
    exact hsound c rfl ⟨d, ack, hack, hretiring⟩
      ((taken_iff h).mpr ⟨asked, hline, (Bool.not_eq_true _).mp hflag, haccept⟩)
  · rintro horderly c rfl ⟨d, ack, hack, hretiring⟩ htaken
    obtain ⟨asked, hline, hflag, haccept⟩ := (taken_iff h).mp htaken
    rcases hflagged.told d ack hack hretiring with hset | hended | hexited
    · rw [hset] at hflag
      cases hflag
    · have := horderly c asked rfl hline haccept ⟨d, hended⟩
      rw [this] at hflag
      cases hflag
    · have hreading := (step_handle h).1
      rw [hsane.exited hexited c] at hreading
      cases hreading

/-- An answer is never taken back. -/
theorem Moves.heard (hm : Moves parse own idleTimeout line S a T) (hsane : Sane S) {c : ι}
    {ack : Ack} (h : S.heard c = some ack) : T.heard c = some ack := by
  cases hm with
  | @handle d reading =>
    cases hline : line d <;> exact h
  | @answer d decision decided =>
    have hne : c ≠ d := fun heq => by
      subst heq
      rw [((hsane.proper c).decided decision decided).1] at h
      cases h
    exact ((answer_sameBut S d decision).heard c hne).trans h
  | @join d how turning ended =>
    rcases join_cases S d how with ⟨_, -, -, hjoin⟩ | ⟨-, -, hjoin⟩ | ⟨-, -, hjoin⟩ <;>
      exact hjoin ▸ h
  | _ => exact h

variable {steps : List (Step (State ι) (Action ι))}

theorem invariant_of_run (h : Run (step parse own idleTimeout line) initial steps S) :
    (Sane S ∧ Flagged S) ∧ ∀ e ∈ steps, (Sane e.source ∧ Flagged e.source) ∧
      Sane e.target ∧ Flagged e.target :=
  h.invariant (I := fun S => Sane S ∧ Flagged S) (Q := fun _ => True)
    (fun _ _ _ hs _ hI => ⟨(step_moves hs).sane hI.1, (step_moves hs).flagged hI.1 hI.2⟩)
    (fun _ _ => trivial) ⟨sane_initial, flagged_initial⟩

/-- A task that has decided to take its session handled a handshake that was taken. -/
theorem taken_since {c : ι} (h : step parse own idleTimeout line S a = some T)
    (ht : T.task c = some (.decided (.ok ()))) :
    S.task c = some (.decided (.ok ())) ∨ a = .handle c := by
  have hother : ∀ {d how}, (S.finish d how).task c = some (.decided (.ok ())) →
      S.task c = some (.decided (.ok ())) := by
    intro d how hfinish
    rw [finish_task] at hfinish
    by_cases hne : c = d
    · subst hne
      simp at hfinish
    · rwa [Function.update_of_ne hne] at hfinish
  cases step_moves h with
  | connect listening new => exact .inl ht
  | leave d => exact .inl ht
  | @accept d backlog turning waiting =>
    by_cases hne : c = d
    · subst hne
      simp at ht
    · exact .inl ((Function.update_of_ne hne ..).symm.trans ht)
  | acceptFails turning => cases ht
  | @handle d reading =>
    by_cases hne : c = d
    · exact .inr (hne ▸ rfl)
    · exact .inl (((handle_sameBut S d (line d)).task c hne).symm.trans ht)
  | hangUp reading gone => exact .inl (hother ht)
  | @answer d decision decided =>
    by_cases hne : c = d
    · subst hne
      obtain ⟨-, ⟨-, htask, -⟩ | ⟨refusal, -, htask, -⟩⟩ := answer_own S c decision
      · rw [htask] at ht
        cases ht
      · rw [htask] at ht
        cases ht
    · exact .inl (((answer_sameBut S d decision).task c hne).symm.trans ht)
  | lose decided gone => exact .inl (hother ht)
  | detach serving => exact .inl (hother ht)
  | @join d how turning ended =>
    left
    rcases join_cases S d how with ⟨_, -, -, hjoin⟩ | ⟨-, -, hjoin⟩ | ⟨-, -, hjoin⟩
    all_goals
      rw [hjoin] at ht
      exact task_of_dismiss S d ht
  | drained turning draining => exact .inl ht
  | idle turning draining empty => exact .inl ht
  | exit stopped => cases ht

/-- At this step a session is answered. -/
def Answers (e : Step (State ι) (Action ι)) (c : ι) (ack : Ack) : Prop :=
  e.action = .answer c ∧ e.target.heard c = some ack

theorem step_answer {c : ι} {ack : Ack}
    (h : step parse own idleTimeout line S (.answer c) = some T) (hack : T.heard c = some ack) :
    ∃ decision, S.task c = some (.decided decision) ∧ ack = Ack.of decision := by
  cases step_moves h with
  | @answer _ decision decided =>
    rw [(answer_own S c decision).1, Option.some.injEq] at hack
    exact ⟨decision, decided, hack.symm⟩

/-- What is handled after somebody was told "retiring" is not taken exactly where every step is in
order; and then no session whose handshake is handled after that is answered "ok". -/
theorem retired_for_good (h : Run (step parse own idleTimeout line) initial steps S) :
    ((∀ e ∈ steps, Sound e) ↔ ∀ e ∈ steps, Orderly parse own line e) ∧
    ((∀ e ∈ steps, Orderly parse own line e) →
      ∀ (k m n : ℕ) (d e f : Step (State ι) (Action ι)) (b c : ι) (told ack : Ack),
        k < m → m < n → steps[k]? = some d → steps[m]? = some e → steps[n]? = some f →
        Answers d b told → told.retiring = true → e.action = .handle c → Answers f c ack →
        ack.ok = false) := by
  have hinv := (invariant_of_run h).2
  have hiff : (∀ e ∈ steps, Sound e) ↔ ∀ e ∈ steps, Orderly parse own line e := by
    refine forall₂_congr fun e he => ?_
    obtain ⟨n, hn⟩ := List.mem_iff_getElem?.mp he
    exact sound_iff_orderly (h.step_eq hn) (hinv e he).1.1 (hinv e he).1.2
  refine ⟨hiff, ?_⟩
  intro horderly k m n d e f b c told ack hkm hmn hd he hf htold hretiring hhandle hanswer
  have hsound := hiff.mpr horderly
  -- from then on somebody was told
  have hretired : ∀ {l g}, k < l → steps[l]? = some g → Retired g.source := by
    intro l g hkl hg
    have hlast := h.lasting (P := fun S => Sane S ∧ S.heard b = some told)
      (fun _ _ _ hs hP => ⟨(step_moves hs).sane hP.1, (step_moves hs).heard hP.1 hP.2⟩) hd
      ⟨(hinv d (List.mem_of_getElem? hd)).2.1, htold.2⟩ hkl hg
    exact ⟨b, told, hlast.2, hretiring⟩
  by_contra hok
  have hstep := h.step_eq hf
  rw [hanswer.1] at hstep
  obtain ⟨decision, hdecided, rfl⟩ := step_answer hstep hanswer.2
  rw [Ack.of_ok.mp ((Bool.not_eq_false _).mp hok)] at hdecided
  -- the session was taken where its handshake was handled, and that was not before
  obtain ⟨l, g, hln, hg, hhandled, htaken, hheld⟩ := h.since_start
    (P := fun S => S.task c = some (.decided (.ok ()))) (A := fun e => e.action = .handle c)
    (fun _ _ _ hs ht => taken_since hs ht) nofun hf hdecided
  rcases Nat.lt_or_ge k l with hkl | hlk
  · exact hsound g (List.mem_of_getElem? hg) c hhandled (hretired hkl hg) htaken
  · have hreading := h.step_eq he
    rw [hhandle] at hreading
    have hstill := (hheld m e (by omega) hmn he).1
    rw [(step_handle hreading).1] at hstill
    cases hstill

/-- A session of the next release, and one of this. -/
def upgrade (c : ℕ) : Line := .asks (if c = 0 then released '4' else released '3')

/-- Before the loop joins the task of the newer session, the other is taken. -/
theorem taken_after_retiring :
    ∃ (steps : List (Step (State ℕ) (Action ℕ))) (S : State ℕ) (d e f : Step (State ℕ) (Action ℕ))
      (told ack : Ack), Run (step singleDigits (released '3') 60 upgrade) initial steps S ∧
      steps[5]? = some d ∧ steps[6]? = some e ∧ steps[7]? = some f ∧ Answers d 0 told ∧
      told.retiring = true ∧ e.action = .handle 1 ∧ Answers f 1 ack ∧ ack.ok = true := by
  have hrun : Run (step singleDigits (released '3') 60 upgrade) initial
      [⟨_, .connect 0, _⟩, ⟨_, .connect 1, _⟩, ⟨_, .accept, _⟩, ⟨_, .accept, _⟩,
        ⟨_, .handle 0, _⟩, ⟨_, .answer 0, _⟩, ⟨_, .handle 1, _⟩, ⟨_, .answer 1, _⟩] _ :=
    .cons rfl (.cons rfl (.cons rfl (.cons rfl (.cons rfl (.cons rfl (.cons rfl (.cons rfl
      (.nil _))))))))
  exact ⟨_, _, _, _, _, _, _, hrun, rfl, rfl, rfl, ⟨rfl, rfl⟩, rfl, rfl, ⟨rfl, rfl⟩, rfl⟩

/-- After it, the other is told to wait. -/
theorem refused_after_joining :
    ∃ (steps : List (Step (State ℕ) (Action ℕ))) (S : State ℕ) (f : Step (State ℕ) (Action ℕ))
      (ack : Ack), Run (step singleDigits (released '3') 60 upgrade) initial steps S ∧
      steps[8]? = some f ∧ Answers f 1 ack ∧ ack.ok = false := by
  have hrun : Run (step singleDigits (released '3') 60 upgrade) initial
      [⟨_, .connect 0, _⟩, ⟨_, .connect 1, _⟩, ⟨_, .accept, _⟩, ⟨_, .accept, _⟩,
        ⟨_, .handle 0, _⟩, ⟨_, .answer 0, _⟩, ⟨_, .join 0, _⟩, ⟨_, .handle 1, _⟩,
        ⟨_, .answer 1, _⟩] _ :=
    .cons rfl (.cons rfl (.cons rfl (.cons rfl (.cons rfl (.cons rfl (.cons rfl (.cons rfl
      (.cons rfl (.nil _)))))))))
  have hnewer : Handshake.accept singleDigits (released '3') (released '4') ≠ .ok () := by decide
  have horderly := (retired_for_good hrun).2 (by
    intro e he c asked hhandle hline haccept hended
    simp only [List.mem_cons, List.not_mem_nil, or_false] at he
    rcases he with rfl | rfl | rfl | rfl | rfl | rfl | rfl | rfl | rfl <;> try cases hhandle
    · cases hline
      exact absurd haccept hnewer
    · rfl)
  refine ⟨_, _, _, _, hrun, rfl, ⟨rfl, rfl⟩, ?_⟩
  exact horderly 5 7 8 _ _ _ 0 1 _ _ (by decide) (by decide) rfl rfl rfl ⟨rfl, rfl⟩ rfl rfl
    ⟨rfl, rfl⟩

end Agmem.Daemon.Serve
