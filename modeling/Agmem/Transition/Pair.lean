import Agmem.Transition.Optimistic

/-! Two callers of one store. Only one commit can come between the reads of a caller and its
transaction, the other's. Where picking up the reads of the store before that commit on the
store after it makes no difference, the two take effect one after the other; where it does,
the caller that was overtaken is turned away. -/

namespace Agmem.Transition.Optimistic

variable {σ ν ε ρ : Type*}

/-- The store after an attempt, and what its caller is told. -/
def after (s : σ) : Except ε (σ × ρ) → σ × Except ε ρ
  | .ok (t, r) => (t, .ok r)
  | .error e => (s, .error e)

/-- The attempts before number `k` were refused, on this store, in a way that is retried. -/
def Refused (c : Caller σ ν ε ρ) (s : σ) (k : ℕ) : Prop :=
  ∀ l < k, ∃ e, c.once l s = .error e ∧ c.race e = true

theorem Refused.succ {c : Caller σ ν ε ρ} {s : σ} {k : ℕ} {e : ε} (h : Refused c s k)
    (he : c.once k s = .error e) (hr : c.race e = true) : Refused c s (k + 1) := by
  intro l hl
  rcases Nat.lt_succ_iff_lt_or_eq.mp hl with hl | rfl
  · exact h l hl
  · exact ⟨e, he, hr⟩

/-- The rest of an attempt, from a note on. -/
def Caller.resumed (c : Caller σ ν ε ρ) (k : ℕ) (t : σ) (left : List (σ → ν → Except ε ν))
    (note : ν) : Except ε (σ × ρ) :=
  match readAll t left note with
  | .error e => .error e
  | .ok note => c.body k note t

/-- An attempt begun on one store and finished on the other ends as one on the other alone, or
fails because what it read is stale. -/
def Mixes (c : Caller σ ν ε ρ) (s t : σ) (stale : Prop) : Prop :=
  ∀ front back note k, c.reads = front ++ back → readAll s front c.start = .ok note →
    c.resumed k t back note = c.once k t ∨ stale ∧ ∃ e, c.resumed k t back note = .error e

variable {c : Bool → Caller σ ν ε ρ} {stale : Bool → σ → σ → Prop}

/-- The two take effect in turn, `i` first, each by one of its attempts. -/
def InTurn (c : Bool → Caller σ ν ε ρ) (i : Bool) (s : σ) (S : State Bool σ ν ε ρ) : Prop :=
  ∃ k ≤ (c i).retries, ∃ l ≤ (c !i).retries,
    S.phase i = .done (after s ((c i).once k s)).2 ∧
    S.phase (!i) = .done
      (after (after s ((c i).once k s)).1 ((c !i).once l (after s ((c i).once k s)).1)).2 ∧
    S.store = (after (after s ((c i).once k s)).1 ((c !i).once l (after s ((c i).once k s)).1)).1

/-- Only `i` takes effect. The other is turned away: what it had read was stale, or its last
attempt was aborted after the store had refused the earlier ones. -/
def Overtakes (c : Bool → Caller σ ν ε ρ) (stale : Bool → σ → σ → Prop) (i : Bool) (s : σ)
    (S : State Bool σ ν ε ρ) : Prop :=
  ∃ k ≤ (c i).retries, ∃ t r e, (c i).once k s = .ok (t, r) ∧ S.store = t ∧
    S.phase i = .done (.ok r) ∧ S.phase (!i) = .done (.error e) ∧
      (stale (!i) s t ∨ Refused (c !i) s (c !i).retries ∧ (c !i).race e = true)

/-! ### Where a run of the two can be -/

/-- A caller that has met one store only. -/
def Alone (c : Caller σ ν ε ρ) (s : σ) : Phase σ ν ε ρ → Prop
  | .reading k left note =>
    k ≤ c.retries ∧ Refused c s k ∧
      ∃ front, c.reads = front ++ left ∧ readAll s front c.start = .ok note
  | .opened k note since =>
    k ≤ c.retries ∧ Refused c s k ∧ since = 0 ∧ readAll s c.reads c.start = .ok note
  | .done (.ok _) => False
  | .done (.error e) => ∃ k ≤ c.retries, c.once k s = .error e

/-- A caller that has met the store before the other's commit, the one after it, or both. -/
def Across (c : Caller σ ν ε ρ) (s t : σ) (stale : Prop) : Phase σ ν ε ρ → Prop
  | .reading k left note => k ≤ c.retries ∧ ∃ front back first,
      c.reads = front ++ (back ++ left) ∧ readAll s front c.start = .ok first ∧
        readAll t back first = .ok note
  | .opened k note since => k ≤ c.retries ∧ (since = 0 → Refused c s k) ∧ ∃ front back first,
      c.reads = front ++ back ∧ readAll s front c.start = .ok first ∧
        readAll t back first = .ok note
  | .done (.ok _) => False
  | .done (.error e) => (∃ k ≤ c.retries, c.once k s = .error e) ∨
      (∃ k ≤ c.retries, c.once k t = .error e) ∨ stale ∨ Refused c s c.retries ∧ c.race e = true

theorem alone_failed {c : Caller σ ν ε ρ} {s : σ} {k : ℕ} {e : ε} (hk : k ≤ c.retries)
    (h : Refused c s k) (he : c.once k s = .error e) : Alone c s (c.failed k e) := by
  unfold Caller.failed
  split_ifs with hr
  · exact ⟨hr.2, h.succ he hr.1, [], rfl, rfl⟩
  · exact ⟨k, hk, he⟩

/-- Any caller starts over on the new store. -/
theorem across_failed {c : Caller σ ν ε ρ} {s t : σ} {P : Prop} {k : ℕ} {e : ε}
    (h : c.race e = true → c.retries ≤ k → Across c s t P (.done (.error e)))
    (h' : c.race e = false → Across c s t P (.done (.error e))) :
    Across c s t P (c.failed k e) := by
  unfold Caller.failed
  split_ifs with hr
  · exact ⟨hr.2, [], [], c.start, rfl, rfl, rfl⟩
  · cases hrace : c.race e with
    | false => exact h' hrace
    | true => exact h hrace (by simpa [hrace] using hr)

theorem Alone.across {c : Caller σ ν ε ρ} {s : σ} {p : Phase σ ν ε ρ} (h : Alone c s p) (t : σ)
    (P : Prop) : Across c s t P p := by
  cases p with
  | reading k left note =>
    obtain ⟨hk, -, front, hreads, hnote⟩ := h
    exact ⟨hk, front, [], note, by simpa using hreads, hnote, rfl⟩
  | opened k note since =>
    obtain ⟨hk, hrefused, -, hnote⟩ := h
    exact ⟨hk, fun _ => hrefused, c.reads, [], note, (List.append_nil _).symm, hnote, rfl⟩
  | done r =>
    cases r with
    | ok r => exact h.elim
    | error e => exact .inl h

/-- How far a run of two has come. -/
inductive Stage (c : Bool → Caller σ ν ε ρ) (stale : Bool → σ → σ → Prop) (s : σ)
    (S : State Bool σ ν ε ρ) : Prop
  | none (store : S.store = s) (commits : S.commits = 0) (alone : ∀ i, Alone (c i) s (S.phase i))
  | one (i : Bool) (k : ℕ) (r : ρ) (le : k ≤ (c i).retries)
      (first : (c i).once k s = .ok (S.store, r))
      (commits : S.commits = 1) (told : S.phase i = .done (.ok r))
      (across : Across (c !i) s S.store (stale (!i) s S.store) (S.phase !i))
  | two (i : Bool) (k l : ℕ) (r q : ρ) (t : σ) (le : k ≤ (c i).retries)
      (leOther : l ≤ (c !i).retries) (first : (c i).once k s = .ok (t, r))
      (second : (c !i).once l t = .ok (S.store, q)) (told : S.phase i = .done (.ok r))
      (toldOther : S.phase (!i) = .done (.ok q))

theorem forall_bool_update {P : Bool → Phase σ ν ε ρ → Prop} {f : Bool → Phase σ ν ε ρ} {i : Bool}
    {p : Phase σ ν ε ρ} (hp : P i p) (hf : P (!i) (f !i)) :
    ∀ j, P j (Function.update f i p j) := by
  intro j
  by_cases hj : j = i
  · subst hj
    simpa using hp
  · have hji : j = !i := by cases i <;> cases j <;> simp_all
    rw [Function.update_of_ne hj, hji]
    exact hf

theorem stage_none_step {s : σ} {S T : State Bool σ ν ε ρ} {i : Bool} (h : Moves (c i) S i T)
    (hstore : S.store = s) (hcommits : S.commits = 0) (halone : ∀ i, Alone (c i) s (S.phase i)) :
    Stage c stale s T := by
  subst hstore
  have hadvance {p : Phase σ ν ε ρ} (hp : Alone (c i) S.store p) :
      Stage c stale S.store (S.advance i p) :=
    .none rfl hcommits (forall_bool_update hp (halone !i))
  have hi := halone i
  cases h with
  | @readOk k read left note note' hat hok =>
    rw [hat] at hi
    obtain ⟨hk, hrefused, front, hreads, hnote⟩ := hi
    exact hadvance ⟨hk, hrefused, front ++ [read], by simp [hreads], readAll_concat_ok hnote hok⟩
  | @readError k read left note e hat herr =>
    rw [hat] at hi
    obtain ⟨hk, hrefused, front, hreads, hnote⟩ := hi
    have honce : (c i).once k S.store = .error e := by
      simp only [Caller.once, hreads, readAll_error hnote herr]
    exact hadvance (alone_failed hk hrefused honce)
  | opens hat =>
    rw [hat] at hi
    obtain ⟨hk, hrefused, front, hreads, hnote⟩ := hi
    rw [List.append_nil] at hreads
    exact hadvance ⟨hk, hrefused, hcommits, hreads ▸ hnote⟩
  | @commits k since note t r hat hok =>
    rw [hat] at hi
    obtain ⟨hk, -, -, hnote⟩ := hi
    have honce : (c i).once k S.store = .ok (t, r) := by simp only [Caller.once, hnote, hok]
    refine .one i k r hk honce (by simp [hcommits]) (by simp) ?_
    have hne : (!i) ≠ i := by cases i <;> simp
    simpa only [Function.update_of_ne hne] using (halone !i).across t _
  | @bodyError k since note e hat herr =>
    rw [hat] at hi
    obtain ⟨hk, hrefused, -, hnote⟩ := hi
    have honce : (c i).once k S.store = .error e := by simp only [Caller.once, hnote, herr]
    exact hadvance (alone_failed hk hrefused honce)
  | loses hat hrace hover =>
    rw [hcommits] at hover
    exact absurd hover (Nat.not_lt_zero _)

/-- An attempt that met both stores fails as one on the second alone would, or has an excuse. -/
theorem resumed_failed {c : Caller σ ν ε ρ} {s t : σ} {P : Prop} (hmix : Mixes c s t P)
    {front back left : List (σ → ν → Except ε ν)} {first note : ν} {k : ℕ} {e : ε}
    (hk : k ≤ c.retries) (hreads : c.reads = front ++ (back ++ left))
    (hfirst : readAll s front c.start = .ok first)
    (hnote : readAll t back first = .ok note) (he : c.resumed k t left note = .error e) :
    Across c s t P (c.failed k e) := by
  have hresumed : c.resumed k t (back ++ left) first = c.resumed k t left note := by
    simp only [Caller.resumed, readAll_append, hnote]
  have hdone : Across c s t P (.done (.error e)) := by
    rcases hmix front (back ++ left) first k hreads hfirst with hsame | ⟨hstale, -⟩
    · exact .inr (.inl ⟨k, hk, by rw [← hsame, hresumed, he]⟩)
    · exact .inr (.inr (.inl hstale))
  exact across_failed (fun _ _ => hdone) fun _ => hdone

theorem stage_one_step {s : σ} {S T : State Bool σ ν ε ρ} {i j : Bool} {k : ℕ} {r : ρ}
    (hmix : Mixes (c !i) s S.store (stale (!i) s S.store)) (h : Moves (c j) S j T)
    (hk : k ≤ (c i).retries) (hfirst : (c i).once k s = .ok (S.store, r)) (hcommits : S.commits = 1)
    (htold : S.phase i = .done (.ok r))
    (hacross : Across (c !i) s S.store (stale (!i) s S.store) (S.phase !i)) :
    Stage c stale s T := by
  have hne : (!i) ≠ i := by cases i <;> simp
  have hj : j = !i := by
    have hji : j ≠ i := by
      rintro rfl
      cases h <;> simp_all
    cases i <;> cases j <;> simp_all
  subst hj
  have hadvance {p : Phase σ ν ε ρ} (hp : Across (c !i) s S.store (stale (!i) s S.store) p) :
      Stage c stale s (S.advance (!i) p) := by
    refine .one i k r hk hfirst hcommits ?_ ?_
    · simpa only [State.advance, Function.update_of_ne hne.symm] using htold
    · simpa only [State.advance, Function.update_self] using hp
  cases h with
  | @readOk l read left note note' hat hok =>
    rw [hat] at hacross
    obtain ⟨hl, front, back, first, hreads, hf, hb⟩ := hacross
    exact hadvance
      ⟨hl, front, back ++ [read], first, by simp [hreads], hf, readAll_concat_ok hb hok⟩
  | @readError l read left note e hat herr =>
    rw [hat] at hacross
    obtain ⟨hl, front, back, first, hreads, hf, hb⟩ := hacross
    have herr' : (c !i).resumed l S.store (read :: left) note = .error e := by
      simp [Caller.resumed, readAll, herr]
    exact hadvance (resumed_failed hmix hl hreads hf hb herr')
  | opens hat =>
    rw [hat] at hacross
    obtain ⟨hl, front, back, first, hreads, hf, hb⟩ := hacross
    refine hadvance ⟨hl, fun h0 => ?_, front, back, first, by simpa using hreads, hf, hb⟩
    rw [hcommits] at h0
    exact absurd h0 Nat.one_ne_zero
  | @commits l since note t q hat hok =>
    rw [hat] at hacross
    obtain ⟨hl, -, front, back, first, hreads, hf, hb⟩ := hacross
    have hresumed : (c !i).resumed l S.store back first = .ok (t, q) := by
      simp only [Caller.resumed, hb, hok]
    rcases hmix front back first l hreads hf with hsame | ⟨-, e, herr⟩
    · refine .two i k l r q S.store hk hl hfirst (hsame ▸ hresumed) ?_ (by simp)
      simpa only [Function.update_of_ne hne.symm] using htold
    · rw [herr] at hresumed
      cases hresumed
  | @bodyError l since note e hat herr =>
    rw [hat] at hacross
    obtain ⟨hl, -, front, back, first, hreads, hf, hb⟩ := hacross
    have herr' : (c !i).resumed l S.store [] note = .error e := by
      simp only [Caller.resumed, readAll, herr]
    rw [← List.append_nil back] at hreads
    exact hadvance (resumed_failed hmix hl hreads hf hb herr')
  | @loses l since note e hat hrace hover =>
    rw [hat] at hacross
    have hsince : since = 0 := by omega
    refine hadvance (across_failed (fun _ hl => ?_) fun hno => by simp [hno] at hrace)
    exact .inr (.inr (.inr ⟨fun m hm => hacross.2.1 hsince m (Nat.lt_of_lt_of_le hm hl), hrace⟩))

theorem stage_step {s : σ} {S T : State Bool σ ν ε ρ} {a : Action Bool ε}
    (hmix : ∀ i k t r, (c i).once k s = .ok (t, r) → Mixes (c !i) s t (stale (!i) s t))
    (h : step c S a = some T) (hs : Stage c stale s S) : Stage c stale s T := by
  have hmoves := step_moves h
  cases hs with
  | none hstore hcommits halone => exact stage_none_step hmoves hstore hcommits halone
  | one i k r hk hfirst hcommits htold hacross =>
    exact stage_one_step (hmix i k _ r hfirst) hmoves hk hfirst hcommits htold hacross
  | two i k l r q t hk hl hfirst hsecond htold hother =>
    -- both are done, so there is nothing left to do
    have hdone : ∀ j, ∃ q, S.phase j = .done q := by
      intro j
      by_cases hj : j = i
      · exact ⟨_, hj ▸ htold⟩
      · have hji : j = !i := by cases i <;> cases j <;> simp_all
        exact ⟨_, hji ▸ hother⟩
    obtain ⟨q, hq⟩ := hdone a.caller
    cases hmoves <;> simp_all

/-- Two callers that both failed on the first store took their turns there. -/
theorem inTurn_of_alone {S : State Bool σ ν ε ρ} (halone : ∀ i, Alone (c i) S.store (S.phase i))
    (hdone : ∀ i, ∃ r, S.phase i = .done r) : InTurn c false S.store S := by
  have herror (i : Bool) : ∃ k ≤ (c i).retries, ∃ e,
      S.phase i = .done (.error e) ∧ (c i).once k S.store = .error e := by
    obtain ⟨r, hr⟩ := hdone i
    have hi := halone i
    rw [hr] at hi
    cases r with
    | ok r => exact hi.elim
    | error e =>
      obtain ⟨k, hk, honce⟩ := hi
      exact ⟨k, hk, e, hr, honce⟩
  obtain ⟨k, hk, e, hat, honce⟩ := herror false
  obtain ⟨l, hl, e', hat', honce'⟩ := herror true
  refine ⟨k, hk, l, hl, ?_, ?_, ?_⟩
  · rw [hat, honce]
    rfl
  · rw [Bool.not_false, hat', honce]
    simp only [after, honce']
  · rw [honce, Bool.not_false]
    simp only [after, honce']

/-- Where one caller committed, the other failed before it, after it, or with an excuse. -/
theorem inTurn_or_overtakes {s : σ} {S : State Bool σ ν ε ρ} {i : Bool} {k : ℕ} {r : ρ}
    (hk : k ≤ (c i).retries) (hfirst : (c i).once k s = .ok (S.store, r))
    (htold : S.phase i = .done (.ok r))
    (hacross : Across (c !i) s S.store (stale (!i) s S.store) (S.phase !i))
    (hdone : ∃ q, S.phase (!i) = .done q) : ∃ i, InTurn c i s S ∨ Overtakes c stale i s S := by
  obtain ⟨q, hq⟩ := hdone
  rw [hq] at hacross
  cases q with
  | ok q => exact hacross.elim
  | error e =>
    rcases hacross with ⟨l, hl, herr⟩ | ⟨l, hl, herr⟩ | hexcused
    · refine ⟨!i, .inl ⟨l, hl, k, by rwa [Bool.not_not], ?_, ?_, ?_⟩⟩
      · rw [hq, herr]
        rfl
      · simp only [herr, after, Bool.not_not, hfirst, htold]
      · simp only [herr, after, Bool.not_not, hfirst]
    · refine ⟨i, .inl ⟨k, hk, l, hl, ?_, ?_, ?_⟩⟩
      · simp only [hfirst, after, htold]
      · simp only [hfirst, after, herr, hq]
      · simp only [hfirst, after, herr]
    · exact ⟨i, .inr ⟨k, hk, S.store, r, e, hfirst, rfl, htold, hq, hexcused⟩⟩

/-- When two callers are done, they took effect in turn, or one overtook the other. -/
theorem two_callers {s : σ} {S : State Bool σ ν ε ρ}
    {steps : List (Step (State Bool σ ν ε ρ) (Action Bool ε))}
    (hmix : ∀ i k t r, (c i).once k s = .ok (t, r) → Mixes (c !i) s t (stale (!i) s t))
    (h : Run (step c) (initial c s) steps S) (hdone : ∀ i, ∃ r, S.phase i = .done r) :
    ∃ i, InTurn c i s S ∨ Overtakes c stale i s S := by
  have hstage := (h.invariant (I := Stage c stale s) (Q := fun _ => True)
    (fun S a T hs _ hst => stage_step hmix hs hst) (fun _ _ => trivial)
    (.none rfl rfl fun i =>
      ⟨Nat.zero_le _, fun l hl => absurd hl (Nat.not_lt_zero l), [], rfl, rfl⟩)).1
  cases hstage with
  | none hstore hcommits halone =>
    subst hstore
    exact ⟨false, .inl (inTurn_of_alone halone hdone)⟩
  | one i k r hk hfirst hcommits htold hacross =>
    exact inTurn_or_overtakes hk hfirst htold hacross (hdone !i)
  | two i k l r q t hk hl hfirst hsecond htold hother =>
    refine ⟨i, .inl ⟨k, hk, l, hl, ?_, ?_, ?_⟩⟩
    · simp only [hfirst, after, htold]
    · simp only [hfirst, after, hsecond, hother]
    · simp only [hfirst, after, hsecond]

end Agmem.Transition.Optimistic
