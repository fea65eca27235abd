import Mathlib.Order.Bounds.Basic
import Agmem.Links.Union
import Agmem.Tools.Components

/-! The vector of parents that groups are joined in. A lookup rewrites the parents it climbs over,
and a climb is given a number of turns, so that running out of them is told from coming to a root.
Turn for turn it is the climb of `Links.Union`, whose roots are known. -/

namespace Agmem.Tools

open Links Relation

/-- The ways a lookup ends without a root: an index past the end, or no turn left to climb in. -/
inductive Stop
  | outOfBounds
  | outOfTurns
  deriving DecidableEq, Repr

abbrev Parents := List ℕ

namespace Parents

/-- `Union::new`. -/
def new (size : ℕ) : Parents := List.range size

/-- `Union::root`, with the turns of its loop. -/
def root : ℕ → Parents → ℕ → Except Stop (Parents × ℕ)
  | 0, _, _ => .error .outOfTurns
  | turns + 1, parents, index =>
    match parents[index]? with
    | none => .error .outOfBounds
    | some parent =>
      if parent = index then .ok (parents, index)
      else match parents[parent]? with
        | none => .error .outOfBounds
        | some grandparent => root turns (parents.set index grandparent) grandparent

/-- `Union::join`. -/
def join (turns : ℕ) (parents : Parents) (left right : ℕ) : Except Stop Parents := do
  let (parents, left) ← root turns parents left
  let (parents, right) ← root turns parents right
  pure (if left = right then parents else parents.set (max left right) (min left right))

inductive Call
  | root (index : ℕ)
  | join (left right : ℕ)
  deriving DecidableEq, Repr

def Call.Within (size : ℕ) : Call → Prop
  | .root index => index < size
  | .join left right => left < size ∧ right < size

def Call.run (turns : ℕ) (parents : Parents) : Call → Except Stop Parents
  | .root index => (Parents.root turns parents index).map Prod.fst
  | .join left right => parents.join turns left right

instance (size : ℕ) : DecidablePred (Call.Within size)
  | .root index => inferInstanceAs (Decidable (index < size))
  | .join left right => inferInstanceAs (Decidable (left < size ∧ right < size))

def run (turns : ℕ) (parents : Parents) (calls : List Call) : Except Stop Parents :=
  calls.foldlM (Call.run turns) parents

/-! ### The sets a vector shows -/

structure Shows (parents : Parents) (size : ℕ) (u : Union) : Prop where
  length : parents.length = size
  get : ∀ i < size, parents[i]? = some (u.parent i)

variable {parents : Parents} {size turns i j p : ℕ} {u : Union}

theorem shows_new (size : ℕ) : Shows (new size) size Union.new where
  length := List.length_range
  get i hi := by rw [new, List.getElem?_range hi]; rfl

theorem Shows.set (h : Shows parents size u) (hi : i < size) (hp : p ≤ i) :
    Shows (List.set parents i p) size (u.set i p hp) where
  length := List.length_set.trans h.length
  get j hj := by
    by_cases hij : i = j
    · subst hij
      have hlen : i < parents.length := h.length ▸ hi
      rw [List.getElem?_set_self hlen]
      exact congrArg some (Function.update_self i p u.parent).symm
    · rw [List.getElem?_set_ne hij, h.get j hj]
      exact congrArg some (Function.update_of_ne (Ne.symm hij) _ u.parent).symm

theorem Shows.halve (h : Shows parents size u) (hi : i < size) :
    Shows (List.set parents i (u.parent (u.parent i))) size (u.halve i) := h.set hi _

/-- One turn of the climb is one turn of the climb it shows, and what is left of it is shorter. -/
theorem Shows.root (h : Shows parents size u) (hi : i < size) (hturns : i < turns) :
    ∃ after, Parents.root turns parents i = .ok (after, (u.root i).2) ∧
      Shows after size (u.root i).1 := by
  induction turns generalizing parents u i with
  | zero => exact absurd hturns (Nat.not_lt_zero i)
  | succ turns ih =>
    have hparent := u.le i
    simp only [Parents.root, h.get i hi]
    by_cases hroot : u.parent i = i
    · rw [if_pos hroot, Union.root_of_root hroot]
      exact ⟨parents, rfl, h⟩
    · have hgrand := u.le (u.parent i)
      simp only [if_neg hroot, h.get (u.parent i) (hparent.trans_lt hi)]
      rw [Union.root_of_ne hroot, Union.halve_parent]
      exact ih (h.halve hi) (by omega) (by omega)

theorem Shows.join (h : Shows parents size u) (hi : i < size) (hj : j < size)
    (hturns : size ≤ turns) :
    ∃ after, Parents.join turns parents i j = .ok after ∧ Shows after size (u.join i j) := by
  obtain ⟨first, hfirst, hshows⟩ := h.root hi (hi.trans_le hturns)
  obtain ⟨second, hsecond, hshows⟩ := hshows.root hj (hj.trans_le hturns)
  have hleft : (u.root i).2 ≤ i := (u.root_snd i).trans_le (u.find_le i)
  have hright : ((u.root i).1.root j).2 ≤ j := (Union.root_snd _ j).trans_le (Union.find_le _ j)
  unfold Parents.join Union.join
  rw [hfirst]
  simp only [bind, Except.bind, hsecond, pure, Except.pure]
  refine ⟨_, rfl, ?_⟩
  split_ifs with hsame
  · exact hshows
  · exact hshows.set (max_lt (hleft.trans_lt hi) (hright.trans_lt hj)) _

/-! ### Any sequence of calls -/

def Call.pair : Call → Option (ℕ × ℕ)
  | .root _ => none
  | .join left right => some (left, right)

/-- A call shows the sets that its pair, when it has one, joins. -/
theorem Shows.call {call : Call} (h : Shows parents size u) (hwithin : call.Within size)
    (hturns : size ≤ turns) : ∃ after v, call.run turns parents = .ok after ∧ Shows after size v ∧
      ∀ j, v.find j = (u.joins call.pair.toList).find j := by
  cases call with
  | root index =>
    obtain ⟨after, hafter, hshows⟩ := h.root hwithin (lt_of_lt_of_le hwithin hturns)
    refine ⟨after, _, ?_, hshows, u.find_root index⟩
    rw [Call.run, hafter]
    rfl
  | join left right =>
    obtain ⟨after, hafter, hshows⟩ := h.join hwithin.1 hwithin.2 hturns
    exact ⟨after, _, hafter, hshows, fun j => rfl⟩

theorem Shows.run {calls : List Call} (h : Shows parents size u)
    (hwithin : ∀ call ∈ calls, call.Within size) (hturns : size ≤ turns) :
    ∃ after v, run turns parents calls = .ok after ∧ Shows after size v ∧
      ∀ j, v.find j = (u.joins (calls.filterMap Call.pair)).find j := by
  induction calls generalizing parents u with
  | nil => exact ⟨parents, u, rfl, h, fun _ => rfl⟩
  | cons call calls ih =>
    obtain ⟨hcall, hcalls⟩ := List.forall_mem_cons.mp hwithin
    obtain ⟨middle, v, hmiddle, hshows, hfind⟩ := h.call hcall hturns
    obtain ⟨after, w, hafter, hshows, hfind'⟩ := ih hshows hcalls
    refine ⟨after, w, ?_, hshows, fun j => ?_⟩
    · rw [Parents.run, List.foldlM_cons, hmiddle]
      exact hafter
    · rw [hfind', Union.find_joins_congr hfind]
      cases call <;> rfl

/-- The two ends of a join that was made. -/
def Joined (calls : List Call) (left right : ℕ) : Prop := .join left right ∈ calls

theorem mem_pairs {calls : List Call} :
    (i, j) ∈ calls.filterMap Call.pair ↔ Joined calls i j := by
  rw [List.mem_filterMap]
  constructor
  · rintro ⟨call, hcall, hpair⟩
    cases call with
    | root index => cases hpair
    | join left right =>
      cases hpair
      exact hcall
  · exact fun h => ⟨_, h, rfl⟩

/-- The vector that the close pairs are joined in shows the groups of `find_clusters`. -/
theorem run_close (sqrt : ℚ → ℚ) (bands : Core.Thresholds) (rows : List Store.Embedded)
    (hturns : rows.length ≤ turns) : ∃ after v,
      run turns (new rows.length) ((Consolidate.close bands (Consolidate.scores sqrt rows)).map
        fun pair => .join pair.1 pair.2) = .ok after ∧ Shows after rows.length v ∧
      Consolidate.grouped rows.length v =
        Consolidate.grouped rows.length
          (Consolidate.groups bands (Consolidate.scores sqrt rows)) := by
  have hwithin : ∀ call ∈ (Consolidate.close bands (Consolidate.scores sqrt rows)).map
      (fun pair => Call.join pair.1 pair.2), call.Within rows.length := by
    refine List.forall_mem_map.mpr fun pair hpair => ?_
    obtain ⟨-, s, hs, -⟩ := Consolidate.mem_close.mp hpair
    obtain ⟨hleft, hright⟩ := Consolidate.similarityAt_isSome.mp (Option.isSome_of_mem hs)
    exact ⟨Consolidate.lt_of_unitAt hleft, Consolidate.lt_of_unitAt hright⟩
  obtain ⟨after, v, hrun, hshows, hfind⟩ := (shows_new rows.length).run hwithin hturns
  have hpairs (pairs : List (ℕ × ℕ)) :
      (pairs.map fun pair => Call.join pair.1 pair.2).filterMap Call.pair = pairs := by
    rw [List.filterMap_map]
    exact List.filterMap_some
  refine ⟨after, v, hrun, hshows, ?_⟩
  have hsame : v.find = (Consolidate.groups bands (Consolidate.scores sqrt rows)).find := by
    funext j
    rw [hfind, hpairs]
    rfl
  rw [Consolidate.grouped_eq, Consolidate.grouped_eq, hsame]

/-! ### Indices past the end -/

theorem root_outOfBounds (hi : parents.length ≤ i) (hturns : 0 < turns) :
    Parents.root turns parents i = .error .outOfBounds := by
  obtain ⟨turns, rfl⟩ : ∃ k, turns = k + 1 := Nat.exists_eq_succ_of_ne_zero hturns.ne'
  simp only [Parents.root, List.getElem?_eq_none hi]

theorem Shows.call_outOfBounds {call : Call} (h : Shows parents size u)
    (hout : ¬call.Within size) (hturns : size < turns) :
    call.run turns parents = .error .outOfBounds := by
  have hpos : 0 < turns := (Nat.zero_le size).trans_lt hturns
  cases call with
  | root index =>
    have hindex : parents.length ≤ index := h.length.trans_le (not_lt.mp hout)
    rw [Call.run, root_outOfBounds hindex hpos]
    rfl
  | join left right =>
    by_cases hleft : left < size
    · obtain ⟨first, hfirst, hshows⟩ := h.root hleft (hleft.trans hturns)
      have hright : first.length ≤ right :=
        hshows.length.trans_le (not_lt.mp fun hright => hout ⟨hleft, hright⟩)
      simp only [Call.run, Parents.join, hfirst, bind, Except.bind, root_outOfBounds hright hpos]
    · have hleft : parents.length ≤ left := h.length.trans_le (not_lt.mp hleft)
      simp only [Call.run, Parents.join, bind, Except.bind, root_outOfBounds hleft hpos]

/-- The first call that is out of bounds ends the run, and every call before it comes back. -/
theorem Shows.run_outOfBounds {calls : List Call} (h : Shows parents size u)
    (hout : ¬∀ call ∈ calls, call.Within size) (hturns : size < turns) :
    Parents.run turns parents calls = .error .outOfBounds := by
  induction calls generalizing parents u with
  | nil => exact absurd (fun call hcall => absurd hcall List.not_mem_nil) hout
  | cons call calls ih =>
    rw [Parents.run, List.foldlM_cons]
    by_cases hcall : call.Within size
    · obtain ⟨middle, v, hmiddle, hshows, -⟩ := h.call hcall hturns.le
      rw [hmiddle]
      exact ih hshows fun hcalls => hout (List.forall_mem_cons.mpr ⟨hcall, hcalls⟩)
    · rw [h.call_outOfBounds hcall hturns]
      rfl

/-- However the calls are made: one past the end stops them, and after any others no parent is above
its child, every lookup comes to a root, and the roots are the least members of what was joined. -/
theorem root_eq_iff_joined {size turns : ℕ} (calls : List Call) (hturns : size < turns) :
    ((¬∀ call ∈ calls, call.Within size) →
      run turns (new size) calls = .error .outOfBounds) ∧
    ((∀ call ∈ calls, call.Within size) →
      ∃ parents : Parents, run turns (new size) calls = .ok parents ∧ parents.length = size ∧
        (∀ i p : ℕ, parents[i]? = some p → p ≤ i) ∧
        ∃ least : ℕ → ℕ,
          (∀ i < size, (Parents.root turns parents i).map Prod.snd = .ok (least i)) ∧
          (∀ i < size, ∀ j < size, least i = least j ↔ EqvGen (Joined calls) i j) ∧
          ∀ i < size, IsLeast {k | EqvGen (Joined calls) i k} (least i)) := by
  refine ⟨fun hout => (shows_new size).run_outOfBounds hout hturns, fun hwithin => ?_⟩
  obtain ⟨parents, u, hrun, hshows, hfind⟩ := (shows_new size).run hwithin hturns.le
  have hpairs : (fun a b => (a, b) ∈ calls.filterMap Call.pair) = Joined calls :=
    funext₂ fun _ _ => propext mem_pairs
  refine ⟨parents, hrun, hshows.length, fun i p hp => ?_, u.find, fun i hi => ?_,
    fun i _ j _ => ?_, fun i _ => ?_⟩
  · have hi : i < size := hshows.length ▸ (List.getElem?_eq_some_iff.mp hp).1
    rw [hshows.get i hi] at hp
    cases hp
    exact u.le i
  · obtain ⟨after, hroot, -⟩ := hshows.root hi (hi.trans hturns)
    rw [hroot, Union.root_snd]
    rfl
  · rw [hfind, hfind, Union.find_joins_iff, hpairs]
  · rw [hfind, ← hpairs]
    exact Union.isLeast_find_joins

theorem root_eq_iff_joined_chain :
    run 6 (new 5) [.join 3 4, .join 1 3] = .ok [0, 1, 2, 1, 3] ∧
      EqvGen (Joined [.join 3 4, .join 1 3]) 4 1 ∧
      IsLeast {k | EqvGen (Joined [.join 3 4, .join 1 3]) 4 k} 1 := by
  have hwithin : ∀ call ∈ [Call.join 3 4, .join 1 3], call.Within 5 := by
    decide
  obtain ⟨parents, hrun, -, -, least, hleast, hiff, hmin⟩ :=
    (@root_eq_iff_joined 5 6 _ (by decide)).2 hwithin
  obtain rfl : [0, 1, 2, 1, 3] = parents := Except.ok.inj hrun
  have hfour : 1 = least 4 := Except.ok.inj (hleast 4 (by decide))
  have hone : 1 = least 1 := Except.ok.inj (hleast 1 (by decide))
  exact ⟨rfl, (hiff 4 (by decide) 1 (by decide)).mp (hfour.symm.trans hone),
    hfour.symm ▸ hmin 4 (by decide)⟩

end Parents

end Agmem.Tools
