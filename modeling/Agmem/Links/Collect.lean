import Mathlib.Data.List.Nodup
import Mathlib.Logic.Relation
import Mathlib.Tactic.Common

/-! A bounded walk over links that gathers what it passes through: breadth first,
every node once, the start left out unless the walk comes back to it. What a walk
of depth `n` gathers is exactly what lies between one and `n` links away. Along a
line it is the line itself, cut after `n` nodes. -/

namespace Agmem.Links

open Relation

variable {κ : Type*}

/-- `b` lies `k` links away from `a`. -/
def Walk (links : κ → List κ) : ℕ → κ → κ → Prop
  | 0, a, b => a = b
  | k + 1, a, b => ∃ c ∈ links a, Walk links k c b

theorem Walk.zero {links : κ → List κ} (a : κ) : Walk links 0 a a := rfl

theorem Walk.cons {links : κ → List κ} {k : ℕ} {a b c : κ} (hc : c ∈ links a)
    (h : Walk links k c b) : Walk links (k + 1) a b := ⟨c, hc, h⟩

theorem Walk.single {links : κ → List κ} {a b : κ} (hb : b ∈ links a) : Walk links 1 a b :=
  .cons hb (.zero b)

theorem Walk.snoc {links : κ → List κ} {k : ℕ} {a b c : κ} (h : Walk links k a b)
    (hc : c ∈ links b) : Walk links (k + 1) a c := by
  induction k generalizing a with
  | zero => cases h; exact ⟨c, hc, rfl⟩
  | succ k ih =>
    obtain ⟨d, hd, hw⟩ := h
    exact ⟨d, hd, ih hw⟩

theorem Walk.transGen {links : κ → List κ} {k : ℕ} {a b : κ} (h : Walk links (k + 1) a b) :
    TransGen (fun x y => y ∈ links x) a b := by
  induction k generalizing a with
  | zero =>
    obtain ⟨c, hc, rfl⟩ := h
    exact .single hc
  | succ k ih =>
    obtain ⟨c, hc, hw⟩ := h
    exact .head hc (ih hw)

theorem Walk.append {links : κ → List κ} {j k : ℕ} {a b c : κ} (h : Walk links j a b)
    (h' : Walk links k b c) : Walk links (j + k) a c := by
  induction j generalizing a with
  | zero => cases h; rwa [Nat.zero_add]
  | succ j ih =>
    obtain ⟨d, hd, hw⟩ := h
    rw [Nat.add_right_comm]
    exact ⟨d, hd, ih hw⟩

theorem Walk.take {links : κ → List κ} {j k : ℕ} {a b : κ} (h : Walk links (j + k) a b) :
    ∃ c, Walk links j a c ∧ Walk links k c b := by
  induction j generalizing a with
  | zero => exact ⟨a, rfl, by rwa [Nat.zero_add] at h⟩
  | succ j ih =>
    rw [Nat.add_right_comm] at h
    obtain ⟨d, hd, hw⟩ := h
    obtain ⟨c, hc, hcb⟩ := ih hw
    exact ⟨c, ⟨d, hd, hc⟩, hcb⟩

/-- Where a node has one link at most, a longer walk runs along a shorter one. -/
theorem Walk.rest {links : κ → List κ} (hone : ∀ a b c, b ∈ links a → c ∈ links a → b = c)
    {j k : ℕ} {a b c : κ} (h : Walk links j a b) (h' : Walk links (j + k) a c) :
    Walk links k b c := by
  induction j generalizing a with
  | zero =>
    cases h
    rwa [Nat.zero_add] at h'
  | succ j ih =>
    obtain ⟨d, hd, hw⟩ := h
    rw [Nat.add_right_comm] at h'
    obtain ⟨e, he, hw'⟩ := h'
    cases hone a d e hd he
    exact ih hw hw'

/-- A walk out of what has been seen stays in it or leaves it through the frontier. -/
theorem leaves_through_frontier {links : κ → List κ} {frontier seen : List κ}
    (hclosed : ∀ s ∈ seen, s ∈ frontier ∨ links s ⊆ seen) {k : ℕ} {s y : κ} (hs : s ∈ seen)
    (h : Walk links k s y) : y ∈ seen ∨ ∃ x ∈ frontier, ∃ j < k, Walk links (j + 1) x y := by
  induction k generalizing s with
  | zero => cases h; exact .inl hs
  | succ k ih =>
    rcases hclosed s hs with hf | hsub
    · exact .inr ⟨s, hf, k, Nat.lt_succ_self k, h⟩
    · obtain ⟨c, hc, hw⟩ := h
      rcases ih (hsub hc) hw with h | ⟨x, hx, j, hj, hw⟩
      · exact .inl h
      · exact .inr ⟨x, hx, j, Nat.lt_succ_of_lt hj, hw⟩

variable [DecidableEq κ]

/-- The nodes not seen before, each once, in the order they are met. -/
def fresh (seen : List κ) : List κ → List κ
  | [] => []
  | x :: xs => if x ∈ seen then fresh seen xs else x :: fresh (x :: seen) xs

@[simp] theorem mem_fresh {seen xs : List κ} {y : κ} : y ∈ fresh seen xs ↔ y ∈ xs ∧ y ∉ seen := by
  induction xs generalizing seen with
  | nil => simp [fresh]
  | cons x xs ih =>
    simp only [fresh]
    split_ifs with hx
    · rw [ih]; grind
    · simp only [List.mem_cons, ih]; grind

theorem fresh_nodup (seen xs : List κ) : (fresh seen xs).Nodup := by
  induction xs generalizing seen with
  | nil => exact List.nodup_nil
  | cons x xs ih =>
    simp only [fresh]
    split_ifs
    · exact ih _
    · exact List.nodup_cons.mpr ⟨by simp, ih _⟩

theorem fresh_congr {seen seen' xs : List κ} (h : ∀ x ∈ xs, x ∈ seen ↔ x ∈ seen') :
    fresh seen xs = fresh seen' xs := by
  induction xs generalizing seen seen' with
  | nil => rfl
  | cons x xs ih =>
    obtain ⟨hx, hxs⟩ := List.forall_mem_cons.mp h
    simp only [fresh, hx]
    split_ifs
    · exact ih hxs
    · exact congrArg _ (ih fun y hy => by simp [hxs y hy])

/-- Each round gathers the links of what the last round found. -/
def collectFrom (links : κ → List κ) : ℕ → List κ → List κ → List κ
  | 0, _, seen => seen
  | n + 1, frontier, seen =>
    collectFrom links n (fresh seen (frontier.flatMap links))
      (seen ++ fresh seen (frontier.flatMap links))

/-- Everything at most `n` links away from `start`, nearest first. -/
def collect (links : κ → List κ) (n : ℕ) (start : κ) : List κ := collectFrom links n [start] []

variable {links : κ → List κ}

theorem collectFrom_nodup (n : ℕ) (frontier seen : List κ) (h : seen.Nodup) :
    (collectFrom links n frontier seen).Nodup := by
  induction n generalizing frontier seen with
  | zero => exact h
  | succ n ih =>
    refine ih _ _ (List.nodup_append.mpr ⟨h, fresh_nodup _ _, ?_⟩)
    rintro x hx y hy rfl
    exact (mem_fresh.mp hy).2 hx

theorem collect_nodup (links : κ → List κ) (n : ℕ) (start : κ) : (collect links n start).Nodup :=
  collectFrom_nodup n _ _ List.nodup_nil

theorem subset_collectFrom (n : ℕ) (frontier seen : List κ) :
    seen ⊆ collectFrom links n frontier seen := by
  induction n generalizing frontier seen with
  | zero => exact List.Subset.refl _
  | succ n ih => exact List.Subset.trans (List.subset_append_left _ _) (ih _ _)

theorem collectFrom_sound {n : ℕ} {frontier seen : List κ} {y : κ}
    (h : y ∈ collectFrom links n frontier seen) :
    y ∈ seen ∨ ∃ x ∈ frontier, ∃ k < n, Walk links (k + 1) x y := by
  induction n generalizing frontier seen with
  | zero => exact .inl h
  | succ n ih =>
    rcases ih h with h | ⟨x, hx, k, hk, hw⟩
    · rcases List.mem_append.mp h with h | h
      · exact .inl h
      · obtain ⟨x, hx, hy⟩ := List.mem_flatMap.mp (mem_fresh.mp h).1
        exact .inr ⟨x, hx, 0, Nat.succ_pos n, y, hy, rfl⟩
    · obtain ⟨z, hz, hx'⟩ := List.mem_flatMap.mp (mem_fresh.mp hx).1
      exact .inr ⟨z, hz, k + 1, Nat.succ_lt_succ hk, x, hx', hw⟩

theorem collectFrom_complete {n : ℕ} {frontier seen : List κ}
    (hclosed : ∀ s ∈ seen, s ∈ frontier ∨ links s ⊆ seen) {k : ℕ} (hk : k < n) {x y : κ}
    (hx : x ∈ frontier) (h : Walk links (k + 1) x y) : y ∈ collectFrom links n frontier seen := by
  induction n generalizing frontier seen k x with
  | zero => omega
  | succ n ih =>
    have hclosed' : ∀ s ∈ seen ++ fresh seen (frontier.flatMap links),
        s ∈ fresh seen (frontier.flatMap links) ∨
          links s ⊆ seen ++ fresh seen (frontier.flatMap links) := by
      intro s hs
      rcases List.mem_append.mp hs with hs | hs
      · rcases hclosed s hs with hf | hsub
        · refine .inr fun c hc => ?_
          by_cases hcs : c ∈ seen
          · exact List.mem_append_left _ hcs
          · exact List.mem_append_right _
              (mem_fresh.mpr ⟨List.mem_flatMap.mpr ⟨s, hf, hc⟩, hcs⟩)
        · exact .inr (List.Subset.trans hsub (List.subset_append_left _ _))
      · exact .inl hs
    -- the node after `x` is new and carries the walk on, or was seen, and then the walk
    -- leaves the seen nodes through the frontier again with fewer links to go
    induction k using Nat.strongRecOn generalizing x with
    | _ k ihk =>
      obtain ⟨c, hc, hw⟩ := h
      by_cases hcs : c ∈ seen
      · rcases leaves_through_frontier hclosed hcs hw with h | ⟨x', hx', j, hj, hw'⟩
        · exact subset_collectFrom _ _ _ h
        · exact ihk j hj (by omega) hx' hw'
      · have hfound : c ∈ fresh seen (frontier.flatMap links) :=
          mem_fresh.mpr ⟨List.mem_flatMap.mpr ⟨x, hx, hc⟩, hcs⟩
        cases k with
        | zero =>
          cases hw
          exact subset_collectFrom n _ _ (List.mem_append_right _ hfound)
        | succ k => exact ih hclosed' (by omega) hfound hw

/-- The walk gathers exactly what lies between one and `n` links away. -/
theorem mem_collect {n : ℕ} {x y : κ} :
    y ∈ collect links n x ↔ ∃ k < n, Walk links (k + 1) x y := by
  constructor
  · intro h
    rcases collectFrom_sound h with h | ⟨z, hz, k, hk, hw⟩
    · cases h
    · rw [List.mem_singleton] at hz
      exact ⟨k, hk, hz ▸ hw⟩
  · rintro ⟨k, hk, hw⟩
    exact collectFrom_complete (by simp) hk (List.mem_singleton_self x) hw

/-- What is out of reach can be seen beforehand. -/
theorem collectFrom_cons {n : ℕ} {x : κ} {frontier seen : List κ}
    (hx : x ∉ collectFrom links n frontier seen) :
    collectFrom links n frontier (x :: seen) = x :: collectFrom links n frontier seen := by
  induction n generalizing frontier seen with
  | zero => rfl
  | succ n ih =>
    have hsub : seen ++ fresh seen (frontier.flatMap links) ⊆ collectFrom links n
        (fresh seen (frontier.flatMap links)) (seen ++ fresh seen (frontier.flatMap links)) :=
      subset_collectFrom n _ _
    have hnot : x ∉ seen ∧ x ∉ fresh seen (frontier.flatMap links) :=
      ⟨fun h => hx (hsub (List.mem_append_left _ h)),
        fun h => hx (hsub (List.mem_append_right _ h))⟩
    have hmet : x ∉ frontier.flatMap links := fun h => hnot.2 (mem_fresh.mpr ⟨h, hnot.1⟩)
    have hfresh : fresh (x :: seen) (frontier.flatMap links) =
        fresh seen (frontier.flatMap links) :=
      fresh_congr fun y hy => by simp [ne_of_mem_of_not_mem hy hmet]
    rw [collectFrom, hfresh, List.cons_append]
    exact ih hx

theorem collectFrom_succ (n : ℕ) (frontier seen : List κ) : ∃ rest,
    collectFrom links (n + 1) frontier seen = collectFrom links n frontier seen ++ rest := by
  induction n generalizing frontier seen with
  | zero => exact ⟨_, rfl⟩
  | succ n ih => exact ih _ _

/-- One round more finds nothing where no walk is that long. -/
theorem collect_succ {n : ℕ} {x : κ} (h : ∀ y, ¬ Walk links (n + 1) x y) :
    collect links (n + 1) x = collect links n x := by
  obtain ⟨rest, hrest⟩ : ∃ rest, collectFrom links (n + 1) [x] [] =
      collectFrom links n [x] [] ++ rest := collectFrom_succ n [x] []
  have hnd : (collect links n x ++ rest).Nodup := hrest ▸ collect_nodup links (n + 1) x
  suffices rest = [] by rw [collect, hrest, this, List.append_nil, collect]
  refine List.eq_nil_iff_forall_not_mem.mpr fun y hy => ?_
  have hfound : y ∈ collect links (n + 1) x := by
    rw [collect, hrest]
    exact List.mem_append_right _ hy
  obtain ⟨k, hk, hw⟩ := mem_collect.mp hfound
  have hkn : k ≠ n := fun hkn => h y (hkn ▸ hw)
  exact (List.nodup_append.mp hnd).2.2 y (mem_collect.mpr ⟨k, by omega, hw⟩) y hy rfl

/-- The walk from a node with one link starts with the other end of it. -/
theorem collect_of_link {n : ℕ} {x y : κ} (hl : links y = [x]) (hx : x ∉ collect links n x) :
    collect links (n + 1) y = x :: collect links n x := by
  rw [collect, collectFrom]
  simp only [List.flatMap_cons, List.flatMap_nil, hl, List.append_nil, fresh, List.not_mem_nil,
    if_false, List.nil_append]
  exact collectFrom_cons hx

/-- From `x` the links run along `path`, one at a time, to its end. -/
def Along (links : κ → List κ) (x : κ) : List κ → Prop
  | [] => links x = []
  | y :: ys => links x = [y] ∧ Along links y ys

theorem collectFrom_along {n : ℕ} {x : κ} {path seen : List κ} (h : Along links x path)
    (hnd : (seen ++ path).Nodup) : collectFrom links n [x] seen = seen ++ path.take n := by
  induction n generalizing x path seen with
  | zero => simp [collectFrom]
  | succ n ih =>
    cases path with
    | nil =>
      have hl : links x = [] := h
      have hstuck : ∀ m, collectFrom links m [] seen = seen := by
        intro m
        induction m with
        | zero => rfl
        | succ m ihm => simpa [collectFrom, fresh] using ihm
      simpa [collectFrom, hl, fresh] using hstuck n
    | cons y ys =>
      obtain ⟨hl, hys⟩ := h
      have hy : y ∉ seen := fun hm =>
        (List.nodup_append.mp hnd).2.2 y hm y List.mem_cons_self rfl
      have hf : fresh seen ([x].flatMap links) = [y] := by simp [hl, fresh, hy]
      rw [collectFrom, hf, ih hys (by simpa using hnd)]
      simp

/-- Along a line the walk gathers the first `n` nodes of the line. -/
theorem collect_along {n : ℕ} {x : κ} {path : List κ} (h : Along links x path)
    (hnd : path.Nodup) : collect links n x = path.take n := by
  have := collectFrom_along (n := n) h (show ([] ++ path).Nodup by simpa using hnd)
  simpa [collect] using this

end Agmem.Links
