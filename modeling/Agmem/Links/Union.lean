import Mathlib.Logic.Relation
import Mathlib.Order.Bounds.Defs
import Mathlib.Order.Iterate
import Mathlib.Order.MinMax
import Mathlib.Tactic.Common

/-! Disjoint sets over numbers, each set with its least member at the root. A parent is never above
its child, so the climb from `i` ends after at most `i` steps; looking up a root moves nodes closer
to it and changes no root. -/

namespace Agmem.Links

open Relation

section Generated

variable {α β : Type*} {R : α → α → Prop} {a b : α}

theorem eq_of_eqvGen {f : α → β} (hf : ∀ a b, R a b → f a = f b) (h : EqvGen R a b) :
    f a = f b := by
  induction h with
  | rel a b hab => exact hf a b hab
  | refl a => rfl
  | symm a b _ ih => exact ih.symm
  | trans a b c _ _ ih ih' => exact ih.trans ih'

theorem eqvGen_map {S : β → β → Prop} {f : α → β} (hf : ∀ a b, R a b → S (f a) (f b))
    (h : EqvGen R a b) : EqvGen S (f a) (f b) := by
  induction h with
  | rel a b hab => exact .rel _ _ (hf a b hab)
  | refl a => exact .refl _
  | symm a b _ ih => exact ih.symm
  | trans a b c _ _ ih ih' => exact ih.trans _ _ _ ih'

/-- What is linked to something else has a link of its own. -/
theorem eqvGen_touched (h : EqvGen R a b) :
    a = b ∨ (∃ c, R a c ∨ R c a) ∧ ∃ c, R b c ∨ R c b := by
  induction h with
  | rel a b hab => exact .inr ⟨⟨b, .inl hab⟩, ⟨a, .inr hab⟩⟩
  | refl a => exact .inl rfl
  | symm a b _ ih => exact ih.imp Eq.symm And.symm
  | trans a b c _ _ ih ih' =>
    rcases ih with rfl | ⟨ha, hb⟩
    · exact ih'
    · rcases ih' with rfl | ⟨-, hc⟩
      · exact .inr ⟨ha, hb⟩
      · exact .inr ⟨ha, hc⟩

end Generated

structure Union where
  parent : ℕ → ℕ
  le : ∀ i, parent i ≤ i

namespace Union

/-- Every number by itself. -/
def new : Union := ⟨id, fun _ => le_rfl⟩

def set (u : Union) (i p : ℕ) (h : p ≤ i) : Union where
  parent := Function.update u.parent i p
  le j := by
    by_cases hj : j = i
    · subst hj
      rwa [Function.update_self]
    · rw [Function.update_of_ne hj]
      exact u.le j

/-- A node is pointed at its grandparent. -/
def halve (u : Union) (i : ℕ) : Union :=
  u.set i (u.parent (u.parent i)) ((u.le _).trans (u.le _))

def rootFrom : ℕ → Union → ℕ → Union × ℕ
  | 0, u, i => (u, i)
  | fuel + 1, u, i =>
    if u.parent i = i then (u, i) else rootFrom fuel (u.halve i) ((u.halve i).parent i)

/-- The root of `i`, and the sets as the climb leaves them. -/
def root (u : Union) (i : ℕ) : Union × ℕ := rootFrom i u i

/-- The greater root is put under the lesser. -/
def join (u : Union) (left right : ℕ) : Union :=
  let first := u.root left
  let second := first.1.root right
  if first.2 = second.2 then second.1
  else second.1.set (max first.2 second.2) (min first.2 second.2) min_le_max

/-- The root of `i`, when nothing is moved on the way. -/
def find (u : Union) (i : ℕ) : ℕ := u.parent^[i] i

variable {u : Union} {i j : ℕ}

/-! ### Roots -/

/-- After `i` steps the climb has ended. -/
theorem iterate_fixed (u : Union) {n : ℕ} (h : i ≤ n) :
    u.parent (u.parent^[n] i) = u.parent^[n] i := by
  induction n generalizing i with
  | zero =>
    obtain rfl := Nat.le_zero.mp h
    exact Nat.le_zero.mp (u.le 0)
  | succ n ih =>
    rw [Function.iterate_succ_apply]
    by_cases hroot : u.parent i = i
    · rw [hroot, Function.iterate_fixed hroot, hroot]
    · have hlt := lt_of_le_of_ne (u.le i) hroot
      exact ih (by omega)

theorem find_fixed (u : Union) (i : ℕ) : u.parent (u.find i) = u.find i := u.iterate_fixed le_rfl

theorem find_of_root (h : u.parent i = i) : u.find i = i := Function.iterate_fixed h i

/-- What is constant along parents, and itself at the roots, is the root. -/
theorem eq_find {f : ℕ → ℕ} (hroot : ∀ r, u.parent r = r → f r = r)
    (hparent : ∀ i, f (u.parent i) = f i) (i : ℕ) : f i = u.find i := by
  have hiterate (n : ℕ) : f (u.parent^[n] i) = f i := by
    induction n with
    | zero => rfl
    | succ n ih => rw [Function.iterate_succ_apply', hparent, ih]
  rw [← hiterate i]
  exact hroot _ (u.find_fixed i)

theorem iterate_eq_find (u : Union) {n : ℕ} (h : i ≤ n) : u.parent^[n] i = u.find i := by
  obtain ⟨k, rfl⟩ := Nat.exists_eq_add_of_le' h
  rw [Function.iterate_add_apply]
  exact Function.iterate_fixed (u.find_fixed i) k

theorem find_parent (u : Union) (i : ℕ) : u.find (u.parent i) = u.find i := by
  rw [← u.iterate_eq_find (u.le i), ← u.iterate_eq_find (Nat.le_succ i)]
  exact (Function.iterate_succ_apply u.parent i i).symm

theorem find_find (u : Union) (i : ℕ) : u.find (u.find i) = u.find i :=
  find_of_root (u.find_fixed i)

theorem find_new (i : ℕ) : new.find i = i := find_of_root rfl

/-! ### What lookups and joins do -/

theorem halve_parent (u : Union) (i : ℕ) : (u.halve i).parent i = u.parent (u.parent i) :=
  Function.update_self i _ u.parent

/-- Halving a path moves no root. -/
theorem find_halve (u : Union) (i j : ℕ) : (u.halve i).find j = u.find j := by
  refine (eq_find (fun r hr => ?_) (fun k => ?_) j).symm
  · by_cases hri : r = i
    · subst hri
      change Function.update u.parent r (u.parent (u.parent r)) r = r at hr
      rw [Function.update_self] at hr
      have hle := u.le (u.parent r)
      exact find_of_root (le_antisymm (u.le r) (by omega))
    · change Function.update u.parent i _ r = r at hr
      rw [Function.update_of_ne hri] at hr
      exact find_of_root hr
  · change u.find (Function.update u.parent i _ k) = u.find k
    by_cases hki : k = i
    · subst hki
      rw [Function.update_self, find_parent, find_parent]
    · rw [Function.update_of_ne hki, find_parent]

/-- The climb ends at the root, and has moved no root. -/
theorem rootFrom_eq {fuel : ℕ} (h : i ≤ fuel) :
    (∀ j, (rootFrom fuel u i).1.find j = u.find j) ∧ (rootFrom fuel u i).2 = u.find i := by
  induction fuel generalizing u i with
  | zero =>
    obtain rfl := Nat.le_zero.mp h
    exact ⟨fun _ => rfl, rfl⟩
  | succ fuel ih =>
    unfold rootFrom
    split_ifs with hroot
    · exact ⟨fun _ => rfl, (find_of_root hroot).symm⟩
    · have hlt : (u.halve i).parent i ≤ fuel := by
        have hparent := u.le i
        have hle := u.le (u.parent i)
        have hgrand := u.halve_parent i
        omega
      obtain ⟨hfind, hat⟩ := ih hlt (u := u.halve i)
      refine ⟨fun j => (hfind j).trans (u.find_halve i j), ?_⟩
      rw [hat, find_halve, halve_parent, find_parent, find_parent]

/-- A climb of more turns than it takes ends where it would have ended. -/
theorem rootFrom_congr {fuel fuel' : ℕ} (h : i ≤ fuel) (h' : i ≤ fuel') :
    rootFrom fuel u i = rootFrom fuel' u i := by
  induction fuel generalizing fuel' u i with
  | zero =>
    obtain rfl := Nat.le_zero.mp h
    have hroot : u.parent 0 = 0 := Nat.le_zero.mp (u.le 0)
    cases fuel' with
    | zero => rfl
    | succ fuel' => exact (if_pos hroot).symm
  | succ fuel ih =>
    by_cases hroot : u.parent i = i
    · cases fuel' with
      | zero => exact if_pos hroot
      | succ fuel' => exact (if_pos hroot).trans (if_pos hroot).symm
    · have hparent := lt_of_le_of_ne (u.le i) hroot
      have hlt : (u.halve i).parent i < i := by
        rw [halve_parent]
        exact (u.le _).trans_lt hparent
      obtain ⟨fuel', rfl⟩ : ∃ k, fuel' = k + 1 := Nat.exists_eq_succ_of_ne_zero (by omega)
      exact (if_neg hroot).trans ((ih (by omega) (by omega)).trans (if_neg hroot).symm)

theorem root_of_root (h : u.parent i = i) : u.root i = (u, i) := by
  unfold root
  cases i with
  | zero => rfl
  | succ i => exact if_pos h

theorem root_of_ne (h : u.parent i ≠ i) :
    u.root i = (u.halve i).root ((u.halve i).parent i) := by
  have hparent := lt_of_le_of_ne (u.le i) h
  obtain ⟨k, rfl⟩ : ∃ k, i = k + 1 := Nat.exists_eq_succ_of_ne_zero (by omega)
  refine (if_neg h).trans (rootFrom_congr ?_ le_rfl)
  have hle := u.le (u.parent (k + 1))
  rw [halve_parent]
  omega

theorem find_le (u : Union) (i : ℕ) : u.find i ≤ i := by
  have hle (n : ℕ) : u.parent^[n] i ≤ i := by
    induction n with
    | zero => exact le_rfl
    | succ n ih =>
      rw [Function.iterate_succ_apply']
      exact (u.le _).trans ih
  exact hle i

theorem root_snd (u : Union) (i : ℕ) : (u.root i).2 = u.find i := (rootFrom_eq le_rfl).2

theorem find_root (u : Union) (i j : ℕ) : (u.root i).1.find j = u.find j :=
  (rootFrom_eq le_rfl).1 j

/-- A root is put under another one. -/
theorem find_set {r p : ℕ} (hr : u.parent r = r) (hp : u.parent p = p) (h : p ≤ r) (j : ℕ) :
    (u.set r p h).find j = if u.find j = r then p else u.find j := by
  refine (eq_find (f := fun j => if u.find j = r then p else u.find j) (fun x hx => ?_)
    (fun k => ?_) j).symm
  · change Function.update u.parent r p x = x at hx
    by_cases hxr : x = r
    · subst hxr
      rw [Function.update_self] at hx
      simp [find_of_root hr, hx]
    · rw [Function.update_of_ne hxr] at hx
      simp [find_of_root hx, hxr]
  · change (if u.find (Function.update u.parent r p k) = r then p
      else u.find (Function.update u.parent r p k)) = _
    by_cases hkr : k = r
    · subst hkr
      rw [Function.update_self, find_of_root hr, find_of_root hp, if_pos rfl, ite_self]
    · rw [Function.update_of_ne hkr, find_parent]

theorem find_join (u : Union) (left right j : ℕ) : (u.join left right).find j =
    if u.find j = max (u.find left) (u.find right) then min (u.find left) (u.find right)
    else u.find j := by
  have hfind (k : ℕ) : ((u.root left).1.root right).1.find k = u.find k := by
    rw [find_root, find_root]
  have hfirst : (u.root left).2 = u.find left := root_snd u left
  have hsecond : ((u.root left).1.root right).2 = u.find right := by rw [root_snd, find_root]
  have hfixed {k : ℕ} (hk : u.find k = k) : ((u.root left).1.root right).1.parent k = k := by
    have hroot := ((u.root left).1.root right).1.find_fixed k
    rwa [hfind, hk] at hroot
  have hmax : u.find (max (u.find left) (u.find right)) = max (u.find left) (u.find right) := by
    rcases max_choice (u.find left) (u.find right) with h | h <;> rw [h, find_find]
  have hmin : u.find (min (u.find left) (u.find right)) = min (u.find left) (u.find right) := by
    rcases min_choice (u.find left) (u.find right) with h | h <;> rw [h, find_find]
  unfold join
  simp only [hfirst, hsecond]
  split_ifs with hsame hj hj
  · rw [hfind, hj, hsame, max_self, min_self]
  · exact hfind j
  · rw [find_set (hfixed hmax) (hfixed hmin), hfind, if_pos hj]
  · rw [find_set (hfixed hmax) (hfixed hmin), hfind, if_neg hj]

/-! ### Joining pairs -/

def joins (u : Union) (pairs : List (ℕ × ℕ)) : Union := pairs.foldl (fun u p => u.join p.1 p.2) u

/-- What was together stays together. -/
theorem find_join_of_eq (h : u.find i = u.find j) (left right : ℕ) :
    (u.join left right).find i = (u.join left right).find j := by
  rw [find_join, find_join, h]

theorem find_join_self (u : Union) (left right : ℕ) :
    (u.join left right).find left = (u.join left right).find right := by
  rw [find_join, find_join]
  rcases le_total (u.find left) (u.find right) with h | h
  · rw [max_eq_right h, min_eq_left h, if_pos rfl]
    split_ifs <;> rfl
  · rw [max_eq_left h, min_eq_right h, if_pos rfl]
    split_ifs <;> rfl

theorem find_joins_of_eq {pairs : List (ℕ × ℕ)} (h : u.find i = u.find j) :
    (u.joins pairs).find i = (u.joins pairs).find j := by
  induction pairs generalizing u with
  | nil => exact h
  | cons p ps ih => exact ih (find_join_of_eq h p.1 p.2)

theorem find_joins_of_mem {pairs : List (ℕ × ℕ)} (h : (i, j) ∈ pairs) :
    (u.joins pairs).find i = (u.joins pairs).find j := by
  induction pairs generalizing u with
  | nil => exact absurd h List.not_mem_nil
  | cons p ps ih =>
    rcases List.mem_cons.mp h with rfl | h
    · exact find_joins_of_eq (u := u.join i j) (find_join_self u i j)
    · exact ih h

/-- Joins only look at roots. -/
theorem find_join_congr {v : Union} (h : ∀ k, u.find k = v.find k) (left right k : ℕ) :
    (u.join left right).find k = (v.join left right).find k := by
  rw [find_join, find_join, h left, h right, h k]

theorem find_joins_congr {v : Union} (h : ∀ k, u.find k = v.find k) (pairs : List (ℕ × ℕ))
    (k : ℕ) : (u.joins pairs).find k = (v.joins pairs).find k := by
  induction pairs generalizing u v with
  | nil => exact h k
  | cons p ps ih => exact ih (find_join_congr h p.1 p.2)

/-- A join links nothing to its root that was not linked by what joined it. -/
theorem eqvGen_find_join {R : ℕ → ℕ → Prop} (hu : ∀ i, EqvGen R i (u.find i)) {left right : ℕ}
    (hR : EqvGen R left right) (i : ℕ) : EqvGen R i ((u.join left right).find i) := by
  have hroots : EqvGen R (u.find left) (u.find right) :=
    ((hu left).symm.trans _ _ _ hR).trans _ _ _ (hu right)
  have hminmax :
      EqvGen R (max (u.find left) (u.find right)) (min (u.find left) (u.find right)) := by
    rcases le_total (u.find left) (u.find right) with h | h
    · rw [max_eq_right h, min_eq_left h]
      exact hroots.symm
    · rw [max_eq_left h, min_eq_right h]
      exact hroots
  rw [find_join]
  split_ifs with h
  · exact (h ▸ hu i).trans _ _ _ hminmax
  · exact hu i

theorem eqvGen_find_joins {R : ℕ → ℕ → Prop} (hu : ∀ i, EqvGen R i (u.find i))
    {pairs : List (ℕ × ℕ)} (hR : ∀ p ∈ pairs, R p.1 p.2) (i : ℕ) :
    EqvGen R i ((u.joins pairs).find i) := by
  induction pairs generalizing u with
  | nil => exact hu i
  | cons p ps ih =>
    obtain ⟨hp, hps⟩ := List.forall_mem_cons.mp hR
    exact ih (eqvGen_find_join hu (.rel _ _ hp)) hps

/-- Two numbers have one root exactly if the pairs link them. -/
theorem find_joins_iff {pairs : List (ℕ × ℕ)} :
    (new.joins pairs).find i = (new.joins pairs).find j ↔
      EqvGen (fun a b => (a, b) ∈ pairs) i j := by
  constructor
  · intro h
    have hroot : ∀ k, EqvGen (fun a b => (a, b) ∈ pairs) k ((new.joins pairs).find k) := by
      refine eqvGen_find_joins (fun k => ?_) fun p hp => hp
      rw [find_new]
      exact .refl k
    exact (hroot i).trans _ _ _ (h ▸ (hroot j).symm)
  · exact eq_of_eqvGen fun a b => find_joins_of_mem

/-- A root is the least of what the pairs link to it. -/
theorem isLeast_find_joins {pairs : List (ℕ × ℕ)} :
    IsLeast {k | EqvGen (fun a b => (a, b) ∈ pairs) i k} ((new.joins pairs).find i) := by
  constructor
  · exact find_joins_iff.mp (find_find _ i).symm
  · intro k hk
    rw [find_joins_iff.mpr hk]
    exact find_le _ k

end Union

end Agmem.Links
