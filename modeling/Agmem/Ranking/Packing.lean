import Mathlib.Data.List.Forall2

/-! Batches. Items are packed into groups, each filled until the next item finds it full, and a
function of groups is applied to one after the other until it fails. Where the function does with a
group what it does with its items alone, so does the whole. -/

namespace Agmem.Ranking

variable {α β γ ε : Type*}

/-- `collect::<Result<_, _>>` -/
def collect (f : α → Except ε β) : List α → Except ε (List β)
  | [] => .ok []
  | x :: xs =>
    match f x with
    | .error e => .error e
    | .ok y =>
      match collect f xs with
      | .error e => .error e
      | .ok ys => .ok (y :: ys)

/-- The results of the groups one behind the other, up to the first that fails. -/
def extendAll (f : List α → Except ε (List β)) (done : List β) :
    List (List α) → Except ε (List β)
  | [] => .ok done
  | group :: groups =>
    match f group with
    | .error e => .error e
    | .ok more => extendAll f (done ++ more) groups

/-- Each group takes items until it is full for the next one; a group of none is never full. -/
def pack (full : List α → α → Bool) (group : List α) : List α → List (List α)
  | [] => if group.isEmpty then [] else [group]
  | x :: xs =>
    if full group x && !group.isEmpty then group :: pack full [x] xs
    else pack full (group ++ [x]) xs

/-! ### What is packed -/

variable {full : List α → α → Bool} {group items : List α}

theorem flatten_pack : (pack full group items).flatten = group ++ items := by
  induction items generalizing group with
  | nil =>
    rw [pack, List.append_nil]
    split_ifs with hempty
    · exact (List.isEmpty_iff.mp hempty).symm
    · exact List.flatten_singleton
  | cons x items ih =>
    rw [pack]
    split_ifs
    · rw [List.flatten_cons, ih, List.singleton_append]
    · rw [ih, List.append_assoc, List.singleton_append]

theorem ne_nil_of_mem_pack {g : List α} (hg : g ∈ pack full group items) : g ≠ [] := by
  induction items generalizing group with
  | nil =>
    rw [pack] at hg
    split_ifs at hg with hempty
    · cases hg
    · rw [List.mem_singleton.mp hg]
      exact fun h => hempty (List.isEmpty_iff.mpr h)
  | cons x items ih =>
    rw [pack] at hg
    split_ifs at hg with hfull
    · rcases List.mem_cons.mp hg with rfl | hg
      · rintro rfl
        simp at hfull
      · exact ih hg
    · exact ih hg

/-- What holds of each item alone, and of a group with one more that it is not full for, holds of
all groups. -/
theorem forall_pack {P : List α → Prop} (hone : ∀ x ∈ items, P [x])
    (hadd : ∀ g, ∀ x ∈ items, P g → full g x = false → P (g ++ [x]))
    (hgroup : group = [] ∨ P group) : ∀ g ∈ pack full group items, P g := by
  induction items generalizing group with
  | nil =>
    rw [pack]
    split_ifs with hempty
    · exact fun _ h => absurd h List.not_mem_nil
    · rintro g hg
      rw [List.mem_singleton.mp hg]
      exact hgroup.resolve_left fun h => hempty (List.isEmpty_iff.mpr h)
  | cons x items ih =>
    obtain ⟨hx, hone⟩ := List.forall_mem_cons.mp hone
    have ih {group : List α} := @ih group hone fun g y hy => hadd g y (List.mem_cons_of_mem x hy)
    rw [pack]
    split_ifs with hfull
    · simp only [Bool.and_eq_true, Bool.not_eq_true', List.isEmpty_eq_false_iff] at hfull
      exact List.forall_mem_cons.mpr ⟨hgroup.resolve_left hfull.2, ih (.inr hx)⟩
    · refine ih (.inr ?_)
      rcases hgroup with rfl | hgroup
      · exact hx
      · by_cases hempty : group = []
        · rw [hempty]
          exact hx
        · refine hadd group x List.mem_cons_self hgroup ?_
          simpa [hempty] using hfull

/-! ### What is applied -/

theorem collect_eq_ok_iff {f : α → Except ε β} {xs : List α} {ys : List β} :
    collect f xs = .ok ys ↔ List.Forall₂ (fun x y => f x = .ok y) xs ys := by
  induction xs generalizing ys with
  | nil =>
    rw [collect, Except.ok.injEq, List.forall₂_nil_left_iff]
    exact eq_comm
  | cons x xs ih =>
    rw [collect, List.forall₂_cons_left_iff]
    cases hx : f x with
    | error e => simp
    | ok y =>
      cases hxs : collect f xs with
      | error e =>
        refine iff_of_false (fun h => nomatch h) ?_
        rintro ⟨y', ys', -, hrest, -⟩
        cases hxs.symm.trans (ih.mpr hrest)
      | ok ys' =>
        constructor
        · intro h
          cases h
          exact ⟨y, ys', rfl, ih.mp hxs, rfl⟩
        · rintro ⟨y', ys'', hy, hrest, rfl⟩
          cases hy
          cases hxs.symm.trans (ih.mpr hrest)
          rfl

theorem exists_of_forall₂ {R : α → β → Prop} {xs : List α} {ys : List β} (h : List.Forall₂ R xs ys)
    {y : β} (hy : y ∈ ys) : ∃ x ∈ xs, R x y := by
  induction h with
  | nil => cases hy
  | cons hxy _ ih =>
    rcases List.mem_cons.mp hy with rfl | hy
    · exact ⟨_, List.mem_cons_self, hxy⟩
    · obtain ⟨x, hx, hxy⟩ := ih hy
      exact ⟨x, List.mem_cons_of_mem _ hx, hxy⟩

/-- Two passes item by item are one. -/
theorem exists_forall₂_iff {R : α → β → Prop} {S : β → γ → Prop} {xs : List α} {zs : List γ} :
    (∃ ys, List.Forall₂ R xs ys ∧ List.Forall₂ S ys zs) ↔
      List.Forall₂ (fun x z => ∃ y, R x y ∧ S y z) xs zs := by
  constructor
  · rintro ⟨ys, hxy, hyz⟩
    induction hxy generalizing zs with
    | nil =>
      cases hyz
      exact .nil
    | cons hxy _ ih =>
      cases hyz with
      | cons hyz hrest => exact .cons ⟨_, hxy, hyz⟩ (ih hrest)
  · intro h
    induction h with
    | nil => exact ⟨[], .nil, .nil⟩
    | cons hxz _ ih =>
      obtain ⟨y, hxy, hyz⟩ := hxz
      obtain ⟨ys, hxys, hyzs⟩ := ih
      exact ⟨y :: ys, .cons hxy hxys, .cons hyz hyzs⟩

theorem forall₂_append_left_iff {R : α → β → Prop} {xs xs' : List α} {ys : List β} :
    List.Forall₂ R (xs ++ xs') ys ↔
      ∃ zs zs', List.Forall₂ R xs zs ∧ List.Forall₂ R xs' zs' ∧ ys = zs ++ zs' := by
  induction xs generalizing ys with
  | nil => simp
  | cons x xs ih =>
    rw [List.cons_append, List.forall₂_cons_left_iff]
    constructor
    · rintro ⟨y, ys', hy, hrest, rfl⟩
      obtain ⟨zs, zs', hzs, hzs', rfl⟩ := ih.mp hrest
      exact ⟨y :: zs, zs', .cons hy hzs, hzs', rfl⟩
    · rintro ⟨zs, zs', hzs, hzs', rfl⟩
      cases hzs with
      | @cons _ y _ zs hy hzs => exact ⟨y, zs ++ zs', hy, ih.mpr ⟨zs, zs', hzs, hzs', rfl⟩, rfl⟩

/-- Where each group is answered item by item, so are the items of all groups. -/
theorem extendAll_eq_ok_iff {f : List α → Except ε (List β)} {R : α → β → Prop}
    {groups : List (List α)} {done out : List β}
    (h : ∀ g ∈ groups, ∀ ys, f g = .ok ys ↔ List.Forall₂ R g ys) :
    extendAll f done groups = .ok out ↔
      ∃ ys, out = done ++ ys ∧ List.Forall₂ R groups.flatten ys := by
  induction groups generalizing done with
  | nil =>
    rw [extendAll, Except.ok.injEq, List.flatten_nil]
    simp [eq_comm]
  | cons g groups ih =>
    obtain ⟨hg, hgroups⟩ := List.forall_mem_cons.mp h
    rw [extendAll, List.flatten_cons]
    simp only [forall₂_append_left_iff]
    cases hfg : f g with
    | error e =>
      refine iff_of_false (fun h => nomatch h) ?_
      rintro ⟨ys, -, zs, zs', hzs, -, -⟩
      cases hfg.symm.trans ((hg zs).mpr hzs)
    | ok more =>
      dsimp only
      rw [ih hgroups]
      constructor
      · rintro ⟨ys, rfl, hys⟩
        exact ⟨more ++ ys, List.append_assoc _ _ _, more, ys, (hg more).mp hfg, hys, rfl⟩
      · rintro ⟨ys, rfl, zs, zs', hzs, hzs', rfl⟩
        cases hfg.symm.trans ((hg zs).mpr hzs)
        exact ⟨zs', (List.append_assoc _ _ _).symm, hzs'⟩

end Agmem.Ranking
