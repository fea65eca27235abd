import Agmem.Files.Tree

/-! What a removal frees. Where no directory names an entry twice, a tree holds what it holds after
a removal and what stood at the place that went; what stands apart from that place is as large as
before. -/

namespace Agmem.Files.Node

variable {ν : Type*} [DecidableEq ν] {tree node : Node ν} {children : List (ν × Node ν)}
  {child : Node ν} {loc path : List ν} {n m : ν}

/-- No directory names an entry twice. -/
def Proper (tree : Node ν) : Prop := ∀ loc, (tree.names loc).Nodup

/-- The bytes at a location and below it. -/
def bytesAt (tree : Node ν) (loc : List ν) : ℕ := ((tree.get? loc).map bytes).getD 0

theorem names_dir (children : List (ν × Node ν)) : (dir children).names [] =
    children.map Prod.fst := rfl

theorem names_cons (children : List (ν × Node ν)) (n : ν) (path : List ν) :
    (dir children).names (n :: path) = ((children.lookup n).map (·.names path)).getD [] := by
  rw [names, get?]
  cases children.lookup n <;> rfl

theorem bytesAt_nil (tree : Node ν) : tree.bytesAt [] = tree.bytes := by
  rw [bytesAt, get?_nil]
  rfl

theorem bytesAt_cons (children : List (ν × Node ν)) (n : ν) (path : List ν) :
    (dir children).bytesAt (n :: path) = ((children.lookup n).map (·.bytesAt path)).getD 0 := by
  rw [bytesAt, get?]
  cases children.lookup n <;> rfl

theorem Proper.nodup (h : (dir children).Proper) : (children.map Prod.fst).Nodup := h []

theorem Proper.of_lookup (h : (dir children).Proper) (hn : children.lookup n = some child) :
    child.Proper := by
  intro loc
  have hloc := h (n :: loc)
  rwa [names_cons, hn] at hloc

theorem mem_of_lookup (h : children.lookup n = some child) :
    (n, child) ∈ children := by
  obtain ⟨before, behind, rfl, -⟩ := List.lookup_eq_some_iff.mp h
  exact List.mem_append_right _ (List.mem_cons_self ..)

theorem proper_dir (hnames : (children.map Prod.fst).Nodup)
    (h : ∀ c ∈ children, c.2.Proper) : (dir children).Proper := by
  intro loc
  cases loc with
  | nil => exact hnames
  | cons n loc =>
    rw [names_cons]
    cases hchild : children.lookup n with
    | none => exact List.nodup_nil
    | some child => exact h (n, child) (mem_of_lookup hchild) loc

theorem proper_file (bytes : ℕ) : (file bytes : Node ν).Proper := by
  intro loc
  cases loc <;> exact List.nodup_nil

theorem proper_link (target : Target ν) (bytes : ℕ) : (link target bytes).Proper := by
  intro loc
  cases loc <;> exact List.nodup_nil

/-! ### Names after a removal -/

theorem names_remove_sublist (tree : Node ν) (loc path : List ν) :
    ((tree.remove loc).names path).Sublist (tree.names path) := by
  induction loc generalizing tree path with
  | nil => cases tree <;> exact List.Sublist.refl _
  | cons n loc ih =>
    cases tree with
    | file bytes => exact List.Sublist.refl _
    | link target bytes => exact List.Sublist.refl _
    | dir children =>
      cases loc with
      | nil =>
        rw [remove]
        cases path with
        | nil => exact List.filter_sublist.map _
        | cons m path =>
          rw [names_cons, names_cons, lookup_filter]
          split_ifs
          · exact List.nil_sublist _
          · exact List.Sublist.refl _
      | cons k loc =>
        rw [remove]
        cases path with
        | nil =>
          rw [names_dir, names_dir, List.map_map]
          exact List.Sublist.refl _
        | cons m path =>
          rw [names_cons, names_cons, lookup_map children (·.remove (k :: loc))]
          split_ifs
          · cases children.lookup m with
            | none => exact List.Sublist.refl _
            | some child => exact ih child path
          · exact List.Sublist.refl _

theorem Proper.remove (h : tree.Proper) (loc : List ν) : (tree.remove loc).Proper :=
  fun path => (h path).sublist (names_remove_sublist tree loc path)

/-! ### Bytes after a removal -/

/-- A directory without one of its entries. -/
theorem childrenBytes_filter (hnodup : (children.map Prod.fst).Nodup)
    (hn : children.lookup n = some child) : childrenBytes children =
      childrenBytes (children.filter fun c => c.1 ≠ n) + child.bytes := by
  induction children with
  | nil => cases hn
  | cons c children ih =>
    rw [List.map_cons, List.nodup_cons] at hnodup
    rw [lookup_cons] at hn
    split_ifs at hn with hc
    · cases hn
      have hrest : children.filter (fun c => c.1 ≠ n) = children :=
        List.filter_eq_self.mpr fun d hd => decide_eq_true fun heq =>
          hnodup.1 (hc ▸ heq ▸ List.mem_map_of_mem hd)
      rw [List.filter_cons_of_neg (by simp [hc]), hrest, childrenBytes, Nat.add_comm]
    · rw [List.filter_cons_of_pos (by simpa using Ne.symm hc), childrenBytes, childrenBytes,
        ih hnodup.2 hn, Nat.add_assoc]

/-- A directory with one of its entries changed. -/
theorem childrenBytes_map {f : Node ν → Node ν} {freed : ℕ}
    (hnodup : (children.map Prod.fst).Nodup) (hn : children.lookup n = some child)
    (hf : child.bytes = (f child).bytes + freed) : childrenBytes children =
      childrenBytes (children.map fun c => (c.1, if c.1 = n then f c.2 else c.2)) + freed := by
  induction children with
  | nil => cases hn
  | cons c children ih =>
    rw [List.map_cons, List.nodup_cons] at hnodup
    rw [lookup_cons] at hn
    rw [List.map_cons, childrenBytes, childrenBytes]
    split_ifs at hn with hc
    · cases hn
      have hrest : children.map (fun c => (c.1, if c.1 = n then f c.2 else c.2)) = children := by
        conv_rhs => rw [← List.map_id children]
        refine List.map_congr_left fun d hd => ?_
        have hd' : d.1 ≠ n := fun heq => hnodup.1 (hc ▸ heq ▸ List.mem_map_of_mem hd)
        rw [if_neg hd']
        rfl
      rw [hrest, if_pos hc.symm, hf]
      omega
    · rw [if_neg (Ne.symm hc), ih hnodup.2 hn, Nat.add_assoc]

/-- What a removal frees is what stood at its place. -/
theorem bytes_remove (h : tree.Proper) (hloc : loc ≠ []) (hnode : tree.get? loc = some node) :
    tree.bytes = (tree.remove loc).bytes + node.bytes := by
  induction loc generalizing tree with
  | nil => exact absurd rfl hloc
  | cons n loc ih =>
    cases tree with
    | file bytes => cases hnode
    | link target bytes => cases hnode
    | dir children =>
      obtain ⟨child, hchild, hrest⟩ := Option.bind_eq_some_iff.mp hnode
      cases loc with
      | nil =>
        rw [get?_nil] at hrest
        cases hrest
        rw [remove, bytes, bytes]
        exact childrenBytes_filter h.nodup hchild
      | cons k loc =>
        rw [remove, bytes, bytes]
        exact childrenBytes_map (f := (·.remove (k :: loc))) h.nodup hchild
          (ih (h.of_lookup hchild) (List.cons_ne_nil k loc) hrest)

omit [DecidableEq ν] in
theorem childrenBytes_filter_le (p : ν × Node ν → Bool) (children : List (ν × Node ν)) :
    childrenBytes (children.filter p) ≤ childrenBytes children := by
  induction children with
  | nil => exact Nat.le_refl _
  | cons c children ih =>
    rw [List.filter_cons, childrenBytes]
    split_ifs
    · rw [childrenBytes]
      exact Nat.add_le_add_left ih _
    · exact Nat.le_add_left_of_le ih

omit [DecidableEq ν] in
theorem childrenBytes_map_le {f : ν × Node ν → Node ν} (hf : ∀ c, (f c).bytes ≤ c.2.bytes)
    (children : List (ν × Node ν)) :
    childrenBytes (children.map fun c => (c.1, f c)) ≤ childrenBytes children := by
  induction children with
  | nil => exact Nat.le_refl _
  | cons c children ih =>
    rw [List.map_cons, childrenBytes, childrenBytes]
    exact Nat.add_le_add (hf c) ih

theorem bytes_remove_le (tree : Node ν) (loc : List ν) : (tree.remove loc).bytes ≤ tree.bytes := by
  induction loc generalizing tree with
  | nil => cases tree <;> exact Nat.le_refl _
  | cons n loc ih =>
    cases tree with
    | file bytes => exact Nat.le_refl _
    | link target bytes => exact Nat.le_refl _
    | dir children =>
      cases loc with
      | nil =>
        rw [remove, bytes, bytes]
        exact childrenBytes_filter_le _ children
      | cons k loc =>
        rw [remove, bytes, bytes]
        refine childrenBytes_map_le (fun c => ?_) children
        split_ifs
        · exact ih c.2
        · exact Nat.le_refl _

/-- No place holds more after a removal; one that is apart from it holds as much. -/
theorem bytesAt_remove (tree : Node ν) (loc path : List ν) :
    (tree.remove loc).bytesAt path ≤ tree.bytesAt path ∧
      (¬loc <+: path → ¬path <+: loc → (tree.remove loc).bytesAt path = tree.bytesAt path) := by
  induction loc generalizing tree path with
  | nil => exact ⟨by cases tree <;> exact Nat.le_refl _, fun h => absurd (List.nil_prefix) h⟩
  | cons n loc ih =>
    cases tree with
    | file bytes => exact ⟨Nat.le_refl _, fun _ _ => rfl⟩
    | link target bytes => exact ⟨Nat.le_refl _, fun _ _ => rfl⟩
    | dir children =>
      cases path with
      | nil =>
        rw [bytesAt_nil, bytesAt_nil]
        exact ⟨bytes_remove_le _ _, fun _ h => absurd List.nil_prefix h⟩
      | cons m path =>
        cases loc with
        | nil =>
          rw [remove, bytesAt_cons, bytesAt_cons, lookup_filter]
          split_ifs with hm
          · exact ⟨Nat.zero_le _, fun h => absurd (by simp [hm]) h⟩
          · exact ⟨Nat.le_refl _, fun _ _ => rfl⟩
        | cons k loc =>
          rw [remove, bytesAt_cons, bytesAt_cons, lookup_map children (·.remove (k :: loc))]
          split_ifs with hm
          · subst hm
            simp only [List.cons_prefix_cons, true_and]
            cases children.lookup m with
            | none => exact ⟨Nat.le_refl _, fun _ _ => rfl⟩
            | some child => exact ih child path
          · exact ⟨Nat.le_refl _, fun _ _ => rfl⟩

end Agmem.Files.Node
