import Mathlib.Data.List.Infix
import Mathlib.Tactic.Common
import Mathlib.Tactic.SplitIfs

/-! Trees of directories, files and links. What stands at a location is found name by name from the
root, without following links; a removal takes a location with everything below it and changes
nothing else. -/

namespace Agmem.Files

/-- A part of a path as it is written. -/
inductive Step (ν : Type*)
  | here
  | up
  | name (n : ν)
  deriving DecidableEq, Repr

/-- Where a link points: from the root, or from the directory the link is in. -/
structure Target (ν : Type*) where
  absolute : Bool
  steps : List (Step ν)
  deriving DecidableEq, Repr

inductive Node (ν : Type*)
  | file (bytes : ℕ)
  | link (target : Target ν) (bytes : ℕ)
  | dir (children : List (ν × Node ν))

/-- A node without what is in it. -/
inductive Kind (ν : Type*)
  | file (bytes : ℕ)
  | link (target : Target ν) (bytes : ℕ)
  | dir
  deriving DecidableEq, Repr

namespace Node

variable {ν : Type*}

def kind : Node ν → Kind ν
  | .file bytes => .file bytes
  | .link target bytes => .link target bytes
  | .dir _ => .dir

mutual

/-- The bytes at a node and below it, a link counting as itself. -/
def bytes : Node ν → ℕ
  | .file bytes => bytes
  | .link _ bytes => bytes
  | .dir children => childrenBytes children

def childrenBytes : List (ν × Node ν) → ℕ
  | [] => 0
  | (_, child) :: children => child.bytes + childrenBytes children

end

variable [DecidableEq ν]

def get? : Node ν → List ν → Option (Node ν)
  | node, [] => some node
  | .dir children, n :: rest => (children.lookup n).bind fun child => get? child rest
  | _, _ :: _ => none

/-- What stands at a location. -/
def kindAt (tree : Node ν) (loc : List ν) : Option (Kind ν) := (tree.get? loc).map kind

/-- The names in the directory at a location. -/
def names (tree : Node ν) (loc : List ν) : List ν :=
  match tree.get? loc with
  | some (.dir children) => children.map Prod.fst
  | _ => []

/-- The tree without what stands at a location and below it. -/
def remove : Node ν → List ν → Node ν
  | .dir children, [n] => .dir (children.filter fun child => child.1 ≠ n)
  | .dir children, n :: m :: rest => .dir <| children.map fun child =>
      (child.1, if child.1 = n then remove child.2 (m :: rest) else child.2)
  | node, _ => node

/-! ### Looking up -/

variable {tree : Node ν} {loc path : List ν} {n : ν}

@[simp] theorem get?_nil (tree : Node ν) : tree.get? [] = some tree := by cases tree <;> rfl

theorem get?_append (tree : Node ν) (loc path : List ν) :
    tree.get? (loc ++ path) = (tree.get? loc).bind (·.get? path) := by
  induction loc generalizing tree with
  | nil => simp
  | cons n loc ih =>
    cases tree with
    | dir children =>
      simp only [List.cons_append, get?]
      cases children.lookup n with
      | none => rfl
      | some child => exact ih child
    | file bytes => rfl
    | link target bytes => rfl

theorem lookup_cons {β : Type*} (child : ν × β) (children : List (ν × β)) (n : ν) :
    (child :: children).lookup n = if n = child.1 then some child.2 else children.lookup n := by
  rw [List.lookup_cons]
  by_cases h : n = child.1
  · simp [h]
  · simp [h, beq_false_of_ne h]

theorem isSome_lookup {β : Type*} {children : List (ν × β)} :
    (children.lookup n).isSome ↔ n ∈ children.map Prod.fst := by
  induction children with
  | nil => simp
  | cons child children ih =>
    rw [lookup_cons, List.map_cons, List.mem_cons]
    split_ifs with h
    · simp [h]
    · rw [ih, or_iff_right h]

/-- A directory names what stands in it. -/
theorem mem_names : n ∈ tree.names loc ↔ (tree.kindAt (loc ++ [n])).isSome := by
  rw [names, kindAt, get?_append, Option.isSome_map]
  cases tree.get? loc with
  | none => simp
  | some node =>
    cases node with
    | dir children =>
      rw [← isSome_lookup]
      simp only [Option.bind_some, get?]
      cases children.lookup n <;> simp
    | file bytes => simp [get?]
    | link target bytes => simp [get?]

theorem kindAt_child {children : List (ν × Node ν)} (h : tree.get? loc = some (.dir children))
    (n : ν) : tree.kindAt (loc ++ [n]) = (children.lookup n).map kind := by
  rw [kindAt, get?_append, h, Option.bind_some, get?]
  cases children.lookup n <;> simp

/-- Only a directory has something in it. -/
theorem kindAt_of_isSome_append (h : (tree.kindAt (loc ++ n :: path)).isSome) :
    tree.kindAt loc = some .dir := by
  rw [kindAt, get?_append, Option.isSome_map] at h
  rw [kindAt]
  cases hnode : tree.get? loc with
  | none => simp [hnode] at h
  | some node =>
    cases node with
    | dir children => rfl
    | file bytes => simp [hnode, get?] at h
    | link target bytes => simp [hnode, get?] at h

/-! ### Removing -/

theorem lookup_filter {β : Type*} (children : List (ν × β)) (m n : ν) :
    (children.filter fun child => child.1 ≠ n).lookup m =
      if m = n then none else children.lookup m := by
  induction children with
  | nil => simp
  | cons child children ih =>
    by_cases hchild : child.1 = n
    · rw [List.filter_cons_of_neg (by simp [hchild]), ih, lookup_cons, hchild]
      split_ifs <;> rfl
    · rw [List.filter_cons_of_pos (by simp [hchild]), lookup_cons, ih, lookup_cons]
      split_ifs with hm hn
      · exact absurd (hm.symm.trans hn) hchild
      · rfl
      · rfl
      · rfl

theorem lookup_map {β : Type*} (children : List (ν × β)) (f : β → β) (m n : ν) :
    (children.map fun child => (child.1, if child.1 = n then f child.2 else child.2)).lookup m =
      if m = n then (children.lookup m).map f else children.lookup m := by
  induction children with
  | nil => simp
  | cons child children ih =>
    rw [List.map_cons, lookup_cons, ih, lookup_cons]
    by_cases hm : m = child.1
    · rw [if_pos hm, if_pos hm, ← hm]
      split_ifs <;> rfl
    · rw [if_neg hm, if_neg hm]

@[simp] theorem kindAt_nil (tree : Node ν) : tree.kindAt [] = some tree.kind := by
  rw [kindAt, get?_nil]
  rfl

theorem kindAt_dir (children : List (ν × Node ν)) (n : ν) (path : List ν) :
    (dir children).kindAt (n :: path) = (children.lookup n).bind (·.kindAt path) := by
  simp only [kindAt, get?, Option.map_bind]
  rfl

theorem kindAt_remove (tree : Node ν) (hloc : loc ≠ []) (path : List ν) :
    (tree.remove loc).kindAt path = if loc <+: path then none else tree.kindAt path := by
  induction loc generalizing tree path with
  | nil => exact absurd rfl hloc
  | cons n loc ih =>
    cases tree with
    | dir children =>
      cases path with
      | nil =>
        rw [if_neg (by simp)]
        cases loc <;> simp [remove, kind]
      | cons m path =>
        cases loc with
        | nil =>
          rw [remove, kindAt_dir, kindAt_dir, lookup_filter]
          by_cases hm : m = n
          · simp [hm]
          · simp [hm, Ne.symm hm]
        | cons k loc =>
          rw [remove, kindAt_dir, kindAt_dir, lookup_map children (·.remove (k :: loc))]
          by_cases hm : m = n
          · subst hm
            simp only [if_pos, List.cons_prefix_cons, true_and]
            cases children.lookup m with
            | none => simp
            | some child => exact ih child (List.cons_ne_nil k loc) path
          · rw [if_neg hm, if_neg fun h => hm (List.cons_prefix_cons.mp h).1.symm]
    | file bytes => cases path <;> simp [remove, kindAt, get?]
    | link target bytes => cases path <;> simp [remove, kindAt, get?]

/-- What is gone from the first tree is not in the second, and everything else stands there as it
stood. -/
structure Pruned (tree tree' : Node ν) (gone : List ν → Prop) : Prop where
  of_gone : ∀ {loc}, gone loc → tree'.kindAt loc = none
  of_not_gone : ∀ {loc}, ¬gone loc → tree'.kindAt loc = tree.kindAt loc

theorem pruned_refl (tree : Node ν) : tree.Pruned tree fun _ => False where
  of_gone h := h.elim
  of_not_gone _ := rfl

theorem pruned_remove (tree : Node ν) (hloc : loc ≠ []) :
    tree.Pruned (tree.remove loc) (loc <+: ·) where
  of_gone h := by rw [kindAt_remove tree hloc, if_pos h]
  of_not_gone h := by rw [kindAt_remove tree hloc, if_neg h]

theorem Pruned.trans {tree' tree'' : Node ν} {gone gone' : List ν → Prop}
    (h : tree.Pruned tree' gone) (h' : tree'.Pruned tree'' gone') :
    tree.Pruned tree'' fun loc => gone loc ∨ gone' loc where
  of_gone {loc} hgone := by
    by_cases hgone' : gone' loc
    · exact h'.of_gone hgone'
    · rw [h'.of_not_gone hgone', h.of_gone (hgone.resolve_right hgone')]
  of_not_gone hgone := by
    rw [h'.of_not_gone fun h => hgone (.inr h), h.of_not_gone fun h => hgone (.inl h)]

theorem Pruned.congr {tree' : Node ν} {gone gone' : List ν → Prop} (h : tree.Pruned tree' gone)
    (hgone : ∀ loc, gone' loc ↔ gone loc) : tree.Pruned tree' gone' := by
  obtain rfl : gone' = gone := funext fun loc => propext (hgone loc)
  exact h

theorem Pruned.eq_of_isSome {tree' : Node ν} {gone : List ν → Prop} (h : tree.Pruned tree' gone)
    (hloc : (tree'.kindAt loc).isSome) : ¬gone loc ∧ tree'.kindAt loc = tree.kindAt loc := by
  have hgone : ¬gone loc := fun hgone => by
    rw [h.of_gone hgone] at hloc
    cases hloc
  exact ⟨hgone, h.of_not_gone hgone⟩

theorem Pruned.mem_names {tree' : Node ν} {gone : List ν → Prop} (h : tree.Pruned tree' gone) :
    n ∈ tree'.names loc ↔ n ∈ tree.names loc ∧ ¬gone (loc ++ [n]) := by
  rw [Node.mem_names, Node.mem_names]
  constructor
  · intro hn
    obtain ⟨hgone, heq⟩ := h.eq_of_isSome hn
    exact ⟨heq ▸ hn, hgone⟩
  · rintro ⟨hn, hgone⟩
    rwa [h.of_not_gone hgone]

end Node

end Agmem.Files
