import Agmem.Files.Tree

/-! Paths through a tree. A path is walked part by part from the root, and a link met on the way is
walked in its place; each link takes one of the links that a path may pass. The locations that are
looked up on the way are the path's trail: in a tree from which something was pruned a path leads
where it led, unless its trail meets what is gone, and then it leads nowhere. -/

namespace Agmem.Files

variable {ν : Type*}

/-- A path from the root, as it is written. -/
abbrev Path (ν : Type*) := List (Step ν)

namespace Path

def join (path : Path ν) (n : ν) : Path ν := path ++ [.name n]

/-- The path that a location is written as. -/
def ofLoc (loc : List ν) : Path ν := loc.map .name

@[simp] theorem ofLoc_join (loc : List ν) (n : ν) : (ofLoc loc).join n = ofLoc (loc ++ [n]) := by
  simp [ofLoc, join]

theorem ofLoc_append (loc rest : List ν) : ofLoc (loc ++ rest) = ofLoc loc ++ ofLoc rest :=
  List.map_append

end Path

namespace Node

variable [DecidableEq ν]

/-- The walk of a path from a directory, with what is to be done at a link. -/
def walk (tree : Node ν) (follow : List ν → Path ν → Option (List ν)) :
    List ν → Path ν → Option (List ν)
  | loc, [] => some loc
  | loc, .here :: rest => walk tree follow loc rest
  | loc, .up :: rest => walk tree follow loc.dropLast rest
  | loc, .name n :: rest =>
    match tree.kindAt (loc ++ [n]) with
    | none => none
    | some .dir => walk tree follow (loc ++ [n]) rest
    | some (.link target _) =>
      follow (if target.absolute then [] else loc) (target.steps ++ rest)
    | some (.file _) => if rest.isEmpty then some (loc ++ [n]) else none

/-- The location that a path leads to from a directory, when it passes at most so many links. -/
def follow (tree : Node ν) : ℕ → List ν → Path ν → Option (List ν)
  | 0 => tree.walk fun _ _ => none
  | links + 1 => tree.walk (tree.follow links)

def trailWalk (tree : Node ν) (trail : List ν → Path ν → List (List ν)) :
    List ν → Path ν → List (List ν)
  | _, [] => []
  | loc, .here :: rest => trailWalk tree trail loc rest
  | loc, .up :: rest => trailWalk tree trail loc.dropLast rest
  | loc, .name n :: rest =>
    (loc ++ [n]) :: match tree.kindAt (loc ++ [n]) with
    | some .dir => trailWalk tree trail (loc ++ [n]) rest
    | some (.link target _) => trail (if target.absolute then [] else loc) (target.steps ++ rest)
    | _ => []

def trailFrom (tree : Node ν) : ℕ → List ν → Path ν → List (List ν)
  | 0 => tree.trailWalk fun _ _ => []
  | links + 1 => tree.trailWalk (tree.trailFrom links)

/-- `realpath`: the location that a path leads to. -/
def resolve (tree : Node ν) (links : ℕ) (path : Path ν) : Option (List ν) :=
  tree.follow links [] path

/-- The locations looked up on the way. -/
def trail (tree : Node ν) (links : ℕ) (path : Path ν) : List (List ν) :=
  tree.trailFrom links [] path

/-- `symlink_metadata`: the location that a path names, its last part not followed. -/
def location (tree : Node ν) (links : ℕ) (path : Path ν) : Option (List ν) :=
  match path.getLast? with
  | some (.name n) => (tree.resolve links path.dropLast).bind fun loc =>
      if (tree.kindAt (loc ++ [n])).isSome then some (loc ++ [n]) else none
  | _ => tree.resolve links path

def isDir (tree : Node ν) (links : ℕ) (path : Path ν) : Bool :=
  ((tree.resolve links path).bind tree.kindAt).any fun kind =>
    match kind with
    | .dir => true
    | _ => false

/-- `read_dir`: the names in the directory that a path leads to. -/
def namesAt (tree : Node ν) (links : ℕ) (path : Path ν) : List ν :=
  ((tree.resolve links path).map tree.names).getD []

variable {tree tree' : Node ν} {gone : List ν → Prop} {links : ℕ} {loc l : List ν} {n : ν}
  {path rest : Path ν}

theorem isDir_iff : tree.isDir links path ↔
    ∃ loc, tree.resolve links path = some loc ∧ tree.kindAt loc = some .dir := by
  unfold isDir
  cases tree.resolve links path with
  | none => simp
  | some loc =>
    cases hkind : tree.kindAt loc with
    | none => simp [hkind]
    | some kind => cases kind <;> simp [hkind]

theorem mem_namesAt : n ∈ tree.namesAt links path ↔
    ∃ loc, tree.resolve links path = some loc ∧ (tree.kindAt (loc ++ [n])).isSome := by
  unfold namesAt
  cases tree.resolve links path with
  | none => simp
  | some loc => simp [mem_names]

theorem location_join : tree.location links (path.join n) = some l ↔
    ∃ loc, tree.resolve links path = some loc ∧ (tree.kindAt (loc ++ [n])).isSome ∧
      l = loc ++ [n] := by
  simp only [location, Path.join, List.getLast?_concat, List.dropLast_concat,
    Option.bind_eq_some_iff]
  refine exists_congr fun loc => and_congr_right fun _ => ?_
  split_ifs with h
  · simp [h, eq_comm]
  · simp [h]

/-! ### Ways through directories -/

/-- What a longer path passes is there. -/
theorem walk_through {follow : List ν → Path ν → Option (List ν)}
    (hfollow : ∀ loc path, follow loc (path ++ .name n :: rest) = some l →
      ∃ m, follow loc path = some m ∧ (tree.kindAt (m ++ [n])).isSome)
    (h : tree.walk follow loc (path ++ .name n :: rest) = some l) :
    ∃ m, tree.walk follow loc path = some m ∧ (tree.kindAt (m ++ [n])).isSome := by
  induction path generalizing loc with
  | nil =>
    refine ⟨loc, rfl, ?_⟩
    rw [List.nil_append, walk] at h
    cases hkind : tree.kindAt (loc ++ [n]) with
    | none => simp [hkind] at h
    | some kind => rfl
  | cons step path ih =>
    cases step with
    | here => exact ih h
    | up => exact ih h
    | name m =>
      rw [List.cons_append, walk] at h
      rw [walk]
      cases hkind : tree.kindAt (loc ++ [m]) with
      | none => simp [hkind] at h
      | some kind =>
        cases kind with
        | dir =>
          simp only [hkind] at h
          exact ih h
        | link target bytes =>
          simp only [hkind, ← List.append_assoc] at h
          exact hfollow _ _ h
        | file bytes => simp [hkind] at h

theorem follow_through (h : tree.follow links loc (path ++ .name n :: rest) = some l) :
    ∃ m, tree.follow links loc path = some m ∧ (tree.kindAt (m ++ [n])).isSome := by
  induction links generalizing loc path with
  | zero =>
    refine @walk_through _ _ tree _ _ n path rest (fun _ _ => none) (fun _ _ hnone => ?_) h
    cases hnone
  | succ links ih => exact walk_through (fun _ _ h => ih h) h

theorem resolve_through (h : tree.resolve links (path.join n ++ rest) = some l) :
    n ∈ tree.namesAt links path := by
  rw [Path.join, List.append_assoc] at h
  exact mem_namesAt.mpr (follow_through h)

/-- Directories all the way down from the root. -/
def Solid (tree : Node ν) (loc : List ν) : Prop :=
  ∀ q, q ≠ [] → q <+: loc → tree.kindAt q = some .dir

theorem solid_nil (tree : Node ν) : tree.Solid [] :=
  fun _ hq hstart => absurd (List.prefix_nil.mp hstart) hq

theorem Solid.concat (h : tree.Solid loc) (hn : tree.kindAt (loc ++ [n]) = some .dir) :
    tree.Solid (loc ++ [n]) := by
  intro q hq hstart
  rcases List.prefix_concat_iff.mp hstart with rfl | hstart
  · exact hn
  · exact h q hq hstart

theorem Solid.of_prefix (h : tree.Solid loc) (hl : l <+: loc) : tree.Solid l :=
  fun q hq hstart => h q hq (hstart.trans hl)

/-- What stands somewhere is reached by directories. -/
theorem solid_of_isSome (h : (tree.kindAt (loc ++ [n])).isSome) : tree.Solid loc := by
  rintro q - ⟨rest, rfl⟩
  rw [List.append_assoc] at h
  cases hrest : rest ++ [n] with
  | nil => simp at hrest
  | cons m ms =>
    rw [hrest] at h
    exact kindAt_of_isSome_append h

/-- Where a walk ends: at a directory that is reached by directories, or at a file in one. -/
def End (tree : Node ν) (l : List ν) : Prop :=
  tree.Solid l ∨ ∃ m n bytes, l = m ++ [n] ∧ tree.Solid m ∧ tree.kindAt l = some (.file bytes)

theorem end_of_walk {follow : List ν → Path ν → Option (List ν)}
    (hfollow : ∀ loc path, tree.Solid loc → follow loc path = some l → tree.End l)
    (hloc : tree.Solid loc) (h : tree.walk follow loc path = some l) : tree.End l := by
  induction path generalizing loc with
  | nil =>
    cases h
    exact .inl hloc
  | cons step path ih =>
    cases step with
    | here => exact ih hloc h
    | up => exact ih (hloc.of_prefix (List.dropLast_prefix loc)) h
    | name n =>
      rw [walk] at h
      cases hkind : tree.kindAt (loc ++ [n]) with
      | none => simp [hkind] at h
      | some kind =>
        cases kind with
        | dir =>
          simp only [hkind] at h
          exact ih (hloc.concat hkind) h
        | link target bytes =>
          simp only [hkind] at h
          refine hfollow _ _ ?_ h
          split_ifs
          · exact tree.solid_nil
          · exact hloc
        | file bytes =>
          simp only [hkind] at h
          split_ifs at h
          cases h
          exact .inr ⟨loc, n, bytes, rfl, hloc, hkind⟩

theorem end_of_follow (hloc : tree.Solid loc) (h : tree.follow links loc path = some l) :
    tree.End l := by
  induction links generalizing loc path with
  | zero =>
    refine @end_of_walk _ _ tree _ _ path (fun _ _ => none) (fun _ _ _ hnone => ?_) hloc h
    cases hnone
  | succ links ih => exact end_of_walk (fun _ _ hloc h => ih hloc h) hloc h

/-- Where a path leads there is something. -/
theorem isSome_of_resolve (h : tree.resolve links path = some l) : (tree.kindAt l).isSome := by
  rcases end_of_follow tree.solid_nil h with hsolid | ⟨m, n, bytes, -, -, hkind⟩
  · by_cases hl : l = []
    · rw [hl, kindAt_nil]
      rfl
    · rw [hsolid l hl List.prefix_rfl]
      rfl
  · rw [hkind]
    rfl

/-- Directories are walked into by their names. -/
theorem walk_names {follow : List ν → Path ν → Option (List ν)} {ns : List ν}
    (h : tree.Solid (loc ++ ns)) (rest : Path ν) :
    tree.walk follow loc (Path.ofLoc ns ++ rest) = tree.walk follow (loc ++ ns) rest := by
  induction ns generalizing loc with
  | nil => simp [Path.ofLoc]
  | cons n ns ih =>
    have hassoc : loc ++ n :: ns = loc ++ [n] ++ ns := by simp
    have hkind : tree.kindAt (loc ++ [n]) = some .dir :=
      h _ (by simp) (hassoc ▸ List.prefix_append _ ns)
    rw [hassoc] at h ⊢
    rw [← ih h]
    change tree.walk follow loc (.name n :: (Path.ofLoc ns ++ rest)) = _
    rw [walk]
    simp only [hkind]

/-- As many steps up as names down come back. -/
theorem walk_up (follow : List ν → Path ν → Option (List ν)) (loc ns : List ν) (rest : Path ν) :
    tree.walk follow (loc ++ ns) (List.replicate ns.length .up ++ rest) =
      tree.walk follow loc rest := by
  induction ns using List.reverseRecOn with
  | nil => simp
  | append_singleton ns n ih =>
    rw [List.length_append, List.length_singleton, List.replicate_succ, List.cons_append, walk,
      ← List.append_assoc, List.dropLast_concat, ih]

theorem follow_up (links : ℕ) (loc ns : List ν) (rest : Path ν) :
    tree.follow links (loc ++ ns) (List.replicate ns.length .up ++ rest) =
      tree.follow links loc rest := by
  cases links <;> exact walk_up _ loc ns rest

theorem follow_names {ns : List ν} (h : tree.Solid (loc ++ ns)) (links : ℕ) (rest : Path ν) :
    tree.follow links loc (Path.ofLoc ns ++ rest) = tree.follow links (loc ++ ns) rest := by
  cases links <;> exact walk_names h rest

theorem follow_file {bytes : ℕ} (h : tree.kindAt (loc ++ [n]) = some (.file bytes)) (links : ℕ) :
    tree.follow links loc [.name n] = some (loc ++ [n]) := by
  cases links <;> simp [follow, walk, h]

theorem resolve_names (h : tree.Solid loc) (links : ℕ) (rest : Path ν) :
    tree.resolve links (Path.ofLoc loc ++ rest) = tree.follow links loc rest :=
  @follow_names _ _ tree [] loc h links rest

theorem resolve_solid (h : tree.Solid loc) (links : ℕ) :
    tree.resolve links (Path.ofLoc loc) = some loc := by
  rw [← List.append_nil (Path.ofLoc loc), resolve_names h]
  cases links <;> rfl

/-- Behind a directory that a path leads to the way goes on. -/
theorem walk_append {follow : List ν → Path ν → Option (List ν)} {mid : List ν}
    (hsolid : tree.Solid mid)
    (hfollow : ∀ loc path, follow loc path = some mid → follow loc (path ++ rest) = some l)
    (hrest : tree.walk follow mid rest = some l) (h : tree.walk follow loc path = some mid) :
    tree.walk follow loc (path ++ rest) = some l := by
  induction path generalizing loc with
  | nil =>
    cases h
    exact hrest
  | cons step path ih =>
    cases step with
    | here => exact ih h
    | up => exact ih h
    | name n =>
      rw [List.cons_append, walk]
      rw [walk] at h
      cases hkind : tree.kindAt (loc ++ [n]) with
      | none => simp [hkind] at h
      | some kind =>
        cases kind with
        | dir =>
          simp only [hkind] at h
          exact ih h
        | link target bytes =>
          simp only [hkind] at h
          simp only [← List.append_assoc]
          exact hfollow _ _ h
        | file bytes =>
          simp only [hkind, Option.ite_none_right_eq_some, Option.some.injEq] at h
          rw [h.2, hsolid mid (h.2 ▸ by simp) List.prefix_rfl] at hkind
          cases hkind

theorem follow_append {mid : List ν} (hsolid : tree.Solid mid)
    (hrest : ∀ links, tree.follow links mid rest = some l)
    (h : tree.follow links loc path = some mid) :
    tree.follow links loc (path ++ rest) = some l := by
  induction links generalizing loc path with
  | zero =>
    refine @walk_append _ _ tree _ _ _ _ (fun _ _ => none) _ hsolid (fun _ _ hnone => ?_)
      (hrest 0) h
    cases hnone
  | succ links ih => exact walk_append hsolid (fun _ _ => ih) (hrest (links + 1)) h

theorem location_solid (h : tree.Solid loc)
    (hl : tree.location links ((Path.ofLoc loc).join n) = some l) : l = loc ++ [n] := by
  obtain ⟨loc', hloc', -, rfl⟩ := location_join.mp hl
  rw [resolve_solid h] at hloc'
  rw [Option.some.inj hloc']

/-- A location that a path leads to is led to by its own path. -/
theorem resolve_ofLoc (h : tree.resolve links path = some l) (links' : ℕ) :
    tree.resolve links' (Path.ofLoc l) = some l := by
  rcases end_of_follow tree.solid_nil h with hsolid | ⟨m, n, bytes, rfl, hsolid, hkind⟩
  · exact resolve_solid hsolid links'
  · rw [Path.ofLoc_append, resolve_names hsolid]
    exact follow_file hkind links'

/-! ### Walks after a removal -/

/-- No location of a trail is gone. -/
def Clear (gone : List ν → Prop) (trail : List (List ν)) : Prop := ∀ q ∈ trail, ¬gone q

omit [DecidableEq ν] in
theorem clear_nil (gone : List ν → Prop) : Clear gone [] := fun _ hq => absurd hq List.not_mem_nil

/-- Directories that are not gone are walked through. -/
theorem clear_names {trail : List ν → Path ν → List (List ν)} {ns : List ν}
    (hbelow : ∀ q q', gone q → q <+: q' → gone q') (hsolid : tree.Solid (loc ++ ns))
    (hgone : ¬gone (loc ++ ns)) {rest : Path ν}
    (hrest : Clear gone (tree.trailWalk trail (loc ++ ns) rest)) :
    Clear gone (tree.trailWalk trail loc (Path.ofLoc ns ++ rest)) := by
  induction ns generalizing loc with
  | nil => simpa [Path.ofLoc] using hrest
  | cons n ns ih =>
    have hassoc : loc ++ n :: ns = loc ++ [n] ++ ns := by simp
    have hstart : loc ++ [n] <+: loc ++ [n] ++ ns := List.prefix_append _ ns
    rw [hassoc] at hsolid hgone hrest
    change Clear gone (tree.trailWalk trail loc (.name n :: (Path.ofLoc ns ++ rest)))
    rw [trailWalk, hsolid _ (by simp) hstart]
    exact List.forall_mem_cons.mpr ⟨fun h => hgone (hbelow _ _ h hstart), ih hsolid hgone hrest⟩

theorem clear_trail_names (hbelow : ∀ q q', gone q → q <+: q' → gone q') (hsolid : tree.Solid loc)
    (hgone : ¬gone loc) {rest : Path ν} (hrest : Clear gone (tree.trailFrom links loc rest)) :
    Clear gone (tree.trail links (Path.ofLoc loc ++ rest)) := by
  cases links <;> exact @clear_names _ _ tree gone [] _ loc hbelow hsolid hgone rest hrest

theorem trailWalk_up (trail : List ν → Path ν → List (List ν)) (loc ns : List ν) (rest : Path ν) :
    tree.trailWalk trail (loc ++ ns) (List.replicate ns.length .up ++ rest) =
      tree.trailWalk trail loc rest := by
  induction ns using List.reverseRecOn with
  | nil => simp
  | append_singleton ns n ih =>
    rw [List.length_append, List.length_singleton, List.replicate_succ, List.cons_append,
      trailWalk, ← List.append_assoc, List.dropLast_concat, ih]

theorem trailFrom_up (links : ℕ) (loc ns : List ν) (rest : Path ν) :
    tree.trailFrom links (loc ++ ns) (List.replicate ns.length .up ++ rest) =
      tree.trailFrom links loc rest := by
  cases links <;> exact trailWalk_up _ loc ns rest

theorem trailFrom_none (h : tree.kindAt (loc ++ [n]) = none) (links : ℕ) (rest : Path ν) :
    tree.trailFrom links loc (.name n :: rest) = [loc ++ [n]] := by
  cases links <;> simp only [trailFrom, trailWalk, h]

theorem trailFrom_dir (h : tree.kindAt (loc ++ [n]) = some .dir) (links : ℕ) (rest : Path ν) :
    tree.trailFrom links loc (.name n :: rest) =
      (loc ++ [n]) :: tree.trailFrom links (loc ++ [n]) rest := by
  cases links <;> simp only [trailFrom, trailWalk, h]

theorem trailFrom_file {bytes : ℕ} (h : tree.kindAt (loc ++ [n]) = some (.file bytes)) (links : ℕ)
    (rest : Path ν) : tree.trailFrom links loc (.name n :: rest) = [loc ++ [n]] := by
  cases links <;> simp only [trailFrom, trailWalk, h]

/-- A path passes what its rest passes from where its directories lead. -/
theorem trailWalk_names {trail : List ν → Path ν → List (List ν)} {ns : List ν}
    (hsolid : tree.Solid (loc ++ ns)) (rest : Path ν) :
    tree.trailWalk trail (loc ++ ns) rest <:+
      tree.trailWalk trail loc (Path.ofLoc ns ++ rest) := by
  induction ns generalizing loc with
  | nil => simp [Path.ofLoc]
  | cons n ns ih =>
    have hassoc : loc ++ n :: ns = loc ++ [n] ++ ns := by simp
    rw [hassoc] at hsolid ⊢
    change _ <:+ tree.trailWalk trail loc (.name n :: (Path.ofLoc ns ++ rest))
    rw [trailWalk, hsolid _ (by simp) (List.prefix_append _ ns)]
    exact (ih hsolid).trans (List.suffix_cons _ _)

theorem trail_names (hsolid : tree.Solid loc) (links : ℕ) (rest : Path ν) :
    tree.trailFrom links loc rest <:+ tree.trail links (Path.ofLoc loc ++ rest) := by
  cases links <;> exact @trailWalk_names _ _ tree [] _ loc hsolid rest

/-- One step of both walks: what the next ones do is what `follow` and `follow'` do. -/
theorem Pruned.walk {follow follow' : List ν → Path ν → Option (List ν)}
    {trail : List ν → Path ν → List (List ν)} (h : tree.Pruned tree' gone)
    (hfollow : ∀ loc path, (Clear gone (trail loc path) → follow' loc path = follow loc path) ∧
      (¬Clear gone (trail loc path) → follow' loc path = none)) (loc : List ν) (path : Path ν) :
    (Clear gone (tree.trailWalk trail loc path) →
      tree'.walk follow' loc path = tree.walk follow loc path) ∧
    (¬Clear gone (tree.trailWalk trail loc path) → tree'.walk follow' loc path = none) := by
  induction path generalizing loc with
  | nil => exact ⟨fun _ => rfl, fun h => absurd (clear_nil gone) h⟩
  | cons step rest ih =>
    cases step with
    | here => exact ih loc
    | up => exact ih loc.dropLast
    | name n =>
      rw [Node.walk, Node.walk, Node.trailWalk, Clear, List.forall_mem_cons]
      by_cases hgone : gone (loc ++ [n])
      · rw [h.of_gone hgone]
        exact ⟨fun hclear => absurd hgone hclear.1, fun _ => rfl⟩
      · rw [h.of_not_gone hgone]
        simp only [hgone, not_false_iff, true_and]
        cases tree.kindAt (loc ++ [n]) with
        | none => exact ⟨fun _ => rfl, fun _ => rfl⟩
        | some kind =>
          cases kind with
          | dir => exact ih (loc ++ [n])
          | link target bytes => exact hfollow _ _
          | file bytes => exact ⟨fun _ => rfl, fun h => absurd (clear_nil gone) h⟩

theorem Pruned.follow (h : tree.Pruned tree' gone) (links : ℕ) (loc : List ν) (path : Path ν) :
    (Clear gone (tree.trailFrom links loc path) →
      tree'.follow links loc path = tree.follow links loc path) ∧
    (¬Clear gone (tree.trailFrom links loc path) → tree'.follow links loc path = none) := by
  induction links generalizing loc path with
  | zero => exact h.walk (fun _ _ => ⟨fun _ => rfl, fun _ => rfl⟩) loc path
  | succ links ih => exact h.walk ih loc path

/-- A path leads where it led exactly if nothing it passes is gone. -/
theorem Pruned.resolve_eq_some (h : tree.Pruned tree' gone) :
    tree'.resolve links path = some l ↔
      tree.resolve links path = some l ∧ Clear gone (tree.trail links path) := by
  obtain ⟨hclear, hnot⟩ := h.follow links [] path
  unfold resolve trail
  by_cases hc : Clear gone (tree.trailFrom links [] path)
  · rw [hclear hc, and_iff_left hc]
  · rw [hnot hc]
    simp [hc]

theorem Pruned.kindAt_of_resolve (h : tree.Pruned tree' gone)
    (hl : tree'.resolve links path = some l) : tree'.kindAt l = tree.kindAt l :=
  (h.eq_of_isSome (isSome_of_resolve hl)).2

theorem Pruned.mem_namesAt (h : tree.Pruned tree' gone) (hn : n ∈ tree'.namesAt links path) :
    ∃ loc, tree.resolve links path = some loc ∧ Clear gone (tree.trail links path) ∧
      (tree.kindAt (loc ++ [n])).isSome ∧ ¬gone (loc ++ [n]) := by
  obtain ⟨loc, hloc, hkind⟩ := Node.mem_namesAt.mp hn
  obtain ⟨hloc, hclear⟩ := h.resolve_eq_some.mp hloc
  obtain ⟨hgone, heq⟩ := h.eq_of_isSome hkind
  exact ⟨loc, hloc, hclear, heq ▸ hkind, hgone⟩

theorem Pruned.isDir (h : tree.Pruned tree' gone) (hdir : tree'.isDir links path = true) :
    tree.isDir links path = true := by
  obtain ⟨loc, hloc, hkind⟩ := isDir_iff.mp hdir
  have heq := (h.eq_of_isSome (by rw [hkind]; rfl)).2
  exact isDir_iff.mpr ⟨loc, (h.resolve_eq_some.mp hloc).1, heq ▸ hkind⟩

theorem Pruned.location_join (h : tree.Pruned tree' gone)
    (hl : tree'.location links (path.join n) = some l) :
    tree.location links (path.join n) = some l := by
  obtain ⟨loc, hloc, hkind, rfl⟩ := Node.location_join.mp hl
  have heq := (h.eq_of_isSome hkind).2
  exact Node.location_join.mpr ⟨loc, (h.resolve_eq_some.mp hloc).1, heq ▸ hkind, rfl⟩

end Node

end Agmem.Files
