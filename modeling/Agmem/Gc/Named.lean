import Agmem.Gc.Plan

/-! The paths that a plan names, told from the tree alone: models that are not the configured one,
other snapshots of that one, blobs that no direct entry of its snapshot leads to, and models beside
the models directory. -/

namespace Agmem.Gc

open Core Daemon Files

namespace Config

variable (cfg : Config) (source : Source)

def models : Path := cfg.dataDir.join "models".toList

def repo : Path := cfg.models.join (repoDirName source.repo)

def snapshots : Path := (cfg.repo source).join "snapshots".toList

def snapshot : Path := (cfg.snapshots source).join source.revision

def blobs : Path := (cfg.repo source).join "blobs".toList

end Config

variable {links : ℕ} {modelDirSet : Bool} {cfg : Config} {tree tree' : Tree} {kept : Source}
  {dir path : Path} {loc : List Text} {n : Text} {found : Plan}

/-- A blob leads where some direct entry of the kept snapshot leads. -/
def Used (links : ℕ) (tree : Tree) (cfg : Config) (kept : Source) (n : Text) : Prop :=
  ∃ file ∈ tree.namesAt links (cfg.snapshot kept), ∃ loc,
    tree.resolve links ((cfg.snapshot kept).join file) = some loc ∧
    tree.resolve links ((cfg.blobs kept).join n) = some loc

/-- A path that does not stay: a model that is not the configured one, another snapshot of that one,
a blob that no direct entry of its snapshot leads to, or a model beside the models directory. -/
inductive Leaves (links : ℕ) (tree : Tree) (modelDirSet : Bool) (cfg : Config) : Path → Prop
  | model {n : Text} (hset : modelDirSet = false) (hn : n ∈ tree.namesAt links cfg.models)
      (hdot : ¬['.'] <+: n) (hother : ∀ kept ∈ cfg.keep, n ≠ repoDirName kept.repo) :
      Leaves links tree modelDirSet cfg (cfg.models.join n)
  | snapshot {kept : Source} {n : Text} (hset : modelDirSet = false) (hkept : kept ∈ cfg.keep)
      (hn : n ∈ tree.namesAt links (cfg.snapshots kept)) (hother : n ≠ kept.revision) :
      Leaves links tree modelDirSet cfg ((cfg.snapshots kept).join n)
  | blob {kept : Source} {n : Text} (hset : modelDirSet = false) (hkept : kept ∈ cfg.keep)
      (hn : n ∈ tree.namesAt links (cfg.blobs kept))
      (hlock : isLock ((cfg.blobs kept).join n) = false)
      (hunused : ¬Used links tree cfg kept n) :
      Leaves links tree modelDirSet cfg ((cfg.blobs kept).join n)
  | beside {n : Text} (hn : n ∈ tree.namesAt links cfg.dataDir) (hstart : "models--".toList <+: n)
      (hdir : tree.isDir links (cfg.dataDir.join n) = true) :
      Leaves links tree modelDirSet cfg (cfg.dataDir.join n)

/-! ### What the plan names -/

@[simp] theorem fileName_join (dir : Path) (n : Text) : fileName (dir.join n) = n := by
  simp [fileName, Path.join]

theorem join_inj {m : Text} : dir.join m = dir.join n ↔ m = n := by simp [Path.join]

theorem mem_entries : path ∈ entries links tree dir ↔
    ∃ n ∈ tree.namesAt links dir, path = dir.join n := by
  simp [entries, List.mem_insertionSort, eq_comm]

theorem mem_filter_entries {p : Path → Bool} :
    path ∈ (entries links tree dir).filter p ↔
      ∃ n ∈ tree.namesAt links dir, p (dir.join n) = true ∧ path = dir.join n := by
  rw [List.mem_filter, mem_entries]
  constructor
  · rintro ⟨⟨n, hn, rfl⟩, hp⟩
    exact ⟨n, hn, hp, rfl⟩
  · rintro ⟨n, hn, hp, rfl⟩
    exact ⟨⟨n, hn, rfl⟩, hp⟩

/-- The paths that a plan removes. -/
def Plan.paths (found : Plan) : List Path := found.remove.map Prod.fst

@[simp] theorem paths_extend (found : Plan) (paths : List Path) :
    (found.extend links tree paths).paths = found.paths ++ paths := by
  simp [Plan.paths, Plan.extend, Function.comp_def]

/-- The canonical path of a blob is wanted exactly if a direct entry leads where the blob leads. -/
theorem mem_wanted :
    (canonicalize links tree ((cfg.blobs kept).join n)).getD ((cfg.blobs kept).join n) ∈
    (entries links tree (cfg.snapshot kept)).filterMap (canonicalize links tree) ↔
    Used links tree cfg kept n := by
  simp only [List.mem_filterMap, mem_entries, Used, canonicalize]
  constructor
  · rintro ⟨entry, ⟨file, hfile, rfl⟩, hentry⟩
    obtain ⟨loc, hloc, hpath⟩ := Option.map_eq_some_iff.mp hentry
    refine ⟨file, hfile, loc, hloc, ?_⟩
    cases hblob : tree.resolve links ((cfg.blobs kept).join n) with
    | none =>
      -- Without a canonical path the blob's own stands for it, and that one leads nowhere.
      rw [hblob] at hpath
      change Path.ofLoc loc = (cfg.blobs kept).join n at hpath
      have hself := Node.resolve_ofLoc hloc links
      rw [hpath, hblob] at hself
      cases hself
    | some loc' =>
      rw [hblob] at hpath
      exact congrArg some (List.map_injective_iff.mpr (fun _ _ => Step.name.inj) hpath).symm
  · rintro ⟨file, hfile, loc, hloc, hblob⟩
    exact ⟨_, ⟨file, hfile, rfl⟩, by rw [hloc, hblob]; rfl⟩

@[simp] theorem paths_empty : ({} : Plan).paths = [] := rfl

theorem planRepo_paths (found : Plan) :
    (planRepo links tree (cfg.repo kept) kept.revision found).paths = found.paths ++
      ((entries links tree (cfg.snapshots kept)).filter (· ≠ cfg.snapshot kept) ++
      (entries links tree (cfg.blobs kept)).filter fun blob => !isLock blob &&
        decide ((canonicalize links tree blob).getD blob ∉
          (entries links tree (cfg.snapshot kept)).filterMap (canonicalize links tree))) := by
  rw [← List.append_assoc, ← @paths_extend links tree, ← @paths_extend links tree]
  unfold planRepo
  dsimp only
  split_ifs <;> rfl

theorem mem_planRepo : path ∈ (planRepo links tree (cfg.repo kept) kept.revision {}).paths ↔
    (∃ n ∈ tree.namesAt links (cfg.snapshots kept), n ≠ kept.revision ∧
      path = (cfg.snapshots kept).join n) ∨
    ∃ n ∈ tree.namesAt links (cfg.blobs kept), isLock ((cfg.blobs kept).join n) = false ∧
      ¬Used links tree cfg kept n ∧ path = (cfg.blobs kept).join n := by
  rw [planRepo_paths, paths_empty, List.nil_append, List.mem_append]
  refine or_congr ?_ ?_
  · simp only [mem_filter_entries, Config.snapshot, ne_eq, join_inj, decide_eq_true_iff]
  · simp only [mem_filter_entries, Bool.and_eq_true, Bool.not_eq_true', decide_eq_true_iff,
      mem_wanted, and_assoc]

theorem planEntry_paths (found : Plan) (n : Text) :
    (planEntry links tree cfg.keep found (cfg.models.join n)).paths =
      found.paths ++ (planEntry links tree cfg.keep {} (cfg.models.join n)).paths := by
  unfold planEntry
  rw [fileName_join]
  split_ifs
  · exact (List.append_nil _).symm
  · cases hkeep : cfg.keep.filter fun source => repoDirName source.repo = n with
    | none => simp only [paths_extend, paths_empty, List.nil_append]
    | some kept =>
      obtain ⟨-, hname⟩ := Option.filter_eq_some_iff.mp hkeep
      rw [← of_decide_eq_true hname]
      change (planRepo _ _ (cfg.repo kept) _ _).paths =
        _ ++ (planRepo _ _ (cfg.repo kept) _ _).paths
      rw [planRepo_paths, @planRepo_paths _ _ _ _ {}, paths_empty, List.nil_append]

theorem foldl_planEntry_paths (ns : List Text) (found : Plan) :
    ((ns.map cfg.models.join).foldl (planEntry links tree cfg.keep) found).paths =
      found.paths ++
        ns.flatMap fun n => (planEntry links tree cfg.keep {} (cfg.models.join n)).paths := by
  induction ns generalizing found with
  | nil => exact (List.append_nil _).symm
  | cons n ns ih =>
    rw [List.map_cons, List.foldl_cons, ih, planEntry_paths, List.flatMap_cons, List.append_assoc]

theorem not_dot_repoDirName (repo : Text) : ¬['.'] <+: repoDirName repo := by
  have hname : repoDirName repo = 'm' :: _ := congrArg (· ++ _) String.toList_ofList
  rw [hname, List.cons_prefix_cons]
  exact fun h => absurd h.1 (by decide)

theorem mem_planEntry : path ∈ (planEntry links tree cfg.keep {} (cfg.models.join n)).paths ↔
    ¬['.'] <+: n ∧ (∀ kept ∈ cfg.keep, n ≠ repoDirName kept.repo) ∧ path = cfg.models.join n ∨
    ∃ kept ∈ cfg.keep, n = repoDirName kept.repo ∧
      path ∈ (planRepo links tree (cfg.repo kept) kept.revision {}).paths := by
  unfold planEntry
  rw [fileName_join]
  cases hkeep : cfg.keep with
  | none =>
    split_ifs with hdot
    · simp [List.isPrefixOf_iff_prefix.mp hdot]
    · simp [mt List.isPrefixOf_iff_prefix.mpr hdot]
  | some kept =>
    by_cases hn : n = repoDirName kept.repo
    · subst hn
      rw [if_neg (mt List.isPrefixOf_iff_prefix.mp (not_dot_repoDirName kept.repo))]
      simp [Config.repo, Option.filter_some]
    · split_ifs with hdot
      · simp [List.isPrefixOf_iff_prefix.mp hdot, hn]
      · simp [mt List.isPrefixOf_iff_prefix.mpr hdot, hn, Ne.symm hn, Option.filter_some]

theorem mem_planModels : path ∈ (planModels links tree cfg.models cfg.keep).paths ↔
    (∃ n ∈ tree.namesAt links cfg.models, ¬['.'] <+: n ∧
      (∀ kept ∈ cfg.keep, n ≠ repoDirName kept.repo) ∧ path = cfg.models.join n) ∨
    ∃ kept ∈ cfg.keep, repoDirName kept.repo ∈ tree.namesAt links cfg.models ∧
      path ∈ (planRepo links tree (cfg.repo kept) kept.revision {}).paths := by
  unfold planModels entries
  rw [foldl_planEntry_paths, paths_empty, List.nil_append]
  simp only [List.mem_flatMap, List.mem_insertionSort, mem_planEntry]
  constructor
  · rintro ⟨n, hn, hother | ⟨kept, hkept, rfl, hpath⟩⟩
    · exact .inl ⟨n, hn, hother⟩
    · exact .inr ⟨kept, hkept, hn, hpath⟩
  · rintro (⟨n, hn, hother⟩ | ⟨kept, hkept, hn, hpath⟩)
    · exact ⟨n, hn, .inl hother⟩
    · exact ⟨_, hn, .inr ⟨kept, hkept, rfl, hpath⟩⟩

/-- What is found below the kept repository is found over its entry of the models directory. -/
theorem repo_mem_models {rest : Path} (h : tree.resolve links (cfg.repo kept ++ rest) = some loc) :
    repoDirName kept.repo ∈ tree.namesAt links cfg.models := Node.resolve_through h

theorem snapshot_eq (cfg : Config) (kept : Source) : cfg.snapshot kept =
    cfg.repo kept ++ [.name "snapshots".toList, .name kept.revision] := by
  simp [Config.snapshot, Config.snapshots, Path.join]

theorem mem_rootLeftovers : path ∈ (rootLeftovers links tree dir).map Prod.fst ↔
    ∃ n ∈ tree.namesAt links dir, "models--".toList <+: n ∧
      tree.isDir links (dir.join n) = true ∧ path = dir.join n := by
  have hpaths (paths : List Path) :
      (paths.map fun path => (path, size links tree path)).map Prod.fst = paths := by
    simp [Function.comp_def]
  rw [rootLeftovers, hpaths, mem_filter_entries]
  simp only [fileName_join, Bool.and_eq_true, List.isPrefixOf_iff_prefix, and_assoc]

theorem mem_plan_paths : path ∈ (plan links tree modelDirSet cfg).paths ↔
    modelDirSet = false ∧ path ∈ (planModels links tree cfg.models cfg.keep).paths ∨
    path ∈ (rootLeftovers links tree cfg.dataDir).map Prod.fst := by
  unfold plan Plan.paths
  rw [List.map_append, List.mem_append]
  cases modelDirSet with
  | true => exact or_congr_left (iff_of_false List.not_mem_nil fun h => nomatch h.1)
  | false => exact or_congr_left (and_iff_right rfl).symm

/-- What the repository's part of the plan names is in the plan: its entry is there. -/
theorem mem_plan_of_repo (hset : modelDirSet = false) (hkept : kept ∈ cfg.keep) {name : Text}
    (hn : n ∈ tree.namesAt links ((cfg.repo kept).join name))
    (hpath : path ∈ (planRepo links tree (cfg.repo kept) kept.revision {}).paths) :
    path ∈ (plan links tree modelDirSet cfg).paths := by
  obtain ⟨loc, hloc, -⟩ := Node.mem_namesAt.mp hn
  exact mem_plan_paths.mpr (.inl ⟨hset, mem_planModels.mpr
    (.inr ⟨kept, hkept, repo_mem_models hloc, hpath⟩)⟩)

/-- The plan names exactly the paths that do not stay. -/
theorem mem_plan :
    path ∈ (plan links tree modelDirSet cfg).paths ↔ Leaves links tree modelDirSet cfg path := by
  constructor
  · rw [mem_plan_paths, mem_planModels, mem_rootLeftovers]
    rintro (⟨hset, ⟨n, hn, hdot, hother, rfl⟩ | ⟨kept, hkept, -, hpath⟩⟩ |
      ⟨n, hn, hstart, hdir, rfl⟩)
    · exact .model hset hn hdot hother
    · rcases mem_planRepo.mp hpath with ⟨n, hn, hother, rfl⟩ | ⟨n, hn, hlock, hunused, rfl⟩
      · exact .snapshot hset hkept hn hother
      · exact .blob hset hkept hn hlock hunused
    · exact .beside hn hstart hdir
  · intro h
    cases h with
    | model hset hn hdot hother =>
      exact mem_plan_paths.mpr (.inl ⟨hset, mem_planModels.mpr
        (.inl ⟨_, hn, hdot, hother, rfl⟩)⟩)
    | snapshot hset hkept hn hother =>
      exact mem_plan_of_repo hset hkept hn (mem_planRepo.mpr (.inl ⟨_, hn, hother, rfl⟩))
    | blob hset hkept hn hlock hunused =>
      exact mem_plan_of_repo hset hkept hn
        (mem_planRepo.mpr (.inr ⟨_, hn, hlock, hunused, rfl⟩))
    | beside hn hstart hdir =>
      exact mem_plan_paths.mpr (.inr (mem_rootLeftovers.mpr ⟨_, hn, hstart, hdir, rfl⟩))

/-! ### What the plan keeps -/

theorem foldl_planEntry_keep_of_none (h : cfg.keep = none) (paths : List Path) (found : Plan) :
    (paths.foldl (planEntry links tree cfg.keep) found).keep = found.keep := by
  induction paths generalizing found with
  | nil => rfl
  | cons path paths ih =>
    rw [List.foldl_cons, ih, planEntry, h]
    split_ifs <;> rfl

theorem planEntry_keep (hkept : cfg.keep = some kept) (found : Plan) (n : Text) :
    (planEntry links tree cfg.keep found (cfg.models.join n)).keep =
      if n = repoDirName kept.repo ∧ tree.isDir links (cfg.snapshot kept) = true
      then some (cfg.snapshot kept) else found.keep := by
  unfold planEntry
  rw [fileName_join, hkept]
  by_cases hn : n = repoDirName kept.repo
  · subst hn
    rw [if_neg (mt List.isPrefixOf_iff_prefix.mp (not_dot_repoDirName kept.repo)),
      Option.filter_some_pos (by simp)]
    change (planRepo links tree (cfg.repo kept) kept.revision found).keep = _
    unfold planRepo
    dsimp only
    change (if tree.isDir links (cfg.snapshot kept) = true then _ else _ : Plan).keep = _
    simp only [true_and]
    split_ifs <;> rfl
  · rw [Option.filter_some_neg (by simpa using Ne.symm hn)]
    simp only [hn, false_and, if_false]
    split_ifs <;> rfl

theorem foldl_planEntry_keep (hkept : cfg.keep = some kept) (ns : List Text) (found : Plan) :
    ((ns.map cfg.models.join).foldl (planEntry links tree cfg.keep) found).keep =
      if repoDirName kept.repo ∈ ns ∧ tree.isDir links (cfg.snapshot kept) = true
      then some (cfg.snapshot kept) else found.keep := by
  induction ns generalizing found with
  | nil => simp
  | cons n ns ih =>
    rw [List.map_cons, List.foldl_cons, ih, planEntry_keep hkept]
    by_cases hdir : tree.isDir links (cfg.snapshot kept) = true
    · by_cases hn : n = repoDirName kept.repo
      · simp [hdir, hn]
      · simp [hdir, hn, Ne.symm hn]
    · simp [hdir]

theorem plan_keep : (plan links tree modelDirSet cfg).keep = some path ↔
    modelDirSet = false ∧ ∃ kept ∈ cfg.keep, path = cfg.snapshot kept ∧
      tree.isDir links (cfg.snapshot kept) = true := by
  unfold plan
  cases modelDirSet with
  | true => exact iff_of_false nofun fun h => nomatch h.1
  | false =>
    change (planModels links tree cfg.models cfg.keep).keep = some path ↔ _
    unfold planModels entries
    cases hkeep : cfg.keep with
    | none =>
      rw [← hkeep, foldl_planEntry_keep_of_none hkeep]
      simp [hkeep]
    | some kept =>
      rw [← hkeep, foldl_planEntry_keep hkeep]
      simp only [List.mem_insertionSort]
      constructor
      · intro h
        split_ifs at h with hrepo
        · exact ⟨trivial, kept, hkeep, (Option.some.inj h).symm, hrepo.2⟩
      · rintro ⟨-, kept', hkept', rfl, hdir⟩
        obtain rfl : kept = kept' := Option.some.inj (hkeep.symm.trans hkept')
        obtain ⟨loc, hloc, -⟩ := Node.isDir_iff.mp hdir
        rw [snapshot_eq] at hloc
        rw [if_pos ⟨repo_mem_models hloc, hdir⟩]

end Agmem.Gc
