import Agmem.Files.Bytes
import Agmem.Gc.Kept

/-! What a collection frees. It is never more than it says; of a download of the hub client, where
nothing that goes stands below something else that goes, it is what it says. -/

namespace Agmem.Gc

open Core Daemon Files

variable {links : ℕ} {modelDirSet : Bool} {cfg : Config} {tree tree' : Tree} {kept : Source}
  {path : Path} {loc : List Text} {n : Text} {found : Plan}

/-! ### What the plan says -/

/-- Each path of a plan has the size it has in the tree. -/
def Measured (links : ℕ) (tree : Tree) (found : Plan) : Prop :=
  ∀ entry ∈ found.remove, entry.2 = size links tree entry.1

theorem Measured.extend (h : Measured links tree found) (paths : List Path) :
    Measured links tree (found.extend links tree paths) := by
  intro entry hentry
  rcases List.mem_append.mp hentry with hold | hnew
  · exact h entry hold
  · obtain ⟨path, -, rfl⟩ := List.mem_map.mp hnew
    rfl

theorem Measured.planRepo (h : Measured links tree found) (repo : Path) (revision : Text) :
    Measured links tree (planRepo links tree repo revision found) := by
  unfold Gc.planRepo
  dsimp only
  split_ifs
  · exact (h.extend _).extend _
  · exact (h.extend _).extend _

theorem Measured.planEntry (h : Measured links tree found) (keep : Option Source) (entry : Path) :
    Measured links tree (planEntry links tree keep found entry) := by
  unfold Gc.planEntry
  split_ifs
  · exact h
  · split
    · exact h.planRepo entry _
    · exact h.extend _

theorem measured_planModels (models : Path) (keep : Option Source) :
    Measured links tree (planModels links tree models keep) := by
  have hfold (paths : List Path) (found : Plan) (h : Measured links tree found) :
      Measured links tree (paths.foldl (planEntry links tree keep) found) := by
    induction paths generalizing found with
    | nil => exact h
    | cons path paths ih => exact ih _ (h.planEntry keep path)
  exact hfold _ {} fun entry hentry => absurd hentry List.not_mem_nil

theorem measured_plan : Measured links tree (plan links tree modelDirSet cfg) := by
  intro entry hentry
  rcases List.mem_append.mp hentry with hmodel | hbeside
  · cases modelDirSet with
    | true => exact absurd hmodel List.not_mem_nil
    | false => exact measured_planModels _ _ entry hmodel
  · obtain ⟨path, -, rfl⟩ := List.mem_map.mp hbeside
    rfl

theorem size_of_location (h : tree.location links path = some loc) :
    size links tree path = tree.bytesAt loc := by
  rw [size, h]
  rfl

/-! ### What goes -/

/-- One removal frees what stood at its place. -/
theorem removeAt_ok {dir : Path} (h : removeAt links tree (dir.join n) = .ok tree') :
    ∃ loc, tree.location links (dir.join n) = some loc ∧ tree' = tree.remove loc ∧
      tree.Pruned tree' (loc <+: ·) ∧
      (tree.Proper → tree.bytes = tree'.bytes + tree.bytesAt loc) := by
  unfold removeAt at h
  split at h
  · cases h
  · next loc hloc =>
    cases h
    obtain ⟨parent, -, hkind, rfl⟩ := Node.location_join.mp hloc
    have hne : parent ++ [n] ≠ [] := List.append_ne_nil_of_right_ne_nil _ (List.cons_ne_nil n [])
    refine ⟨_, hloc, rfl, Node.pruned_remove tree hne, fun hproper => ?_⟩
    rw [Node.kindAt, Option.isSome_map] at hkind
    obtain ⟨node, hnode⟩ := Option.isSome_iff_exists.mp hkind
    rw [Node.bytes_remove hproper hne hnode, Node.bytesAt, hnode]
    rfl

/-- A run of removals is one and the others behind it. -/
theorem foldlM_removeAt_cons {entry : Path × ℕ} {entries : List (Path × ℕ)} :
    (entry :: entries).foldlM (fun tree entry => removeAt links tree entry.1) tree = .ok tree' ↔
      ∃ next, removeAt links tree entry.1 = .ok next ∧
        entries.foldlM (fun tree entry => removeAt links tree entry.1) next = .ok tree' := by
  rw [List.foldlM_cons]
  cases h : removeAt links tree entry.1 with
  | error failure => exact iff_of_false nofun fun ⟨next, hnext, _⟩ => by cases hnext
  | ok next => exact ⟨fun hrest => ⟨next, rfl, hrest⟩, fun ⟨_, rfl, hrest⟩ => hrest⟩

/-- Removals one after another free no more than each of their places held at first. -/
theorem freed_le_of_foldlM {entries : List (Path × ℕ)}
    (hjoin : ∀ entry ∈ entries, ∃ dir n, entry.1 = Path.join dir n) (hproper : tree.Proper)
    (hsize : ∀ entry ∈ entries, ∀ loc, tree.location links entry.1 = some loc →
      tree.bytesAt loc ≤ entry.2)
    (h : entries.foldlM (fun tree entry => removeAt links tree entry.1) tree = .ok tree') :
    tree.bytes ≤ tree'.bytes + entries.foldr (fun entry bytes => entry.2 + bytes) 0 := by
  induction entries generalizing tree with
  | nil =>
    cases h
    exact Nat.le_refl _
  | cons entry entries ih =>
    obtain ⟨⟨dir, n, hpath⟩, hentries⟩ := List.forall_mem_cons.mp hjoin
    obtain ⟨hentry, hrest⟩ := List.forall_mem_cons.mp hsize
    obtain ⟨next, hnext, hlast⟩ := foldlM_removeAt_cons.mp h
    rw [hpath] at hnext hentry
    obtain ⟨loc, hloc, rfl, hpruned, hfreed⟩ := removeAt_ok hnext
    have hlater := ih hentries (hproper.remove loc) (fun e he l hl => ?_) hlast
    · have hnow := hfreed hproper
      have hle := hentry loc hloc
      rw [List.foldr_cons]
      omega
    · obtain ⟨dir', n', hpath'⟩ := hentries e he
      rw [hpath'] at hl
      have hfirst := hpruned.location_join hl
      rw [← hpath'] at hfirst
      exact (Node.bytesAt_remove tree loc l).1.trans (hrest e he l hfirst)

/-- A place that is reached by directories alone. -/
structure Placed (tree : Tree) (path : Path) (dir : List Text) (n : Text) : Prop where
  spelled : path = (Path.ofLoc dir).join n
  solid : tree.Solid dir
  there : (tree.kindAt (dir ++ [n])).isSome

theorem Placed.location {dir : List Text} (h : Placed tree path dir n) (links : ℕ) :
    tree.location links path = some (dir ++ [n]) := by
  rw [h.spelled]
  exact Node.location_join.mpr ⟨dir, Node.resolve_solid h.solid links, h.there, rfl⟩

/-- A removal apart from a place leaves it where it is. -/
theorem Placed.after {dir : List Text} (h : Placed tree path dir n)
    (hpruned : tree.Pruned tree' (loc <+: ·)) (hapart : ¬loc <+: dir ++ [n]) :
    Placed tree' path dir n where
  spelled := h.spelled
  solid q hq hstart := by
    have hstays : ¬loc <+: q := fun hloc =>
      hapart (hloc.trans (hstart.trans (List.prefix_append dir [n])))
    rw [hpruned.of_not_gone hstays]
    exact h.solid q hq hstart
  there := by
    rw [hpruned.of_not_gone hapart]
    exact h.there

/-- Removals at places that are apart succeed, and free what all of them held. -/
theorem freed_of_apart {entries : List (Path × ℕ)} (hproper : tree.Proper)
    (hplaced : ∀ entry ∈ entries, ∃ dir n, Placed tree entry.1 dir n ∧
      entry.2 = tree.bytesAt (dir ++ [n]))
    (hapart : entries.Pairwise fun a b => ¬a.1 <+: b.1 ∧ ¬b.1 <+: a.1) :
    ∃ tree', entries.foldlM (fun tree entry => removeAt links tree entry.1) tree = .ok tree' ∧
      tree.bytes = tree'.bytes + entries.foldr (fun entry bytes => entry.2 + bytes) 0 := by
  induction entries generalizing tree with
  | nil => exact ⟨tree, rfl, rfl⟩
  | cons entry entries ih =>
    obtain ⟨⟨dir, n, hentry, hbytes⟩, hrest⟩ := List.forall_mem_cons.mp hplaced
    obtain ⟨hfirst, hlater⟩ := List.pairwise_cons.mp hapart
    have hok : removeAt links tree entry.1 = .ok (tree.remove (dir ++ [n])) := by
      rw [removeAt, hentry.location]
    obtain ⟨loc, hloc, -, hpruned, hfreed⟩ := removeAt_ok (hentry.spelled ▸ hok)
    obtain rfl : dir ++ [n] = loc := by
      rw [← hentry.spelled, hentry.location] at hloc
      exact Option.some.inj hloc
    have hkept : ∀ e ∈ entries, ∃ dir' n', Placed (tree.remove (dir ++ [n])) e.1 dir' n' ∧
        e.2 = (tree.remove (dir ++ [n])).bytesAt (dir' ++ [n']) := by
      intro e he
      obtain ⟨dir', n', hplace, hsize⟩ := hrest e he
      obtain ⟨hbefore, hbehind⟩ := hfirst e he
      rw [hentry.spelled, hplace.spelled, Path.ofLoc_join, Path.ofLoc_join] at hbefore hbehind
      have hbefore : ¬dir ++ [n] <+: dir' ++ [n'] := fun h => hbefore (h.map Step.name)
      have hbehind : ¬dir' ++ [n'] <+: dir ++ [n] := fun h => hbehind (h.map Step.name)
      exact ⟨dir', n', hplace.after hpruned hbefore,
        hsize.trans ((Node.bytesAt_remove tree _ _).2 hbefore hbehind).symm⟩
    obtain ⟨tree', hrun, hsum⟩ := ih (hproper.remove _) hkept hlater
    refine ⟨tree', foldlM_removeAt_cons.mpr ⟨_, hok, hrun⟩, ?_⟩
    have hnow := hfreed hproper
    rw [List.foldr_cons, hbytes]
    omega

/-- On every file system a collection frees no more than it says. -/
theorem freed_le_announced (hproper : tree.Proper)
    (h : apply links (plan links tree modelDirSet cfg) tree = .ok tree') :
    tree.bytes ≤ tree'.bytes + (plan links tree modelDirSet cfg).bytes := by
  refine freed_le_of_foldlM (fun entry hentry => ?_) hproper (fun entry hentry loc hloc => ?_) h
  · exact leaves_join (mem_plan.mp (List.mem_map_of_mem hentry))
  · rw [measured_plan entry hentry, size_of_location hloc]

/-- A models directory that is a link to a cache beside it. -/
def linked : Tree :=
  .dir [("data".toList, .dir [("models".toList, .link ⟨false, [.name "models--x".toList]⟩ 9),
    ("models--x".toList, .dir [("f".toList, .file 5)])])]

def linkedAfter : Tree :=
  .dir [("data".toList, .dir [("models".toList, .link ⟨false, [.name "models--x".toList]⟩ 9)])]

theorem linked_proper : linked.Proper := by
  refine Node.proper_dir (by decide) (List.forall_mem_singleton.mpr ?_)
  refine Node.proper_dir (by decide) (List.forall_mem_cons.mpr
    ⟨Node.proper_link _ _, List.forall_mem_singleton.mpr ?_⟩)
  exact Node.proper_dir (by decide) (List.forall_mem_singleton.mpr (Node.proper_file 5))

/-- Its one file is named by two paths, and counted twice. -/
theorem linked_twice : (plan 40 linked false light).bytes = 10 ∧
    linked.bytes ≤ linkedAfter.bytes + (plan 40 linked false light).bytes :=
  ⟨by decide +kernel, freed_le_announced linked_proper rfl⟩

/-! ### The paths of a plan -/

theorem nodup_entries (hproper : tree.Proper) (dir : Path) : (entries links tree dir).Nodup := by
  have hnames : (tree.namesAt links dir).Nodup := by
    unfold Node.namesAt
    cases tree.resolve links dir with
    | none => exact List.nodup_nil
    | some loc => exact hproper loc
  exact ((List.perm_insertionSort _ _).nodup_iff.mpr hnames).map fun _ _ h => join_inj.mp h

theorem length_join (dir : Path) (n : Text) : (dir.join n).length = dir.length + 1 :=
  List.length_append

/-- What the plan names inside the kept repository is two names below it. -/
theorem length_of_mem_planRepo
    (h : path ∈ (planRepo links tree (cfg.repo kept) kept.revision {}).paths) :
    path.length = cfg.models.length + 3 := by
  rcases mem_planRepo.mp h with ⟨n, -, -, rfl⟩ | ⟨n, -, -, -, rfl⟩
  · simp only [Config.snapshots, Config.repo, length_join]
  · simp only [Config.blobs, Config.repo, length_join]

theorem length_of_mem_planModels
    (h : path ∈ (planModels links tree cfg.models cfg.keep).paths) :
    cfg.models.length < path.length := by
  rcases mem_planModels.mp h with ⟨n, -, -, -, rfl⟩ | ⟨kept, -, -, hrepo⟩
  · rw [length_join]
    exact Nat.lt_succ_self _
  · rw [length_of_mem_planRepo hrepo]
    omega

theorem nodup_planRepo (hproper : tree.Proper) :
    (planRepo links tree (cfg.repo kept) kept.revision {}).paths.Nodup := by
  rw [planRepo_paths, paths_empty, List.nil_append, List.nodup_append]
  refine ⟨(nodup_entries hproper _).filter _, (nodup_entries hproper _).filter _, ?_⟩
  rintro a ha b hb rfl
  obtain ⟨n, -, hn⟩ := mem_entries.mp (List.mem_filter.mp ha).1
  obtain ⟨m, -, hm⟩ := mem_entries.mp (List.mem_filter.mp hb).1
  have hdirs := (List.append_inj' (hn.symm.trans hm) rfl).1
  exact absurd (join_inj.mp hdirs) (by decide)

theorem nodup_planEntry (hproper : tree.Proper) (n : Text) :
    (planEntry links tree cfg.keep {} (cfg.models.join n)).paths.Nodup := by
  unfold planEntry
  rw [fileName_join]
  split_ifs
  · exact List.nodup_nil
  · cases hkeep : cfg.keep.filter fun source => repoDirName source.repo = n with
    | none =>
      rw [paths_extend]
      exact List.nodup_singleton _
    | some kept =>
      obtain ⟨-, hname⟩ := Option.filter_eq_some_iff.mp hkeep
      rw [← of_decide_eq_true hname]
      exact nodup_planRepo hproper

/-- Two entries of the models directory have no path in common. -/
theorem disjoint_planEntry {m : Text} (hne : n ≠ m) :
    List.Disjoint (planEntry links tree cfg.keep {} (cfg.models.join n)).paths
      (planEntry links tree cfg.keep {} (cfg.models.join m)).paths := by
  intro path hn hm
  rcases mem_planEntry.mp hn with ⟨-, -, rfl⟩ | ⟨kept, hkept, rfl, hrepo⟩
  · rcases mem_planEntry.mp hm with ⟨-, -, hpath⟩ | ⟨kept, -, -, hrepo⟩
    · exact hne (join_inj.mp hpath)
    · have hlen := length_of_mem_planRepo hrepo
      rw [length_join] at hlen
      omega
  · rcases mem_planEntry.mp hm with ⟨-, -, rfl⟩ | ⟨kept', hkept', rfl, -⟩
    · have hlen := length_of_mem_planRepo hrepo
      rw [length_join] at hlen
      omega
    · exact hne (by rw [Option.mem_unique hkept hkept'])

theorem nodup_planModels (hproper : tree.Proper) :
    (planModels links tree cfg.models cfg.keep).paths.Nodup := by
  have hnames : (entries links tree cfg.models).Nodup := nodup_entries hproper _
  unfold planModels
  unfold entries at hnames ⊢
  rw [foldl_planEntry_paths, paths_empty, List.nil_append, List.nodup_flatMap]
  exact ⟨fun n _ => nodup_planEntry hproper n, hnames.of_map.imp disjoint_planEntry⟩

theorem nodup_plan (hproper : tree.Proper) : (plan links tree modelDirSet cfg).paths.Nodup := by
  have hbeside : ((rootLeftovers links tree cfg.dataDir).map Prod.fst).Nodup := by
    rw [rootLeftovers, List.map_map]
    exact ((nodup_entries hproper _).filter _).map fun _ _ h => h
  unfold plan Plan.paths
  rw [List.map_append]
  cases modelDirSet with
  | true => exact hbeside
  | false =>
    refine List.nodup_append.mpr ⟨nodup_planModels hproper, hbeside, ?_⟩
    rintro path hmodel other hleft rfl
    obtain ⟨n, -, -, -, rfl⟩ := mem_rootLeftovers.mp hleft
    have hlen := length_of_mem_planModels hmodel
    rw [length_join, Config.models, length_join] at hlen
    exact absurd hlen (Nat.lt_irrefl _)

/-! ### A download -/

section Download

variable {data : List Text}

theorem placed_of_mem {dir : List Text} (hsolid : tree.Solid dir)
    (hn : n ∈ tree.namesAt links (Path.ofLoc dir)) :
    Placed tree ((Path.ofLoc dir).join n) dir n := by
  obtain ⟨loc, hloc, hkind⟩ := Node.mem_namesAt.mp hn
  rw [Node.resolve_solid hsolid] at hloc
  cases hloc
  exact ⟨rfl, hsolid, hkind⟩

theorem Download.placed (h : Download tree cfg kept data)
    (hleaves : Leaves links tree modelDirSet cfg path) : ∃ dir n, Placed tree path dir n := by
  cases hleaves with
  | model hset hn hdot hother =>
    rw [h.models_eq] at hn ⊢
    exact ⟨_, _, placed_of_mem h.solid_models hn⟩
  | snapshot hset hkept hn hother =>
    obtain rfl := Option.some.inj (h.keep.symm.trans hkept)
    rw [h.snapshots_eq] at hn ⊢
    exact ⟨_, _, placed_of_mem h.solid_snapshots hn⟩
  | blob hset hkept hn hlock hunused =>
    obtain rfl := Option.some.inj (h.keep.symm.trans hkept)
    rw [h.blobs_eq] at hn ⊢
    exact ⟨_, _, placed_of_mem h.solid_blobs hn⟩
  | beside hn hstart hdir =>
    rw [h.dataDir] at hn ⊢
    exact ⟨_, _, placed_of_mem h.solid_data hn⟩

/-- What goes below the data directory is at most four names below it, and the longer places are in
the models directory and then in the kept repository. -/
theorem Download.below_of_leaves (h : Download tree cfg kept data)
    (hleaves : Leaves links tree modelDirSet cfg path)
    (hl : tree.location links path = some loc) :
    loc.length ≤ data.length + 4 ∧
      (data.length + 1 < loc.length → modelsAt data <+: loc) ∧
      (data.length + 2 < loc.length → repoAt data kept <+: loc) := by
  have hmodels : (modelsAt data).length = data.length + 1 := List.length_append
  have hrepo : (repoAt data kept).length = data.length + 2 := by
    rw [repoAt, List.length_append, hmodels]
    rfl
  rcases h.location_of_leaves hleaves hl with ⟨n, -, rfl⟩ | ⟨n, -, rfl⟩ | ⟨n, -, rfl⟩ | ⟨n, -, rfl⟩
  · rw [List.length_append, hmodels, List.length_singleton]
    exact ⟨by omega, fun _ => List.prefix_append _ _, fun hlt => absurd hlt (by omega)⟩
  · have hbelow : repoAt data kept <+: snapshotsAt data kept ++ [n] :=
      (List.prefix_append _ _).trans (List.prefix_append _ _)
    rw [List.length_append, snapshotsAt, List.length_append, hrepo]
    exact ⟨Nat.le_refl _, fun _ => (List.prefix_append _ _).trans hbelow, fun _ => hbelow⟩
  · have hbelow : repoAt data kept <+: blobsAt data kept ++ [n] :=
      (List.prefix_append _ _).trans (List.prefix_append _ _)
    rw [List.length_append, blobsAt, List.length_append, hrepo]
    exact ⟨Nat.le_refl _, fun _ => (List.prefix_append _ _).trans hbelow, fun _ => hbelow⟩
  · rw [List.length_append, List.length_singleton]
    exact ⟨by omega, fun hlt => absurd hlt (by omega), fun hlt => absurd hlt (by omega)⟩

/-- Two names behind one place on the way to another are the same. -/
theorem eq_of_starts {l m : List Text} {k : Text} (hn : l ++ [n] <+: m)
    (hk : l ++ [k] <+: m) : n = k := by
  have hsame := (List.prefix_of_prefix_length_le hn hk (by simp)).eq_of_length (by simp)
  exact List.singleton_inj.mp (List.append_cancel_left hsame)

/-- Nothing that goes of a download stands below something else that goes. -/
theorem Download.eq_of_below (h : Download tree cfg kept data) {l m : List Text} {other : Path}
    (hl : Leaves links tree modelDirSet cfg path) (hm : Leaves links tree modelDirSet cfg other)
    (hpath : tree.location links path = some l) (hother : tree.location links other = some m)
    (hle : l <+: m) : l = m := by
  by_contra hne
  have hlt : l.length < m.length :=
    lt_of_le_of_ne hle.length_le fun hlen => hne (hle.eq_of_length hlen)
  obtain ⟨hlong, hmodels, hrepo⟩ := h.below_of_leaves hm hother
  rcases h.location_of_leaves hl hpath with ⟨n, hn, rfl⟩ | ⟨n, -, rfl⟩ | ⟨n, -, rfl⟩ | ⟨n, hn, rfl⟩
  · rw [List.length_append, modelsAt, List.length_append] at hlt
    exact hn (eq_of_starts hle (hrepo hlt))
  · simp only [snapshotsAt, repoAt, modelsAt, List.length_append, List.length_singleton] at hlt
    omega
  · simp only [blobsAt, repoAt, modelsAt, List.length_append, List.length_singleton] at hlt
    omega
  · rw [List.length_append] at hlt
    rw [eq_of_starts hle (hmodels hlt)] at hn
    exact Download.not_prefix_models hn

/-- The places that go of a download stand apart. -/
theorem Download.apart (h : Download tree cfg kept data) (hproper : tree.Proper) (links : ℕ)
    (modelDirSet : Bool) :
    (plan links tree modelDirSet cfg).paths.Pairwise fun path other => ∃ l m,
      path = Path.ofLoc l ∧ other = Path.ofLoc m ∧ tree.location links path = some l ∧
        tree.location links other = some m ∧ ¬ l <+: m ∧ ¬ m <+: l := by
  refine (nodup_plan hproper).imp_of_mem fun hpath hother hne => ?_
  obtain ⟨dir, n, hplace⟩ := h.placed (mem_plan.mp hpath)
  obtain ⟨dir', n', hplace'⟩ := h.placed (mem_plan.mp hother)
  have hl := hplace.spelled.trans (Path.ofLoc_join dir n)
  have hm := hplace'.spelled.trans (Path.ofLoc_join dir' n')
  refine ⟨_, _, hl, hm, hplace.location links, hplace'.location links, fun hle => ?_, fun hle => ?_⟩
  · exact hne (by rw [hl, hm, h.eq_of_below (mem_plan.mp hpath) (mem_plan.mp hother)
      (hplace.location links) (hplace'.location links) hle])
  · exact hne (by rw [hl, hm, h.eq_of_below (mem_plan.mp hother) (mem_plan.mp hpath)
      (hplace'.location links) (hplace.location links) hle])

/-- Of a download nothing that goes stands below something else that goes, and nothing goes twice; a
collection succeeds, and frees exactly what it says. -/
theorem freed_as_announced (h : Download tree cfg kept data) (hproper : tree.Proper) :
    ((plan links tree modelDirSet cfg).paths.Pairwise fun path other => ∃ l m,
      tree.location links path = some l ∧ tree.location links other = some m ∧
        ¬ l <+: m ∧ ¬ m <+: l) ∧
    ∃ tree', apply links (plan links tree modelDirSet cfg) tree = .ok tree' ∧
      tree.bytes = tree'.bytes + (plan links tree modelDirSet cfg).bytes := by
  have hapart := h.apart hproper links modelDirSet
  refine ⟨hapart.imp fun hplaces => ?_, ?_⟩
  · obtain ⟨l, m, -, -, hplaces⟩ := hplaces
    exact ⟨l, m, hplaces⟩
  refine freed_of_apart hproper (fun entry hentry => ?_) ?_
  · obtain ⟨dir, n, hplace⟩ := h.placed (mem_plan.mp (List.mem_map_of_mem hentry))
    refine ⟨dir, n, hplace, ?_⟩
    rw [measured_plan entry hentry, size_of_location (hplace.location links)]
  · refine (List.pairwise_map.mp hapart).imp fun hplaces => ?_
    obtain ⟨l, m, hl, hm, -, -, hlm, hml⟩ := hplaces
    have hprefix {a b : List Text} : Path.ofLoc a <+: Path.ofLoc b ↔ a <+: b :=
      List.prefix_map_iff_of_injective fun _ _ => Step.name.inj
    rw [hl, hm, hprefix, hprefix]
    exact ⟨hlm, hml⟩

theorem hub_proper : hub.Proper := by
  have hkept : (up 2 "aaa".toList).Proper := Node.proper_link _ _
  have hstale : (up 2 "old".toList).Proper := Node.proper_link _ _
  refine Node.proper_dir (by decide) (List.forall_mem_singleton.mpr ?_)
  refine Node.proper_dir (by decide) (List.forall_mem_singleton.mpr ?_)
  refine Node.proper_dir (List.nodup_singleton _) (List.forall_mem_singleton.mpr ?_)
  refine Node.proper_dir (by decide) (List.forall_mem_cons.mpr
    ⟨Node.proper_dir (by decide) ?_, List.forall_mem_singleton.mpr
      (Node.proper_dir (by decide) ?_)⟩)
  · exact List.forall_mem_cons.mpr ⟨Node.proper_file 36, List.forall_mem_cons.mpr
      ⟨Node.proper_file 20, List.forall_mem_singleton.mpr (Node.proper_file 0)⟩⟩
  · rintro c hc
    rcases List.mem_pair.mp hc with rfl | rfl
    · exact Node.proper_dir (by decide) (List.forall_mem_singleton.mpr hkept)
    · exact Node.proper_dir (by decide) (List.forall_mem_singleton.mpr hstale)

/-- The stale snapshot of the cache and its blob. -/
theorem hub_freed :
    ((plan 40 hub false light).paths.Pairwise fun path other => ∃ l m,
      hub.location 40 path = some l ∧ hub.location 40 other = some m ∧ ¬ l <+: m ∧ ¬ m <+: l) ∧
    ∃ tree', apply 40 (plan 40 hub false light) hub = .ok tree' ∧
      hub.bytes = tree'.bytes + (plan 40 hub false light).bytes :=
  freed_as_announced hub_download hub_proper

end Download

end Agmem.Gc
