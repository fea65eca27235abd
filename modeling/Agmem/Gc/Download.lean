import Agmem.Gc.Sound

/-! Downloads of the hub client: a file of a snapshot, in whatever directory below it, is a link up
to the repository and down to its blob. A collection does no harm to such a download exactly if the
blobs of the files in subdirectories are spared for another reason. -/

namespace Agmem.Gc

open Core Daemon Files

variable {links : ℕ} {modelDirSet : Bool} {cfg : Config} {tree : Tree} {kept : Source}
  {path : Path} {loc : List Text} {n x : Text} {size : ℕ}

/-! ### The layout -/

section Places

variable (data : List Text) (kept : Source)

def modelsAt : List Text := data ++ ["models".toList]

def repoAt : List Text := modelsAt data ++ [repoDirName kept.repo]

def snapshotsAt : List Text := repoAt data kept ++ ["snapshots".toList]

def snapshotAt : List Text := snapshotsAt data kept ++ [kept.revision]

def blobsAt : List Text := repoAt data kept ++ ["blobs".toList]

end Places

/-- The target of a link from so many directories below the repository to a blob. -/
def toBlob (depth : ℕ) (x : Text) : Target Text :=
  ⟨false, List.replicate depth .up ++ [.name "blobs".toList, .name x]⟩

theorem toBlob_inj {depth : ℕ} {y : Text} (h : toBlob depth x = toBlob depth y) : x = y := by
  simpa [toBlob] using h

/-- Directories down to the snapshot and the blobs, blobs that are files, and below the snapshot
only directories, files and links to blobs. -/
structure Download (tree : Tree) (cfg : Config) (kept : Source) (data : List Text) : Prop where
  keep : cfg.keep = some kept
  dataDir : cfg.dataDir = Path.ofLoc data
  snapshot : tree.Solid (snapshotAt data kept)
  blobs : tree.kindAt (blobsAt data kept) = some .dir
  file : ∀ below n kind, tree.kindAt (snapshotAt data kept ++ below ++ [n]) = some kind →
    kind = .dir ∨ (∃ bytes, kind = .file bytes) ∨ ∃ x size,
      kind = .link (toBlob (below.length + 2) x) size ∧
      (tree.kindAt (blobsAt data kept ++ [x])).isSome
  blob : ∀ n kind, tree.kindAt (blobsAt data kept ++ [n]) = some kind → ∃ bytes, kind = .file bytes

/-- The blob of every file in a subdirectory is the blob of a direct entry too, or is a lock. -/
def NestedSpared (links : ℕ) (tree : Tree) (cfg : Config) (kept : Source) (data : List Text) :
    Prop :=
  ∀ below n x size, below ≠ [] → tree.kindAt (snapshotAt data kept ++ below ++ [n]) =
    some (.link (toBlob (below.length + 2) x) size) →
      Used links tree cfg kept x ∨ isLock ((cfg.blobs kept).join x) = true

namespace Download

variable {data below : List Text}

theorem models_eq (h : Download tree cfg kept data) : cfg.models = Path.ofLoc (modelsAt data) := by
  rw [Config.models, h.dataDir, Path.ofLoc_join]
  rfl

theorem snapshots_eq (h : Download tree cfg kept data) :
    cfg.snapshots kept = Path.ofLoc (snapshotsAt data kept) := by
  rw [Config.snapshots, Config.repo, h.models_eq, Path.ofLoc_join, Path.ofLoc_join]
  rfl

theorem snapshot_eq (h : Download tree cfg kept data) :
    cfg.snapshot kept = Path.ofLoc (snapshotAt data kept) := by
  rw [Config.snapshot, h.snapshots_eq, Path.ofLoc_join]
  rfl

theorem blobs_eq (h : Download tree cfg kept data) :
    cfg.blobs kept = Path.ofLoc (blobsAt data kept) := by
  rw [Config.blobs, Config.repo, h.models_eq, Path.ofLoc_join, Path.ofLoc_join]
  rfl

theorem solid_repo (h : Download tree cfg kept data) : tree.Solid (repoAt data kept) :=
  h.snapshot.of_prefix ⟨["snapshots".toList, kept.revision], by simp [snapshotAt, snapshotsAt]⟩

theorem solid_blobs (h : Download tree cfg kept data) : tree.Solid (blobsAt data kept) :=
  h.solid_repo.concat h.blobs

theorem solid_data (h : Download tree cfg kept data) : tree.Solid data :=
  h.solid_repo.of_prefix ⟨["models".toList, repoDirName kept.repo], by simp [repoAt, modelsAt]⟩

theorem solid_models (h : Download tree cfg kept data) : tree.Solid (modelsAt data) :=
  h.solid_repo.of_prefix (List.prefix_append _ _)

theorem solid_snapshots (h : Download tree cfg kept data) : tree.Solid (snapshotsAt data kept) :=
  h.snapshot.of_prefix (List.prefix_append _ _)

theorem snapshotAt_append (data : List Text) (kept : Source) (rest : List Text) :
    snapshotAt data kept ++ rest =
      repoAt data kept ++ "snapshots".toList :: kept.revision :: rest := by
  simp [snapshotAt, snapshotsAt]

/-! ### What goes of it -/

/-- Where a path that does not stay is. -/
theorem location_of_leaves (h : Download tree cfg kept data)
    (hleaves : Leaves links tree modelDirSet cfg path)
    (hl : tree.location links path = some loc) :
    (∃ n, n ≠ repoDirName kept.repo ∧ loc = modelsAt data ++ [n]) ∨
    (∃ n, n ≠ kept.revision ∧ loc = snapshotsAt data kept ++ [n]) ∨
    (∃ n, ¬(Used links tree cfg kept n ∨ isLock ((cfg.blobs kept).join n) = true) ∧
      loc = blobsAt data kept ++ [n]) ∨
    ∃ n, "models--".toList <+: n ∧ loc = data ++ [n] := by
  cases hleaves with
  | model hset hn hdot hother =>
    rw [h.models_eq] at hl
    exact .inl ⟨_, hother kept h.keep, Node.location_solid h.solid_models hl⟩
  | snapshot hset hkept hn hother =>
    obtain rfl := Option.some.inj (h.keep.symm.trans hkept)
    rw [h.snapshots_eq] at hl
    exact .inr (.inl ⟨_, hother, Node.location_solid h.solid_snapshots hl⟩)
  | blob hset hkept hn hlock hunused =>
    obtain rfl := Option.some.inj (h.keep.symm.trans hkept)
    rw [h.blobs_eq] at hl
    refine .inr (.inr (.inl ⟨_, ?_, Node.location_solid h.solid_blobs hl⟩))
    rintro (hused | hlocked)
    · exact hunused hused
    · rw [hlock] at hlocked
      cases hlocked
  | beside hn hstart hdir =>
    rw [h.dataDir] at hl
    exact .inr (.inr (.inr ⟨_, hstart, Node.location_solid h.solid_data hl⟩))

theorem not_prefix_models : ¬"models--".toList <+: "models".toList := by decide

/-- What is doomed below the kept repository is one of its other snapshots or unused blobs. -/
theorem doomed_repo (h : Download tree cfg kept data) {rest : List Text}
    (hdoomed : Doomed links tree modelDirSet cfg (repoAt data kept ++ rest)) :
    (∃ n, n ≠ kept.revision ∧ ["snapshots".toList, n] <+: rest) ∨
    ∃ n, ¬(Used links tree cfg kept n ∨ isLock ((cfg.blobs kept).join n) = true) ∧
      ["blobs".toList, n] <+: rest := by
  obtain ⟨path, l, hleaves, hl, hstart⟩ := hdoomed
  rcases h.location_of_leaves hleaves hl with ⟨n, hn, rfl⟩ | ⟨n, hn, rfl⟩ | ⟨n, hn, rfl⟩ |
    ⟨n, hn, rfl⟩
  · rw [repoAt, List.append_assoc, List.prefix_append_right_inj, List.singleton_append,
      List.cons_prefix_cons] at hstart
    exact absurd hstart.1 hn
  · rw [snapshotsAt, List.append_assoc, List.prefix_append_right_inj] at hstart
    exact .inl ⟨n, hn, hstart⟩
  · rw [blobsAt, List.append_assoc, List.prefix_append_right_inj] at hstart
    exact .inr ⟨n, hn, hstart⟩
  · rw [repoAt, modelsAt, List.append_assoc, List.append_assoc, List.prefix_append_right_inj,
      List.singleton_append, List.cons_prefix_cons] at hstart
    exact absurd (hstart.1 ▸ hn) not_prefix_models

/-- The kept snapshot stays with everything below it. -/
theorem not_doomed_snapshot (h : Download tree cfg kept data) (rest : List Text) :
    ¬Doomed links tree modelDirSet cfg (snapshotAt data kept ++ rest) := by
  rw [snapshotAt_append]
  intro hdoomed
  rcases h.doomed_repo hdoomed with ⟨n, hn, hstart⟩ | ⟨n, -, hstart⟩
  · rw [List.cons_prefix_cons, List.cons_prefix_cons] at hstart
    exact hn hstart.2.1
  · rw [List.cons_prefix_cons] at hstart
    exact absurd hstart.1 (by decide)

theorem not_doomed_snapshotAt (h : Download tree cfg kept data) :
    ¬Doomed links tree modelDirSet cfg (snapshotAt data kept) := by
  rw [← List.append_nil (snapshotAt data kept)]
  exact h.not_doomed_snapshot []

theorem not_doomed_blobs (h : Download tree cfg kept data) :
    ¬Doomed links tree modelDirSet cfg (blobsAt data kept) := by
  intro hdoomed
  rcases h.doomed_repo hdoomed with ⟨n, -, hstart⟩ | ⟨n, -, hstart⟩ <;>
    exact absurd hstart.length_le (by simp)

/-- A blob that is used or locked stays. -/
theorem not_doomed_blob (h : Download tree cfg kept data)
    (hspared : Used links tree cfg kept x ∨ isLock ((cfg.blobs kept).join x) = true) :
    ¬Doomed links tree modelDirSet cfg (blobsAt data kept ++ [x]) := by
  rw [blobsAt, List.append_assoc]
  intro hdoomed
  rcases h.doomed_repo hdoomed with ⟨m, -, hstart⟩ | ⟨m, hm, hstart⟩
  · rw [List.singleton_append, List.cons_prefix_cons] at hstart
    exact absurd hstart.1 (by decide)
  · rw [List.singleton_append, List.cons_prefix_cons, List.cons_prefix_cons] at hstart
    exact hm (hstart.2.1 ▸ hspared)

/-- Any other blob goes. -/
theorem spared_of_not_doomed (h : Download tree cfg kept data) (hset : modelDirSet = false)
    (hx : (tree.kindAt (blobsAt data kept ++ [x])).isSome)
    (hstays : ¬Doomed links tree modelDirSet cfg (blobsAt data kept ++ [x])) :
    Used links tree cfg kept x ∨ isLock ((cfg.blobs kept).join x) = true := by
  by_contra hnot
  rw [not_or, Bool.not_eq_true] at hnot
  have hblobs : tree.resolve links (cfg.blobs kept) = some (blobsAt data kept) := by
    rw [h.blobs_eq]
    exact Node.resolve_solid h.solid_blobs links
  refine hstays ⟨_, _, .blob hset h.keep ?_ hnot.2 hnot.1, ?_, List.prefix_rfl⟩
  · exact Node.mem_namesAt.mpr ⟨_, hblobs, hx⟩
  · exact Node.location_join.mpr ⟨_, hblobs, hx, rfl⟩

/-! ### Ways below the snapshot -/

theorem resolve_blob (h : Download tree cfg kept data)
    (hx : (tree.kindAt (blobsAt data kept ++ [x])).isSome) (links : ℕ) :
    tree.resolve links ((cfg.blobs kept).join x) = some (blobsAt data kept ++ [x]) := by
  obtain ⟨kind, hkind⟩ := Option.isSome_iff_exists.mp hx
  obtain ⟨bytes, rfl⟩ := h.blob x kind hkind
  rw [h.blobs_eq, Path.join, Node.resolve_names h.solid_blobs]
  exact Node.follow_file hkind links

/-- What a link below the snapshot points at. -/
theorem isSome_blob (h : Download tree cfg kept data)
    (hkind : tree.kindAt (snapshotAt data kept ++ below ++ [n]) =
      some (.link (toBlob (below.length + 2) x) size)) :
    (tree.kindAt (blobsAt data kept ++ [x])).isSome := by
  rcases h.file below n _ hkind with hdir | ⟨bytes, hfile⟩ | ⟨y, size', hlink, hy⟩
  · cases hdir
  · cases hfile
  · obtain rfl : x = y := toBlob_inj (Kind.link.inj hlink).1
    exact hy

/-- A link below the snapshot leads to its blob. -/
theorem follow_link (h : Download tree cfg kept data)
    (hkind : tree.kindAt (snapshotAt data kept ++ below ++ [n]) =
      some (.link (toBlob (below.length + 2) x) size)) (links : ℕ) :
    tree.follow (links + 1) (snapshotAt data kept ++ below) [.name n] =
      some (blobsAt data kept ++ [x]) := by
  obtain ⟨kind, hx⟩ := Option.isSome_iff_exists.mp (h.isSome_blob hkind)
  obtain ⟨bytes, rfl⟩ := h.blob x kind hx
  have hup := @Node.follow_up _ _ tree links (repoAt data kept)
    ("snapshots".toList :: kept.revision :: below) [.name "blobs".toList, .name x]
  rw [← snapshotAt_append] at hup
  simp only [Node.follow, Node.walk, hkind, Bool.false_eq_true, if_false, List.append_nil, toBlob]
  refine hup.trans ?_
  change tree.follow links _ (Path.ofLoc ["blobs".toList] ++ [.name x]) = _
  rw [Node.follow_names h.solid_blobs]
  exact Node.follow_file hx links

/-- On its way there it passes the directory of the blobs and nothing else. -/
theorem trail_link (h : Download tree cfg kept data)
    (hkind : tree.kindAt (snapshotAt data kept ++ below ++ [n]) =
      some (.link (toBlob (below.length + 2) x) size)) (links : ℕ) (rest : Path) :
    tree.trailFrom (links + 1) (snapshotAt data kept ++ below) (.name n :: rest) =
      [snapshotAt data kept ++ below ++ [n], blobsAt data kept, blobsAt data kept ++ [x]] := by
  obtain ⟨kind, hx⟩ := Option.isSome_iff_exists.mp (h.isSome_blob hkind)
  obtain ⟨bytes, rfl⟩ := h.blob x kind hx
  have hup := @Node.trailFrom_up _ _ tree links (repoAt data kept)
    ("snapshots".toList :: kept.revision :: below) (.name "blobs".toList :: .name x :: rest)
  rw [← snapshotAt_append] at hup
  simp only [Node.trailFrom, Node.trailWalk, hkind, Bool.false_eq_true, if_false, toBlob]
  rw [List.append_assoc (List.replicate _ _)]
  refine congrArg (List.cons _) (hup.trans ?_)
  rw [Node.trailFrom_dir h.blobs]
  exact congrArg (List.cons _) (Node.trailFrom_file hx links rest)

/-- A link directly in the snapshot uses its blob. -/
theorem used_of_link (h : Download tree cfg kept data)
    (hkind : tree.kindAt (snapshotAt data kept ++ [n]) = some (.link (toBlob 2 x) size))
    (links : ℕ) : Used (links + 1) tree cfg kept x := by
  have hentry : tree.kindAt (snapshotAt data kept ++ [] ++ [n]) =
      some (.link (toBlob 2 x) size) := by rw [List.append_nil, hkind]
  refine ⟨n, ?_, _, ?_, h.resolve_blob (h.isSome_blob hentry) _⟩
  · rw [h.snapshot_eq]
    exact Node.mem_namesAt.mpr ⟨_, Node.resolve_solid h.snapshot _, by rw [hkind]; rfl⟩
  · rw [h.snapshot_eq, Path.join, Node.resolve_names h.snapshot, ← h.follow_link hentry links,
      List.append_nil]

/-- Below the snapshot no way passes anything that goes. -/
theorem clear_below (h : Download tree cfg kept data)
    (hspared : NestedSpared links tree cfg kept data) (names below : List Text) :
    Node.Clear (Doomed links tree modelDirSet cfg)
      (tree.trailFrom links (snapshotAt data kept ++ below) (Path.ofLoc names)) := by
  induction names generalizing below with
  | nil => cases links <;> exact Node.clear_nil _
  | cons n names ih =>
    have hentry : ¬Doomed links tree modelDirSet cfg (snapshotAt data kept ++ below ++ [n]) := by
      rw [List.append_assoc]
      exact h.not_doomed_snapshot _
    change Node.Clear _ (tree.trailFrom links _ (.name n :: Path.ofLoc names))
    cases hkind : tree.kindAt (snapshotAt data kept ++ below ++ [n]) with
    | none =>
      rw [Node.trailFrom_none hkind]
      exact List.forall_mem_singleton.mpr hentry
    | some kind =>
      rcases h.file below n kind hkind with rfl | ⟨bytes, rfl⟩ | ⟨x, size, rfl, -⟩
      · rw [Node.trailFrom_dir hkind]
        refine List.forall_mem_cons.mpr ⟨hentry, ?_⟩
        rw [List.append_assoc]
        exact ih (below ++ [n])
      · rw [Node.trailFrom_file hkind]
        exact List.forall_mem_singleton.mpr hentry
      · cases links with
        | zero =>
          rw [Node.trailFrom, Node.trailWalk, hkind]
          exact List.forall_mem_singleton.mpr hentry
        | succ links =>
          have hblob : Used (links + 1) tree cfg kept x ∨
              isLock ((cfg.blobs kept).join x) = true := by
            cases below with
            | nil => exact .inl (h.used_of_link (by rwa [List.append_nil] at hkind) links)
            | cons d below => exact hspared _ n x size (List.cons_ne_nil d below) hkind
          rw [h.trail_link hkind]
          simp only [Node.Clear, List.forall_mem_cons]
          exact ⟨hentry, h.not_doomed_blobs, h.not_doomed_blob hblob, fun _ hq =>
            absurd hq List.not_mem_nil⟩

theorem clear_trail (h : Download tree cfg kept data)
    (hspared : NestedSpared links tree cfg kept data) (names : List Text) :
    Node.Clear (Doomed links tree modelDirSet cfg)
      (tree.trail links (cfg.snapshot kept ++ Path.ofLoc names)) := by
  rw [h.snapshot_eq]
  refine Node.clear_trail_names doomed_below h.snapshot h.not_doomed_snapshotAt ?_
  rw [← List.append_nil (snapshotAt data kept)]
  exact h.clear_below hspared names []

/-! ### Sound downloads -/

theorem filesStay (h : Download tree cfg kept data)
    (hspared : NestedSpared links tree cfg kept data) : FilesStay links tree modelDirSet cfg := by
  intro _ kept' hkept' _ names _ _ _ _
  obtain rfl := Option.some.inj (h.keep.symm.trans hkept')
  exact h.clear_trail hspared names

theorem leavesInScope (h : Download tree cfg kept data) :
    LeavesInScope links tree modelDirSet cfg := by
  intro path loc hleaves hloc
  have hmodels : tree.resolve links cfg.models = some (modelsAt data) := by
    rw [h.models_eq]
    exact Node.resolve_solid h.solid_models links
  rcases h.location_of_leaves hleaves hloc with ⟨n, -, rfl⟩ | ⟨n, -, rfl⟩ | ⟨n, -, rfl⟩ |
    ⟨n, hn, rfl⟩
  · exact .inl ⟨_, n, hmodels, List.prefix_rfl⟩
  · exact .inl ⟨_, repoDirName kept.repo, hmodels, by simp [snapshotsAt, repoAt]⟩
  · exact .inl ⟨_, repoDirName kept.repo, hmodels, by simp [blobsAt, repoAt]⟩
  · refine .inr ⟨data, n, ?_, hn, List.prefix_rfl⟩
    rw [h.dataDir]
    exact Node.resolve_solid h.solid_data links

theorem blobsStayUsed (h : Download tree cfg kept data)
    (hspared : NestedSpared links tree cfg kept data) :
    BlobsStayUsed links tree modelDirSet cfg := by
  intro hset kept' hkept' dir n hdir _ hkind hlock hstays
  obtain rfl := Option.some.inj (h.keep.symm.trans hkept')
  rw [h.blobs_eq, Node.resolve_solid h.solid_blobs] at hdir
  cases hdir
  obtain ⟨file, hfile, loc, hloc, hblob⟩ :=
    (h.spared_of_not_doomed hset hkind hstays).resolve_right (by simp [hlock])
  refine ⟨file, hfile, loc, hloc, hblob, h.clear_trail hspared [file], ?_⟩
  obtain ⟨kind, hkind⟩ := Option.isSome_iff_exists.mp hkind
  obtain ⟨bytes, rfl⟩ := h.blob n kind hkind
  rw [h.blobs_eq]
  refine Node.clear_trail_names doomed_below h.solid_blobs h.not_doomed_blobs ?_
  rw [Node.trailFrom_file hkind]
  exact List.forall_mem_singleton.mpr hstays

/-- Whatever else is in the models directory and beside it, nothing is lost of such a download. -/
theorem sound (h : Download tree cfg kept data) (hspared : NestedSpared links tree cfg kept data) :
    Sound links tree modelDirSet cfg :=
  ⟨h.filesStay hspared, h.leavesInScope, h.blobsStayUsed hspared⟩

/-- A file in a subdirectory stays only if its blob is spared. -/
theorem nestedSpared (h : Download tree cfg kept data) (hlinks : 0 < links)
    (hfiles : FilesStay links tree false cfg) : NestedSpared links tree cfg kept data := by
  intro below n x size _ hkind
  obtain ⟨links, rfl⟩ := Nat.exists_eq_succ_of_ne_zero hlinks.ne'
  have hsolid : tree.Solid (snapshotAt data kept ++ below) :=
    Node.solid_of_isSome (by rw [hkind]; rfl)
  have hpath : cfg.snapshot kept ++ Path.ofLoc (below ++ [n]) =
      Path.ofLoc (snapshotAt data kept ++ below) ++ [.name n] := by
    rw [h.snapshot_eq, ← Path.ofLoc_append, ← List.append_assoc, Path.ofLoc_append]
    rfl
  have hx := h.isSome_blob hkind
  refine h.spared_of_not_doomed rfl hx ?_
  obtain ⟨kind, hblob⟩ := Option.isSome_iff_exists.mp hx
  obtain ⟨bytes, rfl⟩ := h.blob x kind hblob
  have hdir : tree.isDir (links + 1) (cfg.snapshot kept) = true := by
    rw [h.snapshot_eq]
    exact Node.isDir_iff.mpr ⟨_, Node.resolve_solid h.snapshot _,
      h.snapshot _ (List.concat_ne_nil _ _) List.prefix_rfl⟩
  refine hfiles rfl kept h.keep hdir (below ++ [n]) _ bytes ?_ hblob _ ?_
  · rw [hpath, Node.resolve_names hsolid]
    exact h.follow_link hkind links
  · rw [hpath]
    refine (Node.trail_names hsolid _ _).subset ?_
    rw [h.trail_link hkind]
    simp

/-- A collection does no harm to a download exactly if the blobs of files in subdirectories are used
by direct entries too. -/
theorem sound_iff (h : Download tree cfg kept data) (hlinks : 0 < links) :
    Sound links tree false cfg ↔ NestedSpared links tree cfg kept data :=
  ⟨fun hsound => h.nestedSpared hlinks hsound.files, h.sound⟩

/-- In a snapshot without directories nothing stands further down. -/
theorem kindAt_of_flat (hflat : ∀ n, tree.kindAt (snapshotAt data kept ++ [n]) ≠ some .dir)
    (hbelow : below ≠ []) (n : Text) :
    tree.kindAt (snapshotAt data kept ++ below ++ [n]) = none := by
  obtain ⟨d, below, rfl⟩ := List.exists_cons_of_ne_nil hbelow
  by_contra hsome
  have hsolid := Node.solid_of_isSome (Option.isSome_iff_ne_none.mpr hsome)
  exact hflat d (hsolid _ (List.concat_ne_nil _ _) ⟨below, by simp⟩)

theorem nestedSpared_of_flat (hflat : ∀ n, tree.kindAt (snapshotAt data kept ++ [n]) ≠ some .dir) :
    NestedSpared links tree cfg kept data := by
  intro below n x size hbelow hkind
  rw [kindAt_of_flat hflat hbelow] at hkind
  cases hkind

end Download

end Agmem.Gc
