import Agmem.Gc.Named

/-! Layouts that a collection does no harm to. Which paths do not stay is known, so that a way
through the tree can be asked for what it passes of them. -/

namespace Agmem.Gc

open Core Daemon Files

variable {links : ℕ} {modelDirSet : Bool} {cfg : Config} {tree : Tree} {kept : Source}
  {dir path : Path} {loc : List Text} {n : Text}

/-- What is at or below a path that does not stay. -/
def Doomed (links : ℕ) (tree : Tree) (modelDirSet : Bool) (cfg : Config) (loc : List Text) : Prop :=
  ∃ path l, Leaves links tree modelDirSet cfg path ∧ tree.location links path = some l ∧ l <+: loc

theorem leaves_join (h : Leaves links tree modelDirSet cfg path) :
    ∃ dir n, path = Path.join dir n := by
  cases h <;> exact ⟨_, _, rfl⟩

theorem doomed_below (q q' : List Text) (hq : Doomed links tree modelDirSet cfg q) (h : q <+: q') :
    Doomed links tree modelDirSet cfg q' := by
  obtain ⟨path, l, hleaves, hl, hstart⟩ := hq
  exact ⟨path, l, hleaves, hl, hstart.trans h⟩

/-- Within the models directory, or at or below something beside it that is named like a
repository. -/
def InScope (links : ℕ) (tree : Tree) (cfg : Config) (loc : List Text) : Prop :=
  (∃ dir n, tree.resolve links cfg.models = some dir ∧ dir ++ [n] <+: loc) ∨
  ∃ dir n, tree.resolve links cfg.dataDir = some dir ∧ "models--".toList <+: n ∧
    dir ++ [n] <+: loc

/-- A blob is used, and neither it nor the entry that uses it is reached over anything that does not
stay. -/
def StillUsed (links : ℕ) (tree : Tree) (modelDirSet : Bool) (cfg : Config) (kept : Source)
    (n : Text) : Prop :=
  ∃ file ∈ tree.namesAt links (cfg.snapshot kept), ∃ loc,
    tree.resolve links ((cfg.snapshot kept).join file) = some loc ∧
    tree.resolve links ((cfg.blobs kept).join n) = some loc ∧
    Node.Clear (Doomed links tree modelDirSet cfg)
      (tree.trail links ((cfg.snapshot kept).join file)) ∧
    Node.Clear (Doomed links tree modelDirSet cfg) (tree.trail links ((cfg.blobs kept).join n))

/-- No file of the kept snapshot is reached over anything that does not stay. -/
def FilesStay (links : ℕ) (tree : Tree) (modelDirSet : Bool) (cfg : Config) : Prop :=
  modelDirSet = false → ∀ kept ∈ cfg.keep, tree.isDir links (cfg.snapshot kept) = true →
    ∀ names loc bytes, tree.resolve links (cfg.snapshot kept ++ Path.ofLoc names) = some loc →
      tree.kindAt loc = some (.file bytes) →
      Node.Clear (Doomed links tree modelDirSet cfg)
        (tree.trail links (cfg.snapshot kept ++ Path.ofLoc names))

/-- What does not stay is in scope, the other snapshots and the unused blobs among it. -/
def LeavesInScope (links : ℕ) (tree : Tree) (modelDirSet : Bool) (cfg : Config) : Prop :=
  ∀ path loc, Leaves links tree modelDirSet cfg path →
    tree.location links path = some loc → InScope links tree cfg loc

/-- The blobs that stay are used by what stays. -/
def BlobsStayUsed (links : ℕ) (tree : Tree) (modelDirSet : Bool) (cfg : Config) : Prop :=
  modelDirSet = false → ∀ kept ∈ cfg.keep, ∀ dir n,
    tree.resolve links (cfg.blobs kept) = some dir →
    Node.Clear (Doomed links tree modelDirSet cfg) (tree.trail links (cfg.blobs kept)) →
    (tree.kindAt (dir ++ [n])).isSome → isLock ((cfg.blobs kept).join n) = false →
    ¬Doomed links tree modelDirSet cfg (dir ++ [n]) → StillUsed links tree modelDirSet cfg kept n

/-- A layout that a collection does no harm to. -/
structure Sound (links : ℕ) (tree : Tree) (modelDirSet : Bool) (cfg : Config) : Prop where
  files : FilesStay links tree modelDirSet cfg
  scope : LeavesInScope links tree modelDirSet cfg
  blobs : BlobsStayUsed links tree modelDirSet cfg

end Agmem.Gc
