import Agmem.Core.Dedup
import Agmem.Daemon.Handshake
import Agmem.Files.Resolve
import Mathlib.Data.Char
import Mathlib.Data.List.Lex
import Mathlib.Data.List.Sort

/-! `agmem gc`: which of the downloaded models go. The configured model needs one snapshot of one
repository and the blobs its files point at; the rest of the models directory goes, and so do the
caches beside it that are named like a repository. -/

namespace Agmem.Gc

open Core Daemon Files

abbrev Tree := Node Text
abbrev Path := Files.Path Text

/-- Where a model's weights come from: a repository at the commit that is pinned. -/
structure Source where
  repo : Text
  revision : Text
  deriving DecidableEq

/-- The source of a model's spec. -/
def source : ModelKind → Source
  | .embeddinggemma300m => ⟨"ggml-org/embeddinggemma-300M-GGUF".toList,
      "0f741b5a6585bd53aeb15cd1372c56f2a0f65e12".toList⟩
  | .bgeSmallEnV15 => ⟨"CompendiumLabs/bge-small-en-v1.5-gguf".toList,
      "d32f8c040ea3b516330eeb75b72bcc2d3a780ab7".toList⟩

structure Config where
  dataDir : Path
  embedder : EmbedderKind
  model : ModelKind

/-- What to delete and why the rest stays. -/
structure Plan where
  /-- Paths to remove, each with the bytes it holds. -/
  remove : List (Path × ℕ) := []
  /-- The snapshot the configured model loads from, when there is one. -/
  keep : Option Path := none
  /-- Why the model dir was not looked at, when it was not. -/
  skipped : Option Text := none
  deriving DecidableEq

/-- Bytes the plan frees. -/
def Plan.bytes (plan : Plan) : ℕ := plan.remove.foldr (fun entry bytes => entry.2 + bytes) 0

section Reads

variable (links : ℕ) (tree : Tree)

/-- The entries of a directory, sorted; none when it cannot be read. -/
def entries (dir : Path) : List Path :=
  ((tree.namesAt links dir).insertionSort (· ≤ ·)).map dir.join

/-- Bytes under a path, symlinks counted as links, not as their targets. -/
def size (path : Path) : ℕ :=
  (((tree.location links path).bind tree.get?).map Node.bytes).getD 0

def canonicalize (path : Path) : Option Path := (tree.resolve links path).map Path.ofLoc

def fileName (path : Path) : Text :=
  match path.getLast? with
  | some (.name n) => n
  | _ => []

/-- `extension() == "lock"`: a download in flight. -/
def isLock (path : Path) : Bool :=
  ".lock".toList.isSuffixOf (fileName path) && fileName path != ".lock".toList

/-- The cache directory name the hub gives `owner/name`. -/
def repoDirName (repo : Text) : Text :=
  "models--".toList ++ repo.flatMap fun c => if c = '/' then "--".toList else [c]

def Plan.extend (plan : Plan) (paths : List Path) : Plan :=
  { plan with remove := plan.remove ++ paths.map fun path => (path, size links tree path) }

/-- Inside the kept repo: other snapshots, and blobs no kept file points at. -/
def planRepo (repo : Path) (revision : Text) (plan : Plan) : Plan :=
  let snapshots := repo.join "snapshots".toList
  let snapshot := snapshots.join revision
  let wanted := (entries links tree snapshot).filterMap (canonicalize links tree)
  let plan := plan.extend links tree ((entries links tree snapshots).filter (· ≠ snapshot))
  let plan := plan.extend links tree <| (entries links tree (repo.join "blobs".toList)).filter
    fun blob => !isLock blob && decide ((canonicalize links tree blob).getD blob ∉ wanted)
  if tree.isDir links snapshot then { plan with keep := some snapshot } else plan

/-- What the plan does at an entry of the models directory. -/
def planEntry (keep : Option Source) (plan : Plan) (entry : Path) : Plan :=
  -- The hub client's `.locks`, Finder's `.DS_Store`: bytes, and not ours.
  if ['.'].isPrefixOf (fileName entry) then plan
  else match keep.filter fun source => repoDirName source.repo = fileName entry with
    | some source => planRepo links tree entry source.revision plan
    | none => plan.extend links tree [entry]

/-- Everything under `models` but the one snapshot `keep` names and the blobs its files link to. -/
def planModels (models : Path) (keep : Option Source) : Plan :=
  (entries links tree models).foldl (planEntry links tree keep) {}

/-- The caches in the data dir itself, beside the store. -/
def rootLeftovers (dataDir : Path) : List (Path × ℕ) :=
  ((entries links tree dataDir).filter fun path =>
    "models--".toList.isPrefixOf (fileName path) && tree.isDir links path).map
    fun path => (path, size links tree path)

/-- The source to keep; without a local model every downloaded one is unused. -/
def Config.keep (cfg : Config) : Option Source :=
  match cfg.embedder with
  | .llama => some (source cfg.model)
  | .api | .none => none

/-- What `gc` would remove, without touching anything. -/
def plan (modelDirSet : Bool) (cfg : Config) : Plan :=
  let plan := if modelDirSet then
      { skipped := some
          "AGMEM_MODEL_DIR names the model dir, which may be shared; left alone".toList }
    else planModels links tree (cfg.dataDir.join "models".toList) cfg.keep
  { plan with remove := plan.remove ++ rootLeftovers links tree cfg.dataDir }

end Reads

/-- "cannot read …": the first path that is not there; what came before it is gone. -/
inductive Failure
  | cannotRead (path : Path)
  deriving DecidableEq

/-- A directory goes with everything in it; a link goes without what it points at. -/
def removeAt (links : ℕ) (tree : Tree) (path : Path) : Except Failure Tree :=
  match tree.location links path with
  | none => .error (.cannotRead path)
  | some loc => .ok (tree.remove loc)

/-- Delete what the plan names. -/
def apply (links : ℕ) (plan : Plan) (tree : Tree) : Except Failure Tree :=
  plan.remove.foldlM (fun tree entry => removeAt links tree entry.1) tree

end Agmem.Gc
