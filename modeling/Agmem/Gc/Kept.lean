import Agmem.Gc.Download

/-! What a collection leaves. Applying the plan prunes what stands at the paths it names; which
files of the kept snapshot that takes, what it reaches beyond the models, and what a second plan
finds are then told from the trails of paths. -/

namespace Agmem.Gc

open Core Daemon Files

variable {links : ℕ} {modelDirSet : Bool} {cfg : Config} {tree tree' : Tree} {kept : Source}
  {dir path : Path} {loc : List Text} {n : Text}

/-! ### What applying the plan takes -/

/-- Later removals find their paths where the first tree has them. -/
theorem pruned_of_foldlM {entries : List (Path × ℕ)}
    (hjoin : ∀ entry ∈ entries, ∃ dir n, entry.1 = Path.join dir n)
    (h : entries.foldlM (fun tree entry => removeAt links tree entry.1) tree = .ok tree') :
    (∀ entry ∈ entries, ∃ l, tree.location links entry.1 = some l) ∧
      tree.Pruned tree' fun loc =>
        ∃ entry ∈ entries, ∃ l, tree.location links entry.1 = some l ∧ l <+: loc := by
  induction entries generalizing tree with
  | nil =>
    cases h
    exact ⟨by simp, (Node.pruned_refl _).congr (by simp)⟩
  | cons entry entries ih =>
    obtain ⟨⟨dir, n, hpath⟩, hentries⟩ := List.forall_mem_cons.mp hjoin
    rw [List.foldlM_cons, removeAt] at h
    cases hlocation : tree.location links entry.1 with
    | none =>
      rw [hlocation] at h
      cases h
    | some l =>
      rw [hlocation] at h
      have hl : l ≠ [] := by
        rw [hpath] at hlocation
        obtain ⟨loc, -, -, rfl⟩ := Node.location_join.mp hlocation
        simp
      have hfirst := Node.pruned_remove tree hl
      obtain ⟨hlocated, hrest⟩ := ih hentries h
      have hsame : ∀ e ∈ entries, (tree.remove l).location links e.1 =
          tree.location links e.1 := by
        intro e he
        obtain ⟨l', hl'⟩ := hlocated e he
        obtain ⟨dir', n', hpath'⟩ := hentries e he
        rw [hl', hpath']
        rw [hpath'] at hl'
        exact (hfirst.location_join hl').symm
      refine ⟨List.forall_mem_cons.mpr ⟨⟨l, hlocation⟩, fun e he => ?_⟩,
        (hfirst.trans hrest).congr fun loc => ?_⟩
      · rw [← hsame e he]
        exact hlocated e he
      · simp only [List.mem_cons, exists_eq_or_imp, hlocation, Option.some.injEq,
          exists_eq_left']
        refine or_congr Iff.rfl (exists_congr fun e => and_congr_right fun he => ?_)
        rw [hsame e he]

theorem pruned_of_apply (h : apply links (plan links tree modelDirSet cfg) tree = .ok tree') :
    tree.Pruned tree' (Doomed links tree modelDirSet cfg) := by
  have hmem {entry : Path × ℕ} (hentry : entry ∈ (plan links tree modelDirSet cfg).remove) :
      Leaves links tree modelDirSet cfg entry.1 :=
    mem_plan.mp (List.mem_map_of_mem hentry)
  refine (pruned_of_foldlM (fun entry hentry => leaves_join (hmem hentry)) h).2.congr fun loc => ?_
  constructor
  · rintro ⟨path, l, hleaves, hl, hstart⟩
    obtain ⟨entry, hentry, rfl⟩ := List.mem_map.mp (mem_plan.mpr hleaves)
    exact ⟨entry, hentry, l, hl, hstart⟩
  · rintro ⟨entry, hentry, l, hl, hstart⟩
    exact ⟨entry.1, l, hmem hentry, hl, hstart⟩

/-! ### The three promises -/

/-- Every file reached through the snapshot that a plan keeps is reached there still. -/
def KeepsFiles (links : ℕ) (found : Plan) (tree tree' : Tree) : Prop :=
  ∀ snapshot ∈ found.keep, ∀ names loc bytes,
    tree.resolve links (snapshot ++ Path.ofLoc names) = some loc →
    tree.kindAt loc = some (.file bytes) →
    tree'.resolve links (snapshot ++ Path.ofLoc names) = some loc ∧
      tree'.kindAt loc = some (.file bytes)

/-- Nothing out of scope is touched. -/
def Untouched (links : ℕ) (cfg : Config) (tree tree' : Tree) : Prop :=
  ∀ loc, ¬InScope links tree cfg loc → tree'.kindAt loc = tree.kindAt loc

theorem keepsFiles_iff (h : tree.Pruned tree' (Doomed links tree modelDirSet cfg)) :
    KeepsFiles links (plan links tree modelDirSet cfg) tree tree' ↔
      FilesStay links tree modelDirSet cfg := by
  constructor
  · intro hkeeps hset kept hkept hdir names loc bytes hloc hfile
    have hkeep := plan_keep.mpr ⟨hset, kept, hkept, rfl, hdir⟩
    exact (h.resolve_eq_some.mp (hkeeps _ hkeep names loc bytes hloc hfile).1).2
  · rintro hclear snapshot hsnapshot names loc bytes hloc hfile
    obtain ⟨hset, kept, hkept, rfl, hdir⟩ := plan_keep.mp hsnapshot
    have hresolve := h.resolve_eq_some.mpr
      ⟨hloc, hclear hset kept hkept hdir names loc bytes hloc hfile⟩
    exact ⟨hresolve, (h.kindAt_of_resolve hresolve).trans hfile⟩

theorem untouched_iff (h : tree.Pruned tree' (Doomed links tree modelDirSet cfg)) :
    Untouched links cfg tree tree' ↔ LeavesInScope links tree modelDirSet cfg := by
  constructor
  · intro huntouched path loc hleaves hloc
    by_contra hscope
    obtain ⟨dir, n, rfl⟩ := leaves_join hleaves
    have hgone := h.of_gone ⟨_, loc, hleaves, hloc, List.prefix_rfl⟩
    obtain ⟨at', -, hkind, rfl⟩ := Node.location_join.mp hloc
    rw [← huntouched _ hscope, hgone] at hkind
    cases hkind
  · intro hscope loc hloc
    refine h.of_not_gone ?_
    rintro ⟨path, l, hleaves, hl, hstart⟩
    refine hloc ((hscope path l hleaves hl).imp ?_ ?_)
    · rintro ⟨dir, n, hdir, hn⟩
      exact ⟨dir, n, hdir, hn.trans hstart⟩
    · rintro ⟨dir, n, hdir, hname, hn⟩
      exact ⟨dir, n, hdir, hname, hn.trans hstart⟩

/-- What stands in a directory after a collection did so before it, and is not doomed. -/
theorem not_leaves_of_mem (h : tree.Pruned tree' (Doomed links tree modelDirSet cfg))
    (hn : n ∈ tree'.namesAt links dir) :
    n ∈ tree.namesAt links dir ∧ ¬Leaves links tree modelDirSet cfg (dir.join n) := by
  obtain ⟨loc, hloc, -, hkind, hgone⟩ := h.mem_namesAt hn
  refine ⟨Node.mem_namesAt.mpr ⟨loc, hloc, hkind⟩, fun hleaves => hgone ?_⟩
  exact ⟨_, _, hleaves, Node.location_join.mpr ⟨loc, hloc, hkind, rfl⟩, List.prefix_rfl⟩

/-- The only paths that a second plan can name are those of blobs. -/
theorem leaves_again (h : tree.Pruned tree' (Doomed links tree modelDirSet cfg))
    (hleaves : Leaves links tree' modelDirSet cfg path) :
    modelDirSet = false ∧ ∃ kept ∈ cfg.keep, ∃ n ∈ tree'.namesAt links (cfg.blobs kept),
      isLock ((cfg.blobs kept).join n) = false ∧ ¬Used links tree' cfg kept n := by
  cases hleaves with
  | model hset hn hdot hother =>
    obtain ⟨hn, hstays⟩ := not_leaves_of_mem h hn
    exact absurd (.model hset hn hdot hother) hstays
  | snapshot hset hkept hn hother =>
    obtain ⟨hn, hstays⟩ := not_leaves_of_mem h hn
    exact absurd (.snapshot hset hkept hn hother) hstays
  | blob hset hkept hn hlock hunused => exact ⟨hset, _, hkept, _, hn, hlock, hunused⟩
  | beside hn hstart hdir =>
    obtain ⟨hn, hstays⟩ := not_leaves_of_mem h hn
    exact absurd (.beside hn hstart (h.isDir hdir)) hstays

theorem used_iff (h : tree.Pruned tree' (Doomed links tree modelDirSet cfg)) :
    Used links tree' cfg kept n ↔ StillUsed links tree modelDirSet cfg kept n := by
  constructor
  · rintro ⟨file, hfile, loc, hloc, hblob⟩
    obtain ⟨hloc, hclear⟩ := h.resolve_eq_some.mp hloc
    obtain ⟨hblob, hclear'⟩ := h.resolve_eq_some.mp hblob
    exact ⟨file, (not_leaves_of_mem h hfile).1, loc, hloc, hblob, hclear, hclear'⟩
  · rintro ⟨file, -, loc, hloc, hblob, hclear, hclear'⟩
    have hloc := h.resolve_eq_some.mpr ⟨hloc, hclear⟩
    have hfile : file ∈ tree'.namesAt links (cfg.snapshot kept) := by
      rw [← List.append_nil (Path.join _ _)] at hloc
      exact Node.resolve_through hloc
    exact ⟨file, hfile, loc, hloc, h.resolve_eq_some.mpr ⟨hblob, hclear'⟩⟩

theorem settled_iff (h : tree.Pruned tree' (Doomed links tree modelDirSet cfg)) :
    (plan links tree' modelDirSet cfg).remove = [] ↔
      BlobsStayUsed links tree modelDirSet cfg := by
  have hempty : (plan links tree' modelDirSet cfg).remove = [] ↔
      ∀ path, ¬Leaves links tree' modelDirSet cfg path := by
    rw [← @List.map_eq_nil_iff _ _ Prod.fst, List.eq_nil_iff_forall_not_mem]
    exact forall_congr' fun path => not_congr mem_plan
  rw [hempty]
  constructor
  · intro hnone hset kept hkept dir n hdir hclear hkind hlock hstays
    refine (used_iff h).mp (by_contra fun hunused => hnone _ (.blob hset hkept ?_ hlock hunused))
    refine Node.mem_namesAt.mpr ⟨dir, h.resolve_eq_some.mpr ⟨hdir, hclear⟩, ?_⟩
    rwa [h.of_not_gone hstays]
  · intro hused path hleaves
    obtain ⟨hset, kept, hkept, n, hn, hlock, hunused⟩ := leaves_again h hleaves
    obtain ⟨dir, hdir, hclear, hkind, hstays⟩ := h.mem_namesAt hn
    exact hunused ((used_iff h).mpr (hused hset kept hkept dir n hdir hclear hkind hlock hstays))

/-- The files of the kept snapshot and everything out of scope are left in peace, and there is
nothing left to collect, exactly in sound layouts. -/
theorem collection_harmless_iff
    (h : apply links (plan links tree modelDirSet cfg) tree = .ok tree') :
    KeepsFiles links (plan links tree modelDirSet cfg) tree tree' ∧
      Untouched links cfg tree tree' ∧ (plan links tree' modelDirSet cfg).remove = [] ↔
    Sound links tree modelDirSet cfg := by
  have hpruned := pruned_of_apply h
  rw [keepsFiles_iff hpruned, untouched_iff hpruned, settled_iff hpruned]
  exact ⟨fun ⟨hfiles, hscope, hblobs⟩ => ⟨hfiles, hscope, hblobs⟩,
    fun hsound => ⟨hsound.files, hsound.scope, hsound.blobs⟩⟩

/-! ### Two caches -/

/-- The data directory of a session on the light model, with nothing in it but that model. -/
def light : Config := ⟨Path.ofLoc ["data".toList], .llama, .bgeSmallEnV15⟩

def dataWith (blobs snapshots : List (Text × Tree)) : Tree :=
  .dir [("data".toList, .dir [("models".toList, .dir [
    (repoDirName (source .bgeSmallEnV15).repo,
      .dir [("blobs".toList, .dir blobs), ("snapshots".toList, .dir snapshots)])])])]

def up (steps : ℕ) (n : Text) : Tree :=
  .link (toBlob steps n) 15

def hub : Tree :=
  dataWith [("aaa".toList, .file 36), ("old".toList, .file 20), ("aaa.lock".toList, .file 0)]
    [((source .bgeSmallEnV15).revision, .dir [("model".toList, up 2 "aaa".toList)]),
      ("stale".toList, .dir [("model".toList, up 2 "old".toList)])]

def hubAfter : Tree :=
  dataWith [("aaa".toList, .file 36), ("aaa.lock".toList, .file 0)]
    [((source .bgeSmallEnV15).revision, .dir [("model".toList, up 2 "aaa".toList)])]

/-- The source of the light model letter by letter, so that its names are cheap to compare. -/
theorem source_light : source .bgeSmallEnV15 =
    ⟨['C', 'o', 'm', 'p', 'e', 'n', 'd', 'i', 'u', 'm', 'L', 'a', 'b', 's', '/', 'b', 'g', 'e',
      '-', 's', 'm', 'a', 'l', 'l', '-', 'e', 'n', '-', 'v', '1', '.', '5', '-', 'g', 'g', 'u',
      'f'],
      ['d', '3', '2', 'f', '8', 'c', '0', '4', '0', 'e', 'a', '3', 'b', '5', '1', '6', '3', '3',
      '0', 'e', 'e', 'b', '7', '5', 'b', '7', '2', 'b', 'c', 'c', '2', 'd', '3', 'a', '7', '8',
      '0', 'a', 'b', '7']⟩ :=
  congr_arg₂ Source.mk String.toList_ofList String.toList_ofList

theorem keep_light : light.keep = some (source .bgeSmallEnV15) := rfl

theorem hub_entry {kind : Kind Text}
    (hkind : hub.kindAt (snapshotAt ["data".toList] (source .bgeSmallEnV15) ++ [n]) = some kind) :
    kind = .link (toBlob 2 "aaa".toList) 15 := by
  rw [hub, dataWith, source_light, Node.kindAt_child rfl, Node.lookup_cons] at hkind
  split_ifs at hkind
  · cases hkind
    rfl
  · cases hkind

theorem hub_flat (n : Text) :
    hub.kindAt (snapshotAt ["data".toList] (source .bgeSmallEnV15) ++ [n]) ≠ some .dir := by
  intro hdir
  cases hub_entry hdir

theorem hub_solid : hub.Solid (snapshotAt ["data".toList] (source .bgeSmallEnV15)) := by
  unfold hub dataWith
  rw [source_light]
  exact (((((Node.solid_nil _).concat rfl).concat rfl).concat rfl).concat rfl).concat rfl

theorem hub_blobs : hub.get? (blobsAt ["data".toList] (source .bgeSmallEnV15)) =
    some (.dir
      [("aaa".toList, .file 36), ("old".toList, .file 20), ("aaa.lock".toList, .file 0)]) := by
  unfold hub dataWith
  rw [source_light]
  rfl

theorem hub_download : Download hub light (source .bgeSmallEnV15) ["data".toList] where
  keep := rfl
  dataDir := rfl
  snapshot := hub_solid
  blobs := congrArg (Option.map Node.kind) hub_blobs
  file below n kind hkind := by
    cases below with
    | nil =>
      rw [List.append_nil] at hkind
      refine .inr (.inr ⟨"aaa".toList, 15, hub_entry hkind, ?_⟩)
      rw [Node.kindAt_child hub_blobs]
      rfl
    | cons d below =>
      rw [Download.kindAt_of_flat hub_flat (List.cons_ne_nil d below)] at hkind
      cases hkind
  blob n kind hkind := by
    rw [Node.kindAt_child hub_blobs, Node.lookup_cons, Node.lookup_cons, Node.lookup_cons] at hkind
    split_ifs at hkind <;> cases hkind <;> exact ⟨_, rfl⟩

theorem hub_applied : apply 40 (plan 40 hub false light) hub = .ok hubAfter := by
  unfold plan hub hubAfter dataWith
  rw [keep_light, source_light]
  rfl

theorem hub_harmless : KeepsFiles 40 (plan 40 hub false light) hub hubAfter ∧
    Untouched 40 light hub hubAfter ∧ (plan 40 hubAfter false light).remove = [] :=
  (collection_harmless_iff hub_applied).mpr
    (hub_download.sound (Download.nestedSpared_of_flat hub_flat))

/-- The weights are in a directory of their own below the snapshot. -/
def nested : Tree :=
  dataWith [("x".toList, .file 36)] [((source .bgeSmallEnV15).revision,
    .dir [("gguf".toList, .dir [("model".toList, up 3 "x".toList)])])]

def nestedAfter : Tree :=
  dataWith [] [((source .bgeSmallEnV15).revision,
    .dir [("gguf".toList, .dir [("model".toList, up 3 "x".toList)])])]

def nestedModel : List Text := ["gguf".toList, "model".toList]

def nestedWeights : Path := light.snapshot (source .bgeSmallEnV15) ++ Path.ofLoc nestedModel

def nestedBlob : List Text := blobsAt ["data".toList] (source .bgeSmallEnV15) ++ ["x".toList]

theorem nested_applied : apply 40 (plan 40 nested false light) nested = .ok nestedAfter := by
  unfold plan nested nestedAfter dataWith
  rw [keep_light, source_light]
  rfl

theorem nested_read :
    (plan 40 nested false light).keep = some (light.snapshot (source .bgeSmallEnV15)) ∧
    nested.resolve 40 nestedWeights = some nestedBlob ∧
    nested.kindAt nestedBlob = some (.file 36) ∧
    nestedAfter.resolve 40 nestedWeights = none := by
  unfold plan nested nestedAfter nestedWeights nestedBlob dataWith
  rw [keep_light, source_light]
  exact ⟨rfl, rfl, rfl, rfl⟩

/-- The blob of the configured model goes, and its link stays. -/
theorem nested_lost : ¬∀ (links : ℕ) (modelDirSet : Bool) (cfg : Config) (tree tree' : Tree),
    apply links (plan links tree modelDirSet cfg) tree = .ok tree' →
    KeepsFiles links (plan links tree modelDirSet cfg) tree tree' ∧
      Untouched links cfg tree tree' ∧ (plan links tree' modelDirSet cfg).remove = [] := by
  intro h
  obtain ⟨hkeeps, -⟩ := h 40 false light nested nestedAfter nested_applied
  obtain ⟨hkeep, hloc, hfile, hgone⟩ := nested_read
  have hstays := (hkeeps _ hkeep nestedModel _ 36 hloc hfile).1
  cases hgone.symm.trans hstays

end Agmem.Gc
