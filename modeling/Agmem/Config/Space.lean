import Agmem.Core.Chunk
import Agmem.Core.Model
import Agmem.Files.Resolve
import Mathlib.Data.List.TakeWhile

/-! The space that is served when nothing names one. It is named after the project around the
directory that the session is in: the directory that holds what all worktrees of a repository share.
So the worktrees of a project share one space, whichever of their directories a session is in. -/

namespace Agmem.Config

open Core Files

/-- What a process sees of the disk: the texts of files, and how many links a path may pass. -/
structure Disk where
  tree : Node Text
  contents : List Text → Option Text
  links : ℕ

/-! ### Paths -/

/-- A part of a path between two slashes; an empty one counts for nothing. -/
def component (part : Text) : Option (Step Text) :=
  if part = [] then none
  else if part = ['.'] then some .here
  else if part = ['.', '.'] then some .up
  else some (.name part)

def isSlash (c : Char) : Bool := decide (c = '/')

/-- `PathBuf::from` -/
def target (text : Text) : Target Text :=
  ⟨decide (text.head? = some '/'), (text.splitOnP isSlash).filterMap component⟩

/-- `Path::join`: an absolute path discards what it is joined to. -/
def join (base : Path Text) (t : Target Text) : Path Text :=
  if t.absolute then t.steps else base ++ t.steps

namespace Disk

variable (disk : Disk)

def resolve (path : Path Text) : Option (List Text) := disk.tree.resolve disk.links path

def there (path : Path Text) : Bool := (disk.resolve path).isSome

/-- `read_to_string` -/
def read (path : Path Text) : Option Text :=
  match disk.resolve path with
  | none => none
  | some loc =>
    match disk.tree.kindAt loc with
    | some (.file _) => disk.contents loc
    | _ => none

end Disk

/-! ### Projects -/

def DOT_GIT : Text := ".git".toList

def COMMONDIR : Text := "commondir".toList

def GITDIR : Text := "gitdir:".toList

/-- `Path::ancestors`, the nearest first. -/
def ancestors (start : List Text) : List (List Text) := start.reverse.tails.map List.reverse

def stripPrefix (start text : Text) : Option Text :=
  if start.isPrefixOf text then some (text.drop start.length) else none

variable (disk : Disk)

/-- The private directory of the worktree at `dir`, as a path. -/
def gitDir (dir : List Text) : Option (Path Text) :=
  let dotGit := (Path.ofLoc dir).join DOT_GIT
  if disk.tree.isDir disk.links dotGit then some dotGit
  else ((disk.read dotGit).bind (stripPrefix GITDIR)).map fun rest =>
    join (Path.ofLoc dir) (target (trim rest))

/-- What it shares with the other worktrees. -/
def commonDir (gitDir : Path Text) : Path Text :=
  match disk.read (gitDir.join COMMONDIR) with
  | some shared => join gitDir (target (trim shared))
  | none => gitDir

/-- `Path::parent` -/
def parent : List Text → Option (List Text)
  | [] => none
  | n :: loc => some (n :: loc).dropLast

/-- The directory that names the project around `start`. -/
def projectDir (start : List Text) : Option (List Text) :=
  match (ancestors start).find? fun dir => disk.there ((Path.ofLoc dir).join DOT_GIT) with
  | none => none
  | some dir =>
    ((gitDir disk dir).bind fun gitDir => disk.resolve (commonDir disk gitDir)).bind parent

/-! ### Spaces -/

def slugChar (c : Char) : Char :=
  if c.isAlphanum then c.toLower else if c = '-' ∨ c = '_' then c else '-'

def isDash (c : Char) : Bool := decide (c = '-')

def trimDashes (text : Text) : Text :=
  ((text.dropWhile isDash).reverse.dropWhile isDash).reverse

def slug (name : Text) : Text := trimDashes ((name.map slugChar).take SpaceName.MAX_LEN)

def spaceFromDirName (dir : List Text) : Option SpaceName :=
  match dir.getLast? with
  | none => none
  | some name =>
    if slug name = [] ∨ slug name = SpaceName.user.name then none else SpaceName.new? (slug name)

/-- The space of last resort. -/
def fallbackSpace : SpaceName := ⟨"default".toList, by decide⟩

def derivedSpace (cwd : List Text) : SpaceName :=
  (((projectDir disk cwd).bind spaceFromDirName).or (spaceFromDirName cwd)).getD fallbackSpace

variable {disk : Disk} {dir cwd root common : List Text} {name text : Text} {space : SpaceName}

/-- Letters and digits are ASCII here. -/
theorem lt_of_isAlphanum {c : Char} (h : c.isAlphanum = true) : c.toNat < 128 := by
  have halnum : (decide (c.val ≥ 'A'.val ∧ c.val ≤ 'Z'.val) ||
    (c.val ≥ 'a'.val && c.val ≤ 'z'.val) || (c.val ≥ '0'.val && c.val ≤ '9'.val)) = true := h
  simp only [Bool.or_eq_true, Bool.and_eq_true, decide_eq_true_eq, ge_iff_le,
    UInt32.le_iff_toNat_le] at halnum
  change c.val.toNat < 128
  have h1 : ('Z' : Char).val.toNat = 90 := rfl
  have h2 : ('z' : Char).val.toNat = 122 := rfl
  have h3 : ('9' : Char).val.toNat = 57 := rfl
  omega

theorem toLower_of_isAlphanum {c : Char} (h : c.isAlphanum = true) :
    isSlugChar c.toLower = true ∧ c.toLower ≠ '-' := by
  have hascii : ∀ n < 128, (Char.ofNat n).isAlphanum = true →
      isSlugChar (Char.ofNat n).toLower = true ∧ (Char.ofNat n).toLower ≠ '-' := by decide
  have hc := hascii c.toNat (lt_of_isAlphanum h)
  rw [Char.ofNat_toNat] at hc
  exact hc h

theorem isSlugChar_slugChar (c : Char) : isSlugChar (slugChar c) = true := by
  unfold slugChar
  split_ifs with halnum hkept
  · exact (toLower_of_isAlphanum halnum).1
  · rcases hkept with rfl | rfl <;> decide
  · decide

theorem slugChar_eq_dash {c : Char} : slugChar c = '-' ↔ ¬ (c.isAlphanum = true ∨ c = '_') := by
  unfold slugChar
  split_ifs with halnum hkept
  · exact iff_of_false (toLower_of_isAlphanum halnum).2 (not_not.mpr (.inl halnum))
  · rcases hkept with rfl | rfl <;> decide
  · exact iff_of_true rfl (not_or.mpr ⟨halnum, fun h => hkept (.inr h)⟩)

theorem trimDashes_sublist (text : Text) : List.Sublist (trimDashes text) text := by
  have hback : List.Sublist (trimDashes text).reverse (text.dropWhile isDash).reverse := by
    rw [trimDashes, List.reverse_reverse]
    exact List.dropWhile_sublist _
  exact (List.reverse_sublist.mp hback).trans (List.dropWhile_sublist _)

/-- Whatever a directory is called, what is left of its name is a slug or nothing. -/
theorem isSlug_slug (h : slug name ≠ []) : isSlug (slug name) = true := by
  have hsub := trimDashes_sublist ((name.map slugChar).take SpaceName.MAX_LEN)
  have hlen : (slug name).length ≤ SpaceName.MAX_LEN := hsub.length_le.trans (by simp)
  have hchars : (slug name).all isSlugChar = true := by
    refine List.all_eq_true.mpr fun c hc => ?_
    obtain ⟨d, -, rfl⟩ := List.mem_map.mp (List.mem_of_mem_take (hsub.subset hc))
    exact isSlugChar_slugChar d
  simp [isSlug, h, hlen, hchars]

/-- Dashes are all there is to trim from nothing but dashes. -/
theorem trimDashes_eq_nil {text : Text} : trimDashes text = [] ↔ ∀ c ∈ text, c = '-' := by
  have hfront : (∀ c ∈ text.dropWhile isDash, isDash c = true) ↔
      ∀ c ∈ text, isDash c = true := by
    refine ⟨fun h => ?_, fun h c hc => h c ((List.dropWhile_sublist _).subset hc)⟩
    by_contra hsome
    have hne : text.dropWhile isDash ≠ [] := fun hnil => hsome (List.dropWhile_eq_nil_iff.mp hnil)
    have hhead := List.head_dropWhile_not isDash hne
    rw [h _ (List.head_mem hne)] at hhead
    cases hhead
  rw [trimDashes, List.reverse_eq_nil_iff, List.dropWhile_eq_nil_iff]
  simp only [List.mem_reverse]
  rw [hfront]
  simp only [isDash, decide_eq_true_eq]

/-- The first characters of a name have one that a slug keeps. -/
def Keeps (name : Text) : Prop :=
  ∃ c ∈ name.take SpaceName.MAX_LEN, c.isAlphanum = true ∨ c = '_'

theorem slug_ne_nil_iff : slug name ≠ [] ↔ Keeps name := by
  rw [slug, ne_eq, trimDashes_eq_nil, ← List.map_take, List.forall_mem_map]
  simp only [slugChar_eq_dash, Keeps]
  push Not
  rfl

/-- The slug of a name is the name of a space exactly if the name has something to keep. -/
theorem isSlug_slug_iff : isSlug (slug name) = true ↔ Keeps name := by
  rw [← slug_ne_nil_iff]
  refine ⟨fun h hnil => ?_, isSlug_slug⟩
  rw [hnil] at h
  cases h

/-- The directory is called `name`, of which something is kept, and that is not the reserved
space. -/
structure Names (dir : List Text) (name : Text) : Prop where
  called : dir.getLast? = some name
  keeps : Keeps name
  free : slug name ≠ SpaceName.user.name

/-- A directory names the space of its slug, unless nothing is left of its name or it would be the
reserved one. -/
theorem spaceFromDirName_eq_some : spaceFromDirName dir = some space ↔
    ∃ name, Names dir name ∧ space.name = slug name := by
  unfold spaceFromDirName
  cases hlast : dir.getLast? with
  | none =>
    refine iff_of_false (by simp) ?_
    rintro ⟨name, hnames, -⟩
    rw [hnames.called] at hlast
    cases hlast
  | some name =>
    have hnames : (∃ given, Names dir given ∧ space.name = slug given) ↔
        (Keeps name ∧ slug name ≠ SpaceName.user.name) ∧ space.name = slug name := by
      constructor
      · rintro ⟨given, hgiven, hspace⟩
        obtain rfl := Option.some.inj (hgiven.called.symm.trans hlast)
        exact ⟨⟨hgiven.keeps, hgiven.free⟩, hspace⟩
      · rintro ⟨⟨hkeeps, hfree⟩, hspace⟩
        exact ⟨name, ⟨hlast, hkeeps, hfree⟩, hspace⟩
    rw [hnames, ← slug_ne_nil_iff]
    dsimp only
    by_cases hnil : slug name = []
    · rw [if_pos (.inl hnil)]
      exact iff_of_false (by simp) fun h => h.1.1 hnil
    by_cases huser : slug name = SpaceName.user.name
    · rw [if_pos (.inr huser)]
      exact iff_of_false (by simp) fun h => h.1.2 huser
    rw [if_neg (not_or.mpr ⟨hnil, huser⟩), and_iff_right ⟨hnil, huser⟩, SpaceName.new?,
      dif_pos (isSlug_slug hnil)]
    obtain ⟨given, hgiven⟩ := space
    simp only [Option.some.injEq, SpaceName.mk.injEq, eq_comm]

theorem spaceFromDirName_eq_none (h : ∀ name, ¬ Names dir name) : spaceFromDirName dir = none := by
  refine Option.eq_none_iff_forall_ne_some.mpr fun space hspace => ?_
  obtain ⟨name, hnames, -⟩ := spaceFromDirName_eq_some.mp hspace
  exact h name hnames

theorem spaceFromDirName_of_names (h : Names dir name) :
    spaceFromDirName dir = some ⟨slug name, isSlug_slug_iff.mpr h.keeps⟩ :=
  spaceFromDirName_eq_some.mpr ⟨name, h, rfl⟩

theorem derivedSpace_of_project (hdir : projectDir disk cwd = some dir) (h : Names dir name) :
    (derivedSpace disk cwd).name = slug name := by
  rw [derivedSpace, hdir, Option.bind_some, spaceFromDirName_of_names h, Option.some_or,
    Option.getD_some]

/-- A slug is the name of a space whenever anything is kept of the name. A derived space is the
slug of the project's directory where that names one; where it does not, that of the directory the
session is in; where neither does, the space of last resort; and never the reserved one. -/
theorem derived_space_named (disk : Disk) (cwd : List Text) :
    (∀ name, isSlug (slug name) = true ↔ Keeps name) ∧
    (∀ dir name, projectDir disk cwd = some dir → Names dir name →
      (derivedSpace disk cwd).name = slug name) ∧
    ((∀ dir name, projectDir disk cwd = some dir → ¬ Names dir name) →
      (∀ name, Names cwd name → (derivedSpace disk cwd).name = slug name) ∧
      ((∀ name, ¬ Names cwd name) → derivedSpace disk cwd = fallbackSpace)) ∧
    derivedSpace disk cwd ≠ SpaceName.user := by
  have hother (h : ∀ dir name, projectDir disk cwd = some dir → ¬ Names dir name) :
      (projectDir disk cwd).bind spaceFromDirName = none :=
    Option.bind_eq_none_iff.mpr fun dir hdir =>
      spaceFromDirName_eq_none fun name => h dir name hdir
  refine ⟨fun _ => isSlug_slug_iff, fun dir name hdir hnames => derivedSpace_of_project hdir hnames,
    fun h => ⟨fun name hnames => ?_, fun hnone => ?_⟩, fun huser => ?_⟩
  · rw [derivedSpace, hother h, Option.none_or, spaceFromDirName_of_names hnames, Option.getD_some]
  · rw [derivedSpace, hother h, Option.none_or, spaceFromDirName_eq_none hnone, Option.getD_none]
  · -- neither directory gives the reserved space, and the last resort is another
    have hfree {o : Option (List Text)} {space : SpaceName}
        (h : o.bind spaceFromDirName = some space) : space ≠ SpaceName.user := by
      obtain ⟨dir, -, hspace⟩ := Option.bind_eq_some_iff.mp h
      obtain ⟨name, hnames, hname⟩ := spaceFromDirName_eq_some.mp hspace
      rintro rfl
      exact hnames.free hname.symm
    unfold derivedSpace at huser
    cases hproject : (projectDir disk cwd).bind spaceFromDirName with
    | some space =>
      rw [hproject, Option.some_or, Option.getD_some] at huser
      exact hfree hproject huser
    | none =>
      rw [hproject, Option.none_or] at huser
      cases hcwd : spaceFromDirName cwd with
      | some space =>
        rw [hcwd, Option.getD_some] at huser
        exact hfree (o := some cwd) hcwd huser
      | none =>
        rw [hcwd, Option.getD_none] at huser
        exact absurd huser (by decide)

/-! ### Worktrees -/

/-- A path that leads somewhere without passing a link. -/
def Direct (tree : Node Text) (loc : List Text) (t : Target Text) (l : List Text) : Prop :=
  ∀ links, tree.follow links (if t.absolute then [] else loc) t.steps = some l

/-- The file at `loc` reads `text`. -/
def Reads (disk : Disk) (loc : List Text) (text : Text) : Prop :=
  (∃ bytes, disk.tree.kindAt loc = some (.file bytes)) ∧ disk.contents loc = some text

/-- A directory with the working tree of a repository, whose worktrees share `common`. -/
inductive Checkout (disk : Disk) (common : List Text) : List Text → Prop
  /-- The repository itself. -/
  | primary {root : List Text} (solid : disk.tree.Solid common) (own : common = root ++ [DOT_GIT])
      (alone : disk.tree.kindAt (common ++ [COMMONDIR]) = none) : Checkout disk common root
  /-- A repository that is kept elsewhere. -/
  | elsewhere {root : List Text} {text rest : Text} (solid : disk.tree.Solid common)
      (outside : disk.tree.Solid root) (file : Reads disk (root ++ [DOT_GIT]) text)
      (names : stripPrefix GITDIR text = some rest)
      (leads : disk.resolve (join (Path.ofLoc root) (target (trim rest))) = some common)
      (alone : disk.tree.kindAt (common ++ [COMMONDIR]) = none) : Checkout disk common root
  /-- A linked worktree, with a private directory of its own. -/
  | linked {root priv : List Text} {text rest shared : Text} (solid : disk.tree.Solid common)
      (outside : disk.tree.Solid root) (file : Reads disk (root ++ [DOT_GIT]) text)
      (names : stripPrefix GITDIR text = some rest) (inside : disk.tree.Solid priv)
      (leads : disk.resolve (join (Path.ofLoc root) (target (trim rest))) = some priv)
      (shares : Reads disk (priv ++ [COMMONDIR]) shared)
      (back : Direct disk.tree priv (target (trim shared)) common) : Checkout disk common root

/-- A directory of the working tree at `root`, and of none further in. -/
structure Inside (disk : Disk) (root cwd : List Text) : Prop where
  solid : disk.tree.Solid cwd
  below : root <+: cwd
  nearest : ∀ dir, root <+: dir → dir ≠ root → dir <+: cwd →
    disk.tree.kindAt (dir ++ [DOT_GIT]) = none

/-! ### The way to the project -/

theorem resolve_join (hsolid : disk.tree.Solid dir) (n : Text) :
    disk.resolve ((Path.ofLoc dir).join n) = disk.tree.follow disk.links dir [.name n] :=
  Node.resolve_names hsolid disk.links [.name n]

theorem read_of_resolve {path : Path Text} {loc : List Text} (h : disk.resolve path = some loc)
    (hreads : Reads disk loc text) : disk.read path = some text := by
  obtain ⟨⟨bytes, hkind⟩, hcontents⟩ := hreads
  simp only [Disk.read, h, hkind, hcontents]

theorem resolve_file (hsolid : disk.tree.Solid dir) {n : Text}
    (hreads : Reads disk (dir ++ [n]) text) :
    disk.resolve ((Path.ofLoc dir).join n) = some (dir ++ [n]) := by
  obtain ⟨⟨bytes, hkind⟩, -⟩ := hreads
  rw [resolve_join hsolid, Node.follow_file hkind]

/-- A file is no directory, and its text is what names one. -/
theorem gitDir_of_file {rest : Text} (hsolid : disk.tree.Solid root)
    (file : Reads disk (root ++ [DOT_GIT]) text) (names : stripPrefix GITDIR text = some rest) :
    gitDir disk root = some (join (Path.ofLoc root) (target (trim rest))) := by
  have hresolve := resolve_file hsolid file
  have hdir : disk.tree.isDir disk.links ((Path.ofLoc root).join DOT_GIT) = false := by
    refine Bool.eq_false_iff.mpr fun h => ?_
    obtain ⟨loc, hloc, hkind⟩ := Node.isDir_iff.mp h
    obtain rfl : root ++ [DOT_GIT] = loc := Option.some.inj (hresolve.symm.trans hloc)
    obtain ⟨⟨bytes, hfile⟩, -⟩ := file
    cases hfile.symm.trans hkind
  simp only [gitDir, hdir, Bool.false_eq_true, if_false, read_of_resolve hresolve file,
    Option.bind_some, names, Option.map_some]

/-- Without a file that says otherwise a directory shares itself. -/
theorem commonDir_alone {path : Path Text} (h : disk.resolve path = some common)
    (alone : disk.tree.kindAt (common ++ [COMMONDIR]) = none) : commonDir disk path = path := by
  have hresolve : disk.resolve (path.join COMMONDIR) = none := by
    refine Option.eq_none_iff_forall_ne_some.mpr fun l hl => ?_
    obtain ⟨loc, hloc, hthere⟩ := Node.follow_through hl
    obtain rfl : common = loc := Option.some.inj (h.symm.trans hloc)
    rw [alone] at hthere
    cases hthere
  have hread : disk.read (path.join COMMONDIR) = none := by
    simp only [Disk.read, hresolve]
  rw [commonDir, hread]

theorem gitDir_of_checkout (h : Checkout disk common root) : ∃ path,
    gitDir disk root = some path ∧ disk.resolve (commonDir disk path) = some common := by
  cases h with
  | primary solid own alone =>
    have hpath : (Path.ofLoc root).join DOT_GIT = Path.ofLoc common := by
      rw [own, Path.ofLoc_join]
    have hresolve : disk.resolve (Path.ofLoc common) = some common :=
      Node.resolve_solid solid disk.links
    have hdir : disk.tree.isDir disk.links (Path.ofLoc common) = true :=
      Node.isDir_iff.mpr ⟨common, hresolve, solid common (own ▸ by simp) List.prefix_rfl⟩
    refine ⟨Path.ofLoc common, by simp [gitDir, hpath, hdir], ?_⟩
    rw [commonDir_alone hresolve alone, hresolve]
  | elsewhere solid outside file names leads alone =>
    refine ⟨_, gitDir_of_file outside file names, ?_⟩
    rw [commonDir_alone leads alone, leads]
  | @linked priv _ rest shared solid outside file names inside leads shares back =>
    refine ⟨_, gitDir_of_file outside file names, ?_⟩
    obtain ⟨bytes, hkind⟩ := shares.1
    have hshared : disk.resolve ((join (Path.ofLoc root) (target (trim rest))).join COMMONDIR) =
        some (priv ++ [COMMONDIR]) :=
      Node.follow_append inside (Node.follow_file hkind) leads
    rw [commonDir, read_of_resolve hshared shares]
    dsimp only
    rw [join]
    have hback := back
    unfold Direct at hback
    split_ifs at hback ⊢ with habs
    · exact hback disk.links
    · exact Node.follow_append inside hback leads

theorem there_of_checkout (h : Checkout disk common root) :
    disk.there ((Path.ofLoc root).join DOT_GIT) = true := by
  cases h with
  | primary solid own alone =>
    rw [Path.ofLoc_join, ← own, Disk.there, Disk.resolve, Node.resolve_solid solid]
    rfl
  | elsewhere _ outside file | linked _ outside file =>
    rw [Disk.there, resolve_file outside file]
    rfl

theorem ancestors_concat (dir : List Text) (n : Text) :
    ancestors (dir ++ [n]) = (dir ++ [n]) :: ancestors dir := by
  simp [ancestors]

/-- The nearest ancestor that has it is found. -/
theorem find_ancestor {p : List Text → Bool} (hp : p root = true) {names : List Text}
    (h : ∀ dir, root <+: dir → dir ≠ root → dir <+: root ++ names → p dir = false) :
    (ancestors (root ++ names)).find? p = some root := by
  induction names using List.reverseRecOn with
  | nil =>
    rw [List.append_nil]
    rcases List.eq_nil_or_concat root with rfl | ⟨dir, n, rfl⟩
    · simp [ancestors, hp]
    · rw [List.concat_eq_append] at hp ⊢
      rw [ancestors_concat, List.find?_cons_of_pos hp]
  | append_singleton names n ih =>
    have hlast : p (root ++ names ++ [n]) = false :=
      h _ (List.append_assoc .. ▸ List.prefix_append ..) (by simp) (by simp)
    rw [← List.append_assoc, ancestors_concat, List.find?_cons_of_neg (Bool.eq_false_iff.mp hlast)]
    refine ih fun dir hroot hne hdir => h dir hroot hne (hdir.trans ?_)
    rw [← List.append_assoc]
    exact List.prefix_append ..

theorem nearest_ancestor (h : Inside disk root cwd)
    (hthere : disk.there ((Path.ofLoc root).join DOT_GIT) = true) :
    ((ancestors cwd).find? fun dir => disk.there ((Path.ofLoc dir).join DOT_GIT)) = some root := by
  obtain ⟨names, rfl⟩ := h.below
  refine find_ancestor hthere fun dir hroot hne hdir => ?_
  have hfollow : disk.tree.follow disk.links dir [.name DOT_GIT] = none := by
    have hkind := h.nearest dir hroot hne hdir
    cases disk.links <;> simp [Node.follow, Node.walk, hkind]
  rw [Disk.there, resolve_join (h.solid.of_prefix hdir), hfollow]
  rfl

/-- Every directory of every worktree of a repository has the project's directory, whichever
worktree it is; and the space of the project, if that directory names one. -/
theorem worktrees_share_a_space (h : Checkout disk common root) (hcwd : Inside disk root cwd)
    (hroot : common ≠ []) :
    projectDir disk cwd = some common.dropLast ∧
      ∀ name, Names common.dropLast name → (derivedSpace disk cwd).name = slug name := by
  obtain ⟨path, hgit, hcommon⟩ := gitDir_of_checkout h
  have hparent : parent common = some common.dropLast := by
    cases common with
    | nil => exact absurd rfl hroot
    | cons n common => rfl
  have hproject : projectDir disk cwd = some common.dropLast := by
    rw [projectDir, nearest_ancestor hcwd (there_of_checkout h)]
    dsimp only
    rw [hgit, Option.bind_some, hcommon, Option.bind_some, hparent]
  exact ⟨hproject, fun name hnames => derivedSpace_of_project hproject hnames⟩

/-! ### A linked worktree beside its repository -/

def W : Text := ['w']

def AGMEM : Text := ['a', 'g', 'm', 'e', 'm']

def FIX : Text := ['f', 'i', 'x']

def WORKTREES : Text := ['w', 't']

def SRC : Text := ['s', 'r', 'c']

/-- `/w/agmem` with its `.git`, and `/w/fix` with a file of that name. -/
def twoWorktrees : Disk where
  tree := .dir [(W, .dir [(AGMEM, .dir [(DOT_GIT, .dir [(WORKTREES, .dir [(FIX,
      .dir [(COMMONDIR, .file 6)])])])]),
    (FIX, .dir [(DOT_GIT, .file 28), (SRC, .dir [])])])]
  contents loc :=
    if loc = [W, FIX, DOT_GIT] then some "gitdir: ../agmem/.git/wt/fix\n".toList
    else if loc = [W, AGMEM, DOT_GIT, WORKTREES, FIX, COMMONDIR] then some "../..\n".toList
    else none
  links := 40

theorem solid_of_kinds {tree : Node Text} {loc : List Text}
    (h : ∀ k < loc.length, tree.kindAt (loc.take (k + 1)) = some .dir) : tree.Solid loc := by
  rintro q hq ⟨rest, rfl⟩
  have hlen : 0 < q.length := List.length_pos_iff.mpr hq
  have hk := h (q.length - 1) (by simp; omega)
  rwa [Nat.sub_add_cancel hlen, List.take_left] at hk

theorem checkout_fix : Checkout twoWorktrees [W, AGMEM, DOT_GIT] [W, FIX] := by
  have hback : Direct twoWorktrees.tree [W, AGMEM, DOT_GIT, WORKTREES, FIX]
      (target (trim "../..\n".toList)) [W, AGMEM, DOT_GIT] := by
    rintro (_ | links) <;> rfl
  exact .linked (solid_of_kinds (by decide)) (solid_of_kinds (by decide)) ⟨⟨28, rfl⟩, rfl⟩ rfl
    (solid_of_kinds (by decide)) (by decide) ⟨⟨6, rfl⟩, rfl⟩ hback

theorem inside_fix : Inside twoWorktrees [W, FIX] [W, FIX, SRC] where
  solid := solid_of_kinds (by decide)
  below := ⟨[SRC], rfl⟩
  nearest := by
    rintro dir ⟨names, rfl⟩ hne hdir
    have hnames : names <+: [SRC] := (List.prefix_append_right_inj [W, FIX]).mp hdir
    rcases List.prefix_cons_iff.mp hnames with rfl | ⟨_, rfl, hnil⟩
    · exact absurd (List.append_nil _) hne
    · rw [List.prefix_nil.mp hnil]
      rfl

theorem worktrees_share_a_space_linked :
    projectDir twoWorktrees [W, FIX, SRC] = some [W, AGMEM] ∧
      (derivedSpace twoWorktrees [W, FIX, SRC]).name = AGMEM := by
  obtain ⟨hproject, hspace⟩ := worktrees_share_a_space checkout_fix inside_fix (by decide)
  exact ⟨hproject, hspace AGMEM ⟨rfl, ⟨'a', by decide, by decide⟩, by decide⟩⟩

end Agmem.Config
