import Agmem.Store.Read
import Agmem.Core.Chunk
import Mathlib.Data.Char
import Mathlib.Data.List.Lex

/-! The surface of a session: which tools it lists and answers to, and under which descriptions.
Both come from one router, decided when the session opens: a deployment may reword a tool through
its environment, and the core list leaves the maintenance pair out. -/

namespace Agmem.Tools

open Core Store

/-! ### The tools -/

inductive Tool where
  | remember
  | recall
  | context
  | forget
  | inspect
  | consolidate
  | reflect
deriving DecidableEq

def Tool.name : Tool → Text
  | .remember => "remember".toList
  | .recall => "recall".toList
  | .context => "context".toList
  | .forget => "forget".toList
  | .inspect => "inspect".toList
  | .consolidate => "consolidate".toList
  | .reflect => "reflect".toList

/-- The hints of a tool; one that is not set is left off the wire. -/
structure Annotations where
  readOnlyHint : Option Bool
  destructiveHint : Option Bool
  idempotentHint : Option Bool
  openWorldHint : Option Bool

def Annotations.reads : Annotations := ⟨some true, some false, none, some false⟩

def Annotations.adds : Annotations := ⟨none, some false, some true, none⟩

def Annotations.destroys : Annotations := ⟨none, some true, none, none⟩

/-- The `annotations(...)` of each `#[tool]`. -/
def Tool.annotations : Tool → Annotations
  | .remember => .adds
  | .recall => .reads
  | .context => .reads
  | .forget => .destroys
  | .inspect => .reads
  | .consolidate => .reads
  | .reflect => .adds

/-- Every tool, in the order in which they are declared. -/
def tools : List Tool :=
  [.remember, .recall, .context, .forget, .inspect, .consolidate, .reflect]

def NAMES : List Text := tools.map Tool.name

/-- The maintenance verbs, which a default session does not list. -/
def GATED : List Text := [Tool.consolidate.name, Tool.forget.name]

inductive ToolGroup where
  | core
  | all
deriving DecidableEq

/-! ### The overrides -/

def TOOL_DESC_PREFIX : Text := "AGMEM_TOOL_DESC_".toList

/-- Descriptions by the name of their tool, in the order of the names. -/
abbrev ToolDescriptions := List (Text × Text)

inductive DescriptionError where
  /-- "… names no agmem tool. The seven are: remember, recall, …." -/
  | unknownTool (key : Text)
  /-- "… is empty. A tool with no description is one no agent knows when to call; …" -/
  | blank (key : Text)

/-- `BTreeMap::insert` -/
def ToolDescriptions.insert (tool text : Text) : ToolDescriptions → ToolDescriptions
  | [] => [(tool, text)]
  | (t, x) :: rest =>
    if tool = t then (tool, text) :: rest
    else if textLe tool t then (tool, text) :: (t, x) :: rest
    else (t, x) :: ToolDescriptions.insert tool text rest

def ToolDescriptions.get (overrides : ToolDescriptions) (tool : Text) : Option Text :=
  overrides.lookup tool

def stripPrefix : Text → Text → Option Text
  | [], text => some text
  | _ :: _, [] => none
  | p :: ps, c :: cs => if p = c then stripPrefix ps cs else none

/-- The tool that a variable rewords, if it is about one. -/
def reworded (key : Text) : Option Text :=
  (stripPrefix TOOL_DESC_PREFIX key).map fun suffix => suffix.map Char.toLower

def collectInto (overrides : ToolDescriptions) :
    List (Text × Text) → Except DescriptionError ToolDescriptions
  | [] => .ok overrides
  | (key, value) :: vars =>
    match reworded key with
    | none => collectInto overrides vars
    | some tool =>
      if tool ∉ NAMES then .error (.unknownTool key)
      else if (trim value).isEmpty then .error (.blank key)
      else collectInto (overrides.insert tool value) vars

/-- The overrides that a process was started with. -/
def ToolDescriptions.collect (vars : List (Text × Text)) :
    Except DescriptionError ToolDescriptions :=
  collectInto [] vars

/-! ### The router -/

structure Route where
  tool : Tool
  description : Text
  annotations : Annotations

/-- `map` of the router; the order of its entries carries no meaning. -/
abbrev ToolRouter := List (Text × Route)

/-- The routes that the declarations make, with their own descriptions. -/
def toolRouter (wording : Tool → Text) : ToolRouter :=
  tools.map fun tool => (tool.name, ⟨tool, wording tool, tool.annotations⟩)

def ToolRouter.get (router : ToolRouter) (name : Text) : Option Route := router.lookup name

/-- `get_mut`: the route of a name is given a description. -/
def ToolRouter.describe (router : ToolRouter) (tool text : Text) : ToolRouter :=
  router.map fun entry =>
    if entry.1 = tool then (entry.1, { entry.2 with description := text }) else entry

def ToolRouter.removeRoute (router : ToolRouter) (name : Text) : ToolRouter :=
  router.filter fun entry => decide (entry.1 ≠ name)

/-- Serve this deployment's wording, where it has any. -/
def described (router : ToolRouter) (toolDesc : ToolDescriptions) : ToolRouter :=
  (toolDesc.map Prod.fst).foldl (fun router tool =>
    match toolDesc.get tool with
    | none => router
    | some text => router.describe tool text) router

/-- Serve the default list, or everything. -/
def gated (router : ToolRouter) (tools : ToolGroup) : ToolRouter :=
  match tools with
  | .core => GATED.foldl ToolRouter.removeRoute router
  | .all => router

/-- The router of a new session. -/
def served (wording : Tool → Text) (tools : ToolGroup) (toolDesc : ToolDescriptions) :
    ToolRouter :=
  gated (described (toolRouter wording) toolDesc) tools

/-- `list_all`: the routes, sorted by name. -/
def ToolRouter.listAll (router : ToolRouter) : List (Text × Route) :=
  router.insertionSort fun entry other => textLe entry.1 other.1

/-! ### What an environment rewords -/

variable {vars : List (Text × Text)} {overrides toolDesc : ToolDescriptions} {tool text : Text}

theorem get_cons (entry : Text × Text) (rest : ToolDescriptions) (name : Text) :
    ToolDescriptions.get (entry :: rest) name =
      if name = entry.1 then some entry.2 else ToolDescriptions.get rest name := by
  obtain ⟨tool, text⟩ := entry
  unfold ToolDescriptions.get
  by_cases h : name = tool
  · simp [h]
  · have hne : (name == tool) = false := by simpa using h
    rw [List.lookup_cons, hne, if_neg h]

theorem get_insert (overrides : ToolDescriptions) (tool text name : Text) :
    (overrides.insert tool text).get name =
      if name = tool then some text else overrides.get name := by
  induction overrides with
  | nil => rw [ToolDescriptions.insert, get_cons]
  | cons entry rest ih =>
    obtain ⟨t, x⟩ := entry
    by_cases heq : tool = t
    · subst heq
      rw [ToolDescriptions.insert, if_pos rfl, get_cons, get_cons]
      split_ifs <;> rfl
    · rw [ToolDescriptions.insert, if_neg heq]
      split_ifs with hle hname hname
      · rw [get_cons, if_pos hname]
      · rw [get_cons, if_neg hname]
      · rw [get_cons, if_neg (fun h => heq (hname.symm.trans h)), ih, if_pos hname]
      · rw [get_cons, get_cons, ih, if_neg hname]

/-- The order of the names is that of their characters. -/
theorem textLe_iff (s t : Text) : textLe s t = true ↔ s ≤ t := by
  rw [← not_lt]
  induction s generalizing t with
  | nil => exact iff_of_true rfl (List.not_lt_nil t)
  | cons c cs ih =>
    cases t with
    | nil => exact iff_of_false nofun fun h => h .nil
    | cons d ds =>
      have hcons : d :: ds < c :: cs ↔ d < c ∨ d = c ∧ ds < cs := List.cons_lt_cons_iff
      have hlt : c.toNat < d.toNat ↔ c < d := Iff.rfl
      rw [textLe, hcons, Bool.or_eq_true, Bool.and_eq_true, decide_eq_true_eq, decide_eq_true_eq,
        ih, hlt]
      rcases lt_trichotomy c d with h | h | h
      · simp [h, h.not_gt, h.ne']
      · simp [h]
      · simp [h, h.not_gt, h.ne']

/-- Each tool once, in the order of the names. -/
def Ascending (overrides : ToolDescriptions) : Prop :=
  overrides.Pairwise fun entry other => entry.1 < other.1

theorem mem_insert {entry : Text × Text} (h : entry ∈ overrides.insert tool text) :
    entry = (tool, text) ∨ entry ∈ overrides := by
  induction overrides with
  | nil => exact .inl (List.mem_singleton.mp h)
  | cons first rest ih =>
    rw [ToolDescriptions.insert] at h
    split_ifs at h with heq hle
    · exact (List.mem_cons.mp h).imp_right (List.mem_cons_of_mem _)
    · exact List.mem_cons.mp h
    · rcases List.mem_cons.mp h with h | h
      · exact .inr (h ▸ List.mem_cons_self)
      · exact (ih h).imp_right (List.mem_cons_of_mem _)

theorem ascending_insert (h : Ascending overrides) (tool text : Text) :
    Ascending (overrides.insert tool text) := by
  induction overrides with
  | nil => exact List.pairwise_singleton _ _
  | cons first rest ih =>
    obtain ⟨hfirst, hrest⟩ := List.pairwise_cons.mp h
    rw [ToolDescriptions.insert]
    split_ifs with heq hle
    · exact List.pairwise_cons.mpr ⟨fun other hother => heq ▸ hfirst other hother, hrest⟩
    · have hlt : tool < first.1 := lt_of_le_of_ne ((textLe_iff _ _).mp hle) heq
      refine List.pairwise_cons.mpr ⟨fun other hother => ?_, h⟩
      rcases List.mem_cons.mp hother with rfl | hother
      · exact hlt
      · exact hlt.trans (hfirst other hother)
    · refine List.pairwise_cons.mpr ⟨fun other hother => ?_, ih hrest⟩
      rcases mem_insert hother with rfl | hother
      · exact not_le.mp fun hle' => hle ((textLe_iff _ _).mpr hle')
      · exact hfirst other hother

/-- A name behind all the others is put behind them. -/
theorem insert_last (h : ∀ entry ∈ overrides, entry.1 < tool) :
    overrides.insert tool text = overrides ++ [(tool, text)] := by
  induction overrides with
  | nil => rfl
  | cons first rest ih =>
    obtain ⟨hfirst, hrest⟩ := List.forall_mem_cons.mp h
    have hle : ¬ textLe tool first.1 = true := fun hle =>
      not_le.mpr hfirst ((textLe_iff _ _).mp hle)
    rw [ToolDescriptions.insert, if_neg hfirst.ne', if_neg hle, ih hrest, List.cons_append]

/-- A variable that may stand in the environment: it is about no tool, or it words one. -/
def Wellnamed (var : Text × Text) : Prop :=
  ∀ tool, reworded var.1 = some tool → tool ∈ NAMES ∧ trim var.2 ≠ []

/-- The last variable about a tool gives it its text. -/
def Rewords (vars : List (Text × Text)) (tool text : Text) : Prop :=
  ∃ before key after, vars = before ++ (key, text) :: after ∧ reworded key = some tool ∧
    ∀ var ∈ after, reworded var.1 ≠ some tool

theorem rewords_nil : ¬ Rewords [] tool text := by
  rintro ⟨before, key, after, h, -⟩
  exact absurd h.symm (List.append_ne_nil_of_right_ne_nil before (List.cons_ne_nil _ _))

theorem rewords_cons {var : Text × Text} : Rewords (var :: vars) tool text ↔
    Rewords vars tool text ∨ reworded var.1 = some tool ∧ var.2 = text ∧
      ∀ other ∈ vars, reworded other.1 ≠ some tool := by
  constructor
  · rintro ⟨before, key, after, hvars, hkey, hafter⟩
    cases before with
    | nil =>
      obtain ⟨rfl, rfl⟩ := List.cons.inj hvars
      exact .inr ⟨hkey, rfl, hafter⟩
    | cons first before =>
      obtain ⟨-, hvars⟩ := List.cons.inj hvars
      exact .inl ⟨before, key, after, hvars, hkey, hafter⟩
  · rintro (⟨before, key, after, rfl, hkey, hafter⟩ | ⟨hkey, rfl, hafter⟩)
    · exact ⟨var :: before, key, after, rfl, hkey, hafter⟩
    · exact ⟨[], var.1, vars, rfl, hkey, hafter⟩

theorem exists_rewords :
    (∃ text, Rewords vars tool text) ↔ ∃ var ∈ vars, reworded var.1 = some tool := by
  induction vars with
  | nil => simp [rewords_nil]
  | cons var vars ih =>
    simp only [rewords_cons, exists_or, ih, List.mem_cons, exists_eq_or_imp]
    by_cases hlater : ∃ other ∈ vars, reworded other.1 = some tool
    · exact ⟨fun _ => .inr hlater, fun _ => .inl hlater⟩
    · have hnone : ∀ other ∈ vars, reworded other.1 ≠ some tool := fun other hmem h =>
        hlater ⟨other, hmem, h⟩
      constructor
      · rintro (h | ⟨text, h, -⟩)
        · exact absurd h hlater
        · exact .inl h
      · rintro (h | h)
        · exact .inr ⟨var.2, h, rfl, hnone⟩
        · exact absurd h hlater

theorem collectInto_isOk (overrides : ToolDescriptions) (vars : List (Text × Text)) :
    (∃ toolDesc, collectInto overrides vars = .ok toolDesc) ↔ ∀ var ∈ vars, Wellnamed var := by
  induction vars generalizing overrides with
  | nil => simp [collectInto]
  | cons var vars ih =>
    obtain ⟨key, value⟩ := var
    rw [List.forall_mem_cons, collectInto]
    cases hkey : reworded key with
    | none => simp [ih, Wellnamed, hkey]
    | some tool =>
      dsimp only
      split_ifs with hname hblank
      · simp [Wellnamed, hkey, List.isEmpty_iff.mp hblank]
      · have hword : Wellnamed (key, value) := by
          rintro tool' h
          cases hkey.symm.trans h
          exact ⟨hname, fun h => hblank (List.isEmpty_iff.mpr h)⟩
        rw [ih]
        exact (and_iff_right hword).symm
      · simp [Wellnamed, hkey, hname]

/-- The last variable about a tool counts, and where there is none what was collected before. -/
theorem get_collectInto (h : collectInto overrides vars = .ok toolDesc) (name text : Text) :
    toolDesc.get name = some text ↔ Rewords vars name text ∨
      (∀ var ∈ vars, reworded var.1 ≠ some name) ∧ overrides.get name = some text := by
  induction vars generalizing overrides with
  | nil =>
    cases h
    simp [rewords_nil]
  | cons var vars ih =>
    obtain ⟨key, value⟩ := var
    rw [collectInto] at h
    rw [rewords_cons, List.forall_mem_cons]
    cases hkey : reworded key with
    | none =>
      rw [hkey] at h
      rw [ih h]
      simp
    | some tool =>
      rw [hkey] at h
      dsimp only at h
      split_ifs at h
      rw [ih h, get_insert]
      by_cases hname : name = tool
      · subst hname
        simp only [if_true, Option.some.injEq, ne_eq, true_and, not_true_eq_false, false_and,
          or_false]
        tauto
      · have hne : tool ≠ name := fun h => hname h.symm
        simp [hname, hne]

theorem ascending_collectInto (h : collectInto overrides vars = .ok toolDesc)
    (ho : Ascending overrides) : Ascending toolDesc := by
  induction vars generalizing overrides with
  | nil =>
    cases h
    exact ho
  | cons var vars ih =>
    obtain ⟨key, value⟩ := var
    rw [collectInto] at h
    split at h
    · exact ih h ho
    · split_ifs at h
      exact ih h (ascending_insert ho _ _)

/-! ### What a session serves -/

variable {router : ToolRouter} {name : Text} {route : Route} {wording : Tool → Text}

theorem ToolRouter.get_cons (entry : Text × Route) (router : ToolRouter) (name : Text) :
    ToolRouter.get (entry :: router) name =
      if name = entry.1 then some entry.2 else router.get name := by
  obtain ⟨tool, route⟩ := entry
  unfold ToolRouter.get
  by_cases h : name = tool
  · simp [h]
  · have hne : (name == tool) = false := by simpa using h
    rw [List.lookup_cons, hne, if_neg h]

theorem ToolRouter.get_describe (router : ToolRouter) (tool text name : Text) :
    (router.describe tool text).get name = (router.get name).map fun route =>
      if name = tool then { route with description := text } else route := by
  induction router with
  | nil => rfl
  | cons entry router ih =>
    have hstep : ToolRouter.describe (entry :: router) tool text =
      (if entry.1 = tool then (entry.1, { entry.2 with description := text }) else entry) ::
        ToolRouter.describe router tool text := rfl
    rw [hstep, ToolRouter.get_cons, ToolRouter.get_cons, ih]
    by_cases htool : entry.1 = tool <;> by_cases hname : name = entry.1
    · simp [htool, hname]
    · have : name ≠ tool := fun h => hname (h.trans htool.symm)
      simp [htool, this]
    · simp [htool, hname]
    · simp [htool, hname]

theorem ToolRouter.get_removeRoute (router : ToolRouter) (gone name : Text) :
    (router.removeRoute gone).get name = if name = gone then none else router.get name := by
  induction router with
  | nil => simp [ToolRouter.removeRoute, ToolRouter.get]
  | cons entry router ih =>
    unfold ToolRouter.removeRoute at ih ⊢
    by_cases hgone : entry.1 = gone
    · rw [List.filter_cons_of_neg (by simp [hgone]), ih, ToolRouter.get_cons, hgone]
      split_ifs <;> rfl
    · rw [List.filter_cons_of_pos (by simp [hgone]), ToolRouter.get_cons, ih, ToolRouter.get_cons]
      by_cases hname : name = entry.1
      · simp [hname, hgone]
      · simp [hname]

/-- A reworded route is the route with its new text. -/
def Route.worded (route : Route) (text : Option Text) : Route :=
  { route with description := text.getD route.description }

theorem get_described (router : ToolRouter) (toolDesc : ToolDescriptions) (name : Text) :
    (described router toolDesc).get name =
      (router.get name).map fun route => route.worded (toolDesc.get name) := by
  have hfold : ∀ (keys : List Text) (router : ToolRouter),
      (keys.foldl (fun router tool =>
        match toolDesc.get tool with
        | none => router
        | some text => router.describe tool text) router).get name =
      (router.get name).map fun route =>
        if name ∈ keys then route.worded (toolDesc.get name) else route := by
    intro keys
    induction keys with
    | nil => simp
    | cons key keys ih =>
      intro router
      rw [List.foldl_cons, ih]
      cases hkey : toolDesc.get key with
      | none =>
        by_cases hname : name = key
        · subst hname
          simp [hkey, Route.worded]
        · simp [hname]
      | some text =>
        rw [ToolRouter.get_describe, Option.map_map]
        congr 1
        funext route
        by_cases hname : name = key
        · subst hname
          simp [hkey, Route.worded]
        · simp [hname]
  have hkeys : name ∉ toolDesc.map Prod.fst → toolDesc.get name = none := fun h => by
    rw [ToolDescriptions.get, List.lookup_eq_none_iff]
    intro entry hentry
    simp only [bne_iff_ne, ne_eq]
    rintro rfl
    exact h (List.mem_map.mpr ⟨entry, hentry, rfl⟩)
  rw [described, hfold]
  congr 1
  funext route
  split_ifs with h
  · rfl
  · simp [hkeys h, Route.worded]

theorem Tool.name_injective : Function.Injective Tool.name := by
  intro a b h
  cases a <;> cases b <;> first | rfl | exact absurd h (by decide)

theorem get_toolRouter : (toolRouter wording).get name = some route ↔
    ∃ tool : Tool, tool.name = name ∧ route = ⟨tool, wording tool, tool.annotations⟩ := by
  have hlist : ∀ declared : List Tool, ToolRouter.get (declared.map fun tool =>
        (tool.name, ⟨tool, wording tool, tool.annotations⟩)) name = some route ↔
      ∃ tool ∈ declared, tool.name = name ∧ route = ⟨tool, wording tool, tool.annotations⟩ := by
    intro declared
    induction declared with
    | nil => simp [ToolRouter.get]
    | cons first declared ih =>
      rw [List.map_cons, ToolRouter.get_cons]
      by_cases hname : name = first.name
      · subst hname
        rw [if_pos rfl]
        constructor
        · intro h
          exact ⟨first, List.mem_cons_self, rfl, (Option.some.inj h).symm⟩
        · rintro ⟨tool, -, htool, rfl⟩
          rw [Tool.name_injective htool]
      · rw [if_neg hname, ih]
        constructor
        · rintro ⟨tool, hmem, h⟩
          exact ⟨tool, List.mem_cons_of_mem _ hmem, h⟩
        · rintro ⟨tool, hmem, htool, hroute⟩
          rcases List.mem_cons.mp hmem with rfl | hmem
          · exact absurd htool.symm hname
          · exact ⟨tool, hmem, htool, hroute⟩
  have hall (tool : Tool) : tool ∈ tools := by cases tool <;> decide
  exact (hlist tools).trans (exists_congr fun tool => and_iff_right (hall tool))

theorem get_gated (router : ToolRouter) (group : ToolGroup) (name : Text) :
    (gated router group).get name =
      if group = .core ∧ name ∈ GATED then none else router.get name := by
  cases group with
  | all => simp [gated]
  | core =>
    simp only [gated, GATED, List.foldl_cons, List.foldl_nil, ToolRouter.get_removeRoute,
      List.mem_cons, List.not_mem_nil, or_false, true_and]
    by_cases h : name = Tool.forget.name <;> simp [h]

theorem names_described (router : ToolRouter) (toolDesc : ToolDescriptions) :
    (described router toolDesc).map Prod.fst = router.map Prod.fst := by
  unfold described
  generalize toolDesc.map Prod.fst = keys
  induction keys generalizing router with
  | nil => rfl
  | cons key keys ih =>
    rw [List.foldl_cons, ih]
    cases toolDesc.get key with
    | none => rfl
    | some text =>
      dsimp only [ToolRouter.describe]
      rw [List.map_map]
      refine List.map_congr_left fun entry _ => ?_
      dsimp only [Function.comp_apply]
      split_ifs <;> rfl

/-- The names of a session's tools, sorted. -/
def listed : ToolGroup → List Text
  | .core => [Tool.context, .inspect, .recall, .reflect, .remember].map Tool.name
  | .all => [Tool.consolidate, .context, .forget, .inspect, .recall, .reflect, .remember].map
      Tool.name

theorem names_gated (router : ToolRouter) (group : ToolGroup) :
    (gated router group).map Prod.fst =
      if group = .core then (router.map Prod.fst).filter fun name => decide (name ∉ GATED)
      else router.map Prod.fst := by
  cases group with
  | all => rfl
  | core =>
    simp only [gated, GATED, List.foldl_cons, List.foldl_nil, ToolRouter.removeRoute,
      List.filter_filter, if_true, List.filter_map]
    congr 1
    refine List.filter_congr fun entry _ => ?_
    simp [Bool.and_comm]

theorem names_served (wording : Tool → Text) (group : ToolGroup) (toolDesc : ToolDescriptions) :
    (served wording group toolDesc).map Prod.fst =
      if group = .core then NAMES.filter fun name => decide (name ∉ GATED) else NAMES := by
  have hrouter : (toolRouter wording).map Prod.fst = NAMES := by
    rw [toolRouter, List.map_map]
    rfl
  rw [served, names_gated, names_described, hrouter]

theorem mem_iff_get (hnodup : (router.map Prod.fst).Nodup) :
    (name, route) ∈ router ↔ router.get name = some route := by
  induction router with
  | nil => simp [ToolRouter.get]
  | cons entry router ih =>
    obtain ⟨first, rest⟩ := List.nodup_cons.mp hnodup
    rw [ToolRouter.get_cons, List.mem_cons, ih rest]
    split_ifs with hname
    · subst hname
      have habsent : ToolRouter.get router entry.1 ≠ some route := fun h =>
        first (List.mem_map.mpr ⟨_, (ih rest).mpr h, rfl⟩)
      simp only [habsent, or_false, Option.some.injEq]
      exact ⟨fun h => (congrArg Prod.snd h).symm, fun h => h ▸ rfl⟩
    · refine or_iff_right fun h => hname (congrArg Prod.fst h)

/-- A session lists what it answers to, and that is what its configuration says: all the tools, or
all but the gated, each under the last wording that the environment has for it or its own. An
environment is refused if and only if a variable of it names no tool or leaves one unworded. -/
theorem served_as_configured (wording : Tool → Text) (group : ToolGroup)
    (vars : List (Text × Text)) :
    ((∃ toolDesc, ToolDescriptions.collect vars = .ok toolDesc) ↔ ∀ var ∈ vars, Wellnamed var) ∧
    ∀ toolDesc, ToolDescriptions.collect vars = .ok toolDesc →
      (served wording group toolDesc).listAll.map Prod.fst = listed group ∧
      ∀ name route,
        ((name, route) ∈ (served wording group toolDesc).listAll ↔
          (served wording group toolDesc).get name = some route) ∧
        ((served wording group toolDesc).get name = some route ↔
          (group = .core → name ∉ GATED) ∧ ∃ tool : Tool, tool.name = name ∧ route.tool = tool ∧
            route.annotations = tool.annotations ∧
            (Rewords vars name route.description ∨
              (∀ var ∈ vars, reworded var.1 ≠ some name) ∧ route.description = wording tool)) := by
  refine ⟨collectInto_isOk [] vars, fun toolDesc hcollect => ⟨?_, fun name route => ⟨?_, ?_⟩⟩⟩
  · have hsort := List.map_insertionSort (fun entry other : Text × Route => textLe entry.1 other.1)
      (fun name other => textLe name other) Prod.fst (served wording group toolDesc)
      fun _ _ _ _ => Iff.rfl
    rw [ToolRouter.listAll, hsort, names_served]
    cases group <;> decide
  · rw [ToolRouter.listAll, List.mem_insertionSort, mem_iff_get]
    rw [names_served]
    cases group <;> decide
  · have hget := get_collectInto hcollect name
    rw [served, get_gated, get_described]
    by_cases hgated : group = .core ∧ name ∈ GATED
    · simp [hgated.1, hgated.2]
    · rw [if_neg hgated, Option.map_eq_some_iff]
      have hopen : group = .core → name ∉ GATED := fun hcore hin => hgated ⟨hcore, hin⟩
      simp only [get_toolRouter, and_iff_right hopen]
      constructor
      · rintro ⟨_, ⟨tool, htool, rfl⟩, rfl⟩
        refine ⟨tool, htool, rfl, rfl, ?_⟩
        cases htext : toolDesc.get name with
        | some text => exact .inl (((hget text).mp htext).resolve_right nofun)
        | none =>
          refine .inr ⟨fun var hvar hword => ?_, rfl⟩
          obtain ⟨text, htext'⟩ := exists_rewords.mpr ⟨var, hvar, hword⟩
          cases htext.symm.trans ((hget text).mpr (.inl htext'))
      · rintro ⟨tool, htool, rfl, hannotations, hword⟩
        refine ⟨_, ⟨route.tool, htool, rfl⟩, ?_⟩
        have htext : (toolDesc.get name).getD (wording route.tool) = route.description := by
          rcases hword with hword | ⟨hnone, hword⟩
          · rw [(hget _).mpr (.inl hword), Option.getD_some]
          · cases htext : toolDesc.get name with
            | none => exact hword.symm
            | some text =>
              obtain ⟨var, hvar, hnamed⟩ :=
                exists_rewords.mp ⟨text, ((hget text).mp htext).resolve_right nofun⟩
              exact absurd hnamed (hnone var hvar)
        rw [Route.worded, htext, ← hannotations]

end Agmem.Tools
