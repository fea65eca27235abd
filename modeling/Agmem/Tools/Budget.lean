import Agmem.Tools.Context

/-! The length of a block. A fill writes its title, whatever the budget, and then only what fits;
the note of what was trimmed comes on top of a fill that left room for it. So the budget is kept
exactly if the title fits, together with the note where neither fill could do without it. -/

namespace Agmem.Tools.Context

open Core Store Recall

variable {spaces : List SpaceName} {sections : List Section} {budget : ℕ} {rollUp : Bool}

/-! ### One fill -/

/-- A fill that began with `base` characters: it counts what it writes, and what it wrote since
fits. -/
structure Within (base budget : ℕ) (fill : Fill) : Prop where
  counted : fill.text.length = fill.used
  grown : base ≤ fill.used
  fits : fill.used = base ∨ fill.used ≤ budget

variable {base : ℕ} {fill : Fill}

/-- A header is written when it is charged. -/
def Charges (header : Text) (headerCost : ℕ) : Prop := headerCost = header.length ∨ headerCost = 0

theorem Charges.length {header : Text} {headerCost : ℕ} (h : Charges header headerCost) :
    (if 0 < headerCost then header else []).length = headerCost := by
  rcases h with rfl | rfl
  · split_ifs with hpos
    · rfl
    · exact (Nat.eq_zero_of_not_pos hpos).symm
  · rfl

theorem place_within (rollUp : Bool) {header : Text} {headerCost : ℕ} (h : Within base budget fill)
    (hc : Charges header headerCost) {limit : ℕ} (hl : limit ≤ budget) (entry : Entry) :
    Within base budget (place limit rollUp header headerCost fill entry).1 ∧
      Charges header (place limit rollUp header headerCost fill entry).2 := by
  unfold place
  dsimp only
  by_cases hseen : entry.id ∈ fill.seen
  · rw [if_pos hseen]
    exact ⟨h, hc⟩
  · rw [if_neg hseen]
    by_cases hfull : limit < fill.used + (headerCost + entry.cost)
    · rw [if_pos hfull]
      exact ⟨⟨h.counted, h.grown, h.fits⟩, hc⟩
    · rw [if_neg hfull]
      have hgrown := h.grown
      refine ⟨⟨?_, ?_, .inr ?_⟩, .inr rfl⟩
      · rw [List.length_append, List.length_append, h.counted, hc.length, Nat.add_assoc]
        rfl
      · dsimp only
        omega
      · dsimp only
        omega

theorem placeAll_within (rollUp : Bool) {header : Text} {headerCost : ℕ}
    (h : Within base budget fill) (hc : Charges header headerCost) {limit : ℕ}
    (hl : limit ≤ budget) (entries : List Entry) :
    Within base budget (placeAll limit rollUp header headerCost fill entries) := by
  induction entries generalizing headerCost fill with
  | nil => exact h
  | cons entry entries ih =>
    obtain ⟨hnext, hcnext⟩ := place_within rollUp h hc hl entry
    exact ih hnext hcnext

theorem fillFrom_within (sections : List Section) (rollUp isFirst : Bool)
    (h : Within base budget fill) :
    Within base budget (fillFrom budget rollUp isFirst fill sections) := by
  induction sections generalizing isFirst fill with
  | nil => exact h
  | cons s sections ih =>
    exact ih false (placeAll_within rollUp h (.inl rfl) (Nat.sub_le ..) s.entries)

/-- A fill keeps the budget exactly if the title does. -/
theorem length_render_le_iff :
    (render spaces sections budget rollUp).1.length ≤ budget ↔ (title spaces).length ≤ budget := by
  have hbare : Within (title spaces).length budget ⟨title spaces, (title spaces).length, 0, []⟩ :=
    ⟨rfl, Nat.le_refl _, .inl rfl⟩
  have h := fillFrom_within sections rollUp true hbare
  have hcounted := h.counted
  have hgrown := h.grown
  have hfits := h.fits
  unfold render
  dsimp only
  split_ifs with hnothing
  · rw [List.length_append, hcounted]
    omega
  · rw [hcounted]
    omega

/-! ### The block -/

/-- One of the two fills leaves nothing out. -/
def Whole (spaces : List SpaceName) (sections : List Section) (budget : ℕ) : Prop :=
  (render spaces sections budget false).2 = 0 ∨ (render spaces sections budget true).2 = 0

instance : Decidable (Whole spaces sections budget) := inferInstanceAs (Decidable (_ ∨ _))

/-- A block is within its budget exactly if its title is, with the note if neither fill keeps every
entry. -/
theorem length_assemble_le_iff (spaces : List SpaceName) (sections : List Section) (budget : ℕ) :
    (assemble spaces sections budget).length ≤ budget ↔
      (title spaces).length + (if Whole spaces sections budget then 0 else TRIMMED.length) ≤
        budget := by
  unfold assemble
  dsimp only
  by_cases hblock : (render spaces sections budget false).2 = 0
  · have hwhole : Whole spaces sections budget := .inl hblock
    rw [if_pos hblock, if_pos hwhole]
    exact length_render_le_iff
  · by_cases hrolled : (render spaces sections budget true).2 = 0
    · have hwhole : Whole spaces sections budget := .inr hrolled
      rw [if_neg hblock, if_pos hrolled, if_pos hwhole]
      exact length_render_le_iff
    · have hwhole : ¬ Whole spaces sections budget := not_or.mpr ⟨hblock, hrolled⟩
      have h : (render spaces sections (budget - TRIMMED.length) true).1.length ≤
          budget - TRIMMED.length ↔ (title spaces).length ≤ budget - TRIMMED.length :=
        length_render_le_iff
      rw [if_neg hblock, if_neg hrolled, if_neg hwhole, List.length_append]
      by_cases hnote : TRIMMED.length ≤ budget
      · omega
      · omega

/-- A letter, as often as a space name may be long. -/
def longName (letter : Char) (h : isSlug (List.replicate 64 letter) = true) : SpaceName :=
  ⟨List.replicate 64 letter, h⟩

/-- Three spaces of long names. -/
def longSpaces : List SpaceName :=
  [longName 'a' (by decide), longName 'b' (by decide), longName 'c' (by decide)]

/-- The smallest budget does not hold their title. -/
theorem long_title_over_budget :
    resolveBudget (some 200) = .ok 200 ∧ 200 < (assemble longSpaces [] 200).length := by
  decide +kernel

/-! ### The call -/

theorem length_name_le (space : SpaceName) : space.name.length ≤ SpaceName.MAX_LEN := by
  have h := space.slug
  simp only [isSlug, Bool.and_eq_true, decide_eq_true_eq] at h
  exact h.1.2

theorem length_title (spaces : List SpaceName) : (title spaces).length =
    26 + (List.intercalate " + ".toList (spaces.map SpaceName.name)).length + 1 := by
  have hopen : "# Memory context (spaces: ".toList.length = 26 := by
    rw [String.toList_ofList]
    rfl
  have hclose : ")".toList.length = 1 := by decide
  have hframe (names : Text) : ("# Memory context (spaces: ".toList ++ names ++
      ")".toList).length = 26 + names.length + 1 := by
    rw [List.length_append, List.length_append, hopen, hclose]
  exact hframe _

theorem length_title_one (space : SpaceName) : (title [space]).length ≤ 98 := by
  have hname := length_name_le space
  have hmax : SpaceName.MAX_LEN = 64 := rfl
  have hnames (sep : Text) : List.intercalate sep [space.name] = space.name :=
    List.intercalate_singleton
  rw [length_title, List.map_singleton, hnames]
  omega

theorem length_title_user (space : SpaceName) : (title [space, .user]).length ≤ 98 := by
  have hname := length_name_le space
  have hmax : SpaceName.MAX_LEN = 64 := rfl
  have huser : SpaceName.user.name.length = 4 := rfl
  have hplus : " + ".toList.length = 3 := by decide
  have hnames (sep : Text) : List.intercalate sep [space.name, SpaceName.user.name] =
      space.name ++ (sep ++ SpaceName.user.name) := by
    simp [List.intercalate]
  rw [length_title, List.map_cons, List.map_singleton, hnames, List.length_append,
    List.length_append, hplus, huser]
  omega

/-- The title of the spaces that a call reads without naming all of them. -/
theorem length_title_le {service : Service} {db : Db} {requested : Option Text}
    {spaces : List SpaceName} (h : Tools.spaces service db requested = .ok spaces)
    (hall : requested ≠ some keywordAll) : (title spaces).length ≤ 98 := by
  unfold Tools.spaces at h
  cases requested with
  | none =>
    cases h
    split_ifs
    · exact length_title_one _
    · exact length_title_user _
  | some name =>
    dsimp only at h
    split_ifs at h with hcurrent hkeyword
    · cases h
      exact length_title_one _
    · exact absurd (congrArg some hkeyword) hall
    · split at h
      · cases h
      · cases h
        exact length_title_one _

theorem run_ok {reader : Reader} {db : Db} {params : ContextParams} {now : Timestamp}
    {block : Text} (h : run reader db params now = .ok block) : ∃ spaces sections budget,
      Tools.spaces reader.service db params.space = .ok spaces ∧
      resolveBudget params.budgetChars = .ok budget ∧ block = assemble spaces sections budget := by
  unfold run at h
  split at h
  · cases h
  · rename_i spaces hspaces
    split at h
    · cases h
    · rename_i budget hbudget
      split at h
      · cases h
      · exact ⟨spaces, _, budget, hspaces, hbudget, (Except.ok.inj h).symm⟩

/-- A budget with room for the title and the note is kept. -/
theorem length_assemble_le (h : (title spaces).length + TRIMMED.length ≤ budget) :
    (assemble spaces sections budget).length ≤ budget := by
  have htitle : (title spaces).length ≤ budget := Nat.le_of_add_right_le h
  unfold assemble
  dsimp only
  split_ifs
  · exact length_render_le_iff.mpr htitle
  · exact length_render_le_iff.mpr htitle
  · have hrolled : (render spaces sections (budget - TRIMMED.length) true).1.length ≤
        budget - TRIMMED.length := length_render_le_iff.mpr (Nat.le_sub_of_add_le h)
    rw [List.length_append]
    omega

theorem length_TRIMMED : TRIMMED.length = 68 := by
  rw [show TRIMMED = _ from String.toList_ofList]
  rfl

/-- A call that does not read all spaces keeps its budget. -/
theorem run_within {reader : Reader} {db : Db} {params : ContextParams} {now : Timestamp}
    {block : Text} (h : run reader db params now = .ok block)
    (hall : params.space ≠ some keywordAll) :
    ∃ budget, resolveBudget params.budgetChars = .ok budget ∧ block.length ≤ budget := by
  obtain ⟨spaces, sections, budget, hspaces, hbudget, rfl⟩ := run_ok h
  refine ⟨budget, hbudget, length_assemble_le ?_⟩
  have htitle := length_title_le hspaces hall
  have hfloor : 200 ≤ budget := by
    unfold resolveBudget at hbudget
    dsimp only at hbudget
    split_ifs at hbudget with hlow
    cases hbudget
    exact Nat.le_of_not_lt hlow
  rw [length_TRIMMED]
  omega

end Agmem.Tools.Context
