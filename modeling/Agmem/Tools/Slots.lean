import Agmem.Tools.Honest

/-! When the note of a block is right, read off the sections and the budget alone. An entry takes at
least its own room under the title and its header, and the room down to it is at most that of
everything above it together. So it is certain of some entries that they fit, and of others that
they do not; the note can only be wrong about an entry that may not fit, where a summary of it that
may fit stands further down. -/

namespace Agmem.Tools.Context

open Core Store

/-- The place of an entry in the sections: the room of the block that it needs by itself, the room
that everything down to it needs together, and the room that its section may fill. -/
structure Slot where
  entry : Entry
  alone : ℕ
  through : ℕ
  limit : ℕ

/-- The slots of a section, under `frame` for the title and its header, and `above` for all that
stands above. -/
def entrySlots (frame limit : ℕ) : ℕ → List Entry → List Slot
  | _, [] => []
  | above, entry :: entries =>
    ⟨entry, frame + entry.cost, above + entry.cost, limit⟩ ::
      entrySlots frame limit (above + entry.cost) entries

def slotsFrom (budget title : ℕ) : Bool → ℕ → List Section → List Slot
  | _, _, [] => []
  | isFirst, above, s :: sections =>
    let held := if isFirst then 0 else heldBack sections
    let above := above + s.header.length
    entrySlots (title + s.header.length) (budget - held) above s.entries ++
      slotsFrom budget title false (s.entries.foldl (fun n entry => n + entry.cost) above) sections

/-- The slots of a block, in order. -/
def slots (spaces : List SpaceName) (sections : List Section) (budget : ℕ) : List Slot :=
  slotsFrom budget (title spaces).length true (title spaces).length sections

/-- Either everything fits together; or, less the room of the note, each entry that a summary
further down covers fits with all that stands above it, or the summary does not fit by itself. -/
def Settled (spaces : List SpaceName) (sections : List Section) (budget : ℕ) : Prop :=
  (∀ slot ∈ slots spaces sections budget, slot.through ≤ slot.limit) ∨
    (slots spaces sections (budget - TRIMMED.length)).Pairwise fun slot later =>
      slot.entry.id ∈ later.entry.covers → slot.through ≤ slot.limit ∨ later.limit < later.alone

instance (spaces : List SpaceName) (sections : List Section) (budget : ℕ) :
    Decidable (Settled spaces sections budget) :=
  inferInstanceAs (Decidable ((∀ slot ∈ slots spaces sections budget, _) ∨ List.Pairwise _ _))

/-- What the slot of an entry says of its fate. -/
structure Bounds (slot : Slot) (e : Entry × Fate) : Prop where
  entry : e.1 = slot.entry
  leftOut : e.2 = .leftOut → slot.limit < slot.through
  shown : e.2 = .shown → slot.alone ≤ slot.limit

variable {spaces : List SpaceName} {sections : List Section} {budget : ℕ} {rollUp : Bool}
  {fill : Fill} {headerCost frame above : ℕ}

/-- What a fill has used, with the header that is still to be charged, lies between the frame and
all that stands above. -/
theorem place_bounds (header : Text) (entry : Entry) (hlow : frame ≤ fill.used + headerCost)
    (hhigh : fill.used + headerCost ≤ above) :
    Bounds ⟨entry, frame + entry.cost, above + entry.cost, budget⟩
        (entry, fate budget headerCost fill entry) ∧
      frame ≤ (place budget rollUp header headerCost fill entry).1.used +
        (place budget rollUp header headerCost fill entry).2 ∧
      (place budget rollUp header headerCost fill entry).1.used +
        (place budget rollUp header headerCost fill entry).2 ≤ above + entry.cost := by
  refine ⟨⟨rfl, fun hleft => ?_, fun hshown => ?_⟩, ?_⟩
  · have := (fate_leftOut_iff.mp hleft).2
    dsimp only
    omega
  · have := (fate_shown_iff.mp hshown).2
    dsimp only
    omega
  · cases hfate : fate budget headerCost fill entry with
    | passedOver =>
      rw [(place_passedOver _ _ hfate).2]
      dsimp only
      omega
    | leftOut =>
      rw [(place_leftOut _ _ hfate).2]
      dsimp only
      omega
    | shown =>
      rw [(place_shown _ _ hfate).2]
      dsimp only
      omega

theorem placeAll_bounds (budget : ℕ) (header : Text) (entries : List Entry)
    (hlow : frame ≤ fill.used + headerCost) (hhigh : fill.used + headerCost ≤ above) :
    List.Forall₂ Bounds (entrySlots frame budget above entries)
        (placeFates budget rollUp header headerCost fill entries) ∧
      (placeAll budget rollUp header headerCost fill entries).used ≤
        entries.foldl (fun n entry => n + entry.cost) above := by
  induction entries generalizing fill headerCost above with
  | nil => exact ⟨.nil, (Nat.le_add_right ..).trans hhigh⟩
  | cons entry entries ih =>
    obtain ⟨hbounds, hlow, hhigh⟩ := place_bounds header entry hlow hhigh
    obtain ⟨hrest, hused⟩ := ih hlow hhigh
    exact ⟨.cons hbounds hrest, hused⟩

/-- No entry frees room. -/
theorem used_le_placeAll (header : Text) (entries : List Entry) :
    fill.used ≤ (placeAll budget rollUp header headerCost fill entries).used := by
  induction entries generalizing fill headerCost with
  | nil => exact Nat.le_refl _
  | cons entry entries ih =>
    refine Nat.le_trans ?_ ih
    cases hfate : fate budget headerCost fill entry with
    | passedOver => rw [(place_passedOver _ _ hfate).2]
    | leftOut => rw [(place_leftOut _ _ hfate).2]
    | shown =>
      rw [(place_shown _ _ hfate).2]
      exact Nat.le_add_right ..

theorem fillFrom_bounds {title : ℕ} {isFirst : Bool} (hlow : title ≤ fill.used)
    (hhigh : fill.used ≤ above) :
    List.Forall₂ Bounds (slotsFrom budget title isFirst above sections)
      ((fillFates budget rollUp isFirst fill sections).flatMap Prod.snd) := by
  induction sections generalizing fill isFirst above with
  | nil => exact .nil
  | cons s sections ih =>
    obtain ⟨hbounds, hused⟩ := placeAll_bounds
      (budget - if isFirst = true then 0 else heldBack sections) s.header s.entries
      (Nat.add_le_add_right hlow s.header.length) (Nat.add_le_add_right hhigh s.header.length)
    rw [slotsFrom, fillFates, List.flatMap_cons]
    exact List.rel_append hbounds (ih (hlow.trans (used_le_placeAll ..)) hused)

theorem slots_bounds (spaces : List SpaceName) (sections : List Section) (budget : ℕ)
    (rollUp : Bool) : List.Forall₂ Bounds (slots spaces sections budget)
      (fateLog spaces sections budget rollUp) :=
  fillFrom_bounds (Nat.le_refl _) (Nat.le_refl _)

theorem exists_slot {log : List (Entry × Fate)} {slots : List Slot}
    (h : List.Forall₂ Bounds slots log) {e : Entry × Fate} (he : e ∈ log) :
    ∃ slot ∈ slots, Bounds slot e := by
  obtain ⟨i, hi, rfl⟩ := List.getElem_of_mem he
  obtain ⟨hlen, hall⟩ := List.forall₂_iff_get.mp h
  exact ⟨_, List.getElem_mem (hlen ▸ hi), hall i (hlen ▸ hi) hi⟩

theorem leftOut_eq_nil_of_bounds {log : List (Entry × Fate)} {slots : List Slot}
    (hbounds : List.Forall₂ Bounds slots log) (h : ∀ slot ∈ slots, slot.through ≤ slot.limit) :
    leftOut log = [] := by
  refine List.eq_nil_iff_forall_not_mem.mpr fun entry hentry => ?_
  obtain ⟨slot, hslot, hbound⟩ := exists_slot hbounds (mem_leftOut.mp hentry)
  exact (hbound.leftOut rfl).not_ge (h slot hslot)

/-- What holds of two slots holds of their entries. -/
theorem apart_of_bounds {log : List (Entry × Fate)} {slots : List Slot}
    (hbounds : List.Forall₂ Bounds slots log)
    (h : slots.Pairwise fun slot later =>
      slot.entry.id ∈ later.entry.covers → slot.through ≤ slot.limit ∨ later.limit < later.alone) :
    log.Pairwise fun e later => e.2 = .leftOut → later.2 = .shown → e.1.id ∉ later.1.covers := by
  induction hbounds with
  | nil => exact .nil
  | @cons slot e slots log hslot hrest ih =>
    obtain ⟨hfirst, hpairs⟩ := List.pairwise_cons.mp h
    refine List.pairwise_cons.mpr ⟨fun late hlate hleft hshown hcovers => ?_, ih hpairs⟩
    obtain ⟨later, hlater, hlate⟩ := exists_slot hrest hlate
    rw [hslot.entry, hlate.entry] at hcovers
    rcases hfirst later hlater hcovers with hfits | hnever
    · exact (hslot.leftOut hleft).not_ge hfits
    · exact (hlate.shown hshown).not_gt hnever

end Agmem.Tools.Context
