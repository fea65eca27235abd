import Agmem.Tools.Honest

/-! The room that the Lessons section holds back. The sections above it leave that room, but an
entry that they leave out counts as met all the same, and the section the room was kept for passes
it over. -/

namespace Agmem.Tools.Context

open Core Store

/-- A fill before its first section. -/
def titled (spaces : List SpaceName) : Fill := ⟨title spaces, (title spaces).length, 0, []⟩

/-- The fill after the sections `above`, where `below` are still to come. -/
def fillAbove (budget : ℕ) (rollUp : Bool) (below : List Section) :
    Bool → Fill → List Section → Fill
  | _, fill, [] => fill
  | isFirst, fill, s :: above =>
    let held := if isFirst then 0 else heldBack (above ++ below)
    fillAbove budget rollUp below false
      (placeAll (budget - held) rollUp s.header s.header.length fill s.entries) above

/-- The fates of the entries above. -/
def fatesAbove (budget : ℕ) (rollUp : Bool) (below : List Section) :
    Bool → Fill → List Section → List (Entry × Fate)
  | _, _, [] => []
  | isFirst, fill, s :: above =>
    let held := if isFirst then 0 else heldBack (above ++ below)
    placeFates (budget - held) rollUp s.header s.header.length fill s.entries ++
      fatesAbove budget rollUp below false
        (placeAll (budget - held) rollUp s.header s.header.length fill s.entries) above

/-- One of the entries is shown, or a summary that covers it. -/
def Reached (entries : List Entry) (log : List (Entry × Fate)) : Prop :=
  ∃ lesson ∈ entries, ∃ e ∈ shown log, e.id = lesson.id ∨ lesson.id ∈ e.covers

/-- The first entry with its id. -/
def IsFirst (entries : List Entry) (entry : Entry) : Prop :=
  (entries.find? fun e => decide (e.id = entry.id)) = some entry

/-- Some entry was not left out before and fits, with the header, what is left. -/
def Spared (budget : ℕ) (lessons : Section) (log : List (Entry × Fate)) (fill : Fill) : Prop :=
  ∃ lesson, IsFirst lessons.entries lesson ∧ lesson.id ∉ (leftOut log).map Entry.id ∧
    fill.used + (lessons.header.length + lesson.cost) ≤ budget

variable {budget : ℕ} {rollUp isFirst : Bool} {fill : Fill} {below : List Section}

/-! ### The sections above -/

theorem fillFates_append (above : List Section) :
    (fillFates budget rollUp isFirst fill (above ++ below)).flatMap Prod.snd =
      fatesAbove budget rollUp below isFirst fill above ++
        (fillFates budget rollUp (isFirst && above.isEmpty)
          (fillAbove budget rollUp below isFirst fill above) below).flatMap Prod.snd := by
  induction above generalizing isFirst fill with
  | nil => simp [fatesAbove, fillAbove]
  | cons s above ih =>
    rw [List.cons_append, fillFates, fatesAbove, fillAbove, List.flatMap_cons, ih,
      List.append_assoc]
    simp

/-- The fates of a whole fill: those above its last section, and those of its last section. -/
theorem fateLog_concat (spaces : List SpaceName) (first : Section) (middle : List Section)
    (lessons : Section) (budget : ℕ) (rollUp : Bool) :
    fateLog spaces (first :: (middle ++ [lessons])) budget rollUp =
      fatesAbove budget rollUp [lessons] true (titled spaces) (first :: middle) ++
        placeFates budget rollUp lessons.header lessons.header.length
          (fillAbove budget rollUp [lessons] true (titled spaces) (first :: middle))
          lessons.entries := by
  rw [fateLog, fates, ← titled, ← List.cons_append, fillFates_append]
  simp [fillFates, heldBack]

theorem Tracks.fillAbove {base : ℕ} {log : List (Entry × Fate)} (h : Tracks rollUp base log fill)
    (budget : ℕ) (below : List Section) (isFirst : Bool) (above : List Section) :
    Tracks rollUp base (log ++ fatesAbove budget rollUp below isFirst fill above)
      (Context.fillAbove budget rollUp below isFirst fill above) := by
  induction above generalizing log isFirst fill with
  | nil =>
    rw [fatesAbove, List.append_nil]
    exact h
  | cons s above ih =>
    have hrest := ih (h.placeAll (budget - if isFirst = true then 0 else heldBack (above ++ below))
      s.header s.header.length s.entries) false
    rw [List.append_assoc] at hrest
    exact hrest

theorem tracks_above (spaces : List SpaceName) (above : List Section) (below : List Section)
    (budget : ℕ) (rollUp : Bool) : Tracks rollUp (title spaces).length
      (fatesAbove budget rollUp below true (titled spaces) above)
      (fillAbove budget rollUp below true (titled spaces) above) :=
  (Tracks.start rollUp (title spaces)).fillAbove budget below true above

/-! ### The room that is left -/

theorem placeAll_used_le {limit : ℕ} (header : Text) (headerCost : ℕ) (entries : List Entry)
    (hfill : fill.used ≤ limit) (hbudget : budget ≤ limit) :
    (placeAll budget rollUp header headerCost fill entries).used ≤ limit := by
  induction entries generalizing headerCost fill with
  | nil => exact hfill
  | cons entry entries ih =>
    refine ih _ ?_
    cases hfate : fate budget headerCost fill entry with
    | passedOver => rwa [(place_passedOver _ _ hfate).2]
    | leftOut => rwa [(place_leftOut _ _ hfate).2]
    | shown =>
      rw [(place_shown _ _ hfate).2]
      exact (fate_shown_iff.mp hfate).2.trans hbudget

theorem heldBack_concat (sections : List Section) (s : Section) :
    heldBack (sections ++ [s]) = heldBack sections + s.held := by
  simp [heldBack]

/-- What the last section holds back, the ones between it and the first leave. -/
theorem used_fillAbove_le (lessons : Section) (middle : List Section)
    (hfill : fill.used ≤ budget - lessons.held) :
    (fillAbove budget rollUp [lessons] false fill middle).used ≤ budget - lessons.held := by
  induction middle generalizing fill with
  | nil => exact hfill
  | cons s middle ih =>
    refine ih (placeAll_used_le _ _ _ hfill ?_)
    rw [if_neg Bool.false_ne_true, heldBack_concat]
    omega

/-! ### The last section -/

theorem isFirst_cons {e entry : Entry} {entries : List Entry} : IsFirst (e :: entries) entry ↔
    if e.id = entry.id then e = entry else IsFirst entries entry := by
  unfold IsFirst
  split_ifs with h <;> simp [h]

theorem IsFirst.mem {entry : Entry} {entries : List Entry} (h : IsFirst entries entry) :
    entry ∈ entries := List.mem_of_find?_eq_some h

/-- Under a header that is not written yet, something is shown exactly if some entry is met for the
first time and fits with the header. -/
theorem shown_placeFates_ne_nil_iff {header : Text} {headerCost : ℕ} {entries : List Entry} :
    shown (placeFates budget rollUp header headerCost fill entries) ≠ [] ↔
      ∃ entry, IsFirst entries entry ∧ entry.id ∉ fill.seen ∧
        fill.used + (headerCost + entry.cost) ≤ budget := by
  induction entries generalizing fill with
  | nil => simp [placeFates, IsFirst]
  | cons e entries ih =>
    rw [placeFates, shown_cons]
    cases hfate : fate budget headerCost fill e with
    | passedOver =>
      obtain ⟨hseen, hplace⟩ := place_passedOver rollUp header hfate
      rw [hplace, if_neg (fun h => Fate.noConfusion h), List.nil_append, ih]
      refine exists_congr fun entry => and_congr_left fun h => ?_
      have hid : e.id ≠ entry.id := fun heq => h.1 (heq ▸ hseen)
      rw [isFirst_cons, if_neg hid]
    | leftOut =>
      obtain ⟨hseen, hfull⟩ := fate_leftOut_iff.mp hfate
      rw [(place_leftOut rollUp header hfate).2, if_neg (fun h => Fate.noConfusion h),
        List.nil_append, ih]
      refine exists_congr fun entry => ?_
      rw [isFirst_cons, List.mem_cons, not_or]
      by_cases hid : e.id = entry.id
      · rw [if_pos hid]
        refine iff_of_false (fun h => h.2.1.1 hid.symm) ?_
        rintro ⟨rfl, -, hfits⟩
        omega
      · rw [if_neg hid, and_iff_right (Ne.symm hid)]
    | shown =>
      obtain ⟨hseen, hfits⟩ := fate_shown_iff.mp hfate
      refine iff_of_true (by simp) ⟨e, ?_, hseen, hfits⟩
      rw [isFirst_cons, if_pos rfl]

/-! ### Lessons -/

theorem reached_append {entries : List Entry} {log later : List (Entry × Fate)} :
    Reached entries (log ++ later) ↔ Reached entries log ∨ Reached entries later := by
  simp only [Reached, shown_append, List.mem_append, or_and_right, exists_or, and_or_left]
  exact or_or_or_comm

/-- An entry that was met above and not left out is shown, or a summary of it is. -/
theorem reached_of_seen {base : ℕ} {log : List (Entry × Fate)} {entries : List Entry}
    {lesson : Entry} (h : Tracks rollUp base log fill) (hlesson : lesson ∈ entries)
    (hseen : lesson.id ∈ fill.seen) (hleft : lesson.id ∉ (leftOut log).map Entry.id) :
    Reached entries log := by
  rcases (h.seen _).mp hseen with hmet | ⟨-, summary, hsummary, hcovers⟩
  · rw [List.map_append, List.mem_append, or_iff_left hleft] at hmet
    obtain ⟨e, he, hid⟩ := List.mem_map.mp hmet
    exact ⟨lesson, hlesson, e, he, .inl hid⟩
  · exact ⟨lesson, hlesson, summary, hsummary, .inr hcovers⟩

theorem reached_iff {base : ℕ} {log : List (Entry × Fate)} {lessons : Section}
    (h : Tracks rollUp base log fill) :
    Reached lessons.entries (log ++ placeFates budget rollUp lessons.header lessons.header.length
      fill lessons.entries) ↔ Reached lessons.entries log ∨ Spared budget lessons log fill := by
  rw [reached_append]
  constructor
  · rintro (habove | ⟨-, -, e, he, -⟩)
    · exact .inl habove
    · obtain ⟨lesson, hfirst, hunseen, hfits⟩ :=
        shown_placeFates_ne_nil_iff.mp (List.ne_nil_of_mem he)
      refine .inr ⟨lesson, hfirst, fun hleft => hunseen ((h.seen _).mpr (.inl ?_)), hfits⟩
      rw [List.map_append]
      exact List.mem_append_right _ hleft
  · rintro (habove | ⟨lesson, hfirst, hleft, hfits⟩)
    · exact .inl habove
    · by_cases hseen : lesson.id ∈ fill.seen
      · exact .inl (reached_of_seen h hfirst.mem hseen hleft)
      · obtain ⟨e, he⟩ := List.exists_mem_of_ne_nil _
          (shown_placeFates_ne_nil_iff.mpr ⟨lesson, hfirst, hseen, hfits⟩)
        refine .inr ⟨e, ?_, e, he, .inl rfl⟩
        rw [← placeFates_entries lessons.header lessons.header.length fill lessons.entries]
        exact List.mem_map_of_mem (mem_shown.mp he)

/-- A lesson is reached exactly if one is reached above, or one that was not left out there fits
what is left; and where the first section leaves the room that Lessons holds back, every lesson does
that fits this room. -/
theorem reserve_iff (spaces : List SpaceName) (first : Section) (middle : List Section)
    (lessons : Section) (budget : ℕ) (rollUp : Bool) :
    (Reached lessons.entries (fateLog spaces (first :: (middle ++ [lessons])) budget rollUp) ↔
      Reached lessons.entries
        (fatesAbove budget rollUp [lessons] true (titled spaces) (first :: middle)) ∨
      Spared budget lessons
        (fatesAbove budget rollUp [lessons] true (titled spaces) (first :: middle))
        (fillAbove budget rollUp [lessons] true (titled spaces) (first :: middle))) ∧
    ((placeAll budget rollUp first.header first.header.length (titled spaces) first.entries).used ≤
        budget - lessons.held →
      ∀ lesson, IsFirst lessons.entries lesson →
        lessons.header.length + lesson.cost ≤ lessons.held →
        lesson.id ∉ (leftOut (fatesAbove budget rollUp [lessons] true (titled spaces)
          (first :: middle))).map Entry.id →
        Reached lessons.entries
          (fateLog spaces (first :: (middle ++ [lessons])) budget rollUp)) := by
  have htracks := tracks_above spaces (first :: middle) [lessons] budget rollUp
  rw [fateLog_concat, reached_iff htracks]
  refine ⟨Iff.rfl, fun hfirst lesson hlesson hroom hleft => .inr ⟨lesson, hlesson, hleft, ?_⟩⟩
  have hused : (fillAbove budget rollUp [lessons] true (titled spaces) (first :: middle)).used ≤
      budget - lessons.held := by
    rw [fillAbove, if_pos rfl, Nat.sub_zero]
    exact used_fillAbove_le lessons middle hfirst
  have hbase := htracks.used
  rw [length_title] at hbase
  omega

instance (entries : List Entry) (log : List (Entry × Fate)) : Decidable (Reached entries log) :=
  inferInstanceAs (Decidable (∃ lesson ∈ entries, ∃ e ∈ shown log, _))

/-- A fact that leaves the room that Lessons holds back, and not much more. -/
def wideFact : Entry := ⟨⟨1⟩, List.replicate 150 'a', []⟩

/-- A lesson that fits this room. -/
def onlyLesson : Entry := ⟨⟨2⟩, List.replicate 20 'b', []⟩

def noInstructions : Section := ⟨HEADING_INSTRUCTIONS, [], 0⟩

/-- The section the room is kept for. -/
def lessonsKept : Section := ⟨HEADING_LESSONS, [onlyLesson], lessonsReserve 300⟩

/-- The lesson that Relevant has no room for is in no section. -/
theorem reserve_unused :
    (placeAll 300 false noInstructions.header noInstructions.header.length (titled [.user])
        noInstructions.entries).used ≤ 300 - lessonsKept.held ∧
      lessonsKept.header.length + onlyLesson.cost ≤ lessonsKept.held ∧
      ¬ Reached lessonsKept.entries (fateLog [.user] [noInstructions,
        ⟨HEADING_RELEVANT, [wideFact, onlyLesson], 0⟩, lessonsKept] 300 false) := by
  decide +kernel

end Agmem.Tools.Context
