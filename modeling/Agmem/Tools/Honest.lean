import Agmem.Tools.Budget

/-! What a block says about itself. A fill shows an entry, passes it over where its id was seen, or
leaves it out where it does not fit; the note goes by the entries left out. A summary that is shown
after an entry was left out may still cover it, and then the note speaks of something missing where
nothing is. -/

namespace Agmem.Tools.Context

open Core Store

/-- What a fill does with an entry. -/
inductive Fate where
  | shown
  | passedOver
  | leftOut
deriving DecidableEq

def fate (budget headerCost : ℕ) (fill : Fill) (entry : Entry) : Fate :=
  if entry.id ∈ fill.seen then .passedOver
  else if budget < fill.used + (headerCost + entry.cost) then .leftOut
  else .shown

/-- The entries of a section with what became of each, in order. -/
def placeFates (budget : ℕ) (rollUp : Bool) (header : Text) :
    ℕ → Fill → List Entry → List (Entry × Fate)
  | _, _, [] => []
  | headerCost, fill, entry :: entries =>
    let next := place budget rollUp header headerCost fill entry
    (entry, fate budget headerCost fill entry) ::
      placeFates budget rollUp header next.2 next.1 entries

def fillFates (budget : ℕ) (rollUp : Bool) (isFirst : Bool) (fill : Fill) :
    List Section → List (Section × List (Entry × Fate))
  | [] => []
  | s :: sections =>
    let held := if isFirst then 0 else heldBack sections
    (s, placeFates (budget - held) rollUp s.header s.header.length fill s.entries) ::
      fillFates budget rollUp false
        (placeAll (budget - held) rollUp s.header s.header.length fill s.entries) sections

def shown (log : List (Entry × Fate)) : List Entry :=
  (log.filter fun e => e.2 = .shown).map Prod.fst

def leftOut (log : List (Entry × Fate)) : List Entry :=
  (log.filter fun e => e.2 = .leftOut).map Prod.fst

/-- A section as it appears: nothing without an entry, else its header and their lines. -/
def sectionText (header : Text) (log : List (Entry × Fate)) : Text :=
  if shown log = [] then [] else header ++ (shown log).flatMap Entry.line

/-- The fates of all entries, section by section, in a fill of its own. -/
def fates (spaces : List SpaceName) (sections : List Section) (budget : ℕ) (rollUp : Bool) :
    List (Section × List (Entry × Fate)) :=
  fillFates budget rollUp true ⟨title spaces, (title spaces).length, 0, []⟩ sections

/-- The fates of a fill in one list. -/
def fateLog (spaces : List SpaceName) (sections : List Section) (budget : ℕ) (rollUp : Bool) :
    List (Entry × Fate) :=
  (fates spaces sections budget rollUp).flatMap Prod.snd

/-- The fates in the fill that becomes the block. -/
def blockFates (spaces : List SpaceName) (sections : List Section) (budget : ℕ) :
    List (Section × List (Entry × Fate)) :=
  if (render spaces sections budget false).2 = 0 then fates spaces sections budget false
  else if (render spaces sections budget true).2 = 0 then fates spaces sections budget true
  else fates spaces sections (budget - TRIMMED.length) true

/-- The entries whose lines are in the block. -/
def rendered (spaces : List SpaceName) (sections : List Section) (budget : ℕ) : List Entry :=
  shown ((blockFates spaces sections budget).flatMap Prod.snd)

/-- Neither the entry nor a summary of it is in the block. -/
def Missing (spaces : List SpaceName) (sections : List Section) (budget : ℕ) (entry : Entry) :
    Prop :=
  entry.id ∉ (rendered spaces sections budget).map Entry.id ∧
    ∀ summary ∈ rendered spaces sections budget, entry.id ∉ summary.covers

/-- The note of what was trimmed stands exactly if something is missing, no memory is there twice,
and the note of an empty store stands only if there is nothing to show. -/
def Honest (spaces : List SpaceName) (sections : List Section) (budget : ℕ) : Prop :=
  (TRIMMED <:+ assemble spaces sections budget ↔
    ∃ entry ∈ sections.flatMap Section.entries, Missing spaces sections budget entry) ∧
  ((rendered spaces sections budget).map Entry.id).Nodup ∧
  (NOTHING <:+ assemble spaces sections budget ∨
    NOTHING ++ TRIMMED <:+ assemble spaces sections budget →
      sections.flatMap Section.entries = [])

/-- Every entry left out is covered by a summary that is shown after it. -/
def Overtaken : List (Entry × Fate) → Prop
  | [] => True
  | e :: log => (e.2 = .leftOut → ∃ summary ∈ shown log, e.1.id ∈ summary.covers) ∧ Overtaken log

instance decidableOvertaken : DecidablePred Overtaken
  | [] => isTrue trivial
  | e :: log =>
    have := decidableOvertaken log
    inferInstanceAs (Decidable
      ((e.2 = .leftOut → ∃ summary ∈ shown log, e.1.id ∈ summary.covers) ∧ Overtaken log))

instance (spaces : List SpaceName) (sections : List Section) (budget : ℕ) (entry : Entry) :
    Decidable (Missing spaces sections budget entry) :=
  inferInstanceAs (Decidable (_ ∧ ∀ summary ∈ rendered spaces sections budget, _))

instance (spaces : List SpaceName) (sections : List Section) (budget : ℕ) :
    Decidable (Honest spaces sections budget) :=
  inferInstanceAs (Decidable ((_ ↔ ∃ entry ∈ sections.flatMap Section.entries, _) ∧ _ ∧ (_ → _)))

variable {spaces : List SpaceName} {sections : List Section} {budget : ℕ} {rollUp : Bool}

/-! ### The fates of a list -/

@[simp] theorem shown_nil : shown [] = [] := rfl

@[simp] theorem leftOut_nil : leftOut [] = [] := rfl

theorem shown_append (log later : List (Entry × Fate)) :
    shown (log ++ later) = shown log ++ shown later := by
  simp only [shown, List.filter_append, List.map_append]

theorem leftOut_append (log later : List (Entry × Fate)) :
    leftOut (log ++ later) = leftOut log ++ leftOut later := by
  simp only [leftOut, List.filter_append, List.map_append]

theorem shown_cons (e : Entry × Fate) (log : List (Entry × Fate)) :
    shown (e :: log) = (if e.2 = .shown then [e.1] else []) ++ shown log := by
  by_cases h : e.2 = .shown <;> simp [shown, h]

theorem leftOut_cons (e : Entry × Fate) (log : List (Entry × Fate)) :
    leftOut (e :: log) = (if e.2 = .leftOut then [e.1] else []) ++ leftOut log := by
  by_cases h : e.2 = .leftOut <;> simp [leftOut, h]

theorem shown_concat (log : List (Entry × Fate)) (e : Entry × Fate) :
    shown (log ++ [e]) = shown log ++ if e.2 = .shown then [e.1] else [] := by
  rw [shown_append, shown_cons, shown_nil, List.append_nil]

theorem leftOut_concat (log : List (Entry × Fate)) (e : Entry × Fate) :
    leftOut (log ++ [e]) = leftOut log ++ if e.2 = .leftOut then [e.1] else [] := by
  rw [leftOut_append, leftOut_cons, leftOut_nil, List.append_nil]

/-! ### One entry, by its fate -/

section Entry

variable {headerCost : ℕ} {header : Text} {fill : Fill} {entry : Entry}

theorem fate_leftOut_iff : fate budget headerCost fill entry = .leftOut ↔
    entry.id ∉ fill.seen ∧ budget < fill.used + (headerCost + entry.cost) := by
  unfold fate
  split_ifs with hseen hfull
  · simp [hseen]
  · simp [hseen, hfull]
  · simp [hfull]

theorem fate_shown_iff : fate budget headerCost fill entry = .shown ↔
    entry.id ∉ fill.seen ∧ fill.used + (headerCost + entry.cost) ≤ budget := by
  unfold fate
  split_ifs with hseen hfull
  · simp [hseen]
  · simp [Nat.not_le_of_lt hfull]
  · simp [hseen, Nat.le_of_not_lt hfull]

theorem place_passedOver (rollUp : Bool) (header : Text)
    (h : fate budget headerCost fill entry = .passedOver) :
    entry.id ∈ fill.seen ∧
      place budget rollUp header headerCost fill entry = (fill, headerCost) := by
  unfold fate at h
  unfold place
  split_ifs at h with hseen
  exact ⟨hseen, if_pos hseen⟩

theorem place_leftOut (rollUp : Bool) (header : Text)
    (h : fate budget headerCost fill entry = .leftOut) :
    entry.id ∉ fill.seen ∧ place budget rollUp header headerCost fill entry =
      ({ fill with dropped := fill.dropped + 1, seen := entry.id :: fill.seen }, headerCost) := by
  obtain ⟨hseen, hfull⟩ := fate_leftOut_iff.mp h
  unfold place
  dsimp only
  rw [if_neg hseen, if_pos hfull]
  exact ⟨hseen, rfl⟩

theorem place_shown (rollUp : Bool) (header : Text)
    (h : fate budget headerCost fill entry = .shown) :
    entry.id ∉ fill.seen ∧ place budget rollUp header headerCost fill entry =
      ({ text := fill.text ++ (if 0 < headerCost then header else []) ++ entry.line
         used := fill.used + (headerCost + entry.cost)
         dropped := fill.dropped
         seen := if rollUp then entry.covers ++ entry.id :: fill.seen
           else entry.id :: fill.seen }, 0) := by
  obtain ⟨hseen, hfits⟩ := fate_shown_iff.mp h
  unfold place
  dsimp only
  rw [if_neg hseen, if_neg (Nat.not_lt_of_le hfits)]
  exact ⟨hseen, rfl⟩

/-- A fill sees what it shows, and with it what a summary covers when it rolls up. -/
theorem mem_seen_shown {id : MemoryId} {seen : List MemoryId} :
    id ∈ (if rollUp = true then entry.covers ++ entry.id :: seen else entry.id :: seen) ↔
      id ∈ seen ∨ id = entry.id ∨ rollUp = true ∧ id ∈ entry.covers := by
  split_ifs with hroll
  · rw [List.mem_append, List.mem_cons]
    tauto
  · rw [List.mem_cons]
    tauto

end Entry

/-! ### The text of a fill -/

theorem placeAll_text (header : Text) (headerCost : ℕ) (fill : Fill) (entries : List Entry) :
    (placeAll budget rollUp header headerCost fill entries).text =
      fill.text ++ sectionText (if 0 < headerCost then header else [])
        (placeFates budget rollUp header headerCost fill entries) := by
  induction entries generalizing headerCost fill with
  | nil => exact (List.append_nil _).symm
  | cons entry entries ih =>
    rw [placeAll, placeFates, ih]
    cases hfate : fate budget headerCost fill entry with
    | passedOver =>
      rw [(place_passedOver _ _ hfate).2, sectionText, sectionText, shown_cons]
      rfl
    | leftOut =>
      rw [(place_leftOut _ _ hfate).2, sectionText, sectionText, shown_cons]
      rfl
    | shown =>
      rw [(place_shown _ _ hfate).2, sectionText, sectionText, shown_cons, if_pos rfl]
      split_ifs <;> simp_all

theorem fillFrom_text (budget : ℕ) (rollUp isFirst : Bool) (fill : Fill)
    (sections : List Section) :
    (fillFrom budget rollUp isFirst fill sections).text =
      fill.text ++ (fillFates budget rollUp isFirst fill sections).flatMap fun s =>
        sectionText s.1.header s.2 := by
  induction sections generalizing isFirst fill with
  | nil => exact (List.append_nil _).symm
  | cons s sections ih =>
    have hheader : 0 < s.header.length := by
      rw [Section.header, List.length_append]
      exact Nat.add_pos_left (by decide) _
    rw [fillFrom, fillFates, ih, placeAll_text, if_pos hheader, List.flatMap_cons,
      List.append_assoc]

/-! ### What a fill has seen -/

theorem Entry.cost_pos (entry : Entry) : 0 < entry.cost := by
  have hend : "`".toList ≠ [] := List.cons_ne_nil _ _
  exact List.length_pos_iff.mpr (List.append_ne_nil_of_right_ne_nil _ hend)

/-- A fill that began with `base` characters and nothing seen, and the fates of its entries. -/
structure Tracks (rollUp : Bool) (base : ℕ) (log : List (Entry × Fate)) (fill : Fill) : Prop where
  dropped : fill.dropped = (leftOut log).length
  seen : ∀ id, id ∈ fill.seen ↔ id ∈ (shown log ++ leftOut log).map Entry.id ∨
    rollUp = true ∧ ∃ summary ∈ shown log, id ∈ summary.covers
  passed : ∀ entry, (entry, Fate.passedOver) ∈ log → entry.id ∈ fill.seen
  once : ((shown log).map Entry.id).Nodup
  apart : ∀ entry ∈ leftOut log, entry.id ∉ (shown log).map Entry.id
  late : rollUp = true → log.Pairwise fun e later =>
    e.2 = .shown → later.2 = .leftOut → later.1.id ∉ e.1.covers
  used : base + (shown log).length ≤ fill.used

variable {base : ℕ} {log : List (Entry × Fate)} {fill : Fill} {entry : Entry}

theorem Tracks.start (rollUp : Bool) (text : Text) :
    Tracks rollUp text.length [] ⟨text, text.length, 0, []⟩ where
  dropped := rfl
  seen id := by simp
  passed entry h := nomatch h
  once := List.nodup_nil
  apart entry h := nomatch h
  late _ := .nil
  used := Nat.le_refl _

/-- An entry is late where it is left out and an entry shown before it covers it. -/
theorem Tracks.late_concat (h : Tracks rollUp base log fill) (hroll : rollUp = true) {f : Fate}
    (hlast : f = .leftOut → entry.id ∉ fill.seen) : (log ++ [(entry, f)]).Pairwise fun e later =>
      e.2 = .shown → later.2 = .leftOut → later.1.id ∉ e.1.covers := by
  refine List.pairwise_append.mpr ⟨h.late hroll, List.pairwise_singleton .., ?_⟩
  rintro ⟨e, g⟩ he later hlater rfl hfate hcovers
  cases List.mem_singleton.mp hlater
  refine hlast hfate ((h.seen _).mpr (.inr ⟨hroll, e, ?_, hcovers⟩))
  exact List.mem_map.mpr ⟨_, List.mem_filter.mpr ⟨he, rfl⟩, rfl⟩

theorem Tracks.passOver (h : Tracks rollUp base log fill) (hseen : entry.id ∈ fill.seen) :
    Tracks rollUp base (log ++ [(entry, .passedOver)]) fill := by
  have hshown : shown (log ++ [(entry, .passedOver)]) = shown log :=
    (shown_concat ..).trans (List.append_nil _)
  have hleft : leftOut (log ++ [(entry, .passedOver)]) = leftOut log :=
    (leftOut_concat ..).trans (List.append_nil _)
  refine ⟨hleft ▸ h.dropped, ?_, fun e he => ?_, hshown ▸ h.once, ?_,
    fun hroll => h.late_concat hroll nofun, hshown ▸ h.used⟩
  · rw [hshown, hleft]
    exact h.seen
  · rcases List.mem_append.mp he with he | he
    · exact h.passed e he
    · cases List.mem_singleton.mp he
      exact hseen
  · rw [hshown, hleft]
    exact h.apart

theorem Tracks.leaveOut (h : Tracks rollUp base log fill) (hseen : entry.id ∉ fill.seen) :
    Tracks rollUp base (log ++ [(entry, .leftOut)])
      { fill with dropped := fill.dropped + 1, seen := entry.id :: fill.seen } := by
  have hshown : shown (log ++ [(entry, .leftOut)]) = shown log :=
    (shown_concat ..).trans (List.append_nil _)
  have hleft : leftOut (log ++ [(entry, .leftOut)]) = leftOut log ++ [entry] := leftOut_concat ..
  refine ⟨?_, fun id => ?_, fun e he => ?_, hshown ▸ h.once, fun e he => ?_,
    fun hroll => h.late_concat hroll fun _ => hseen, hshown ▸ h.used⟩
  · rw [hleft, List.length_append, ← h.dropped]
    rfl
  · rw [hshown, hleft, ← List.append_assoc, List.map_append, List.mem_append, List.mem_cons,
      h.seen]
    simp only [List.map_singleton, List.mem_singleton]
    tauto
  · rcases List.mem_append.mp he with he | he
    · exact List.mem_cons_of_mem _ (h.passed e he)
    · cases List.mem_singleton.mp he
  · rw [hshown]
    rw [hleft] at he
    rcases List.mem_append.mp he with he | he
    · exact h.apart e he
    · cases List.mem_singleton.mp he
      refine fun hid => hseen ((h.seen _).mpr (.inl ?_))
      rw [List.map_append]
      exact List.mem_append_left _ hid

theorem Tracks.emit (h : Tracks rollUp base log fill) (hseen : entry.id ∉ fill.seen)
    (text : Text) (headerCost : ℕ) : Tracks rollUp base (log ++ [(entry, .shown)])
      { text := text
        used := fill.used + (headerCost + entry.cost)
        dropped := fill.dropped
        seen := if rollUp then entry.covers ++ entry.id :: fill.seen
          else entry.id :: fill.seen } := by
  have hshown : shown (log ++ [(entry, .shown)]) = shown log ++ [entry] := shown_concat ..
  have hleft : leftOut (log ++ [(entry, .shown)]) = leftOut log :=
    (leftOut_concat ..).trans (List.append_nil _)
  refine ⟨hleft ▸ h.dropped, fun id => ?_, fun e he => ?_, ?_, fun e he => ?_,
    fun hroll => h.late_concat hroll nofun, ?_⟩
  · have hcovers : (∃ summary ∈ shown log ++ [entry], id ∈ summary.covers) ↔
        (∃ summary ∈ shown log, id ∈ summary.covers) ∨ id ∈ entry.covers := by
      simp only [List.mem_append, List.mem_singleton, or_and_right, exists_or, exists_eq_left]
    have hshows : id ∈ (shown log ++ [entry] ++ leftOut log).map Entry.id ↔
        id ∈ (shown log ++ leftOut log).map Entry.id ∨ id = entry.id := by
      simp only [List.map_append, List.mem_append, List.map_singleton, List.mem_singleton]
      tauto
    rw [hshown, hleft, mem_seen_shown, h.seen, hcovers, hshows, and_or_left]
    exact or_or_or_comm
  · rcases List.mem_append.mp he with he | he
    · exact mem_seen_shown.mpr (.inl (h.passed e he))
    · cases List.mem_singleton.mp he
  · rw [hshown, List.map_append, List.nodup_append]
    refine ⟨h.once, List.nodup_singleton _, fun id hid other hother hsame => ?_⟩
    rw [List.map_singleton, List.mem_singleton] at hother
    refine hseen ((h.seen _).mpr (.inl ?_))
    rw [← hother, ← hsame, List.map_append]
    exact List.mem_append_left _ hid
  · rw [hleft] at he
    rw [hshown, List.map_append, List.map_singleton, List.mem_append, List.mem_singleton, not_or]
    refine ⟨h.apart e he, fun hsame => hseen (hsame ▸ (h.seen _).mpr (.inl ?_))⟩
    rw [List.map_append]
    exact List.mem_append_right _ (List.mem_map_of_mem he)
  · have hcost := entry.cost_pos
    have hused := h.used
    rw [hshown, List.length_append, List.length_singleton]
    dsimp only
    omega

theorem Tracks.place (h : Tracks rollUp base log fill) (budget : ℕ) (header : Text)
    (headerCost : ℕ) (entry : Entry) :
    Tracks rollUp base (log ++ [(entry, fate budget headerCost fill entry)])
      (place budget rollUp header headerCost fill entry).1 := by
  cases hfate : fate budget headerCost fill entry with
  | passedOver =>
    obtain ⟨hseen, hplace⟩ := place_passedOver rollUp header hfate
    rw [hplace]
    exact h.passOver hseen
  | leftOut =>
    obtain ⟨hseen, hplace⟩ := place_leftOut rollUp header hfate
    rw [hplace]
    exact h.leaveOut hseen
  | shown =>
    obtain ⟨hseen, hplace⟩ := place_shown rollUp header hfate
    rw [hplace]
    exact h.emit hseen _ _

theorem Tracks.placeAll (h : Tracks rollUp base log fill) (budget : ℕ) (header : Text)
    (headerCost : ℕ) (entries : List Entry) :
    Tracks rollUp base (log ++ placeFates budget rollUp header headerCost fill entries)
      (placeAll budget rollUp header headerCost fill entries) := by
  induction entries generalizing log headerCost fill with
  | nil =>
    rw [placeFates, List.append_nil]
    exact h
  | cons entry entries ih =>
    have hrest := ih (h.place budget header headerCost entry)
      (Context.place budget rollUp header headerCost fill entry).2
    rw [List.append_assoc] at hrest
    exact hrest

theorem Tracks.fillFrom (h : Tracks rollUp base log fill) (budget : ℕ) (isFirst : Bool)
    (sections : List Section) :
    Tracks rollUp base (log ++ (fillFates budget rollUp isFirst fill sections).flatMap Prod.snd)
      (fillFrom budget rollUp isFirst fill sections) := by
  induction sections generalizing log isFirst fill with
  | nil =>
    rw [fillFates, List.flatMap_nil, List.append_nil]
    exact h
  | cons s sections ih =>
    have hrest := ih (h.placeAll (budget - if isFirst = true then 0 else heldBack sections) s.header
      s.header.length s.entries) false
    rw [List.append_assoc] at hrest
    rw [fillFates, List.flatMap_cons]
    exact hrest

/-- A fill of its own. -/
theorem tracks (spaces : List SpaceName) (sections : List Section) (budget : ℕ) (rollUp : Bool) :
    Tracks rollUp (title spaces).length (fateLog spaces sections budget rollUp)
      (fillFrom budget rollUp true ⟨title spaces, (title spaces).length, 0, []⟩ sections) :=
  (Tracks.start rollUp (title spaces)).fillFrom budget true sections

/-- Every entry has its fate. -/
theorem placeFates_entries (header : Text) (headerCost : ℕ) (fill : Fill) (entries : List Entry) :
    (placeFates budget rollUp header headerCost fill entries).map Prod.fst = entries := by
  induction entries generalizing headerCost fill with
  | nil => rfl
  | cons entry entries ih => rw [placeFates, List.map_cons, ih]

theorem fates_entries (budget : ℕ) (rollUp isFirst : Bool) (fill : Fill)
    (sections : List Section) :
    ((fillFates budget rollUp isFirst fill sections).flatMap Prod.snd).map Prod.fst =
      sections.flatMap Section.entries := by
  induction sections generalizing isFirst fill with
  | nil => rfl
  | cons s sections ih =>
    rw [fillFates, List.flatMap_cons, List.map_append, placeFates_entries, ih, List.flatMap_cons]

/-! ### What is missing from a fill -/

theorem mem_leftOut {entry : Entry} : entry ∈ leftOut log ↔ (entry, Fate.leftOut) ∈ log := by
  simp [leftOut]

theorem mem_shown {entry : Entry} : entry ∈ shown log ↔ (entry, Fate.shown) ∈ log := by
  simp [shown]

/-- An entry is missing from a fill exactly if one with its id was left out and no summary covers
it. -/
theorem Tracks.missing_iff (h : Tracks rollUp base log fill) :
    (∃ entry ∈ log.map Prod.fst, entry.id ∉ (shown log).map Entry.id ∧
      ∀ summary ∈ shown log, entry.id ∉ summary.covers) ↔
    ∃ entry ∈ leftOut log, ∀ summary ∈ shown log, entry.id ∉ summary.covers := by
  constructor
  · rintro ⟨entry, hentry, hshown, hcovers⟩
    obtain ⟨⟨entry, fate⟩, hlog, rfl⟩ := List.mem_map.mp hentry
    cases fate with
    | shown => exact absurd (List.mem_map_of_mem (mem_shown.mpr hlog)) hshown
    | leftOut => exact ⟨entry, mem_leftOut.mpr hlog, hcovers⟩
    | passedOver =>
      rcases (h.seen _).mp (h.passed entry hlog) with hseen | ⟨-, summary, hsummary, hid⟩
      · rw [List.map_append, List.mem_append, or_iff_right hshown] at hseen
        obtain ⟨other, hother, hid⟩ := List.mem_map.mp hseen
        exact ⟨other, hother, hid ▸ hcovers⟩
      · exact absurd hid (hcovers summary hsummary)
  · rintro ⟨entry, hentry, hcovers⟩
    exact ⟨entry, List.mem_map_of_mem (mem_leftOut.mp hentry), h.apart entry hentry, hcovers⟩

/-- What covers an entry left out comes after it. -/
theorem overtaken_iff (h : log.Pairwise fun e later =>
      e.2 = .shown → later.2 = .leftOut → later.1.id ∉ e.1.covers) :
    Overtaken log ↔ ∀ entry ∈ leftOut log, ∃ summary ∈ shown log, entry.id ∈ summary.covers := by
  induction log with
  | nil => exact iff_of_true trivial fun entry hentry => nomatch hentry
  | cons e log ih =>
    obtain ⟨hfirst, hrest⟩ := List.pairwise_cons.mp h
    rw [Overtaken, ih hrest, leftOut_cons, shown_cons]
    constructor
    · rintro ⟨he, hlog⟩ entry hentry
      rcases List.mem_append.mp hentry with hentry | hentry
      · split_ifs at hentry with hleft
        · cases List.mem_singleton.mp hentry
          obtain ⟨summary, hsummary, hcovers⟩ := he hleft
          exact ⟨summary, List.mem_append_right _ hsummary, hcovers⟩
        · cases hentry
      · obtain ⟨summary, hsummary, hcovers⟩ := hlog entry hentry
        exact ⟨summary, List.mem_append_right _ hsummary, hcovers⟩
    · intro hall
      refine ⟨fun hleft => ?_, fun entry hentry => ?_⟩
      · obtain ⟨summary, hsummary, hcovers⟩ := hall e.1 (by simp [hleft])
        rw [hleft, if_neg (by decide), List.nil_append] at hsummary
        exact ⟨summary, hsummary, hcovers⟩
      · obtain ⟨summary, hsummary, hcovers⟩ := hall entry (List.mem_append_right _ hentry)
        rcases List.mem_append.mp hsummary with hsummary | hsummary
        · split_ifs at hsummary with hshown
          · cases List.mem_singleton.mp hsummary
            exact absurd hcovers (hfirst _ (mem_leftOut.mp hentry) hshown rfl)
          · cases hsummary
        · exact ⟨summary, hsummary, hcovers⟩

/-! ### How a block ends -/

/-- A text that does not end like a note. -/
def EndsPlain (text : Text) : Prop := ∃ c, text.getLast? = some c ∧ c ≠ '_'

theorem EndsPlain.append {text : Text} (h : EndsPlain text) (before : Text) :
    EndsPlain (before ++ text) := by
  obtain ⟨c, hlast, hc⟩ := h
  exact ⟨c, by rw [List.getLast?_append, hlast]; rfl, hc⟩

theorem EndsPlain.not_suffix {note text : Text} (h : EndsPlain text)
    (hnote : note.getLast? = some '_') : ¬ note <:+ text := by
  rintro ⟨before, rfl⟩
  obtain ⟨c, hlast, hc⟩ := h
  rw [List.getLast?_append, hnote] at hlast
  exact hc (Option.some.inj hlast).symm

theorem notes_apart : ¬ TRIMMED <:+ NOTHING ∧ ¬ NOTHING <:+ TRIMMED := by
  rw [show TRIMMED = _ from String.toList_ofList, show NOTHING = _ from String.toList_ofList]
  decide

theorem getLast?_TRIMMED : TRIMMED.getLast? = some '_' := by
  rw [show TRIMMED = _ from String.toList_ofList]
  rfl

theorem getLast?_NOTHING : NOTHING.getLast? = some '_' := by
  rw [show NOTHING = _ from String.toList_ofList]
  rfl

theorem endsPlain_line (entry : Entry) : EndsPlain entry.line := by
  have htick : EndsPlain "`".toList := ⟨Char.ofNat 0x60, by decide, by decide⟩
  exact htick.append _

theorem endsPlain_lines {entries : List Entry} (h : entries ≠ []) :
    EndsPlain (entries.flatMap Entry.line) := by
  induction entries with
  | nil => exact absurd rfl h
  | cons entry entries ih =>
    rw [List.flatMap_cons]
    by_cases hlast : entries = []
    · rw [hlast, List.flatMap_nil, List.append_nil]
      exact endsPlain_line entry
    · exact (ih hlast).append _

theorem endsPlain_title (spaces : List SpaceName) : EndsPlain (title spaces) := by
  have hclose : EndsPlain ")".toList := ⟨')', by decide, by decide⟩
  exact hclose.append _

/-- What a fill writes: the title, and the sections. -/
def written (spaces : List SpaceName) (sections : List Section) (budget : ℕ) (rollUp : Bool) :
    Text :=
  title spaces ++ (fates spaces sections budget rollUp).flatMap fun s =>
    sectionText s.1.header s.2

theorem endsPlain_sections (logs : List (Section × List (Entry × Fate))) {before : Text}
    (h : EndsPlain before) :
    EndsPlain (before ++ logs.flatMap fun s => sectionText s.1.header s.2) := by
  induction logs generalizing before with
  | nil =>
    rw [List.flatMap_nil, List.append_nil]
    exact h
  | cons s logs ih =>
    rw [List.flatMap_cons, ← List.append_assoc]
    refine ih ?_
    rw [sectionText]
    split_ifs with hnone
    · rw [List.append_nil]
      exact h
    · exact ((endsPlain_lines hnone).append _).append _

theorem endsPlain_written : EndsPlain (written spaces sections budget rollUp) :=
  endsPlain_sections _ (endsPlain_title spaces)

/-! ### The block -/

theorem render_dropped :
    (render spaces sections budget rollUp).2 =
      (leftOut (fateLog spaces sections budget rollUp)).length := by
  have h := (tracks spaces sections budget rollUp).dropped
  unfold render
  dsimp only
  split_ifs <;> exact h

/-- A fill that writes nothing and leaves nothing out has nothing to write. -/
theorem Tracks.entries_eq_nil (h : Tracks rollUp base log fill) (hused : fill.used = base)
    (hdropped : fill.dropped = 0) : log = [] := by
  have hshown : shown log = [] := by
    have := h.used
    exact List.length_eq_zero_iff.mp (by omega)
  have hleft : leftOut log = [] := List.length_eq_zero_iff.mp (h.dropped ▸ hdropped)
  cases log with
  | nil => rfl
  | cons e log =>
    obtain ⟨entry, fate⟩ := e
    cases fate with
    | shown => exact absurd (mem_shown.mpr (List.mem_cons_self ..)) (hshown ▸ List.not_mem_nil)
    | leftOut => exact absurd (mem_leftOut.mpr (List.mem_cons_self ..)) (hleft ▸ List.not_mem_nil)
    | passedOver =>
      have hseen := (h.seen _).mp (h.passed entry (List.mem_cons_self ..))
      rw [hshown, hleft] at hseen
      simp at hseen

theorem render_text (spaces : List SpaceName) (sections : List Section) (budget : ℕ)
    (rollUp : Bool) :
    (render spaces sections budget rollUp).1 = written spaces sections budget rollUp ∨
    (render spaces sections budget rollUp).1 = written spaces sections budget rollUp ++ NOTHING ∧
      sections.flatMap Section.entries = [] := by
  have htracks := tracks spaces sections budget rollUp
  have htext := fillFrom_text budget rollUp true
    ⟨title spaces, (title spaces).length, 0, []⟩ sections
  have hentries := fates_entries budget rollUp true
    ⟨title spaces, (title spaces).length, 0, []⟩ sections
  unfold render
  dsimp only
  split_ifs with hnothing
  · refine .inr ⟨congrArg (· ++ NOTHING) htext, ?_⟩
    have hlog := htracks.entries_eq_nil hnothing.1 hnothing.2.1
    rw [← hentries]
    exact congrArg (List.map Prod.fst) hlog
  · exact .inl htext

/-- What is missing from the sections, by the fill that became the block. -/
theorem missing_iff {fill : Fill} {limit : ℕ}
    (h : Tracks rollUp base (fateLog spaces sections budget rollUp) fill)
    (hblock : blockFates spaces sections limit = fates spaces sections budget rollUp) :
    (∃ entry ∈ sections.flatMap Section.entries, Missing spaces sections limit entry) ↔
      ∃ entry ∈ leftOut (fateLog spaces sections budget rollUp),
        ∀ summary ∈ shown (fateLog spaces sections budget rollUp), entry.id ∉ summary.covers := by
  have hentries := fates_entries budget rollUp true
    ⟨title spaces, (title spaces).length, 0, []⟩ sections
  rw [← h.missing_iff, fateLog, fates, hentries]
  simp only [Missing, rendered, hblock, fates]

theorem rendered_nodup {limit : ℕ}
    (hblock : blockFates spaces sections limit = fates spaces sections budget rollUp) :
    ((rendered spaces sections limit).map Entry.id).Nodup := by
  rw [rendered, hblock]
  exact (tracks spaces sections budget rollUp).once

/-- A fill that leaves nothing out says nothing, and nothing is missing from it. -/
theorem honest_of_kept {limit : ℕ} (h : (render spaces sections budget rollUp).2 = 0)
    (hblock : blockFates spaces sections limit = fates spaces sections budget rollUp)
    (htext : assemble spaces sections limit = (render spaces sections budget rollUp).1) :
    Honest spaces sections limit := by
  have htracks := tracks spaces sections budget rollUp
  have hnone : leftOut (fateLog spaces sections budget rollUp) = [] :=
    List.length_eq_zero_iff.mp (render_dropped.symm.trans h)
  have honce := rendered_nodup hblock
  have hmissing : ¬ ∃ entry ∈ sections.flatMap Section.entries,
      Missing spaces sections limit entry := by
    rw [missing_iff htracks hblock, hnone]
    rintro ⟨entry, hentry, -⟩
    cases hentry
  rw [Honest, htext]
  rcases render_text spaces sections budget rollUp with hwritten | ⟨hwritten, hempty⟩
  · rw [hwritten]
    refine ⟨iff_of_false (endsPlain_written.not_suffix getLast?_TRIMMED) hmissing, honce, ?_⟩
    rintro (hnote | hnote)
    · exact absurd hnote (endsPlain_written.not_suffix getLast?_NOTHING)
    · refine absurd hnote (endsPlain_written.not_suffix ?_)
      rw [List.getLast?_append, getLast?_TRIMMED]
      rfl
  · rw [hwritten]
    refine ⟨iff_of_false (fun hnote => ?_) hmissing, honce, fun _ => hempty⟩
    exact (List.suffix_or_suffix_of_suffix hnote (List.suffix_append ..)).elim notes_apart.1
      notes_apart.2

/-- A block is honest exactly if one of the first two fills keeps every entry, or the last one
leaves out an entry that no summary after it covers. -/
theorem honest_iff_log (spaces : List SpaceName) (sections : List Section) (budget : ℕ) :
    Honest spaces sections budget ↔ Whole spaces sections budget ∨
      ¬ Overtaken (fateLog spaces sections (budget - TRIMMED.length) true) := by
  by_cases hblock : (render spaces sections budget false).2 = 0
  · refine iff_of_true (honest_of_kept hblock ?_ ?_) (.inl (.inl hblock))
    · rw [blockFates, if_pos hblock]
    · exact if_pos hblock
  by_cases hrolled : (render spaces sections budget true).2 = 0
  · refine iff_of_true (honest_of_kept hrolled ?_ ?_) (.inl (.inr hrolled))
    · rw [blockFates, if_neg hblock, if_pos hrolled]
    · exact (if_neg hblock).trans (if_pos hrolled)
  have hwhole : ¬ Whole spaces sections budget := not_or.mpr ⟨hblock, hrolled⟩
  have hfates : blockFates spaces sections budget =
      fates spaces sections (budget - TRIMMED.length) true := by
    rw [blockFates, if_neg hblock, if_neg hrolled]
  have htext : assemble spaces sections budget =
      (render spaces sections (budget - TRIMMED.length) true).1 ++ TRIMMED :=
    (if_neg hblock).trans (if_neg hrolled)
  have htracks := tracks spaces sections (budget - TRIMMED.length) true
  have hnothing : NOTHING <:+ assemble spaces sections budget ∨
      NOTHING ++ TRIMMED <:+ assemble spaces sections budget →
        sections.flatMap Section.entries = [] := by
    rw [htext]
    rintro (hnote | hnote)
    · exact ((List.suffix_or_suffix_of_suffix hnote (List.suffix_append ..)).elim notes_apart.2
        notes_apart.1).elim
    · obtain ⟨before, hbefore⟩ := hnote
      rw [← List.append_assoc] at hbefore
      have hrender := List.append_cancel_right hbefore
      rcases render_text spaces sections (budget - TRIMMED.length) true with hwritten | ⟨-, hempty⟩
      · exact absurd ⟨before, hrender.trans hwritten⟩
          (endsPlain_written.not_suffix getLast?_NOTHING)
      · exact hempty
  rw [or_iff_right hwhole, overtaken_iff (htracks.late rfl), Honest, missing_iff htracks hfates,
    and_iff_left ⟨rendered_nodup hfates, hnothing⟩, htext, iff_true_left (List.suffix_append ..)]
  push Not
  rfl

/-- A fact of the profile that is too long for the block, under the smallest budget. -/
def longFact : Entry := ⟨⟨1⟩, List.replicate 130 'a', []⟩

/-- A summary that covers it, and fits. -/
def digest : Entry := ⟨⟨2⟩, ['b'], [⟨1⟩]⟩

section Order

variable {small large : ℕ}

theorem dropped_le_place (budget : ℕ) (rollUp : Bool) (header : Text) (headerCost : ℕ)
    (fill : Fill) (entry : Entry) :
    fill.dropped ≤ (place budget rollUp header headerCost fill entry).1.dropped := by
  cases hfate : fate budget headerCost fill entry with
  | passedOver => rw [(place_passedOver _ _ hfate).2]
  | leftOut =>
    rw [(place_leftOut _ _ hfate).2]
    exact Nat.le_succ _
  | shown => rw [(place_shown _ _ hfate).2]

theorem dropped_le_placeAll (budget : ℕ) (rollUp : Bool) (header : Text) (headerCost : ℕ)
    (fill : Fill) (entries : List Entry) :
    fill.dropped ≤ (placeAll budget rollUp header headerCost fill entries).dropped := by
  induction entries generalizing headerCost fill with
  | nil => exact Nat.le_refl _
  | cons entry entries ih => exact (dropped_le_place ..).trans (ih ..)

theorem dropped_le_fillFrom (budget : ℕ) (rollUp isFirst : Bool) (fill : Fill)
    (sections : List Section) :
    fill.dropped ≤ (fillFrom budget rollUp isFirst fill sections).dropped := by
  induction sections generalizing isFirst fill with
  | nil => exact Nat.le_refl _
  | cons s sections ih => exact (dropped_le_placeAll ..).trans (ih ..)

/-- An entry that fits fits where there is more room. -/
theorem place_larger (hle : small ≤ large) {header : Text} {headerCost : ℕ} {fill : Fill}
    {entry : Entry}
    (h : (place small rollUp header headerCost fill entry).1.dropped = fill.dropped) :
    place large rollUp header headerCost fill entry =
      place small rollUp header headerCost fill entry := by
  unfold place at h ⊢
  dsimp only at h ⊢
  by_cases hseen : entry.id ∈ fill.seen
  · rw [if_pos hseen, if_pos hseen]
  · rw [if_neg hseen] at h
    rw [if_neg hseen, if_neg hseen]
    by_cases hfull : small < fill.used + (headerCost + entry.cost)
    · rw [if_pos hfull] at h
      exact absurd h (Nat.succ_ne_self _)
    · rw [if_neg hfull, if_neg (fun hlarge => hfull (hle.trans_lt hlarge))]

theorem placeAll_larger (hle : small ≤ large) {header : Text} {headerCost : ℕ} {fill : Fill}
    {entries : List Entry}
    (h : (placeAll small rollUp header headerCost fill entries).dropped = fill.dropped) :
    placeAll large rollUp header headerCost fill entries =
      placeAll small rollUp header headerCost fill entries := by
  induction entries generalizing headerCost fill with
  | nil => rfl
  | cons entry entries ih =>
    have hfirst := dropped_le_place small rollUp header headerCost fill entry
    have hrest := dropped_le_placeAll small rollUp header
      (place small rollUp header headerCost fill entry).2
      (place small rollUp header headerCost fill entry).1 entries
    rw [placeAll] at h
    rw [placeAll, placeAll, place_larger hle (by omega)]
    exact ih (by omega)

theorem fillFrom_larger (hle : small ≤ large) {isFirst : Bool} {fill : Fill}
    {sections : List Section}
    (h : (fillFrom small rollUp isFirst fill sections).dropped = fill.dropped) :
    fillFrom large rollUp isFirst fill sections = fillFrom small rollUp isFirst fill sections := by
  induction sections generalizing isFirst fill with
  | nil => rfl
  | cons s sections ih =>
    have hheld := Nat.sub_le_sub_right hle (if isFirst = true then 0 else heldBack sections)
    rw [fillFrom] at h
    have hfirst := dropped_le_placeAll
      (small - if isFirst = true then 0 else heldBack sections) rollUp s.header s.header.length
      fill s.entries
    have hrest := dropped_le_fillFrom small rollUp false
      (placeAll (small - if isFirst = true then 0 else heldBack sections) rollUp s.header
        s.header.length fill s.entries) sections
    rw [fillFrom, fillFrom, placeAll_larger hheld (by omega)]
    exact ih (by omega)

/-- Where the last fill keeps every entry, the one before it did. -/
theorem kept_of_smaller (hle : small ≤ large)
    (h : leftOut (fateLog spaces sections small rollUp) = []) :
    leftOut (fateLog spaces sections large rollUp) = [] := by
  have hsmall := (tracks spaces sections small rollUp).dropped
  have hlarge := (tracks spaces sections large rollUp).dropped
  rw [h, List.length_nil] at hsmall
  rw [fillFrom_larger hle hsmall, hsmall] at hlarge
  exact List.length_eq_zero_iff.mp hlarge.symm

/-- A log where no entry left out is covered further down has nothing overtaken, unless it has
nothing left out. -/
theorem leftOut_eq_nil_of_overtaken {log : List (Entry × Fate)}
    (h : log.Pairwise fun e later =>
      e.2 = .leftOut → later.2 = .shown → e.1.id ∉ later.1.covers)
    (hovertaken : Overtaken log) : leftOut log = [] := by
  induction log with
  | nil => rfl
  | cons e log ih =>
    obtain ⟨hfirst, hrest⟩ := List.pairwise_cons.mp h
    obtain ⟨he, hlog⟩ := hovertaken
    rw [leftOut_cons, ih hrest hlog, List.append_nil]
    by_cases hleft : e.2 = .leftOut
    · obtain ⟨summary, hsummary, hcovers⟩ := he hleft
      exact absurd hcovers (hfirst _ (mem_shown.mp hsummary) hleft rfl)
    · exact if_neg hleft

/-- Where the last fill leaves out no entry that it covers further down, the block is honest. -/
theorem honest_of_apart (h : (fateLog spaces sections (budget - TRIMMED.length) true).Pairwise
    fun e later => e.2 = .leftOut → later.2 = .shown → e.1.id ∉ later.1.covers) :
    Honest spaces sections budget := by
  rw [honest_iff_log]
  by_cases hovertaken : Overtaken (fateLog spaces sections (budget - TRIMMED.length) true)
  · refine .inl (.inr ?_)
    rw [render_dropped, kept_of_smaller (Nat.sub_le ..) (leftOut_eq_nil_of_overtaken h hovertaken)]
    rfl
  · exact .inr hovertaken

/-- Where the first fill leaves nothing out, the block is honest. -/
theorem honest_of_first (h : leftOut (fateLog spaces sections budget false) = []) :
    Honest spaces sections budget := by
  refine (honest_iff_log spaces sections budget).mpr (.inl (.inl ?_))
  rw [render_dropped, h]
  rfl

end Order

end Agmem.Tools.Context
