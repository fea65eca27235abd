import Agmem.Tools.Inspect

/-! Reading on. A reader who asks for a text from its start and goes on at the offset each answer
names comes to its end and has read it once, unless the windows asked for hold nothing. -/

namespace Agmem.Tools.Inspect

open Core Relational Store

/-- What is read by following the offsets of the answers, up to the answer that names none. -/
inductive Follows (answer : Option ℕ → Text × Option Window) : Option ℕ → List Text → Prop
  | last {offset : Option ℕ} (h : (answer offset).2.bind Window.nextOffset = none) :
      Follows answer offset [(answer offset).1]
  | next {offset : Option ℕ} {n : ℕ} {slices : List Text}
      (h : (answer offset).2.bind Window.nextOffset = some n)
      (hrest : Follows answer (some n) slices) :
      Follows answer offset ((answer offset).1 :: slices)

variable {content : Text} {offset limit default : Option ℕ}

/-- The answer is determined, so what is read is. -/
theorem Follows.unique {answer : Option ℕ → Text × Option Window} {slices others : List Text}
    (h : Follows answer offset slices) (h' : Follows answer offset others) : slices = others := by
  induction h generalizing others with
  | last hnone =>
    cases h' with
    | last => rfl
    | next hsome => exact absurd (hnone.symm.trans hsome) (by simp)
  | next hsome _ ih =>
    cases h' with
    | last hnone => exact absurd (hnone.symm.trans hsome) (by simp)
    | next hsome' hrest' =>
      obtain rfl := Option.some.inj (hsome.symm.trans hsome')
      rw [ih hrest']

/-! ### One window -/

/-- What is answered with a window, in terms of the size asked for. -/
theorem apply_windowed {window : WindowSpec}
    (h : ¬(window.offset.isNone && (window.limit.or default).isNone) = true) (content : Text)
    {size : ℕ}
    (hsize : (window.limit.or default).getD
      (content.length - min (window.offset.getD 0) content.length) = size) :
    (window.apply content default).1 = (content.drop (window.offset.getD 0)).take size ∧
      (window.apply content default).2.bind Window.nextOffset =
        if window.offset.getD 0 + size < content.length then some (window.offset.getD 0 + size)
        else none := by
  have happly : window.apply content default = _ := if_neg h
  rw [happly]
  simp only [hsize, Option.bind_some, List.length_take, List.length_drop]
  rcases le_total (window.offset.getD 0) content.length with hle | hle
  · rw [min_eq_left hle]
    refine ⟨rfl, ?_⟩
    by_cases hlt : window.offset.getD 0 + size < content.length
    · rw [if_pos hlt, if_pos (by omega), min_eq_left (by omega)]
    · rw [if_neg hlt, if_neg (by omega)]
  · rw [min_eq_right hle, if_neg (by omega), if_neg (by omega), List.drop_length,
      List.drop_of_length_le hle]
    exact ⟨rfl, rfl⟩

/-- Without a limit an answer goes on to the end. -/
theorem apply_unlimited {window : WindowSpec} (h : window.limit.or default = none)
    (content : Text) :
    (window.apply content default).1 = content.drop (window.offset.getD 0) ∧
      (window.apply content default).2.bind Window.nextOffset = none := by
  by_cases hwindowed : (window.offset.isNone && (window.limit.or default).isNone) = true
  · have happly : window.apply content default = (content, none) := if_pos hwindowed
    obtain ⟨hoffset, -⟩ := Bool.and_eq_true_iff.mp hwindowed
    rw [happly, Option.isNone_iff_eq_none.mp hoffset]
    exact ⟨rfl, rfl⟩
  · obtain ⟨hslice, hnext⟩ := apply_windowed hwindowed content rfl
    rw [h, Option.getD_none] at hslice hnext
    refine ⟨hslice.trans (List.take_of_length_le ?_), hnext.trans (if_neg ?_)⟩
    · rw [List.length_drop]
      omega
    · omega

/-- A window starts at its offset, and names the offset behind it unless the text ends there. -/
theorem apply_limited {window : WindowSpec} {n : ℕ} (h : window.limit.or default = some n)
    (content : Text) :
    (window.apply content default).1 = (content.drop (window.offset.getD 0)).take n ∧
      (window.apply content default).2.bind Window.nextOffset =
        if window.offset.getD 0 + n < content.length then some (window.offset.getD 0 + n)
        else none :=
  apply_windowed (by simp [h]) content (by rw [h, Option.getD_some])

/-! ### Reading a text -/

/-- From any offset the rest of the text is read, if each window holds something. -/
theorem follows_apply {n : ℕ} (h : limit.or default = some n) (hn : 0 < n) (content : Text)
    (offset : Option ℕ) : ∃ slices,
      Follows (fun offset => WindowSpec.apply ⟨offset, limit⟩ content default) offset slices ∧
        slices.flatten = content.drop (offset.getD 0) := by
  -- the text behind the window is shorter, since the window holds something
  induction hrest : content.length - offset.getD 0 using Nat.strong_induction_on generalizing offset
    with | _ rest ih =>
  have hwindow : (WindowSpec.mk offset limit).limit.or default = some n := h
  obtain ⟨hslice, hnext⟩ := apply_limited hwindow content
  dsimp only at hslice hnext
  by_cases hlt : offset.getD 0 + n < content.length
  · rw [if_pos hlt] at hnext
    obtain ⟨slices, hfollows, hflatten⟩ := ih (content.length - (offset.getD 0 + n)) (by omega)
      (some (offset.getD 0 + n)) rfl
    refine ⟨_, .next hnext hfollows, ?_⟩
    rw [List.flatten_cons, hslice, hflatten, Option.getD_some, ← List.drop_drop,
      List.take_append_drop]
  · rw [if_neg hlt] at hnext
    refine ⟨_, .last hnext, ?_⟩
    rw [List.flatten_singleton, hslice]
    exact List.take_of_length_le (by rw [List.length_drop]; omega)

/-- Windows that hold nothing are followed from the start for ever. -/
theorem not_follows_apply (h : limit.or default = some 0) (hne : content ≠ []) {offset : Option ℕ}
    (hstart : offset.getD 0 = 0) (slices : List Text) :
    ¬Follows (fun offset => WindowSpec.apply ⟨offset, limit⟩ content default) offset slices := by
  intro hfollows
  have hnamed {offset : Option ℕ} (hstart : offset.getD 0 = 0) :
      (WindowSpec.apply ⟨offset, limit⟩ content default).2.bind Window.nextOffset = some 0 := by
    have hwindow : (WindowSpec.mk offset limit).limit.or default = some 0 := h
    obtain ⟨-, hnext⟩ := apply_limited hwindow content
    dsimp only at hnext
    rwa [hstart, if_pos (List.length_pos_iff.mpr hne)] at hnext
  induction hfollows with
  | last hnone => exact absurd (hnone.symm.trans (hnamed hstart)) (by simp)
  | next hnext _ ih =>
    obtain rfl := Option.some.inj (hnext.symm.trans (hnamed hstart))
    exact ih rfl

/-- What one answer about a stored text shows of it. -/
def readAt (db : Db) (space : SpaceName) (detail : EpisodeDetail) (limit offset : Option ℕ) :
    Text × Option Window :=
  let found := detailed db space detail ⟨offset, limit⟩
  (found.episode.content, found.window)

/-- The size that is taken where none is asked for is never zero. -/
theorem readAt_eq (db : Db) (space : SpaceName) (detail : EpisodeDetail) (limit : Option ℕ) :
    ∃ default : Option ℕ, default ≠ some 0 ∧ readAt db space detail limit =
      fun offset => WindowSpec.apply ⟨offset, limit⟩ detail.episode.content default := by
  refine ⟨if detail.episode.isDocument then
      (detail.chunks.head?.map fun chunk => chunk.text.length).filter fun chars =>
        decide (0 < chars)
    else none, ?_, rfl⟩
  split_ifs
  · intro hzero
    exact absurd (Option.filter_eq_some_iff.mp hzero).2 (by decide)
  · exact (Option.some_ne_none 0).symm

/-- Windows hold nothing only where that was asked for. -/
theorem or_eq_zero_iff (hdefault : default ≠ some 0) :
    limit.or default = some 0 ↔ limit = some 0 := by
  cases limit with
  | none => exact iff_of_false hdefault (Option.some_ne_none 0).symm
  | some n => rw [Option.some_or]

/-- Following the answers from the start reads a stored text once and ends, unless it is asked for
in windows of no characters. -/
theorem reads_once_iff (db : Db) (space : SpaceName) (detail : EpisodeDetail) (limit : Option ℕ)
    {offset : Option ℕ} (hstart : offset.getD 0 = 0) :
    (∃ slices, Follows (readAt db space detail limit) offset slices ∧
        slices.flatten = detail.episode.content) ↔
      limit ≠ some 0 ∨ detail.episode.content = [] := by
  obtain ⟨default, hdefault, hread⟩ := readAt_eq db space detail limit
  rw [hread, ne_eq, ← or_eq_zero_iff hdefault]
  cases hsize : limit.or default with
  | none =>
    have hwindow : (WindowSpec.mk offset limit).limit.or default = none := hsize
    obtain ⟨hslice, hnext⟩ := apply_unlimited hwindow detail.episode.content
    refine iff_of_true ⟨_, .last hnext, ?_⟩ (.inl (Option.some_ne_none 0).symm)
    rw [List.flatten_singleton, hslice, hstart, List.drop_zero]
  | some n =>
    rcases Nat.eq_zero_or_pos n with rfl | hn
    · by_cases hempty : detail.episode.content = []
      · refine iff_of_true ?_ (.inr hempty)
        have hwindow : (WindowSpec.mk offset limit).limit.or default = some 0 := hsize
        obtain ⟨hslice, hnext⟩ := apply_limited hwindow detail.episode.content
        refine ⟨_, .last (hnext.trans ?_), ?_⟩
        · rw [hempty]
          rfl
        · rw [List.flatten_singleton, hslice, hempty]
          rfl
      · refine iff_of_false ?_ (not_or.mpr ⟨not_not.mpr rfl, hempty⟩)
        rintro ⟨slices, hfollows, -⟩
        exact not_follows_apply hsize hempty hstart slices hfollows
    · refine iff_of_true ?_ (.inl fun hzero => hn.ne' (Option.some.inj hzero))
      obtain ⟨slices, hfollows, hflatten⟩ := follows_apply hsize hn detail.episode.content offset
      exact ⟨slices, hfollows, by rw [hflatten, hstart, List.drop_zero]⟩

/-- Two characters of anonymous text. -/
def twoCharacters : EpisodeDetail where
  episode := ⟨⟨0⟩, SpaceName.user, ['o', 'k'], [], 0, none, 0, none, none, [], none⟩
  chunks := [⟨⟨1⟩, ⟨0⟩, SpaceName.user, ['o', 'k'], 0, none, 0⟩]
  derived := []

/-- A window of one character at a time reads them. -/
theorem twoCharacters_read :
    ∃ slices, Follows (readAt (Db.empty 0) SpaceName.user twoCharacters (some 1)) (some 0) slices ∧
      slices.flatten = ['o', 'k'] :=
  (reads_once_iff (Db.empty 0) SpaceName.user twoCharacters (some 1) rfl).mpr (.inl (by decide))

/-- A window of no characters names the offset it was asked for, and following it has no end. -/
theorem twoCharacters_unread :
    ¬∃ slices,
      Follows (readAt (Db.empty 0) SpaceName.user twoCharacters (some 0)) (some 0) slices := by
  rintro ⟨slices, hfollows⟩
  have hread : readAt (Db.empty 0) SpaceName.user twoCharacters (some 0) =
      fun offset => WindowSpec.apply ⟨offset, some 0⟩ ['o', 'k'] none := rfl
  rw [hread] at hfollows
  exact not_follows_apply rfl (by decide) rfl slices hfollows

/-! ### Answers of the tool -/

variable {db : Db} {window : WindowSpec} {found : InspectedEpisode}

theorem document_detailed {title : Text} {spaces : List SpaceName}
    (h : document db title window spaces = .ok (some found)) :
    ∃ space detail, ∀ w, document db title w spaces = .ok (some (detailed db space detail w)) := by
  induction spaces with
  | nil => cases h
  | cons space spaces ih =>
    unfold document at h ⊢
    cases hnewest : (documentsByTitle db space title).head? with
    | none =>
      rw [hnewest] at h
      exact ih h
    | some newest =>
      rw [hnewest] at h
      cases hdetail : Store.episode db space newest.id with
      | error e => simp [hdetail] at h
      | ok detail => exact ⟨space, detail, fun w => by simp [hdetail]⟩

theorem episode_detailed {id : EpisodeId} {spaces : List SpaceName}
    (h : episode db id window spaces = .ok (some found)) :
    ∃ space detail, ∀ w, episode db id w spaces = .ok (some (detailed db space detail w)) := by
  induction spaces with
  | nil => cases h
  | cons space spaces ih =>
    unfold episode at h ⊢
    cases hdetail : Store.episode db space id with
    | ok detail => exact ⟨space, detail, fun w => rfl⟩
    | error e =>
      rw [hdetail] at h
      cases e with
      | unknownEpisode => exact ih h
      | _ => cases h

/-- A reference that answers with a text answers with that text whatever window is asked for. -/
theorem text_detailed {service : Service} {reference : Text} {space : Option Text}
    (h : text service db reference space window = .ok (some found)) :
    ∃ space' detail, ∀ w,
      text service db reference space w = .ok (some (detailed db space' detail w)) := by
  unfold text at h ⊢
  cases hparse : Reference.parse reference with
  | none =>
    rw [hparse] at h
    cases h
  | some named =>
    rw [hparse] at h
    dsimp only at h ⊢
    cases hspaces : spaces service db (named.requested space) with
    | error e =>
      rw [hspaces] at h
      cases h
    | ok spaces =>
      rw [hspaces] at h
      dsimp only at h ⊢
      cases named with
      | doc own title =>
        dsimp only at h ⊢
        rcases hdoc : document db title window spaces with _ | _ | _
        · simp [hdoc] at h
        · simp [hdoc] at h
        · obtain ⟨space', detail, hdetail⟩ := document_detailed hdoc
          exact ⟨space', detail, fun w => by rw [hdetail w]⟩
      | episode id =>
        dsimp only at h ⊢
        rcases hepisode : episode db ⟨id.number⟩ window spaces with _ | _ | _
        · simp [hepisode] at h
        · simp [hepisode] at h
        · obtain ⟨space', detail, hdetail⟩ := episode_detailed hepisode
          exact ⟨space', detail, fun w => by rw [hdetail w]⟩
      | _ => cases h

end Agmem.Tools.Inspect
