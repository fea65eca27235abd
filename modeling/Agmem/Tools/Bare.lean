import Agmem.Store.Chains
import Agmem.Tools.Audit

/-! What a bare id finds. A claim is found from any spaces that have its own among them, and read in
full unless a chain it needs is not whole; an id that names no claim and no slice finds a text. -/

namespace Agmem.Tools.Inspect

open Core Relational Store

variable {db : Db} {spaces : List SpaceName}

/-! ### Claims -/

/-- A chain is walked, or is not whole, or the space does not hold the claim. -/
theorem historyChain_cases (db : Db) (space : SpaceName) (id : MemoryId) :
    (InSpace db.memory space [id] ∧ ∃ chain, historyChain db space id = .ok chain) ∨
      (InSpace db.memory space [id] ∧ ¬ Whole db id ∧
        ∃ what, historyChain db space id = .error (.unexpectedResponse what)) ∨
      (¬ InSpace db.memory space [id] ∧
        historyChain db space id = .error (.unknownMemory space id)) := by
  have htake : ∀ (ids : List MemoryId) (rows : List MemoryRecord) (e : StoreError),
      takeRows rows ids = .error e → ∃ what, e = .unexpectedResponse what := by
    intro ids
    induction ids with
    | nil => exact fun _ _ h => nomatch h
    | cons id ids ih =>
      intro rows e h
      unfold takeRows at h
      split at h
      · cases h
        exact ⟨_, rfl⟩
      · split at h
        · next hrest =>
          cases h
          exact ih _ _ hrest
        · cases h
  by_cases hin : InSpace db.memory space [id]
  · cases hchain : historyChain db space id with
    | ok chain => exact .inl ⟨hin, chain, rfl⟩
    | error e =>
      refine .inr (.inl ⟨hin, fun hwhole => ?_, ?_⟩)
      · obtain ⟨chain, hok⟩ := historyChain_isOk_iff.mpr ⟨hin, hwhole⟩
        cases hchain.symm.trans hok
      · unfold historyChain at hchain
        rw [ensureMemoriesExist_ok.mpr hin] at hchain
        obtain ⟨what, rfl⟩ := htake _ _ _ hchain
        exact ⟨what, rfl⟩
  · exact .inr (.inr ⟨hin, historyChain_unknown hin⟩)

/-- A stored claim whose chain cannot be read in full. -/
def Broken (db : Db) (id : MemoryId) : Prop := (∃ r ∈ db.memory, r.id = id) ∧ ¬ Whole db id

theorem walked_cases (db : Db) (id : MemoryId) (spaces : List SpaceName) :
    (walked db id spaces = .ok none ∧ ∀ space ∈ spaces, ¬ InSpace db.memory space [id]) ∨
      (∃ space ∈ spaces, ∃ chain, walked db id spaces = .ok (some (space, chain)) ∧
        historyChain db space id = .ok chain) ∨
      (Broken db id ∧ ∃ failure, walked db id spaces = .error (.internal failure)) := by
  induction spaces with
  | nil => exact .inl ⟨rfl, fun _ h => absurd h List.not_mem_nil⟩
  | cons space spaces ih =>
    unfold walked
    rcases historyChain_cases db space id with ⟨-, chain, h⟩ | ⟨hin, hbroken, what, h⟩ | ⟨hin, h⟩
    · exact .inr (.inl ⟨space, List.mem_cons_self, chain, by rw [h], h⟩)
    · obtain ⟨r, hr, hid, -⟩ := hin id (List.mem_singleton_self id)
      exact .inr (.inr ⟨⟨⟨r, hr, hid⟩, hbroken⟩, _, by rw [h]; rfl⟩)
    · rw [h]
      rcases ih with ⟨hnone, hall⟩ | ⟨space', hmem, hfound⟩ | hfailed
      · exact .inl ⟨hnone, List.forall_mem_cons.mpr ⟨hin, hall⟩⟩
      · exact .inr (.inl ⟨space', List.mem_cons_of_mem _ hmem, hfound⟩)
      · exact .inr (.inr hfailed)

theorem sourceText_isOk (db : Db) (space : SpaceName) (source : Source) :
    ∃ text, sourceText db space source = .ok text := by
  cases source with
  | agent => exact ⟨_, rfl⟩
  | external origin => exact ⟨_, rfl⟩
  | episode id =>
    rcases episode_cases db space id with ⟨detail, h⟩ | h
    · exact ⟨_, by simp only [sourceText, h]; rfl⟩
    · exact ⟨_, by simp only [sourceText, h]; rfl⟩

theorem expandsFrom_cases (db : Db) (spaces : List SpaceName) (evidence : List Derivation) :
    (∃ rows, expandsFrom db spaces evidence = .ok rows) ∨
      ((∃ id, Derivation.memory id ∈ evidence ∧ Broken db id) ∧
        ∃ failure, expandsFrom db spaces evidence = .error (.internal failure)) := by
  induction evidence with
  | nil => exact .inl ⟨_, rfl⟩
  | cons cited evidence ih =>
    have hrest : (∃ rows, expandsFrom db spaces evidence = .ok rows) ∨
        ((∃ id, Derivation.memory id ∈ cited :: evidence ∧ Broken db id) ∧
          ∃ failure, expandsFrom db spaces evidence = .error (.internal failure)) :=
      ih.imp_right fun ⟨⟨id, hid, hbroken⟩, hfailed⟩ =>
        ⟨⟨id, List.mem_cons_of_mem cited hid, hbroken⟩, hfailed⟩
    cases cited with
    | episode id => exact hrest
    | memory id =>
      unfold expandsFrom view
      rcases walked_cases db id spaces with ⟨h, -⟩ | ⟨_, -, _, h, -⟩ | ⟨hbroken, failure, h⟩
      · rcases hrest with ⟨rows, hrows⟩ | ⟨hid, failure, hrows⟩
        · exact .inl ⟨_, by rw [h]; simp [hrows]; rfl⟩
        · exact .inr ⟨hid, failure, by rw [h]; simp [hrows]⟩
      · rcases hrest with ⟨rows, hrows⟩ | ⟨hid, failure, hrows⟩
        · exact .inl ⟨_, by rw [h]; simp [hrows]; rfl⟩
        · exact .inr ⟨hid, failure, by rw [h]; simp [hrows]⟩
      · exact .inr ⟨⟨id, List.mem_cons_self, hbroken⟩, failure, by rw [h]⟩

/-- What keeps a claim from being shown: its own chain, or that of a claim it cites. -/
def Unshown (db : Db) (r : MemoryRecord) : Prop :=
  Broken db r.id ∨ ∃ id, Derivation.memory id ∈ r.derivedFrom ∧ Broken db id

/-- A claim is found from any spaces that have its own among them. -/
theorem memory_stored {r : MemoryRecord} (hr : r ∈ db.memory) (hs : r.space ∈ spaces) :
    (∃ found, memory db spaces r.id = .ok (some found) ∧ found.memory = r) ∨
      (Unshown db r ∧ ∃ failure, memory db spaces r.id = .error (.internal failure)) := by
  unfold memory
  rcases walked_cases db r.id spaces with ⟨-, hnone⟩ | ⟨space, -, chain, h, hchain⟩ |
    ⟨hbroken, failure, h⟩
  · refine absurd (fun id hid => ?_) (hnone r.space hs)
    exact ⟨r, hr, (List.mem_singleton.mp hid).symm, rfl⟩
  · have hmem : r ∈ chain := (mem_historyChain hchain).mpr ⟨hr, .inl rfl⟩
    have hfind : chain.find? (fun link => decide (link.id = r.id)) = some r := by
      cases hfound : chain.find? fun link => decide (link.id = r.id) with
      | none => exact absurd (List.find?_eq_none.mp hfound r hmem) (by simp)
      | some q =>
        have hq := ((mem_historyChain hchain).mp (List.mem_of_find?_eq_some hfound)).1
        rw [Table.eq_of_key hq hr (by simpa using List.find?_some hfound)]
    obtain ⟨text, htext⟩ := sourceText_isOk db space r.source
    rw [h]
    simp only [hfind, htext]
    rcases expandsFrom_cases db spaces r.derivedFrom with ⟨rows, hrows⟩ | ⟨hcited, failure, hrows⟩
    · exact .inl ⟨_, by rw [hrows], rfl⟩
    · exact .inr ⟨.inr hcited, failure, by rw [hrows]⟩
  · exact .inr ⟨.inl hbroken, failure, by rw [h]⟩

/-- Where no searched space holds it, a claim is not found. -/
theorem memory_absent {id : MemoryId} (h : ∀ r ∈ db.memory, r.id = id → r.space ∉ spaces) :
    memory db spaces id = .ok none := by
  have hnone : walked db id spaces = .ok none := by
    induction spaces with
    | nil => rfl
    | cons space spaces ih =>
      have hin : ¬ InSpace db.memory space [id] := by
        intro hin
        obtain ⟨r, hr, hid, rfl⟩ := hin id (List.mem_singleton_self id)
        exact h r hr hid List.mem_cons_self
      unfold walked
      rw [historyChain_unknown hin]
      exact ih fun r hr hid hs => h r hr hid (List.mem_cons_of_mem _ hs)
  rw [memory, hnone]

/-! ### Texts -/

theorem episode_stored {e : Episode} (he : e ∈ db.episode) (hs : e.space ∈ spaces)
    (window : WindowSpec) : ∃ found, episode db e.id window spaces = .ok (some found) ∧
      found.episode.id = e.id := by
  induction spaces with
  | nil => cases hs
  | cons space spaces ih =>
    unfold episode
    rcases episode_cases db space e.id with ⟨detail, h⟩ | h
    · rw [h]
      exact ⟨_, rfl, (episode_ok h).2.1⟩
    · rw [h]
      refine ih ((List.mem_cons.mp hs).resolve_left fun hspace => ?_)
      have hfound : (db.episode.get? e.id).filter (fun e => decide (e.space = space)) = some e :=
        Option.filter_eq_some_iff.mpr ⟨Table.get?_eq_some.mpr ⟨he, rfl⟩, by simpa using hspace⟩
      simp [Store.episode, hfound] at h

/-- A text is shown, or no searched space holds it. -/
theorem inspected_cases (db : Db) (id : EpisodeId) (window : WindowSpec) (spaces : List SpaceName) :
    episode db id window spaces = .ok none ∨
      ∃ found, episode db id window spaces = .ok (some found) ∧
        ∃ e ∈ db.episode, e.id = id ∧ e.space ∈ spaces := by
  induction spaces with
  | nil => exact .inl rfl
  | cons space spaces ih =>
    unfold episode
    rcases episode_cases db space id with ⟨detail, h⟩ | h
    · obtain ⟨he, hid, hspace⟩ := episode_ok h
      rw [h]
      exact .inr ⟨_, rfl, _, he, hid, hspace ▸ List.mem_cons_self⟩
    · rw [h]
      refine ih.imp_right ?_
      rintro ⟨found, hfound, e, he, hid, hspace⟩
      exact ⟨found, hfound, e, he, hid, List.mem_cons_of_mem _ hspace⟩

/-! ### Bare ids -/

theorem unqualified_memory {r : MemoryRecord} {id : Ulid} (hr : r ∈ db.memory)
    (hid : r.id = ⟨id.number⟩) (hs : r.space ∈ spaces) (window : WindowSpec) :
    (∃ named found, unqualified db spaces id window = .ok (named, .memory found) ∧
        found.memory = r) ∨
      (Unshown db r ∧
        ∃ failure, unqualified db spaces id window = .error (.tool (.internal failure))) := by
  unfold unqualified
  rw [← hid]
  rcases memory_stored hr hs with ⟨found, h, hfound⟩ | ⟨hunshown, failure, h⟩
  · exact .inl ⟨_, found, by rw [h], hfound⟩
  · exact .inr ⟨hunshown, failure, by rw [h]⟩

/-- An id that names no claim is answered with no claim, and nothing fails. -/
theorem unqualified_absent {id : Ulid}
    (h : ∀ r ∈ db.memory, r.id = ⟨id.number⟩ → r.space ∉ spaces) (window : WindowSpec) :
    (∃ named found, unqualified db spaces id window = .ok (named, .episode found)) ∨
      ∃ error, unqualified db spaces id window = .error error ∧
        ∀ failure, error ≠ .tool (.internal failure) := by
  unfold unqualified
  rw [memory_absent h]
  cases parentFrom db ⟨id.number⟩ spaces with
  | some parent =>
    rcases inspected_cases db parent window spaces with hnone | ⟨found, hfound, -⟩
    · exact .inr ⟨.unreachableChunk, by simp only [hnone], fun _ h => nomatch h⟩
    · exact .inl ⟨_, found, by simp only [hfound]; rfl⟩
  | none =>
    rcases inspected_cases db ⟨id.number⟩ window spaces with hnone | ⟨found, hfound, -⟩
    · exact .inr ⟨.missingAny id spaces, by simp only [hnone], fun _ h => nomatch h⟩
    · exact .inl ⟨_, found, by simp only [hfound]; rfl⟩

/-- The id of a text that names neither a claim nor a slice is answered with the text. -/
theorem unqualified_episode {id : Ulid} (hmemory : ∀ r ∈ db.memory, r.id ≠ ⟨id.number⟩)
    (hchunk : ∀ c ∈ db.episodeChunk, c.id ≠ ⟨id.number⟩) (window : WindowSpec) :
    unqualified db spaces id window =
      match episode db ⟨id.number⟩ window spaces with
      | .error e => .error (.tool e)
      | .ok none => .error (.missingAny id spaces)
      | .ok (some found) => .ok ((Reference.episode id).text, .episode found) := by
  have hparent : parentFrom db ⟨id.number⟩ spaces = none := by
    refine List.findSome?_eq_none_iff.mpr fun space _ => ?_
    rw [episodeOfChunk, Table.get?_eq_none.mpr fun c hc => hchunk c hc]
    rfl
  have hclaim : memory db spaces ⟨id.number⟩ = .ok none :=
    memory_absent fun r hr hid => absurd hid (hmemory r hr)
  rcases hepisode : episode db ⟨id.number⟩ window spaces with _ | _ | _ <;>
    simp only [unqualified, hclaim, hparent, hepisode]

end Agmem.Tools.Inspect
