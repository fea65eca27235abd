import Agmem.Tools.Resources

/-! Addresses that are handed out. The index of a space lists the addresses of its claims, the list
of resources those of the newest documents, and text without a name is refused together with the
address it is read at. What is handed out is read back, but for a record in a space that goes by the
name of the keyword for the space of the session. -/

namespace Agmem.Tools.Resources

open Core Relational Store Inspect

variable {service : Service} {db : Db} {uri : Text}

/-! ### Addresses of ids -/

theorem stripPrefix_append (front rest : Text) : stripPrefix front (front ++ rest) = some rest := by
  rw [stripPrefix, if_pos (List.isPrefixOf_iff_prefix.mpr (List.prefix_append front rest)),
    List.drop_left]

/-- No id begins like the document form. -/
theorem stripPrefix_ulid (id : Ulid) : stripPrefix DOC_SEGMENT id.text = none := by
  refine if_neg fun hprefix => ?_
  have hd : 'd' ∈ id.text := (List.isPrefixOf_iff_prefix.mp hprefix).subset (by decide)
  exact absurd (Reference.ulid_plain id hd) (by decide)

theorem splitOnce_space (space : SpaceName) (rest : Text) :
    splitOnce '/' (space.name ++ '/' :: rest) = some (space.name, rest) :=
  splitOnce_append fun hc => (slug_plain (isSlugChar_of_mem space.slug hc)).2 rfl

theorem recordParts_recordUri (space : SpaceName) (id : Ulid) :
    recordParts (recordUri space.name id.text) = some (space.name, id.text) := by
  simp [recordParts, recordUri, stripPrefix_append, splitOnce_space, stripPrefix_ulid]

/-- What the address of an id is answered with. -/
theorem read_recordUri (service : Service) (db : Db) (space : SpaceName) (id : Ulid) :
    read service db (recordUri space.name id.text) =
      match Tools.spaces service db (some space.name) with
      | .error e => .error (blamed space.name id.text (.tool e))
      | .ok spaces =>
        match unqualified db spaces id ⟨none, none⟩ with
        | .error e => .error (blamed space.name id.text e)
        | .ok found => .ok (.record ⟨found.1, spaces, found.2⟩) := by
  rw [read_eq_record (recordParts_recordUri space id),
    record_of_parse (Reference.parse_unqualified id) rfl]
  cases Tools.spaces service db (some space.name) with
  | error e => rfl
  | ok spaces =>
    dsimp only [answered]
    cases unqualified db spaces id ⟨none, none⟩ <;> rfl

/-- Where the records of a registered space are looked up. -/
theorem spaces_registered (service : Service) {space : SpaceName} (h : space ∈ Store.spaces db) :
    ∃ spaces, Tools.spaces service db (some space.name) = .ok spaces ∧
      (space ∈ spaces ↔ space.name ≠ keywordCurrent ∨ service.space = space) := by
  have hnew : SpaceName.new? space.name = some space := dif_pos space.slug
  unfold Tools.spaces
  simp only [hnew]
  split_ifs with hcurrent hall
  · exact ⟨_, rfl, by simp [hcurrent, eq_comm]⟩
  · exact ⟨_, rfl, iff_of_true h (.inl hcurrent)⟩
  · exact ⟨_, rfl, iff_of_true (List.mem_singleton_self _) (.inl hcurrent)⟩

/-- The address is answered with that claim, unless a chain that is read with it is not whole. -/
def RoutedTo (service : Service) (db : Db) (uri : Text) (r : MemoryRecord) : Prop :=
  (∃ result found, read service db uri = .ok (.record result) ∧
    result.found = .memory found ∧ found.memory = r) ∨
  (Unshown db r ∧ ∃ failure, read service db uri = .error (.internal (.tool (.internal failure))))

/-- A claim is reached at its address, but for a space of the name that stands for the space of the
session. -/
theorem routedTo_iff {r : MemoryRecord} {id : Ulid} (hr : r ∈ db.memory)
    (hid : r.id = ⟨id.number⟩) (hspace : r.space ∈ Store.spaces db) :
    RoutedTo service db (recordUri r.space.name id.text) r ↔
      r.space.name ≠ keywordCurrent ∨ service.space = r.space := by
  obtain ⟨spaces, hspaces, hmem⟩ := spaces_registered service hspace
  rw [← hmem, RoutedTo, read_recordUri, hspaces]
  dsimp only
  constructor
  · intro hrouted
    by_contra hout
    have habsent : ∀ q ∈ db.memory, q.id = ⟨id.number⟩ → q.space ∉ spaces := by
      intro q hq hqid
      rwa [Table.eq_of_key hq hr (hqid.trans hid.symm)]
    rcases unqualified_absent habsent ⟨none, none⟩ with ⟨named, found, h⟩ | ⟨error, h, hfailure⟩
    · rw [h] at hrouted
      rcases hrouted with ⟨result, claim, hok, hfound, -⟩ | ⟨-, failure, herror⟩
      · cases hok
        cases hfound
      · cases herror
    · rw [h] at hrouted
      rcases hrouted with ⟨result, claim, hok, -⟩ | ⟨-, failure, herror⟩
      · cases hok
      · have hblamed : blamed r.space.name id.text error =
            .internal (.tool (.internal failure)) := Except.error.inj herror
        unfold blamed at hblamed
        split at hblamed
        · cases hblamed
        · exact hfailure _ rfl
        · cases hblamed
  · intro hin
    rcases unqualified_memory hr hid hin ⟨none, none⟩ with
      ⟨named, found, h, hfound⟩ | ⟨hunshown, failure, h⟩
    · exact .inl ⟨_, found, by rw [h], rfl, hfound⟩
    · exact .inr ⟨hunshown, failure, by rw [h]; rfl⟩

/-! ### What is handed out -/

/-- The index hands out the addresses of claims of its space. -/
theorem index_entry {name : Text} {found : Index} {entry : IndexEntry}
    (h : index db name = .ok found) (hentry : entry ∈ found.memories) :
    ∃ r ∈ db.memory, r.id = entry.id ∧ r.space = found.space ∧ found.space ∈ Store.spaces db ∧
      entry.uri = recordUri found.space.name (ulidText entry.id.ulid) := by
  unfold index at h
  split at h
  · cases h
  · next space hspace =>
    split_ifs at h with hregistered
    cases h
    obtain ⟨row, hrow, rfl⟩ := List.mem_map.mp hentry
    obtain ⟨r, hr, rfl⟩ := List.mem_map.mp hrow
    have hselected := List.mem_of_mem_take hr
    rw [strongestFirst, List.mem_insertionSort] at hselected
    obtain ⟨hr, hwhere⟩ := List.mem_filter.mp hselected
    have hspace : r.space = space := by
      simp only [memoryWhere, Bool.and_eq_true, decide_eq_true_eq, List.mem_singleton] at hwhere
      tauto
    exact ⟨r, hr, rfl, hspace, hregistered, rfl⟩

theorem episode_at {e : Episode} (he : e ∈ db.episode) :
    ∃ detail, Store.episode db e.space e.id = .ok detail ∧ detail.episode = e := by
  have hfound : (db.episode.get? e.id).filter (fun f => decide (f.space = e.space)) = some e :=
    Option.filter_eq_some_iff.mpr ⟨Table.get?_eq_some.mpr ⟨he, rfl⟩, by simp⟩
  exact ⟨_, by simp only [Store.episode, hfound]; rfl, rfl⟩

/-- A document is read at its address. -/
theorem read_documentUri {e : Episode} {id : Ulid} (he : e ∈ db.episode)
    (hid : e.id = ⟨id.number⟩) (hdocument : e.isDocument = true) :
    read service db (documentUri e.space.name id.text) =
      .ok (.document e.content (e.mime.getD DOC_MIME)) := by
  obtain ⟨detail, hdetail, rfl⟩ := episode_at he
  rw [hid] at hdetail
  have hnew : SpaceName.new? detail.episode.space.name = some detail.episode.space :=
    dif_pos detail.episode.space.slug
  have hdoc : document db detail.episode.space.name id.text
      (documentUri detail.episode.space.name id.text) =
      .ok (detail.episode.content, detail.episode.mime.getD DOC_MIME) := by
    unfold document
    simp only [hnew, Reference.new?_text, hdetail, hdocument, if_true]
  rw [read, documentUri, stripPrefix_append]
  dsimp only
  rw [splitOnce_space]
  dsimp only
  rw [stripPrefix_append]
  dsimp only
  rw [← documentUri, hdoc]
  rfl

/-- Every listed address is answered: a space with its index, a document with its text. -/
theorem list_answered (hids : ∀ e ∈ db.episode, ∃ id : Ulid, e.id = ⟨id.number⟩)
    (h : uri ∈ list service db) : ∃ contents, read service db uri = .ok contents := by
  rcases List.mem_append.mp h with h | h
  · obtain ⟨space, hspace, rfl⟩ := List.mem_map.mp h
    have hsplit : splitOnce '/' space.name = none := Reference.splitOnce_eq_none fun hc =>
      (slug_plain (isSlugChar_of_mem space.slug hc)).2 rfl
    have hnew : SpaceName.new? space.name = some space := dif_pos space.slug
    rw [read, stripPrefix_append]
    simp only [hsplit, index, hnew, if_pos hspace]
    exact ⟨_, rfl⟩
  · obtain ⟨space, -, h⟩ := List.mem_flatMap.mp h
    obtain ⟨summary, hsummary, rfl⟩ := List.mem_map.mp h
    obtain ⟨e, he, rfl⟩ := List.mem_map.mp hsummary
    have hlisted := List.mem_of_mem_take he
    rw [newestFirst, List.mem_insertionSort] at hlisted
    obtain ⟨he, hwhere⟩ := List.mem_filter.mp hlisted
    simp only [Bool.and_eq_true, decide_eq_true_eq] at hwhere
    obtain ⟨id, hid⟩ := hids e he
    rw [← hwhere.1.1, hid, ulidText_number]
    exact ⟨_, read_documentUri he hid hwhere.1.2⟩

theorem error_of_map {ε α β : Type*} {x : Except ε α} {f : α → β} {e : ε}
    (h : x.map f = .error e) : x = .error e := by
  cases x with
  | ok a => cases h
  | error e' => rw [Except.error.inj h]

section Anonymous

variable {uri' space text : Text}

/-- The document form refuses text without a name, and names the space and the id of that text. -/
theorem document_anonymous {s i u : Text}
    (h : document db s i u = .error (.notFound (.anonymous uri' space text))) :
    ∃ e ∈ db.episode, ∃ id : Ulid, e.id = ⟨id.number⟩ ∧ id.text = text ∧ e.space.name = space := by
  unfold document at h
  split at h
  · cases h
  · next name hname =>
    split at h
    · cases h
    · next id hid =>
      split at h
      · cases h
      · cases h
      · next detail hdetail =>
        split_ifs at h
        cases h
        obtain ⟨he, heid, hspace⟩ := episode_ok hdetail
        unfold SpaceName.new? at hname
        unfold Ulid.new? at hid
        split_ifs at hname hid with hslug hulid
        cases hname
        cases hid
        exact ⟨_, he, ⟨text, hulid⟩, heid, rfl, by rw [hspace]⟩

theorem index_not_anonymous (path : Text) :
    index db path ≠ .error (.notFound (.anonymous uri' space text)) := by
  intro h
  unfold index at h
  split at h
  · cases h
  · split_ifs at h
    cases h

theorem record_not_anonymous (s rest : Text) :
    record service db s rest ≠ .error (.notFound (.anonymous uri' space text)) := by
  intro h
  unfold record at h
  split at h
  · next error _ =>
    have hblamed := Except.error.inj h
    unfold blamed at hblamed
    split at hblamed <;> cases hblamed
  · cases h

/-- Text without a name is refused by the document form, which names its other address. -/
theorem anonymous_text (h : read service db uri = .error (.notFound (.anonymous uri' space text))) :
    ∃ e ∈ db.episode, ∃ id : Ulid, e.id = ⟨id.number⟩ ∧ id.text = text ∧ e.space.name = space := by
  unfold read at h
  split at h
  · cases h
  · split at h
    · exact absurd (error_of_map h) (index_not_anonymous _)
    · split at h
      · exact document_anonymous (error_of_map h)
      · exact absurd (error_of_map h) (record_not_anonymous _ _)

end Anonymous

/-- The address is answered with that text. -/
def ShownAt (service : Service) (db : Db) (uri : Text) (id : EpisodeId) : Prop :=
  ∃ result found, read service db uri = .ok (.record result) ∧ result.found = .episode found ∧
    found.episode.id = id

theorem shownAt_iff {e : Episode} {id : Ulid} (he : e ∈ db.episode) (hid : e.id = ⟨id.number⟩)
    (hspace : e.space ∈ Store.spaces db) (hmemory : ∀ r ∈ db.memory, r.id ≠ ⟨id.number⟩)
    (hchunk : ∀ c ∈ db.episodeChunk, c.id ≠ ⟨id.number⟩) :
    ShownAt service db (recordUri e.space.name id.text) e.id ↔
      e.space.name ≠ keywordCurrent ∨ service.space = e.space := by
  obtain ⟨spaces, hspaces, hmem⟩ := spaces_registered service hspace
  rw [← hmem, ShownAt, read_recordUri, hspaces]
  dsimp only
  rw [unqualified_episode hmemory hchunk, ← hid]
  constructor
  · rintro ⟨result, found, hok, -, -⟩
    rcases inspected_cases db e.id ⟨none, none⟩ spaces with hnone | ⟨-, -, f, hf, hfid, hin⟩
    · rw [hnone] at hok
      cases hok
    · rwa [← Table.eq_of_key hf he hfid]
  · intro hin
    obtain ⟨found, hfound, hshown⟩ := episode_stored he hin ⟨none, none⟩
    exact ⟨_, found, by rw [hfound], rfl, hshown⟩

/-- A record is answered only under a bare id exactly where the last part of the address is in no
other form that the audit verb reads in a space. The addresses that the index hands out lead back to
their claims, and the one that a refusal names leads to its text, but in a space that is called as
the audit verb calls the space of the session; a document is read at its own address. -/
theorem record_addresses (service : Service) (db : Db) (uri : Text) :
    (OnlyBare uri ↔ ¬ Leaks uri) ∧
    (∀ name found entry, ∀ id : Ulid, index db name = .ok found →
      entry ∈ found.memories → entry.id = ⟨id.number⟩ → ∃ r ∈ db.memory, r.id = entry.id ∧
        (RoutedTo service db entry.uri r ↔
          found.space.name ≠ keywordCurrent ∨ service.space = found.space)) ∧
    (∀ uri' space text,
      read service db uri = .error (.notFound (.anonymous uri' space text)) →
        ∃ e ∈ db.episode, ∃ id : Ulid, e.id = ⟨id.number⟩ ∧ id.text = text ∧ e.space.name = space ∧
          (e.space ∈ Store.spaces db → (∀ r ∈ db.memory, r.id ≠ ⟨id.number⟩) →
            (∀ c ∈ db.episodeChunk, c.id ≠ ⟨id.number⟩) →
              (ShownAt service db (recordUri space text) e.id ↔
                space ≠ keywordCurrent ∨ service.space = e.space))) ∧
    (∀ e ∈ db.episode, ∀ id : Ulid, e.id = ⟨id.number⟩ → e.isDocument = true →
      read service db (documentUri e.space.name (ulidText e.id.ulid)) =
        .ok (.document e.content (e.mime.getD DOC_MIME))) := by
  refine ⟨onlyBare_iff uri, fun name found entry id h hentry hid => ?_,
    fun uri' space text h => ?_, fun e he id hid hdocument => ?_⟩
  · obtain ⟨r, hr, hrid, hspace, hregistered, huri⟩ := index_entry h hentry
    refine ⟨r, hr, hrid, ?_⟩
    rw [huri, hid, ulidText_number, ← hspace]
    exact routedTo_iff hr (hrid.trans hid) (hspace ▸ hregistered)
  · obtain ⟨e, he, id, hid, rfl, rfl⟩ := anonymous_text h
    exact ⟨e, he, id, hid, rfl, rfl, shownAt_iff he hid⟩
  · rw [hid, ulidText_number]
    exact read_documentUri he hid hdocument

/-- The id of all zeros. -/
def zeroId : Ulid := ⟨List.replicate ULID_LEN '0', by decide⟩

/-- The one claim of a store is listed, and is reached from there. -/
theorem record_addresses_user :
    ∃ found entry, index (storeOf .user 0 []) SpaceName.user.name = .ok found ∧
      entry ∈ found.memories ∧
        RoutedTo (sessionOf .user) (storeOf .user 0 []) entry.uri (claimOf .user 0) := by
  obtain ⟨found, entry, hfound, hentry, hid, hspace⟩ : ∃ found entry,
      index (storeOf .user 0 []) SpaceName.user.name = .ok found ∧ entry ∈ found.memories ∧
        entry.id = ⟨zeroId.number⟩ ∧ found.space = .user :=
    ⟨_, ⟨recordUri SpaceName.user.name (ulidText 0), ⟨0⟩, .fact, []⟩, rfl,
      List.mem_singleton_self _, by decide, rfl⟩
  obtain ⟨r, hr, -, hrouted⟩ :=
    (record_addresses (sessionOf .user) _ []).2.1 _ found entry zeroId hfound hentry hid
  rw [claimOf_mem.mp hr, hspace] at hrouted
  exact ⟨found, entry, hfound, hentry, hrouted.mpr (.inl (by decide))⟩

/-- The counts of a space are answered under an address that ends in no id; and where a space is
called `current`, the claim its index lists is not found there by a session of another space. -/
theorem stats_answered :
    (∃ result, read (sessionOf .user) (Db.empty 0)
        (recordUri SpaceName.user.name Reference.wordStats) = .ok (.record result)) ∧
      isUlid Reference.wordStats = false ∧
      ∃ found entry, index (storeOf ⟨keywordCurrent, by decide⟩ 0 []) keywordCurrent = .ok found ∧
        entry ∈ found.memories ∧ ∃ what, read (sessionOf .user)
          (storeOf ⟨keywordCurrent, by decide⟩ 0 []) entry.uri = .error (.notFound what) := by
  refine ⟨⟨_, rfl⟩, by decide, _, ⟨recordUri keywordCurrent (ulidText 0), ⟨0⟩, .fact, []⟩, rfl,
    List.mem_singleton_self _, _, rfl⟩

end Agmem.Tools.Resources
