import Agmem.Store.Landing
import Agmem.Tools.Doc
import Agmem.Tools.Titles

/-! A document put and read back. A text that the space holds already is not stored again,
under whatever title it came, and a title stands for the newest row under it; so the text
that was just put is the one that comes back when it was new to the space and its row is the
latest under the title, or when the newest row there holds it already. A title of the shape
of an id is taken for the id. -/

namespace Agmem.Tools.Versions

open Core Relational Store Transition Remember Inspect Doc

variable {service : Service} {db db' db₁ : Db}

/-! ### Where a put lands -/

theorem place_current : Place keywordCurrent := by
  constructor <;> decide

theorem ensureSpace_eq {name : SpaceName} {now : Timestamp}
    (h : ensureSpace db name now = .ok db₁) :
    ∃ registry, db₁ = { db with space := registry } := by
  unfold ensureSpace at h
  split at h
  · cases h
    exact ⟨db.space, rfl⟩
  · split at h
    · cases h
      exact ⟨_, rfl⟩
    · cases h

/-- Registering a name gives the name back, and nothing but the registry changes. -/
theorem register_eq {name space : SpaceName} {now : Timestamp}
    (h : register service db name now = .ok (db₁, space)) :
    space = name ∧ ∃ registry, db₁ = { db with space := registry } := by
  unfold register at h
  split_ifs at h
  · cases h
    exact ⟨rfl, db.space, rfl⟩
  · split at h
    · cases h
    · next hens =>
      cases h
      exact ⟨rfl, ensureSpace_eq hens⟩

/-- Where a write goes, a read under the same name looks, and nothing but the registry changes. -/
theorem resolveSpace_place {requested : Option Text} {now : Timestamp} {space : SpaceName}
    (h : resolveSpace service db requested now = .ok (db₁, space)) :
    Place (requested.getD keywordCurrent) ∧ writtenSpace service requested = .ok space ∧
      (∀ db, spaces service db (some (requested.getD keywordCurrent)) = .ok [space]) ∧
      (∃ searched, space ∈ searched ∧ ∀ db, spaces service db requested = .ok searched) ∧
      ∃ registry, db₁ = { db with space := registry } := by
  unfold resolveSpace at h
  split at h
  · cases h
    refine ⟨place_current, rfl, fun db => rfl, ?_, db.space, rfl⟩
    by_cases huser : service.space = .user
    · exact ⟨[service.space], by simp, fun db => by simp [spaces, huser]⟩
    · exact ⟨[service.space, .user], by simp, fun db => by simp [spaces, huser]⟩
  · next name =>
    split_ifs at h with hcurrent huser hall
    · cases h
      subst hcurrent
      have hspaces : ∀ db, spaces service db (some keywordCurrent) = .ok [service.space] :=
        fun db => rfl
      exact ⟨place_current, rfl, hspaces, ⟨_, List.mem_singleton_self _, hspaces⟩, db.space, rfl⟩
    · obtain ⟨rfl, hdb⟩ := register_eq h
      subst huser
      have hspaces : ∀ db, spaces service db (some SpaceName.user.name) = .ok [.user] :=
        fun db => rfl
      exact ⟨⟨by decide, by decide⟩, rfl, hspaces, ⟨_, List.mem_singleton_self _, hspaces⟩, hdb⟩
    · split at h
      · cases h
      · next own hown =>
        obtain ⟨rfl, hdb⟩ := register_eq h
        have hslug : isSlug name = true := by
          unfold SpaceName.new? at hown
          split_ifs at hown with hslug
          exact hslug
        have hspaces : ∀ db, spaces service db (some name) = .ok [space] := by
          intro db
          simp [spaces, hcurrent, hall, hown]
        exact ⟨⟨hall, hslug⟩, by simp [writtenSpace, hcurrent, hown], hspaces,
          ⟨_, List.mem_singleton_self _, hspaces⟩, hdb⟩

variable [Hashing]

/-- A batch of one text and no claims lands at its first attempt or not at all. -/
theorem insertBatch_text {batch : Batch} {clock : ℕ → Clock} {out : BatchOutcome} {e : NewEpisode}
    (hw : db.WellFormed) (he : batch.episode = some e) (hm : batch.memories = [])
    (h : insertBatch db batch clock = .ok (db', out)) :
    ∃ w, writeEpisode db batch.space e (clock 0) = .ok (db', w) := by
  have hretain : batch.retain [] = batch := by
    cases batch
    simp_all [Batch.retain]
  have hclosed : closedMemories db batch.space [] = [] := by simp [closedMemories]
  have hexist : ensureMemoriesExist db batch.space [] = .ok () := rfl
  unfold insertBatch insertBatchFrom at h
  simp only [insertBatchOnce, Batch.targets, hm, List.flatMap_nil, hexist, hclosed, hretain,
    batchTransaction, he, List.mapIdx_nil, writeMemories] at h
  rcases Landing.writeEpisode_cases hw (clock 0) he with ⟨-, p, hp⟩ | ⟨-, herr⟩
  · rw [hp] at h ⊢
    cases h
    exact ⟨_, rfl⟩
  · rw [herr] at h
    cases h

omit [Hashing] in
theorem embed_text {embedder : Embedder} {n : NewEpisode} {ms : List NewMemory}
    {episode : Option NewEpisode} (h : embed embedder [] (some n) = .ok (ms, episode)) :
    ms = [] ∧ ∃ chunks, episode = some { n with chunks := chunks } := by
  unfold embed at h
  dsimp only at h
  split_ifs at h
  · cases h
    exact ⟨rfl, n.chunks, rfl⟩
  · split at h
    · cases h
    · split_ifs at h
      simp only [Except.ok.injEq, Prod.mk.injEq, List.zipWith_nil_left, Option.map_some] at h
      exact ⟨h.1.symm, _, h.2.symm⟩

omit [Hashing] in
/-- The episode of a put, once its text has been cut and its chunks have been embedded. -/
theorem prepared_put {args : DocPutArgs} {content : Text} {space : SpaceName}
    {gates : List Gated} {episode : Option NewEpisode}
    (h : prepared service db space (putParams args content) = .ok (gates, episode)) :
    gates = [] ∧ ∃ n, episode = some n ∧ n.content = content ∧
      n.title = some (trim args.title) ∧ trim args.title ≠ [] ∧
      content.length ≤ MAX_EPISODE_CHARS := by
  obtain ⟨_, _, _, _, hvalid, hembed, rfl⟩ := prepared_ok h
  obtain ⟨hfrom, hepisode⟩ := validated_ok hvalid
  cases hfrom
  rcases hepisode with ⟨hnone, -⟩ | ⟨input, n, hinput, hn, rfl⟩
  · cases hnone
  · cases hinput
    have ha := Titles.validated_admitted hn
    have hname := ha.named (trim args.title) ha.title
    obtain ⟨rfl, chunks, rfl⟩ := embed_text hembed
    have hcontent : n.content = content := ha.content
    exact ⟨rfl, _, rfl, hcontent, ha.title, hname.1, hcontent ▸ ha.short⟩

/-- What a put that reports success did: it resolved its space, and its text was there already or
went in as a new row. -/
theorem put_ok (hr : db.Reachable) {args : DocPutArgs} {content : Text} {writer : Writer}
    {registered : Timestamp} {clock : ℕ → Clock} {address : EpisodeId × SpaceName}
    (h : put service db args content writer registered clock = (db', .ok address)) :
    ∃ db₁ space, resolveSpace service db args.space registered = .ok (db₁, space) ∧
      trim args.title ≠ [] ∧ content.length ≤ MAX_EPISODE_CHARS ∧
      ((HoldsText db space (contentHash content) ∧ db'.episode = db.episode) ∨
        ¬ HoldsText db space (contentHash content) ∧ ∃ n : NewEpisode, n.content = content ∧
          n.title = some (trim args.title) ∧
          db'.episode.rows = db.episode.rows ++ [n.record ⟨db.minted⟩ space (clock 0)]) := by
  unfold put Remember.run at h
  split at h
  · cases h
  · next answer hrun =>
    split at hrun
    · cases hrun
    · next db₁ space hspace =>
      have hw := Titles.resolveSpace_wellFormed hr hspace
      obtain ⟨-, -, -, -, registry, rfl⟩ := resolveSpace_place hspace
      unfold Remember.store at hrun
      split at hrun
      · cases hrun
      · next gates episode hprepared =>
        obtain ⟨rfl, n, rfl, hcontent, htitle, hne, hshort⟩ := prepared_put hprepared
        refine ⟨_, space, hspace, hne, hshort, ?_⟩
        simp only [Option.isNone_some, Bool.and_false, Bool.false_eq_true, if_false] at hrun
        split at hrun
        · cases hrun
        · next db₂ out hins =>
          obtain ⟨w, hwrite⟩ := insertBatch_text hw rfl rfl hins
          have hdb : db₂ = db' := by
            split at h
            · cases h
            · split at h
              · cases h
              · cases h
                cases hrun
                rfl
          rw [hdb] at hwrite
          rcases Store.writeEpisode_cases hwrite with ⟨row, hrow, hs, hh, -, rfl⟩ |
            ⟨hnew, -, hrows⟩
          · exact .inl ⟨⟨row, hrow, hs, hcontent ▸ hh⟩, rfl⟩
          · exact .inr ⟨hcontent ▸ hnew, n, hcontent, htitle, hrows⟩

/-! ### What a get finds -/

omit [Hashing] in
theorem episode_of_mem {e : Episode} (he : e ∈ db.episode) :
    ∃ d, Store.episode db e.space e.id = .ok d ∧ d.episode = e := by
  have hget : db.episode.get? e.id = some e := Table.get?_eq_some.mpr ⟨he, rfl⟩
  rcases episode_cases db e.space e.id with ⟨d, hd⟩ | herr
  · obtain ⟨hmem, hid, -⟩ := episode_ok hd
    exact ⟨d, hd, Table.eq_of_key hmem he hid⟩
  · have hhere : (some e).filter (fun f => decide (f.space = e.space)) = some e := by
      simp [Option.filter]
    simp [Store.episode, hget, hhere] at herr

omit [Hashing] in
/-- The window of a `get` without a range takes in any stored text. -/
theorem detailed_content (db : Db) (space : SpaceName) {d : EpisodeDetail}
    (h : d.episode.content.length ≤ MAX_EPISODE_CHARS) :
    (detailed db space d ⟨none, some MAX_EPISODE_CHARS⟩).episode.content = d.episode.content := by
  simp [detailed, WindowSpec.apply, List.take_of_length_le h]

omit [Hashing] in
theorem document_eq_none {space : SpaceName} {title : Text} (window : WindowSpec)
    (h : (documentsByTitle db space title).head? = none) :
    document db title window [space] = .ok none := by
  simp [document, h]

omit [Hashing] in
theorem document_eq_some {space : SpaceName} {title : Text} {e : Episode} (window : WindowSpec)
    (h : (documentsByTitle db space title).head? = some e) :
    ∃ d, d.episode = e ∧
      document db title window [space] = .ok (some (detailed db space d window)) := by
  obtain ⟨he, rfl, -⟩ := mem_documentsByTitle.mp (List.mem_of_head? h)
  obtain ⟨d, hd, hde⟩ := episode_of_mem he
  exact ⟨d, hde, by simp [document, h, hd]⟩

omit [Hashing] in
theorem episode_eq_some (window : WindowSpec) {e : Episode} (he : e ∈ db.episode)
    {spaces : List SpaceName} (hs : e.space ∈ spaces) :
    ∃ space d, d.episode = e ∧
      Inspect.episode db e.id window spaces = .ok (some (detailed db space d window)) := by
  induction spaces with
  | nil => cases hs
  | cons space spaces ih =>
    by_cases hspace : space = e.space
    · obtain ⟨d, hd, hde⟩ := episode_of_mem he
      subst hspace
      exact ⟨e.space, d, hde, by simp [Inspect.episode, hd]⟩
    · have hmiss : Store.episode db space e.id = .error (.unknownEpisode space e.id) := by
        rcases episode_cases db space e.id with ⟨d, hd⟩ | herr
        · obtain ⟨hmem, hid, hin⟩ := episode_ok hd
          exact absurd (hin.symm.trans (by rw [Table.eq_of_key hmem he hid])) hspace
        · exact herr
      have hrest := ih ((List.mem_cons.mp hs).resolve_left (Ne.symm hspace))
      simpa [Inspect.episode, hmiss] using hrest

omit [Hashing] in
theorem episode_eq_none (window : WindowSpec) {id : EpisodeId} {spaces : List SpaceName}
    (h : ∀ e ∈ db.episode, e.id = id → e.space ∉ spaces) :
    Inspect.episode db id window spaces = .ok none := by
  induction spaces with
  | nil => rfl
  | cons space spaces ih =>
    have hmiss : Store.episode db space id = .error (.unknownEpisode space id) := by
      rcases episode_cases db space id with ⟨d, hd⟩ | herr
      · obtain ⟨hmem, hid, hin⟩ := episode_ok hd
        exact absurd (hin ▸ List.mem_cons_self) (h d.episode hmem hid)
      · exact herr
    have hrest := ih fun e he hid hmem => h e he hid (List.mem_cons_of_mem _ hmem)
    simpa [Inspect.episode, hmiss] using hrest

omit [Hashing] in
/-- The content a `get` prints, on its own or in the JSON. -/
def printedContent : Printed → Option Text
  | .json found => found.map fun answer => answer.episode.content
  | .raw content => some content

omit [Hashing] in
/-- What a `get` of a whole document finds under the reference it sends. -/
def Finds (service : Service) (db : Db) (args : DocPutArgs) (raw : Bool) (content : Text) : Prop :=
  ∃ printed, Doc.get service db ⟨args.title, none, none, raw, args.space⟩ = .ok printed ∧
    printedContent printed = some content

omit [Hashing] in
theorem finds_iff_text {args : DocPutArgs} {raw : Bool} {content : Text} :
    Finds service db args raw content ↔ ∃ answer, Inspect.text service db
      (reference ⟨args.title, none, none, raw, args.space⟩) args.space
        ⟨none, some MAX_EPISODE_CHARS⟩ = .ok (some answer) ∧ answer.episode.content = content := by
  unfold Finds Doc.get
  dsimp only [Option.or]
  cases Inspect.text service db (reference ⟨args.title, none, none, raw, args.space⟩) args.space
      ⟨none, some MAX_EPISODE_CHARS⟩ with
  | error e => simp
  | ok found => cases found <;> cases raw <;> simp [printedContent]

omit [Hashing] in
/-- A title that does not read as an id is looked up in the space of the put. -/
theorem finds_title {args : DocPutArgs} {raw : Bool} {content : Text} {space : SpaceName}
    (hp : Place (args.space.getD keywordCurrent))
    (hs : spaces service db (some (args.space.getD keywordCurrent)) = .ok [space])
    (hne : trim args.title ≠ []) (hid : isUlid args.title = false)
    (hshort : ∀ e ∈ db.episode, e.content.length ≤ MAX_EPISODE_CHARS) :
    Finds service db args raw content ↔
      ∃ e, (documentsByTitle db space (trim args.title)).head? = some e ∧ e.content = content := by
  have hparse : Reference.parse (reference ⟨args.title, none, none, raw, args.space⟩) =
      some (.doc (args.space.getD keywordCurrent) (trim args.title)) := by
    simp only [reference, hid, Bool.false_eq_true, if_false]
    exact Reference.parse_doc hp hne
  rw [finds_iff_text]
  cases hhead : (documentsByTitle db space (trim args.title)).head? with
  | none =>
    have hdoc := document_eq_none ⟨none, some MAX_EPISODE_CHARS⟩ hhead
    simp [Inspect.text, hparse, Reference.requested, hs, hdoc]
  | some e =>
    obtain ⟨d, rfl, hdoc⟩ := document_eq_some ⟨none, some MAX_EPISODE_CHARS⟩ hhead
    have hmem := (mem_documentsByTitle.mp (List.mem_of_head? hhead)).1
    simp [Inspect.text, hparse, Reference.requested, hs, hdoc,
      detailed_content db space (hshort d.episode hmem)]

omit [Hashing] in
/-- A title that reads as an id is looked up as the id. -/
theorem finds_id {args : DocPutArgs} {raw : Bool} {content : Text} {id : Ulid}
    {searched : List SpaceName} (hs : spaces service db args.space = .ok searched)
    (hid : Ulid.new? args.title = some id)
    (hshort : ∀ e ∈ db.episode, e.content.length ≤ MAX_EPISODE_CHARS) :
    Finds service db args raw content ↔
      ∃ e ∈ db.episode, e.id = ⟨id.number⟩ ∧ e.space ∈ searched ∧ e.content = content := by
  have htitle : args.title = id.text := by
    unfold Ulid.new? at hid
    split_ifs at hid
    cases hid
    rfl
  have hparse : Reference.parse (reference ⟨args.title, none, none, raw, args.space⟩) =
      some (.episode id) := by
    simp only [reference, htitle, id.ulid, if_true]
    exact Reference.parse_episode id
  rw [finds_iff_text]
  by_cases hheld : ∃ e ∈ db.episode, e.id = ⟨id.number⟩ ∧ e.space ∈ searched
  · obtain ⟨e, he, heid, hin⟩ := hheld
    obtain ⟨space, d, hde, hdoc⟩ :=
      episode_eq_some ⟨none, some MAX_EPISODE_CHARS⟩ he hin
    rw [heid] at hdoc
    have hcontent := detailed_content db space (hde ▸ hshort e he)
    have honly : (∃ f ∈ db.episode, f.id = ⟨id.number⟩ ∧ f.space ∈ searched ∧ f.content = content) ↔
        e.content = content := by
      constructor
      · rintro ⟨f, hf, hfid, -, hfc⟩
        rwa [Table.eq_of_key he hf (heid.trans hfid.symm)]
      · exact fun h => ⟨e, he, heid, hin, h⟩
    rw [honly, ← hde]
    simp [Inspect.text, hparse, Reference.requested, hs, hdoc, hcontent]
  · have hnone := episode_eq_none ⟨none, some MAX_EPISODE_CHARS⟩
      fun e he heid hin => hheld ⟨e, he, heid, hin⟩
    have hno : ¬ ∃ e ∈ db.episode, e.id = ⟨id.number⟩ ∧ e.space ∈ searched ∧ e.content = content :=
      fun ⟨e, he, heid, hin, _⟩ => hheld ⟨e, he, heid, hin⟩
    simp [Inspect.text, hparse, Reference.requested, hs, hnone, hno]

/-! ### Putting and reading back -/

/-- The newest row under the title will hold the content: the row it makes, being the latest, or
the row that is there. -/
def HeadsTitle (db : Db) (space : SpaceName) (title content : Text) (now : Timestamp) : Prop :=
  (¬ HoldsText db space (contentHash content) ∧
      ∀ e ∈ documentsByTitle db space title, e.createdAt < now) ∨
    HoldsText db space (contentHash content) ∧
      ∃ e, (documentsByTitle db space title).head? = some e ∧
        normalize e.content = normalize content

/-- The row with the given id will hold the content: one that is there, or the next one made. -/
def HoldsId (db : Db) (space : SpaceName) (searched : List SpaceName) (id : EpisodeId)
    (content : Text) : Prop :=
  (¬ HoldsText db space (contentHash content) ∧ id = ⟨db.minted⟩) ∨
    ∃ e ∈ db.episode, e.id = id ∧ e.space ∈ searched ∧ normalize e.content = normalize content

/-- What a store needs for a put to be read back under its title. -/
def Current (service : Service) (db : Db) (args : DocPutArgs) (content : Text) (now : Timestamp) :
    Prop :=
  ∃ space searched, writtenSpace service args.space = .ok space ∧
    spaces service db args.space = .ok searched ∧
    match Ulid.new? args.title with
    | none => HeadsTitle db space (trim args.title) content now
    | some id => HoldsId db space searched ⟨id.number⟩ content

variable {s : Server}

/-- A stored text fits the window of a `get`, and is stored with its hash. -/
theorem stored_text {dimension : ℕ} {steps : List (Transition.Step Server Call)}
    (h : Run serve (Server.empty dimension) steps s) :
    ∀ e ∈ s.db.episode, e.content.length ≤ MAX_EPISODE_CHARS ∧
      e.contentHash = contentHash e.content := by
  refine (Titles.episodes_of_run h ?_).1
  intro step hstep input hinput e hfiled
  obtain ⟨⟨n, hn, hcontent, -⟩, hhash⟩ := hfiled
  exact ⟨hcontent ▸ (Titles.validated_admitted hn).short, hhash⟩

/-- What a put does to the texts of a store: nothing if the text is there, and else it adds a row
of it. -/
def Filed (db db' : Db) (space : SpaceName) (title content : Text) (clock : Clock) : Prop :=
  (HoldsText db space (contentHash content) ∧ db'.episode = db.episode) ∨
    ¬ HoldsText db space (contentHash content) ∧ ∃ n : NewEpisode, n.content = content ∧
      n.title = some title ∧
      db'.episode.rows = db.episode.rows ++ [n.record ⟨db.minted⟩ space clock]

section Filed

variable {space : SpaceName} {title content : Text} {clock : Clock}

/-- The newest row under the title holds the text. -/
theorem headsTitle_iff (hfiled : Filed db db' space title content clock)
    (hhash : ∀ e ∈ db.episode, e.contentHash = contentHash e.content) :
    (∃ e, (documentsByTitle db' space title).head? = some e ∧
      normalize e.content = normalize content) ↔
      HeadsTitle db space title content (clock.engine 0) := by
  rcases hfiled with ⟨hheld, hsame⟩ | ⟨hnew, n, hcontent, htitle, hrows⟩
  · have hversions : documentsByTitle db' space title = documentsByTitle db space title := by
      simp [documentsByTitle, hsame]
    simp only [HeadsTitle, hversions, hheld, not_true_eq_false, false_and, false_or, true_and]
  · let row := n.record ⟨db.minted⟩ space clock
    have hversions : documentsByTitle db' space title =
        newestFirst ((db.episode.rows.filter fun e =>
          decide (e.space = space ∧ e.title = some title)) ++ [row]) := by
      simp [documentsByTitle, hrows, row, NewEpisode.record, htitle]
    have hlate : (∀ e ∈ db.episode.rows.filter (fun e =>
          decide (e.space = space ∧ e.title = some title)), e.createdAt < row.createdAt) ↔
        ∀ e ∈ documentsByTitle db space title, e.createdAt < clock.engine 0 := by
      simp [documentsByTitle, newestFirst, List.mem_insertionSort, row, NewEpisode.record]
    simp only [HeadsTitle, hversions, head?_newestFirst_concat, hlate, hnew, not_false_eq_true,
      true_and, false_and, or_false]
    constructor
    · rintro ⟨e, he, hnorm⟩
      by_contra hno
      rw [if_neg hno] at he
      obtain ⟨hmem, hin, -⟩ := mem_documentsByTitle.mp (List.mem_of_head? he)
      have heq : e.contentHash = contentHash content := by
        rw [hhash e hmem, contentHash, hnorm, contentHash]
      exact hnew ⟨e, hmem, hin, heq⟩
    · intro hall
      exact ⟨row, by rw [if_pos hall], congrArg normalize hcontent⟩

/-- The row of the id holds the text. -/
theorem holdsId_iff (hfiled : Filed db db' space title content clock) {id : EpisodeId}
    {searched : List SpaceName} (hmem : space ∈ searched) :
    (∃ e ∈ db'.episode, e.id = id ∧ e.space ∈ searched ∧
      normalize e.content = normalize content) ↔ HoldsId db space searched id content := by
  rcases hfiled with ⟨hheld, hsame⟩ | ⟨hnew, n, hcontent, htitle, hrows⟩
  · simp only [HoldsId, hsame, hheld, not_true_eq_false, false_and, false_or]
  · let row := n.record ⟨db.minted⟩ space clock
    have hmem' : ∀ e, e ∈ db'.episode ↔ e ∈ db.episode ∨ e = row := by
      intro e
      rw [Table.mem_iff, hrows, List.mem_append, List.mem_singleton, Table.mem_iff]
    simp only [HoldsId, hnew, not_false_eq_true, true_and, hmem']
    constructor
    · rintro ⟨e, he | rfl, heid, hin, hnorm⟩
      · exact .inr ⟨e, he, heid, hin, hnorm⟩
      · exact .inl heid.symm
    · rintro (hnext | ⟨e, he, heid, hin, hnorm⟩)
      · exact ⟨row, .inr rfl, hnext.symm, hmem, congrArg normalize hcontent⟩
      · exact ⟨e, .inl he, heid, hin, hnorm⟩

end Filed

/-- A put is read back under its title exactly when its text is new to the space and the latest
there, or stands first under the title already; under a title that reads as an id, exactly when
the row of that id holds the text. -/
theorem reads_back_iff {dimension : ℕ} {steps : List (Transition.Step Server Call)}
    (h : Run serve (Server.empty dimension) steps s) {args : DocPutArgs} {content : Text}
    {writer : Writer} {registered : Timestamp} {clock : ℕ → Clock}
    {address : EpisodeId × SpaceName}
    (hput : put service s.db args content writer registered clock = (db', .ok address))
    (raw : Bool) :
    (∃ text, Finds service db' args raw text ∧ normalize text = normalize content) ↔
      Current service s.db args content ((clock 0).engine 0) := by
  obtain ⟨db₁, space, hspace, hne, hlen, hrows⟩ := put_ok (reachable_of_run h) hput
  obtain ⟨hplace, hwritten, hown, ⟨searched, hmem, hsearched⟩, -⟩ := resolveSpace_place hspace
  have hshort : ∀ e ∈ db'.episode, e.content.length ≤ MAX_EPISODE_CHARS := by
    intro e he
    rcases hrows with ⟨-, hsame⟩ | ⟨-, n, hcontent, -, hrows⟩
    · exact (stored_text h e (hsame ▸ he)).1
    · rw [Table.mem_iff, hrows, List.mem_append, List.mem_singleton] at he
      rcases he with he | rfl
      · exact (stored_text h e he).1
      · exact (congrArg List.length hcontent).trans_le hlen
  have hcurrent : Current service s.db args content ((clock 0).engine 0) ↔
      match Ulid.new? args.title with
      | none => HeadsTitle s.db space (trim args.title) content ((clock 0).engine 0)
      | some id => HoldsId s.db space searched ⟨id.number⟩ content := by
    simp [Current, hwritten, hsearched]
  rw [hcurrent]
  cases hid : Ulid.new? args.title with
  | none =>
    have hnot : isUlid args.title = false := by
      unfold Ulid.new? at hid
      split_ifs at hid with hulid
      simpa using hulid
    simp only [finds_title hplace (hown db') hne hnot hshort]
    rw [← headsTitle_iff hrows fun e he => (stored_text h e he).2]
    constructor
    · rintro ⟨text, ⟨e, he, rfl⟩, hnorm⟩
      exact ⟨e, he, hnorm⟩
    · rintro ⟨e, he, hnorm⟩
      exact ⟨e.content, ⟨e, he, rfl⟩, hnorm⟩
  | some id =>
    simp only [finds_id (hsearched db') hid hshort]
    rw [← holdsId_iff hrows hmem]
    constructor
    · rintro ⟨text, ⟨e, he, heid, hin, rfl⟩, hnorm⟩
      exact ⟨e, he, heid, hin, hnorm⟩
    · rintro ⟨e, he, heid, hin, hnorm⟩
      exact ⟨e.content, ⟨e, he, heid, hin, rfl⟩, hnorm⟩

/-! ### Small scripts -/

omit [Hashing] in
/-- A letter is put as a plan with the title "t". -/
def putPlan (s : Server) (start : Timestamp) (letter : Char) :
    Db × Except DocError (EpisodeId × SpaceName) :=
  @put plain terminal s.db ⟨['t'], .plan, [], [], none⟩ [letter] agent start (ticking start)

omit [Hashing] in
/-- The letter is what reading the plan gives. -/
def readsPlan (db : Db) (letter : Char) : Bool :=
  match Doc.get terminal db ⟨['t'], none, none, true, none⟩ with
  | .ok (.raw text) => decide (text = [letter])
  | _ => false

omit [Hashing] in
theorem exists_put {s : Server} {start : Timestamp} {letter : Char}
    (h : (putPlan s start letter).2.isOk = true) :
    ∃ db' address, putPlan s start letter = (db', .ok address) := by
  cases hput : putPlan s start letter with
  | mk db' result =>
    rw [hput] at h
    cases result with
    | error e => cases h
    | ok address => exact ⟨db', address, rfl⟩

omit [Hashing] in
/-- A second version is read back. -/
theorem reads_back_iff_second : ∃ steps s db' address,
    @Run _ _ (@serve plain) (Server.empty 4) steps s ∧ putPlan s 1000 'b' = (db', .ok address) ∧
    ∃ text, Finds terminal db' ⟨['t'], .plan, [], [], none⟩ true text ∧
      @normalize plain text = @normalize plain ['b'] := by
  obtain ⟨steps, s, hrun, -, hp⟩ := exists_run_of_exec (@serve plain) (Server.empty 4)
    [.file 0 'a' (some .plan)]
    (fun u => (putPlan u.2 1000 'b').2.isOk && (u.2.db.episode.rows.all fun e =>
      decide (e.contentHash ≠ @contentHash plain ['b'] ∧ e.createdAt < 1000))) (by decide)
  obtain ⟨hok, hrows⟩ := Bool.and_eq_true_iff.mp hp
  obtain ⟨db', address, hput⟩ := exists_put hok
  have hall : ∀ e ∈ s.db.episode, e.contentHash ≠ @contentHash plain ['b'] ∧ e.createdAt < 1000 :=
    fun e he => of_decide_eq_true (List.all_eq_true.mp hrows e he)
  refine ⟨steps, s, db', address, hrun, hput, (@reads_back_iff terminal db' plain s 4 steps hrun
    ⟨['t'], .plan, [], [], none⟩ ['b'] agent 1000 (ticking 1000) address hput true).mpr ?_⟩
  refine ⟨agmem, [agmem, .user], rfl, rfl, .inl ⟨?_, fun e he => ?_⟩⟩
  · rintro ⟨e, he, -, hhash⟩
    exact (hall e he).1 hhash
  · exact (hall e (mem_documentsByTitle.mp he).1).2

omit [Hashing] in
/-- A plan is put, then another version, then the first text again: the put reports success and
the title still gives the second version. -/
theorem first_text_again : ∃ steps s db' address,
    @Run _ _ (@serve plain) (Server.empty 4) steps s ∧ putPlan s 2000 'a' = (db', .ok address) ∧
    ¬ ∃ text, Finds terminal db' ⟨['t'], .plan, [], [], none⟩ true text ∧
      @normalize plain text = @normalize plain ['a'] := by
  obtain ⟨steps, s, hrun, -, hp⟩ := exists_run_of_exec (@serve plain) (Server.empty 4)
    [.file 0 'a' (some .plan), .file 1000 'b' (some .plan)]
    (fun u => (putPlan u.2 2000 'a').2.isOk && readsPlan (putPlan u.2 2000 'a').1 'b') (by decide)
  obtain ⟨hok, hread⟩ := Bool.and_eq_true_iff.mp hp
  obtain ⟨db', address, hput⟩ := exists_put hok
  rw [hput] at hread
  refine ⟨steps, s, db', address, hrun, hput, ?_⟩
  rintro ⟨text, ⟨printed, hget, hprinted⟩, hnorm⟩
  unfold readsPlan at hread
  rw [hget] at hread
  cases printed with
  | json found => cases hread
  | raw content =>
    have hb : content = ['b'] := of_decide_eq_true hread
    cases hprinted
    rw [hb] at hnorm
    revert hnorm
    decide

end Agmem.Tools.Versions
