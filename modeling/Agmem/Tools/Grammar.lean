import Agmem.Tools.Versions

/-! The printed form of a reference. What is parsed is trimmed part by part, so the printed form is
parsed as the same reference again; and a title that was stored is found under the reference that
names it in the place it was written to. -/

namespace Agmem.Tools.Inspect

open Core Relational Store

namespace Reference

/-- `Display`: the canonical form, which is what is echoed. -/
def text : Reference → Text
  | .memory id => wordMemory ++ ':' :: id.text
  | .episode id => wordEpisode ++ ':' :: id.text
  | .entity name => wordEntity ++ ':' :: name
  | .doc space title => wordDoc ++ ':' :: (space ++ '/' :: title)
  | .docs (some space) => wordDocs ++ ':' :: space
  | .docs none => wordDocs
  | .stats => wordStats
  | .unqualified id => id.text

/-- The references that are parsed from some text: their parts are trimmed, and a space among them
is one that a title can be looked up in. -/
def Canonical : Reference → Prop
  | .entity name => Trimmed name ∧ name ≠ []
  | .doc space title => Place space ∧ Trimmed title ∧ title ≠ []
  | .docs (some space) => Place space
  | _ => True

end Reference

/-! ### What is parsed is canonical -/

/-- The space part of a reference names a place. -/
theorem place_of_spaceToken {raw : Text} (h : spaceToken raw = true) : Place (trim raw) := by
  simp only [spaceToken, Bool.and_eq_true, Bool.or_eq_true, decide_eq_true_eq] at h
  obtain ⟨hall, (hcurrent | huser) | hslug⟩ := h
  · exact ⟨hall, by rw [hcurrent]; decide⟩
  · exact ⟨hall, by rw [huser]; decide⟩
  · refine ⟨hall, ?_⟩
    unfold SpaceName.new? at hslug
    split_ifs at hslug with hname
    · exact hname
    · cases hslug

namespace Reference

theorem parse_canonical {raw : Text} {r : Reference} (h : parse raw = some r) : r.Canonical := by
  unfold parse at h
  dsimp only at h
  split_ifs at h with hstats hdocs
  · cases h
    trivial
  · cases h
    trivial
  · split at h
    · obtain ⟨id, -, rfl⟩ := Option.map_eq_some_iff.mp h
      trivial
    · next word rest _ =>
      split_ifs at h with hmemory hepisode hentity hlisting hdoc
      · obtain ⟨id, -, rfl⟩ := Option.map_eq_some_iff.mp h
        trivial
      · obtain ⟨id, -, rfl⟩ := Option.map_eq_some_iff.mp h
        trivial
      · cases h
        exact ⟨trim_trimmed rest, hentity.2⟩
      · cases h
        exact place_of_spaceToken hlisting.2
      · split at h
        · cases h
        · split_ifs at h with htitle
          cases h
          exact ⟨place_of_spaceToken htitle.1, trim_trimmed _, htitle.2⟩
      · obtain ⟨id, -, rfl⟩ := Option.map_eq_some_iff.mp h
        trivial

/-! ### What is canonical is parsed back -/

/-- A word in front of a trimmed text is split off again. -/
theorem split_word {rest : Text} (ht : Trimmed rest) (hne : rest ≠ []) (word : Text)
    (hword : word ∈ [wordMemory, wordEntity, wordDocs]) :
    trim (word ++ ':' :: rest) = word ++ ':' :: rest ∧
      splitOnce ':' (word ++ ':' :: rest) = some (word, rest) ∧
      word ++ ':' :: rest ≠ wordStats ∧ word ++ ':' :: rest ≠ wordDocs := by
  have hplain : ':' ∉ word ∧ (∀ c ∈ word.head?, isWhitespace c = false) ∧ word ≠ [] := by
    simp only [List.mem_cons, List.not_mem_nil, or_false] at hword
    rcases hword with rfl | rfl | rfl
    all_goals
      refine ⟨by decide, fun c hc => ?_, by decide⟩
      obtain rfl := Option.mem_some_iff.mp hc
      decide
  obtain ⟨hcolon, hhead, hwne⟩ := hplain
  have hmem : ':' ∈ word ++ ':' :: rest := by simp
  refine ⟨trim_of_trimmed ⟨fun c hc => ?_, fun c hc => ?_⟩, splitOnce_append hcolon, ?_, ?_⟩
  · rw [List.head?_append_of_ne_nil _ hwne] at hc
    exact hhead c hc
  · rw [List.getLast?_append_of_ne_nil _ (List.cons_ne_nil _ _), List.getLast?_cons,
      List.getLast?_eq_some_getLast hne] at hc
    exact ht.last c (by rw [List.getLast?_eq_some_getLast hne]; exact hc)
  · intro h
    rw [h] at hmem
    exact absurd hmem (by decide)
  · intro h
    rw [h] at hmem
    exact absurd hmem (by decide)

theorem splitOnce_eq_none {mark : Char} {raw : Text} (h : mark ∉ raw) :
    splitOnce mark raw = none := by
  induction raw with
  | nil => rfl
  | cons c cs ih =>
    rw [List.mem_cons, not_or] at h
    rw [splitOnce, if_neg (Ne.symm h.1), ih h.2, Option.map_none]

theorem ulid_plain (id : Ulid) {c : Char} (hc : c ∈ id.text) : isUlidChar c = true :=
  List.all_eq_true.mp (Bool.and_eq_true_iff.mp id.ulid).2 c hc

theorem ulid_trimmed (id : Ulid) : Trimmed id.text :=
  trimmed_of_plain fun _ hc => not_isWhitespace_of_isUlidChar (ulid_plain id hc)

theorem length_ulid (id : Ulid) : id.text.length = ULID_LEN :=
  of_decide_eq_true (Bool.and_eq_true_iff.mp id.ulid).1

theorem ulid_ne_nil (id : Ulid) : id.text ≠ [] := fun hnil =>
  absurd ((congrArg List.length hnil).symm.trans (length_ulid id)) (by decide)

theorem new?_text (id : Ulid) : Ulid.new? id.text = some id := dif_pos id.ulid

/-- A bare id is none of the words, and has no colon in it. -/
theorem parse_unqualified (id : Ulid) : parse id.text = some (.unqualified id) := by
  have hlen {word : Text} (hword : word.length ≠ ULID_LEN) : id.text ≠ word := fun h =>
    hword ((congrArg List.length h).symm.trans (length_ulid id))
  have hstats : id.text ≠ wordStats := hlen (by decide)
  have hdocs : id.text ≠ wordDocs := hlen (by decide)
  have hcolon : splitOnce ':' id.text = none :=
    splitOnce_eq_none fun hc => absurd (ulid_plain id hc) (by decide)
  simp [parse, trim_of_trimmed (ulid_trimmed id), hstats, hdocs, hcolon, new?_text]

theorem parse_text {r : Reference} (h : r.Canonical) : parse r.text = some r := by
  cases r with
  | stats => rfl
  | memory id =>
    obtain ⟨htrim, hsplit, hstats, hdocs⟩ :=
      split_word (ulid_trimmed id) (ulid_ne_nil id) wordMemory (by simp)
    simp [parse, text, htrim, hsplit, hstats, hdocs, new?_text]
  | episode id => exact parse_episode id
  | entity name =>
    obtain ⟨htrim, hsplit, hstats, hdocs⟩ := split_word h.1 h.2 wordEntity (by simp)
    have hwords : wordEntity ≠ wordMemory ∧ wordEntity ≠ wordEpisode := by decide
    simp [parse, text, htrim, hsplit, hstats, hdocs, hwords, trim_of_trimmed h.1, h.2]
  | doc space title =>
    obtain ⟨hspace, htitle, hne⟩ := h
    have htrim := trim_of_trimmed htitle
    rw [text, parse_doc hspace (by rwa [htrim]), htrim]
  | docs space =>
    cases space with
    | none => rfl
    | some space =>
      have hplace : Place space := h
      have hne : space ≠ [] := by
        rintro rfl
        exact absurd hplace.2 (by decide)
      have ht : Trimmed space := trimmed_of_plain fun _ hc => (hplace.plain hc).1
      obtain ⟨htrim, hsplit, hstats, hdocs⟩ := split_word ht hne wordDocs (by simp)
      have hwords : wordDocs ≠ wordMemory ∧ wordDocs ≠ wordEpisode ∧ wordDocs ≠ wordEntity := by
        decide
      simp [parse, text, htrim, hsplit, hstats, hdocs, hwords, hplace.spaceToken_eq, hplace.trim_eq]
  | unqualified id => exact parse_unqualified id

end Reference

/-! ### Titles that were written -/

/-- The parser reads what the printer writes. -/
theorem Reference.parse_text_of_parse {raw : Text} {r : Reference} (h : parse raw = some r) :
    parse r.text = some r :=
  parse_text (parse_canonical h)

/-- The reference to a title that was written, spelled as it was sent or as it is stored, names the
place of the write and the stored title. -/
theorem parse_written {service : Service} {requested : Option Text} {now : Timestamp} {db db' : Db}
    {space : SpaceName} {input : Remember.EpisodeInput} {e : NewEpisode} {sent title : Text}
    (hspace : resolveSpace service db requested now = .ok (db', space))
    (hinput : input.validated = .ok e) (hsent : input.title = some sent)
    (htitle : e.title = some title) :
    Reference.parse (Reference.doc (requested.getD keywordCurrent) sent).text =
        some (.doc (requested.getD keywordCurrent) title) ∧
      Reference.parse (Reference.doc (requested.getD keywordCurrent) title).text =
        some (.doc (requested.getD keywordCurrent) title) ∧
      ∀ db asked, spaces service db
        ((Reference.doc (requested.getD keywordCurrent) title).requested asked) = .ok [space] := by
  obtain ⟨hplace, -, hspaces, -, -⟩ := Versions.resolveSpace_place hspace
  have hadmitted := Titles.validated_admitted hinput
  have htrim : title = trim sent := by
    have heq := hadmitted.title
    rw [htitle, hsent] at heq
    exact Option.some.inj heq
  have hne := (hadmitted.named title htitle).1
  have hsame : trim title = title := by
    rw [htrim]
    exact trim_of_trimmed (trim_trimmed sent)
  refine ⟨?_, ?_, fun db _ => hspaces db⟩
  · have hdoc := Reference.parse_doc hplace (htrim ▸ hne)
    rwa [← htrim] at hdoc
  · have hdoc := Reference.parse_doc hplace (hsame.symm ▸ hne)
    rwa [hsame] at hdoc

/-- What is parsed is parsed again from its printed form; and every document that was written is
named by the place it was written to and its title, as they were sent or as they are stored. -/
theorem reference_round_trips (service : Service) :
    (∀ raw r, Reference.parse raw = some r → Reference.parse r.text = some r) ∧
    ∀ (requested : Option Text) (now : Timestamp) (db db' : Db) (space : SpaceName)
      (input : Remember.EpisodeInput) (e : NewEpisode) (sent : Text),
      resolveSpace service db requested now = .ok (db', space) → input.validated = .ok e →
      input.title = some sent → ∃ title, e.title = some title ∧
        Reference.parse (Reference.doc (requested.getD keywordCurrent) sent).text =
          some (.doc (requested.getD keywordCurrent) title) ∧
        Reference.parse (Reference.doc (requested.getD keywordCurrent) title).text =
          some (.doc (requested.getD keywordCurrent) title) ∧
        ∀ db asked, spaces service db
          ((Reference.doc (requested.getD keywordCurrent) title).requested asked) =
            .ok [space] := by
  refine ⟨fun raw r h => Reference.parse_text_of_parse h, ?_⟩
  intro requested now db db' space input e sent hspace hinput hsent
  have htitle : e.title = some (trim sent) := by
    rw [(Titles.validated_admitted hinput).title, hsent, Option.map_some]
  exact ⟨trim sent, htitle, parse_written hspace hinput hsent htitle⟩

/-- A plan whose title was sent with a space in front of it and a colon and a slash in it. -/
def planInput : Remember.EpisodeInput where
  content := ['x']
  occurredAt := none
  session := none
  title := some [' ', 'a', ':', '/', 'b']
  docKind := some .plan
  tags := []
  mime := none

theorem plan_round_trips :
    Reference.parse (Reference.doc keywordCurrent ['a', ':', '/', 'b']).text =
      some (.doc keywordCurrent ['a', ':', '/', 'b']) := by
  obtain ⟨hprinted, hwritten⟩ := reference_round_trips terminal
  obtain ⟨title, htitle, -, hparse, -⟩ := hwritten none 0 (Db.empty 0) (Db.empty 0) _ planInput _ _
    rfl rfl rfl
  obtain rfl := Option.some.inj htitle
  exact hprinted _ _ hparse

end Agmem.Tools.Inspect
