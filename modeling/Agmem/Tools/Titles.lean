import Agmem.Store.Documents
import Agmem.Tools.Server

/-! A title makes an episode a document only together with a kind. The input check asks for
a title where there is a kind, and not for a kind where there is a title, so the two come
together in the store exactly as far as the callers send them together. What reads the
documents of a title takes a row without a kind for one of them. -/

namespace Agmem.Tools.Titles

open Core Relational Store Transition Remember

/-! ### What validation admits -/

/-- An episode as the input check lets it through. -/
structure Admitted (input : EpisodeInput) (e : NewEpisode) : Prop where
  content : e.content = input.content
  title : e.title = input.title.map trim
  docKind : e.docKind = input.docKind
  filled : (trim e.content).isEmpty = false
  short : e.content.length ≤ MAX_EPISODE_CHARS
  named : ∀ t, e.title = some t → t ≠ [] ∧ t.length ≤ MAX_TITLE_CHARS
  kindNamed : e.docKind.isSome = true → e.title.isSome = true
  labelsTyped : e.docKind = none → input.tags = [] ∧ e.mime = none

theorem validated_admitted {input : EpisodeInput} {e : NewEpisode}
    (h : input.validated = .ok e) : Admitted input e := by
  unfold EpisodeInput.validated at h
  dsimp only at h
  split_ifs at h with hblank hlong hunnamed hwide hkind hlabels htags
  split at h
  · cases h
  · cases h
    have htitle : (input.title.map trim).filter (fun t => !t.isEmpty) = input.title.map trim := by
      cases ht : input.title with
      | none => rfl
      | some t => simp_all
    have hlabels' : input.docKind = none → input.tags = [] ∧ input.mime = none := by
      intro hnone
      simpa [hnone] using hlabels
    refine ⟨rfl, htitle, rfl, by simpa using hblank, by simpa using hlong, ?_, ?_, ?_⟩
    · intro t ht
      have ht : (input.title.map trim).filter (fun t => !t.isEmpty) = some t := ht
      rw [ht] at hwide
      have hne := (Option.filter_eq_some_iff.mp ht).2
      exact ⟨by simpa using hne, by simpa using hwide⟩
    · intro hsome
      have hsome : input.docKind.isSome = true := hsome
      rw [htitle, hsome] at hkind
      change ((input.title.map trim).filter fun t => !t.isEmpty).isSome = true
      rw [htitle]
      simpa [Option.isSome_iff_ne_none] using hkind
    · intro hnone
      exact ⟨(hlabels' hnone).1, by simp [(hlabels' hnone).2]⟩

/-- Embedding fills in the vectors of the chunks and nothing else. -/
theorem embed_episode {embedder : Embedder} {ms ms' : List NewMemory} {episode : Option NewEpisode}
    {e : NewEpisode} (h : embed embedder ms episode = .ok (ms', some e)) :
    ∃ e₀, episode = some e₀ ∧ ∃ chunks, e = { e₀ with chunks := chunks } := by
  unfold embed at h
  dsimp only at h
  split_ifs at h
  · cases h
    exact ⟨e, rfl, e.chunks, rfl⟩
  · split at h
    · cases h
    · split_ifs at h
      simp only [Except.ok.injEq, Prod.mk.injEq] at h
      obtain ⟨e₀, he₀, rfl⟩ := Option.map_eq_some_iff.mp h.2
      exact ⟨e₀, he₀, _, rfl⟩

theorem prepared_episode {service : Service} {db : Db} {space : SpaceName}
    {params : RememberParams} {gates : List Gated} {e : NewEpisode}
    (h : prepared service db space params = .ok (gates, some e)) :
    ∃ input n, params.episode = some input ∧ input.validated = .ok n ∧
      ∃ chunks, e = { n with chunks := chunks } := by
  obtain ⟨_, _, _, _, hvalid, hembed, -⟩ := prepared_ok h
  obtain ⟨e₀, rfl, hchunks⟩ := embed_episode hembed
  rcases (validated_ok hvalid).2 with ⟨-, hnone⟩ | ⟨input, n, hinput, hn, hsome⟩
  · cases hnone
  · cases hsome
    exact ⟨input, _, hinput, hn, hchunks⟩

/-! ### Where stored episodes come from -/

/-- The episode a call sends. -/
def sent : Call → Option EpisodeInput
  | .remember _ params _ _ _ => params.episode
  | _ => none

variable [Hashing] {db db' : Db} {service : Service}

/-- The row holds what validation made of the input. -/
structure FiledFrom (input : EpisodeInput) (e : Episode) : Prop where
  validated : ∃ n, input.validated = .ok n ∧ e.content = n.content ∧ e.title = n.title ∧
    e.docKind = n.docKind
  hashed : e.contentHash = contentHash e.content

omit [Hashing] in
theorem resolveSpace_episode {requested : Option Text} {now : Timestamp} {space : SpaceName}
    (h : resolveSpace service db requested now = .ok (db', space)) :
    db'.episode = db.episode := by
  obtain ⟨t, rfl⟩ := resolveSpace_frame h
  rfl

theorem resolveSpace_wellFormed (hr : db.Reachable) {requested : Option Text} {now : Timestamp}
    {space : SpaceName} (h : resolveSpace service db requested now = .ok (db', space)) :
    db'.WellFormed := by
  obtain ⟨dimension, before, hbefore⟩ := hr
  obtain ⟨steps, hrun, -⟩ := resolveSpace_writes h
  exact Db.Reachable.wellFormed ⟨dimension, _, hbefore.append hrun⟩

theorem remember_episode (hr : db.Reachable) (params : RememberParams) (writer : Writer)
    (registered : Timestamp) (clock : ℕ → Clock) {e : Episode}
    (he : e ∈ (Remember.run service db params writer registered clock).1.episode) :
    e ∈ db.episode ∨ ∃ input, params.episode = some input ∧ FiledFrom input e := by
  unfold Remember.run at he
  split at he
  · exact .inl he
  · next db₁ space hspace =>
    have hsame := resolveSpace_episode hspace
    have hw := resolveSpace_wellFormed hr hspace
    unfold Remember.store at he
    split at he
    · exact .inl (hsame ▸ he)
    · next gates episode hprepared =>
      dsimp only at he
      split_ifs at he
      · exact .inl (hsame ▸ he)
      · split at he
        · exact .inl (hsame ▸ he)
        · next hins =>
          rcases insertBatch_episodes hw hins with hkept | ⟨n, k, hn, -, hrows⟩
          · exact .inl (hsame ▸ hkept ▸ he)
          · rw [Table.mem_iff, hrows, List.mem_append, List.mem_singleton] at he
            rcases he with he | rfl
            · exact .inl (hsame ▸ he)
            · have hepisode : episode = some n := hn
              obtain ⟨input, m, hinput, hm, chunks, rfl⟩ := prepared_episode (hepisode ▸ hprepared)
              exact .inr ⟨input, hinput, ⟨m, hm, rfl, rfl, rfl⟩, rfl⟩

theorem reflect_episode (hr : db.Reachable) (params : Reflect.ReflectParams) (writer : Writer)
    (registered : Timestamp) (clock : ℕ → Clock) :
    (Reflect.run service db params writer registered clock).1.episode = db.episode := by
  unfold Reflect.run
  split
  · rfl
  · next db₁ space hspace =>
    have hsame := resolveSpace_episode hspace
    have hw := resolveSpace_wellFormed hr hspace
    unfold Reflect.store
    split
    · exact hsame
    · exact hsame
    · split
      · exact hsame
      · next db₂ out hins =>
        have hkept : db₂.episode = db₁.episode := by
          rcases insertBatch_episodes hw hins with hkept | ⟨n, k, hn, -, -⟩
          · exact hkept
          · cases hn
        split <;> exact hkept.trans hsame

omit [Hashing] in
theorem forget_episode (pending : Forget.Pending) (params : Forget.ForgetParams)
    (now : MemoryId → Timestamp) {e : Episode}
    (he : e ∈ (Forget.run service db pending params now).1.1.episode) : e ∈ db.episode := by
  unfold Forget.run at he
  split_ifs at he
  · exact he
  · split at he
    · exact he
    · split at he
      · exact he
      · unfold Forget.execute at he
        split at he
        · exact he
        · split_ifs at he
          · exact he
          · split at he
            · exact he
            · next hforget =>
              unfold Store.forget at hforget
              split_ifs at hforget
              · cases hforget
                exact (Table.mem_deleteKeys.mp he).1
              · obtain ⟨_, _, -, rfl⟩ := forgetSoft_eq_ok hforget
                exact he
          · exact he

variable {s t : Server} {call : Call}

/-- Every stored episode was stored before, or is what the call sent. -/
theorem serve_episode (hr : s.db.Reachable) (h : serve s call = some t) {e : Episode}
    (he : e ∈ t.db.episode) :
    e ∈ s.db.episode ∨ ∃ input, sent call = some input ∧ FiledFrom input e := by
  cases call with
  | remember service params writer registered clock =>
    cases h
    exact remember_episode hr params writer registered clock he
  | reflect service params writer registered clock =>
    cases h
    exact .inl (reflect_episode hr params writer registered clock ▸ he)
  | forget session service params now =>
    cases h
    exact .inl (forget_episode (s.pending session) params now he)

/-- What holds of whatever the calls of a run send holds of every episode it stores. -/
theorem episodes_of_run {P : Episode → Prop} {dimension : ℕ}
    {steps : List (Transition.Step Server Call)}
    (h : Run serve (Server.empty dimension) steps t)
    (hsent : ∀ step ∈ steps, ∀ input, sent step.action = some input →
      ∀ e, FiledFrom input e → P e) :
    (∀ e ∈ t.db.episode, P e) ∧ ∀ step ∈ steps, ∀ e ∈ step.target.db.episode, P e := by
  let Good (s : Server) : Prop := s.db.Reachable ∧ ∀ e ∈ s.db.episode, P e
  have hgood := h.invariant (I := Good) (Q := fun step => ∀ input, sent step.action = some input →
      ∀ e, FiledFrom input e → P e)
    (fun s call t hs hq hi => ⟨serve_reachable hs hi.1, fun e he =>
      (serve_episode hi.1 hs he).elim (hi.2 e) fun ⟨input, hinput, hfiled⟩ =>
        hq input hinput e hfiled⟩)
    hsent ⟨⟨dimension, [], .nil _⟩, fun e he => absurd he (Table.not_mem_empty e)⟩
  exact ⟨hgood.1.2, fun step hstep => (hgood.2 step hstep).2.2⟩

/-! ### Titles and kinds -/

omit [Hashing] in
/-- A title and a kind come together, and what reads the documents of a title relies on it. -/
structure Paired (db : Db) : Prop where
  titled : ∀ e ∈ db.episode, e.title.isSome = e.docKind.isSome
  documents : ∀ space title, ∀ e ∈ documentsByTitle db space title, e.isDocument = true
  churn : ∀ space maxVersions, churningDocuments db space maxVersions ≠
    .error (.unexpectedResponse "a document without a kind")

omit [Hashing] in
theorem paired_of_titled (h : ∀ e ∈ db.episode, e.title.isSome = e.docKind.isSome) :
    Paired db := by
  refine ⟨h, fun space title e he => ?_, fun space maxVersions => ?_⟩
  · obtain ⟨hmem, -, htitle⟩ := mem_documentsByTitle.mp he
    rw [Episode.isDocument, ← h e hmem, htitle]
    rfl
  · exact churnFrom_ne_kindless fun e he hsome => (h e he).symm.trans hsome

/-- The input sends a kind with its title, or is turned away. -/
def Kinded (input : EpisodeInput) : Prop :=
  ∀ n, input.validated = .ok n → input.title.isSome = true → input.docKind.isSome = true

theorem FiledFrom.titled {input : EpisodeInput} {e : Episode} (h : FiledFrom input e)
    (hk : Kinded input) : e.title.isSome = e.docKind.isSome := by
  obtain ⟨⟨n, hn, -, htitle, hkind⟩, -⟩ := h
  have ha := validated_admitted hn
  rw [htitle, hkind, Bool.eq_iff_iff]
  constructor
  · intro h
    rw [ha.docKind]
    exact hk n hn (by simpa [ha.title] using h)
  · exact ha.kindNamed

/-- As long as every admitted title comes with a kind, the two come together in every state. -/
theorem paired_of_run {dimension : ℕ} {steps : List (Transition.Step Server Call)}
    (h : Run serve (Server.empty dimension) steps t)
    (hsent : ∀ step ∈ steps, ∀ input, sent step.action = some input → Kinded input) :
    Paired t.db ∧ ∀ step ∈ steps, Paired step.target.db := by
  have hall := episodes_of_run (P := fun e => e.title.isSome = e.docKind.isSome) h
    fun step hstep input hinput e hfiled => hfiled.titled (hsent step hstep input hinput)
  exact ⟨paired_of_titled hall.1, fun step hstep => paired_of_titled (hall.2 step hstep)⟩

omit [Hashing] in
/-- Two versions of a plan. -/
theorem paired_of_run_plans : ∃ steps t, @Run _ _ (@serve plain) (Server.empty 4) steps t ∧
    t.db.episode.rows.length = 2 ∧ Paired t.db := by
  obtain ⟨steps, t, hrun, hact, htwo⟩ := exists_run_of_exec (@serve plain) (Server.empty 4)
    [.file 0 'a' (some .plan), .file 1000 'b' (some .plan)]
    (fun u => decide (u.2.db.episode.rows.length = 2)) (by decide)
  refine ⟨steps, t, hrun, of_decide_eq_true htwo, (@paired_of_run plain t 4 steps hrun ?_).1⟩
  intro step hstep input hinput n hn htitle
  have hcall := hact step hstep
  simp only [List.mem_cons, List.not_mem_nil, or_false] at hcall
  rcases hcall with hcall | hcall <;>
  · rw [hcall] at hinput
    cases hinput
    rfl

omit [Hashing] in
/-- A note under the title of two plans: the newest row has a title and no kind, and the report
on rewritten titles fails on it. -/
theorem untyped_title : ∃ steps t, @Run _ _ (@serve plain) (Server.empty 4) steps t ∧
    (∃ e ∈ t.db.episode, e.title.isSome = true ∧ e.docKind = none) ∧
    churningDocuments t.db agmem 1 = .error (.unexpectedResponse "a document without a kind") := by
  obtain ⟨steps, t, hrun, -, hp⟩ := exists_run_of_exec (@serve plain) (Server.empty 4)
    [.file 0 'a' (some .plan), .file 1000 'b' (some .plan), .file 2000 'c' none]
    (fun u => u.2.db.episode.rows.any (fun e => e.title.isSome && e.docKind.isNone) &&
      failsWith (.unexpectedResponse "a document without a kind")
        (churningDocuments u.2.db agmem 1)) (by decide)
  obtain ⟨hrow, hchurn⟩ := Bool.and_eq_true_iff.mp hp
  obtain ⟨e, he, hkind⟩ := List.any_eq_true.mp hrow
  exact ⟨steps, t, hrun, ⟨e, he, by simpa using hkind⟩, eq_error_of_failsWith hchurn⟩

end Agmem.Tools.Titles
