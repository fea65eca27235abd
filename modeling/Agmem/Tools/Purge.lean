import Agmem.Tools.Server
import Agmem.Store.Placement

/-! What a purge deletes. The targets a call selects are rows of the searched spaces; the
citers a cascade pulls in are rows of the spaces of their documents; and a chain stays in
one space. So a purge that is carried out deletes the documents it selected and exactly
the memories on the chains of its seeds: the memories it selected, and the live citers of
its documents in the spaces of these. -/

namespace Agmem.Tools.Forget

open Core Relational Links Store

variable {db : Db} {spaces : List SpaceName}

/-! ### Targets -/

/-- A target is a row of the store, in a searched space. -/
def Found (db : Db) (spaces : List SpaceName) : Target → Prop
  | .memory space r _ => r ∈ db.memory ∧ r.space = space ∧ space ∈ spaces
  | .episode space d => d.episode ∈ db.episode ∧ d.episode.space = space ∧ space ∈ spaces

/-- The memories among the targets. -/
def named (targets : List Target) : List MemoryId := targets.filterMap Target.memory?

theorem named_nil : named [] = [] := rfl

theorem named_append (targets more : List Target) :
    named (targets ++ more) = named targets ++ named more := List.filterMap_append

theorem memory_ok {id : MemoryId} {t : Target} (h : memory db id spaces = .ok (some t)) :
    Found db spaces t ∧ ∃ space r, t = .memory space r none ∧ r.id = id := by
  induction spaces with
  | nil => cases h
  | cons space spaces ih =>
    unfold memory at h
    split at h
    · next chain hchain =>
      split at h
      · next r hfind =>
        cases h
        have hr := (mem_historyChain hchain).mp (List.mem_of_find?_eq_some hfind)
        have hid : r.id = id := by simpa using List.find?_some hfind
        obtain ⟨q, hq, hqid, hqs⟩ := (historyChain_ok_iff.mp hchain).1 id (by simp)
        rw [Table.eq_of_key hq hr.1 (hqid.trans hid.symm)] at hqs
        exact ⟨⟨hr.1, hqs, List.mem_cons_self⟩, space, r, rfl, hid⟩
      · cases h
    · obtain ⟨hf, space', r, rfl, hid⟩ := ih h
      exact ⟨⟨hf.1, hf.2.1, List.mem_cons_of_mem _ hf.2.2⟩, space', r, rfl, hid⟩
    · cases h

theorem episodeTarget_ok {id : EpisodeId} {t : Target}
    (h : episodeTarget db id spaces = .ok (some t)) :
    Found db spaces t ∧ ∃ space d, t = .episode space d ∧ d.episode.id = id := by
  induction spaces with
  | nil => cases h
  | cons space spaces ih =>
    unfold episodeTarget at h
    split at h
    · next d hd =>
      cases h
      obtain ⟨he, hid, hs⟩ := episode_ok hd
      exact ⟨⟨he, hs, List.mem_cons_self⟩, space, d, rfl, hid⟩
    · obtain ⟨hf, space', d, rfl, hid⟩ := ih h
      exact ⟨⟨hf.1, hf.2.1, List.mem_cons_of_mem _ hf.2.2⟩, space', d, rfl, hid⟩
    · cases h

theorem unqualified_ok {id : ℕ} {purge : Bool} {t : Target}
    (h : unqualified db spaces id purge = .ok t) : Found db spaces t := by
  unfold unqualified at h
  split at h
  · cases h
  · next hm =>
    cases h
    exact (memory_ok hm).1
  · split at h
    · cases h
    · next he =>
      split at h
      · cases h
      · cases h
        exact (episodeTarget_ok he).1
    · split at h <;> cases h

theorem resolve_ok {purge : Bool} {raw : Raw Reference} {t : Target}
    (h : resolve db spaces purge raw = .ok t) : Found db spaces t := by
  unfold resolve at h
  split at h
  · cases h
  · split at h
    · cases h
    · next hm =>
      cases h
      exact (memory_ok hm).1
    · cases h
  · split at h
    · cases h
    · split at h
      · cases h
      · next he =>
        cases h
        exact (episodeTarget_ok he).1
      · cases h
  · exact unqualified_ok h

theorem byIdsFrom_found {purge : Bool} {ids : List (Raw Reference)} {targets out : List Target}
    (hf : ∀ t ∈ targets, Found db spaces t)
    (h : byIdsFrom db spaces purge targets ids = .ok out) : ∀ t ∈ out, Found db spaces t := by
  induction ids generalizing targets with
  | nil =>
    cases h
    exact hf
  | cons raw ids ih =>
    unfold byIdsFrom at h
    split at h
    · cases h
    · next target htarget =>
      refine ih (fun t ht => ?_) h
      split_ifs at ht
      · exact hf t ht
      · rcases List.mem_append.mp ht with ht | ht
        · exact hf t ht
        · rw [List.mem_singleton.mp ht]
          exact resolve_ok htarget

theorem byQuery_found (service : Service) (text : Text) :
    ∀ t ∈ byQuery service db spaces text, Found db spaces t := by
  intro t ht
  obtain ⟨r, hr, rfl⟩ := List.mem_map.mp ht
  obtain ⟨id, -, hid⟩ := List.mem_filterMap.mp (List.mem_of_mem_take hr)
  obtain ⟨hget, hguard⟩ := Option.filter_eq_some_iff.mp hid
  obtain ⟨hs, -⟩ := Bool.and_eq_true_iff.mp hguard
  exact ⟨(Table.get?_eq_some.mp hget).1, rfl, of_decide_eq_true hs⟩

/-- Whatever a call selects is there. -/
theorem select_found {service : Service} {pending pending' : Pending} {params : ForgetParams}
    {selection : Selection}
    (h : select service db pending spaces params = (pending', .ok selection)) :
    ∀ t ∈ selection.targets, Found db spaces t := by
  unfold select at h
  dsimp only at h
  split at h
  · split at h
    · cases h
    · next hids =>
      cases h
      exact byIdsFrom_found (fun t ht => absurd ht List.not_mem_nil) hids
  · split_ifs at h
    · cases h
      exact byQuery_found service _
    · split at h
      · cases h
      · cases h
        exact byQuery_found service _
  · cases h
  · cases h

/-- The ids of targets are compared without their tables, and yet tell memories from
episodes. -/
theorem seen_iff (ha : Apart db) {targets : List Target} (hf : ∀ t ∈ targets, Found db spaces t)
    {r : MemoryRecord} (hr : r ∈ db.memory) :
    seen targets r.id.ulid = true ↔ r.id ∈ named targets := by
  simp only [seen, named, List.any_eq_true, decide_eq_true_eq, List.mem_filterMap]
  refine exists_congr fun t => and_congr_right fun ht => ?_
  cases t with
  | memory space q c =>
    simp only [Target.id, Target.memory?, Option.some.injEq]
    exact ⟨fun h => congrArg MemoryId.mk h, fun h => congrArg MemoryId.ulid h⟩
  | episode space d =>
    simp only [Target.id, Target.memory?, reduceCtorEq, iff_false]
    exact fun h => ha r hr _ (hf _ ht).1 h.symm

theorem space_of_named {targets : List Target} (hf : ∀ t ∈ targets, Found db spaces t)
    {r : MemoryRecord} (hr : r ∈ db.memory) (hid : r.id ∈ named targets) : r.space ∈ spaces := by
  obtain ⟨t, ht, hid⟩ := List.mem_filterMap.mp hid
  cases t with
  | memory space q c =>
    obtain ⟨hq, rfl, hs⟩ := hf _ ht
    rwa [Table.eq_of_key hr hq (Option.some.inj hid).symm]
  | episode space d => cases hid

theorem space_of_episode {targets : List Target} (hf : ∀ t ∈ targets, Found db spaces t)
    {e : Episode} (he : e ∈ db.episode) (hid : e.id ∈ targets.filterMap Target.episode?) :
    e.space ∈ spaces := by
  obtain ⟨t, ht, hid⟩ := List.mem_filterMap.mp hid
  cases t with
  | memory space q c => cases hid
  | episode space d =>
    obtain ⟨hd, rfl, hs⟩ := hf _ ht
    rwa [Table.eq_of_key he hd (Option.some.inj hid).symm]

/-! ### Cascades -/

/-- Whether a target is a document that pulls in the memory: a live citer in its own space. -/
def Pulls (db : Db) (r : MemoryRecord) : Target → Prop
  | .memory _ _ _ => False
  | .episode space d => d.episode.isDocument = true ∧ r ∈ documentCiters db space d.episode.id

/-- A memory a purge starts from: one it selected, or one a selected document pulls in. -/
def Seed (db : Db) (targets : List Target) (r : MemoryRecord) : Prop :=
  r ∈ db.memory ∧ (r.id ∈ named targets ∨ ∃ t ∈ targets, Pulls db r t)

theorem named_citers (space : SpaceName) (id : EpisodeId) (citers : List MemoryRecord) :
    named (citers.map fun record => .memory space record (some id)) =
      citers.map MemoryRecord.id := by
  simp [named, Target.memory?, Function.comp_def]

/-- The citers that are among neither of two lists of targets yet. -/
theorem mem_unseen {citers : List MemoryRecord} (hc : ∀ q ∈ citers, q ∈ db.memory)
    (ha : Apart db) {targets pulled : List Target} (hf : ∀ t ∈ targets, Found db spaces t)
    (hp : ∀ t ∈ pulled, Found db spaces t) {r : MemoryRecord} (hr : r ∈ db.memory) :
    r.id ∈ List.map MemoryRecord.id (citers.filter fun citer =>
        !seen targets citer.id.ulid && !seen pulled citer.id.ulid) ↔
      r ∈ citers ∧ r.id ∉ named targets ∧ r.id ∉ named pulled := by
  rw [← seen_iff ha hf hr, ← seen_iff ha hp hr, List.mem_map]
  constructor
  · rintro ⟨q, hq, hid⟩
    obtain ⟨hq, hnot⟩ := List.mem_filter.mp hq
    cases Table.eq_of_key (hc q hq) hr hid
    exact ⟨hq, by simpa using hnot⟩
  · rintro ⟨hq, hnot⟩
    exact ⟨r, List.mem_filter.mpr ⟨hq, by simpa using hnot⟩, rfl⟩

/-- What a cascade adds: the citers of the documents, in the spaces of these. -/
structure Cascaded (db : Db) (spaces : List SpaceName) (targets pulled rest out : List Target) :
    Prop where
  found : ∀ t ∈ out, Found db spaces t
  episodes : out.filterMap Target.episode? =
    targets.filterMap Target.episode? ++ pulled.filterMap Target.episode?
  named : ∀ r ∈ db.memory, r.id ∈ named out ↔
    r.id ∈ Forget.named targets ∨ r.id ∈ Forget.named pulled ∨ ∃ t ∈ rest, Pulls db r t

/-- A target that pulls in nothing more than is there already. -/
theorem Cascaded.skip {targets pulled rest out : List Target} {t : Target}
    (h : Cascaded db spaces targets pulled rest out)
    (hno : ∀ r, Pulls db r t → r.id ∈ Forget.named targets ∨ r.id ∈ Forget.named pulled) :
    Cascaded db spaces targets pulled (t :: rest) out := by
  refine ⟨h.found, h.episodes, fun r hr => ?_⟩
  rw [h.named r hr, List.exists_mem_cons_iff]
  have hadds := hno r
  grind

/-- The citers of a document that are pulled in with it. -/
def pulledBy (db : Db) (targets pulled : List Target) (space : SpaceName) (d : EpisodeDetail) :
    List MemoryRecord :=
  (documentCiters db space d.episode.id).filter fun citer =>
    !seen targets citer.id.ulid && !seen pulled citer.id.ulid

theorem found_pulledBy {targets pulled : List Target} {space : SpaceName} {d : EpisodeDetail}
    (ht : Found db spaces (.episode space d)) (hp : ∀ t ∈ pulled, Found db spaces t) :
    ∀ t ∈ pulled ++ (pulledBy db targets pulled space d).map
      (fun record => Target.memory space record (some d.episode.id)), Found db spaces t := by
  refine List.forall_mem_append.mpr ⟨hp, List.forall_mem_map.mpr fun r hr => ?_⟩
  obtain ⟨hmem, hspace, -⟩ := mem_documentCiters.mp (List.mem_of_mem_filter hr)
  exact ⟨hmem, hspace, ht.2.2⟩

/-- A document pulls in its citers. -/
theorem Cascaded.pull (ha : Apart db) {targets pulled rest out : List Target} {space : SpaceName}
    {d : EpisodeDetail} (hf : ∀ t ∈ targets, Found db spaces t)
    (hp : ∀ t ∈ pulled, Found db spaces t) (hdoc : d.episode.isDocument = true)
    (h : Cascaded db spaces targets (pulled ++ (pulledBy db targets pulled space d).map
      fun record => .memory space record (some d.episode.id)) rest out) :
    Cascaded db spaces targets pulled (.episode space d :: rest) out := by
  refine ⟨h.found, ?_, fun r hr => ?_⟩
  · rw [h.episodes, List.filterMap_append (l := pulled), List.filterMap_map]
    simp [Function.comp_def, Target.episode?]
  · have hpulls : Pulls db r (.episode space d) ↔ r ∈ documentCiters db space d.episode.id :=
      and_iff_right hdoc
    rw [h.named r hr, List.exists_mem_cons_iff, named_append, named_citers, List.mem_append, hpulls,
      pulledBy, mem_unseen (fun q hq => (mem_documentCiters.mp hq).1) ha hf hp hr]
    grind

theorem cascadeFrom_ok (ha : Apart db) {targets pulled rest out : List Target} {cascade : Bool}
    (hf : ∀ t ∈ targets, Found db spaces t) (hp : ∀ t ∈ pulled, Found db spaces t)
    (hr : ∀ t ∈ rest, Found db spaces t)
    (h : cascadeFrom db targets cascade pulled rest = .ok out) :
    Cascaded db spaces targets pulled rest out := by
  induction rest generalizing pulled with
  | nil =>
    cases h
    refine ⟨fun t ht => (List.mem_append.mp ht).elim (hf t) (hp t), List.filterMap_append,
      fun r _ => ?_⟩
    simp [named_append]
  | cons t rest ih =>
    obtain ⟨ht, hrest⟩ := List.forall_mem_cons.mp hr
    cases t with
    | memory space q c => exact (ih hp hrest h).skip fun r hr => hr.elim
    | episode space d =>
      unfold cascadeFrom at h
      dsimp only at h
      split_ifs at h with hdoc hempty hcascade
      · refine (ih hp hrest h).skip fun r hr => ?_
        rw [List.isEmpty_iff, List.filter_eq_nil_iff] at hempty
        have hcited := hempty r hr.2
        have hmem := (mem_documentCiters.mp hr.2).1
        rw [← seen_iff ha hf hmem, ← seen_iff ha hp hmem]
        grind
      · exact (ih (found_pulledBy ht hp) hrest h).pull ha hf hp hdoc
      · exact (ih hp hrest h).skip fun r hr => absurd hr.1 hdoc

/-! ### Expansion -/

/-- Adding the links of a chain adds no episode, and just the links. -/
theorem addLinks_ok (ha : Apart db) {space : SpaceName} (hs : space ∈ spaces)
    {c : Option EpisodeId} {expanded : List Target} {chain : List MemoryRecord}
    (hf : ∀ t ∈ expanded, Found db spaces t)
    (hc : ∀ r ∈ chain, r ∈ db.memory ∧ r.space = space) :
    (∀ t ∈ addLinks space c expanded chain, Found db spaces t) ∧
      (addLinks space c expanded chain).filterMap Target.episode? =
        expanded.filterMap Target.episode? ∧
      ∀ r ∈ db.memory, r.id ∈ named (addLinks space c expanded chain) ↔
        r.id ∈ named expanded ∨ r ∈ chain := by
  induction chain generalizing expanded with
  | nil => exact ⟨hf, rfl, fun r _ => by simp [addLinks]⟩
  | cons link chain ih =>
    obtain ⟨hlink, hchain⟩ := List.forall_mem_cons.mp hc
    have hseen := seen_iff ha hf hlink.1
    unfold addLinks
    split_ifs with hs'
    · obtain ⟨hfound, heps, hnamed⟩ := ih hf hchain
      refine ⟨hfound, heps, fun r hr => ?_⟩
      rw [hnamed r hr, List.mem_cons]
      have : r = link → r.id ∈ named expanded := fun h => h ▸ hseen.mp hs'
      grind
    · have hadd : ∀ t ∈ expanded ++ [Target.memory space link c], Found db spaces t :=
        List.forall_mem_append.mpr ⟨hf, List.forall_mem_singleton.mpr ⟨hlink.1, hlink.2, hs⟩⟩
      obtain ⟨hfound, heps, hnamed⟩ := ih hadd hchain
      refine ⟨hfound, ?_, fun r hr => ?_⟩
      · rw [heps, List.filterMap_append]
        simp [Target.episode?]
      · have hsame : r.id = link.id ↔ r = link :=
          ⟨fun h => Table.eq_of_key hr hlink.1 h, fun h => h ▸ rfl⟩
        rw [hnamed r hr, named_append, List.mem_append, List.mem_cons, or_assoc]
        simp [named, Target.memory?, hsame]

/-- A chain that is read in full stays in the space it starts in. -/
theorem chain_space (hl : LinkedBack db) (hs : SameSpace db) {space : SpaceName} {id : MemoryId}
    {chain : List MemoryRecord} (h : historyChain db space id = .ok chain) :
    ∀ r ∈ chain, r ∈ db.memory ∧ r.space = space := by
  intro r hr
  obtain ⟨hmem, hon⟩ := (mem_historyChain h).mp hr
  obtain ⟨hin, hwhole⟩ := historyChain_isOk_iff.mp ⟨chain, h⟩
  obtain ⟨q, hq, rfl, rfl⟩ := hin id (by simp)
  refine ⟨hmem, ?_⟩
  rcases hon with hon | ⟨k, hk, hw⟩ | ⟨k, hk, hw⟩
  · rw [Table.eq_of_key hmem hq hon]
  · exact hs.walk hmem hq (hwhole.forward hl hk hw)
  · exact (hs.walk hq hmem hw).symm

theorem expandFrom_ok (ha : Apart db) (hl : LinkedBack db) (hs : SameSpace db)
    {expanded rest out : List Target} (hf : ∀ t ∈ expanded, Found db spaces t)
    (hr : ∀ t ∈ rest, Found db spaces t) (h : expandFrom db expanded rest = .ok out) :
    (∀ t ∈ out, Found db spaces t) ∧
      out.filterMap Target.episode? =
        expanded.filterMap Target.episode? ++ rest.filterMap Target.episode? ∧
      ∀ q ∈ db.memory, q.id ∈ named out ↔
        q.id ∈ named expanded ∨ ∃ r ∈ db.memory, r.id ∈ named rest ∧ OnChain db r.id q.id := by
  induction rest generalizing expanded with
  | nil =>
    cases h
    exact ⟨hf, by simp, fun q _ => by simp [named]⟩
  | cons t rest ih =>
    obtain ⟨ht, hrest⟩ := List.forall_mem_cons.mp hr
    cases t with
    | memory space r c =>
      unfold expandFrom at h
      split at h
      · cases h
      · next chain hchain =>
        have hadd := addLinks_ok ha ht.2.2 (c := c) hf (chain_space hl hs hchain)
        obtain ⟨hfound, heps, hnamed⟩ := ih hadd.1 hrest h
        refine ⟨hfound, heps.trans ?_, fun q hq => ?_⟩
        · rw [hadd.2.1]
          rfl
        · rw [hnamed q hq, hadd.2.2 q hq, or_assoc, mem_historyChain hchain]
          refine or_congr_right ?_
          constructor
          · rintro (⟨-, hon⟩ | ⟨s, hs, hid, hon⟩)
            · exact ⟨r, ht.1, List.mem_cons_self, hon⟩
            · exact ⟨s, hs, List.mem_cons_of_mem _ hid, hon⟩
          · rintro ⟨s, hs, hid, hon⟩
            rcases List.mem_cons.mp hid with hid | hid
            · exact .inl ⟨hq, hid ▸ hon⟩
            · exact .inr ⟨s, hs, hid, hon⟩
    | episode space d =>
      have hadd : ∀ t ∈ expanded ++ [Target.episode space d], Found db spaces t :=
        List.forall_mem_append.mpr ⟨hf, List.forall_mem_singleton.mpr ht⟩
      obtain ⟨hfound, heps, hnamed⟩ := ih hadd hrest h
      refine ⟨hfound, heps.trans ?_, fun q hq => ?_⟩
      · rw [List.filterMap_append, List.append_assoc]
        rfl
      · rw [hnamed q hq, named_append]
        simp [named, Target.memory?]

/-! ### The purge -/

/-- What a purge that is carried out leaves: it deletes the chains of its seeds, and of the
episodes those it selected. -/
structure Purged (db : Db) (targets : List Target) (db' : Db) : Prop where
  memory : ∀ r, r ∈ db'.memory ↔
    r ∈ db.memory ∧ ¬ ∃ s, Seed db targets s ∧ OnChain db s.id r.id
  episode : ∀ e, e ∈ db'.episode ↔
    e ∈ db.episode ∧ e.id ∉ targets.filterMap Target.episode?

theorem purged (ha : Apart db) (hl : LinkedBack db) (hs : SameSpace db)
    {targets acted : List Target}
    {cascade : Bool} (hf : ∀ t ∈ targets, Found db spaces t)
    (h : acting db true cascade targets = .ok acted) :
    Purged db targets (forgetPurge db (forgetRequest spaces true acted)).1 := by
  unfold acting at h
  rw [if_pos rfl] at h
  split at h
  · cases h
  · next cascaded hcascade =>
    have hnone : ∀ t ∈ ([] : List Target), Found db spaces t := fun t ht =>
      absurd ht List.not_mem_nil
    obtain ⟨hfound, heps, hnamed⟩ := cascadeFrom_ok ha hf hnone hf hcascade
    obtain ⟨hfound', heps', hnamed'⟩ := expandFrom_ok ha hl hs hnone hfound h
    have hseed (s : MemoryRecord) : Seed db targets s ↔ s ∈ db.memory ∧ s.id ∈ named cascaded :=
      and_congr_right fun hmem => by
        rw [hnamed s hmem]
        simp [named_nil]
    refine ⟨fun r => ?_, fun e => ?_⟩
    · rw [forgetPurge, Table.mem_deleteKeys]
      refine and_congr_right fun hr => not_congr ?_
      have hacted : r.id ∈ named acted ↔ ∃ s, Seed db targets s ∧ OnChain db s.id r.id := by
        rw [hnamed' r hr]
        simp [named_nil, hseed, and_assoc]
      refine (and_iff_left_of_imp fun hid => ?_).trans hacted
      exact decide_eq_true (space_of_named hfound' hr hid)
    · rw [forgetPurge, Table.mem_deleteKeys]
      refine and_congr_right fun he => not_congr ?_
      have hacted : acted.filterMap Target.episode? = targets.filterMap Target.episode? := by
        rw [heps', heps]
        simp
      rw [← hacted]
      refine and_iff_left_of_imp fun hid => ?_
      exact decide_eq_true (space_of_episode hfound' he hid)

end Agmem.Tools.Forget
