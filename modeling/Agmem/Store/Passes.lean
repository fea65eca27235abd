import Agmem.Store.Block
import Mathlib.Data.List.Induction

/-! When a list of blocks goes through. The blocks of a batch run one after the other, so
a row that two of them name is closed by the first and gone for the second; the
exception is a row that holds the first one's own claim, which a duplicate leaves
alone. Everything else the blocks need can be read off the table the first of them
meets, and so can the block at which a list runs into the unique index. -/

namespace Agmem.Store

open Core Relational Claims

variable {db db' : Db} {space : SpaceName}

/-! ### The blocks of a batch -/

/-- What the blocks need of the table the first of them meets. -/
structure Passes (db : Db) (space : SpaceName) (ms : List MemoryBinds) : Prop where
  once : ∀ m ∈ ms, ∀ r ∈ db.memory, r.contentHash ≠ m.hash → m.old.count r.id ≤ 1
  apart : ms.Pairwise fun p m =>
    ∀ r ∈ db.memory, r.id ∈ p.old → r.id ∈ m.old → r.contentHash = p.hash
  untwinned : ∀ m ∈ ms, ∀ r ∈ db.memory, r.id ∈ m.old → r.contentHash ≠ m.hash →
    ¬ Twin db.memory r m.row.validFrom
  fits : EachTurn (MemoryBinds.assertion db)
    (fun L m => m.hash ∉ L → fits db.dimension m.row.embedding = true) (liveClaims db space) ms

/-- The same for one block, after those of `pre`. -/
structure Turn (db : Db) (space : SpaceName) (pre : List MemoryBinds) (m : MemoryBinds) : Prop where
  once : ∀ r ∈ db.memory, r.contentHash ≠ m.hash → m.old.count r.id ≤ 1
  apart : ∀ p ∈ pre, ∀ r ∈ db.memory, r.id ∈ p.old → r.id ∈ m.old → r.contentHash = p.hash
  untwinned : ∀ r ∈ db.memory, r.id ∈ m.old → r.contentHash ≠ m.hash →
    ¬ Twin db.memory r m.row.validFrom
  fits : m.hash ∉ standing (liveClaims db space) (pre.map (MemoryBinds.assertion db)) →
    fits db.dimension m.row.embedding = true

theorem passes_concat {ms : List MemoryBinds} {m : MemoryBinds} :
    Passes db space (ms ++ [m]) ↔ Passes db space ms ∧ Turn db space ms m := by
  have hpair : (ms ++ [m]).Pairwise (fun p m =>
      ∀ r ∈ db.memory, r.id ∈ p.old → r.id ∈ m.old → r.contentHash = p.hash) ↔
      ms.Pairwise (fun p m =>
        ∀ r ∈ db.memory, r.id ∈ p.old → r.id ∈ m.old → r.contentHash = p.hash) ∧
      ∀ p ∈ ms, ∀ r ∈ db.memory, r.id ∈ p.old → r.id ∈ m.old → r.contentHash = p.hash := by
    simp [List.pairwise_append]
  constructor
  · rintro ⟨honce, hapart, htw, hfits⟩
    rw [List.forall_mem_append] at honce htw
    rw [eachTurn_append] at hfits
    exact ⟨⟨honce.1, (hpair.mp hapart).1, htw.1, hfits.1⟩,
      honce.2 m (by simp), (hpair.mp hapart).2, htw.2 m (by simp), hfits.2.1⟩
  · rintro ⟨⟨honce, hapart, htw, hfits⟩, ⟨honce', hapart', htw', hfits'⟩⟩
    refine ⟨List.forall_mem_append.mpr ⟨honce, by simpa using honce'⟩, hpair.mpr ⟨hapart, hapart'⟩,
      List.forall_mem_append.mpr ⟨htw, by simpa using htw'⟩,
      eachTurn_append.mpr ⟨hfits, hfits', trivial⟩⟩

theorem WroteAll.dimension {ms : List MemoryBinds} {ws : List (Written MemoryId)}
    (h : WroteAll space db ms ws db') : db'.dimension = db.dimension := by
  induction h with
  | nil db => rfl
  | cons h _ ih => cases h <;> exact ih

/-- What the next block needs of the table it meets, read off the table the first one met. -/
theorem block_iff_turn {pre : List MemoryBinds} {ws : List (Written MemoryId)} {m : MemoryBinds}
    (h : WroteAll space db pre ws db') (hw : db.WellFormed) (hm : ∀ p ∈ pre, p.Coherent space)
    (hin : ∀ p ∈ pre, InSpace db.memory space p.old) (hopen : Open db.memory m.old) :
    Block db' space m ↔ Turn db space pre m := by
  have hback {r' : MemoryRecord} (hr' : r' ∈ db'.memory) (hid : r'.id ∈ m.old) :
      ∃ r ∈ db.memory, r.isLive = true ∧ Evolves r r' := by
    obtain ⟨r, hr, hk, hl⟩ := hopen r'.id hid
    exact ⟨r, hr, hl, h.grown.1.evolves hw hr hr' hk.symm⟩
  have hlive {r r' : MemoryRecord} (hr : r ∈ db.memory) (hr' : r' ∈ db'.memory)
      (hid : r'.id = r.id) := h.live_iff hw hm hin hr hr' hid
  have hclaims := h.liveClaims hw hm hin
  have hdim := h.dimension
  constructor
  · rintro ⟨htargets, honce, htw, hfits⟩
    have hstill {r : MemoryRecord} (hr : r ∈ db.memory) (hid : r.id ∈ m.old) :
        ∃ r' ∈ db'.memory, Evolves r r' ∧ r'.isLive = true := by
      obtain ⟨r', hr', hk, hl⟩ := htargets r.id hid
      exact ⟨r', hr', h.grown.1.evolves hw hr hr' hk, hl⟩
    refine ⟨fun r hr hne => ?_, fun p hp r hr hidp hid => ?_, fun r hr hid hne => ?_, ?_⟩
    · obtain ⟨r', hr', he⟩ := h.grown.2 r hr
      rw [← he.id]
      exact honce r' hr' (he.contentHash ▸ hne)
    · obtain ⟨r', hr', he, hl⟩ := hstill hr hid
      exact ((hlive hr hr' he.id).mp hl).2 p hp hidp
    · obtain ⟨r', hr', he, hl⟩ := hstill hr hid
      rw [← h.twin_iff hw hm hin hr hr' he hl]
      exact htw r' hr' hl (he.id ▸ hid) (he.contentHash ▸ hne)
    · rwa [hclaims, hdim] at hfits
  · rintro ⟨honce, hapart, htw, hfits⟩
    refine ⟨fun id hid => ?_, fun r' hr' hne => ?_, fun r' hr' hl hid hne => ?_, ?_⟩
    · obtain ⟨r, hr, rfl, hl⟩ := hopen id hid
      obtain ⟨r', hr', he⟩ := h.grown.2 r hr
      exact ⟨r', hr', he.id,
        (hlive hr hr' he.id).mpr ⟨hl, fun p hp hidp => hapart p hp r hr hidp hid⟩⟩
    · by_cases hid : r'.id ∈ m.old
      · obtain ⟨r, hr, -, he⟩ := hback hr' hid
        rw [he.id]
        exact honce r hr (he.contentHash ▸ hne)
      · rw [List.count_eq_zero_of_not_mem hid]
        exact Nat.zero_le 1
    · obtain ⟨r, hr, -, he⟩ := hback hr' hid
      rw [h.twin_iff hw hm hin hr hr' he hl]
      exact htw r hr (he.id ▸ hid) (he.contentHash ▸ hne)
    · rwa [hclaims, hdim]

theorem Aside.passes_iff (ha : Aside db db') {ms : List MemoryBinds} :
    Passes db' space ms ↔ Passes db space ms := by
  constructor
  · rintro ⟨h₁, h₂, h₃, h₄⟩
    rw [ha.memory] at h₁ h₂ h₃
    rw [ha.liveClaims, ha.assertion, ha.dimension] at h₄
    exact ⟨h₁, h₂, h₃, h₄⟩
  · rintro ⟨h₁, h₂, h₃, h₄⟩
    rw [← ha.memory] at h₁ h₂ h₃
    rw [← ha.liveClaims, ← ha.assertion, ← ha.dimension] at h₄
    exact ⟨h₁, h₂, h₃, h₄⟩

section Blocks

variable {episode : Option EpisodeId} {now : ℕ → Timestamp} {ms : List MemoryBinds} {i : ℕ}

theorem writeMemories_concat {m : MemoryBinds} :
    writeMemories space episode now i db (ms ++ [m]) =
      (writeMemories space episode now i db ms).bind fun u =>
        (writeMemory u.1 space episode m (now (i + ms.length))).map
          fun v => (v.1, u.2 ++ [v.2]) := by
  induction ms generalizing db i with
  | nil =>
    simp only [List.nil_append, writeMemories, Except.bind, List.length_nil, Nat.add_zero]
    cases writeMemory db space episode m (now i) <;> rfl
  | cons m' ms ih =>
    simp only [List.cons_append, writeMemories]
    cases writeMemory db space episode m' (now i) with
    | error e => rfl
    | ok u =>
      simp only [ih, List.length_cons]
      rw [show i + 1 + ms.length = i + (ms.length + 1) by omega]
      cases writeMemories space episode now (i + 1) u.1 ms with
      | error e => rfl
      | ok v =>
        simp only [Except.bind]
        cases writeMemory v.1 space episode m (now (i + (ms.length + 1))) <;> rfl

theorem concat_isOk_iff {m : MemoryBinds} :
    (∃ out, writeMemories space episode now i db (ms ++ [m]) = .ok out) ↔
      ∃ db₁ ws, writeMemories space episode now i db ms = .ok (db₁, ws) ∧
        ∃ out, writeMemory db₁ space episode m (now (i + ms.length)) = .ok out := by
  rw [writeMemories_concat]
  cases writeMemories space episode now i db ms with
  | error e => simp [Except.bind]
  | ok u =>
    obtain ⟨db₁, ws⟩ := u
    constructor
    · rintro ⟨out, h⟩
      cases hv : writeMemory db₁ space episode m (now (i + ms.length)) with
      | error e => simp [Except.bind, hv, Except.map] at h
      | ok v => exact ⟨db₁, ws, rfl, v, hv⟩
    · rintro ⟨db₂, ws₂, h, v, hv⟩
      cases h
      exact ⟨(v.1, ws ++ [v.2]), by simp only [Except.bind, hv, Except.map]⟩

variable (hw : db.WellFormed) (hin : ∀ m ∈ ms, InSpace db.memory space m.old)
include hw hin

theorem writeMemories_wroteAll {ws : List (Written MemoryId)}
    (h : writeMemories space episode now i db ms = .ok (db', ws)) :
    WroteAll space db ms ws db' := by
  refine writeMemories_ok (fun m hm' id hid => ?_) h
  obtain ⟨r, hr, rfl, -⟩ := hin m hm' id hid
  exact hw.memory r hr

variable (hm : ∀ m ∈ ms, m.Coherent space) (hopen : ∀ m ∈ ms, Open db.memory m.old)
include hm hopen

theorem writeMemories_isOk_iff :
    (∃ out, writeMemories space episode now i db ms = .ok out) ↔ Passes db space ms := by
  induction ms using List.reverseRecOn with
  | nil => exact iff_of_true ⟨_, rfl⟩ ⟨by simp, .nil, by simp, trivial⟩
  | append_singleton ms m ih =>
    rw [List.forall_mem_append, List.forall_mem_singleton] at hm hin hopen
    have ih := ih hin.1 hm.1 hopen.1
    have hturn {db₁ : Db} {ws : List (Written MemoryId)}
        (h : writeMemories space episode now i db ms = .ok (db₁, ws)) :
        (∃ out, writeMemory db₁ space episode m (now (i + ms.length)) = .ok out) ↔
          Turn db space ms m := by
      have hall := writeMemories_wroteAll hw hin.1 h
      rw [writeMemory_isOk_iff (hall.wellFormed hm.1 hin.1 hw) hm.2 (hin.2.kept hall.grown.2),
        block_iff_turn hall hw hm.1 hin.1 hopen.2]
    rw [concat_isOk_iff, passes_concat, ← ih]
    constructor
    · rintro ⟨db₁, ws, h, hok⟩
      exact ⟨⟨_, h⟩, (hturn h).mp hok⟩
    · rintro ⟨⟨⟨db₁, ws⟩, h⟩, ht⟩
      exact ⟨db₁, ws, h, (hturn h).mpr ht⟩

omit hw hin hm hopen in
/-- The first block that fails is where a list of blocks fails. -/
theorem writeMemories_error_iff {e : EngineError} :
    writeMemories space episode now i db ms = .error e ↔ ∃ pre m post db₁ ws,
      ms = pre ++ m :: post ∧ writeMemories space episode now i db pre = .ok (db₁, ws) ∧
        writeMemory db₁ space episode m (now (i + pre.length)) = .error e := by
  induction ms using List.reverseRecOn with
  | nil => simp [writeMemories]
  | append_singleton ms m ih =>
    rw [writeMemories_concat]
    constructor
    · intro h
      cases hms : writeMemories space episode now i db ms with
      | error e' =>
        rw [hms] at h
        cases h
        obtain ⟨pre, m', post, db₁, ws, rfl, hpre, he⟩ := ih.mp hms
        exact ⟨pre, m', post ++ [m], db₁, ws, by simp, hpre, he⟩
      | ok u =>
        refine ⟨ms, m, [], u.1, u.2, by simp, hms, ?_⟩
        cases hm : writeMemory u.1 space episode m (now (i + ms.length)) with
        | error e' => simpa [hms, Except.bind, hm, Except.map] using h
        | ok v => simp [hms, Except.bind, hm, Except.map] at h
    · rintro ⟨pre, m', post, db₁, ws, he, hpre, herr⟩
      rcases List.eq_nil_or_concat' post with rfl | ⟨post, q, rfl⟩
      · obtain ⟨rfl, hmm⟩ := List.append_inj' he rfl
        cases hmm
        simp only [hpre, Except.bind, herr, Except.map]
      · rw [show pre ++ m' :: (post ++ [q]) = (pre ++ m' :: post) ++ [q] by simp] at he
        obtain ⟨rfl, -⟩ := List.append_inj' he rfl
        rw [ih.mpr ⟨pre, m', post, db₁, ws, rfl, hpre, herr⟩]
        rfl

/-- A list of blocks runs into an index exactly when the blocks before one pass and that one gets
to close a row that has a twin. -/
theorem writeMemories_index_iff {index : Index} :
    writeMemories space episode now i db ms = .error (.indexExists index) ↔
      index = .memHashLive ∧ ∃ pre m post, ms = pre ++ m :: post ∧ Passes db space pre ∧
        (m.hash ∉ standing (liveClaims db space) (pre.map (MemoryBinds.assertion db)) →
          fits db.dimension m.row.embedding = true) ∧
        ∃ r ∈ db.memory, r.id ∈ m.old ∧ r.contentHash ≠ m.hash ∧
          (∀ p ∈ pre, r.id ∈ p.old → r.contentHash = p.hash) ∧
          Twin db.memory r m.row.validFrom := by
  have hturn {pre : List MemoryBinds} {m : MemoryBinds} {post : List MemoryBinds} {db₁ : Db}
      {ws : List (Written MemoryId)} (he : ms = pre ++ m :: post)
      (h : writeMemories space episode now i db pre = .ok (db₁, ws)) :
      writeMemory db₁ space episode m (now (i + pre.length)) = .error (.indexExists index) ↔
        index = .memHashLive ∧
        (m.hash ∉ standing (liveClaims db space) (pre.map (MemoryBinds.assertion db)) →
          fits db.dimension m.row.embedding = true) ∧
        ∃ r ∈ db.memory, r.id ∈ m.old ∧ r.contentHash ≠ m.hash ∧
          (∀ p ∈ pre, r.id ∈ p.old → r.contentHash = p.hash) ∧
          Twin db.memory r m.row.validFrom := by
    rw [he, List.forall_mem_append, List.forall_mem_cons] at hm hin hopen
    have hall := writeMemories_wroteAll hw hin.1 h
    rw [writeMemory_index_iff (hall.wellFormed hm.1 hin.1 hw) hm.2.1
      (hin.2.1.kept hall.grown.2), hall.liveClaims hw hm.1 hin.1, hall.dimension]
    refine and_congr_right fun _ => and_congr_right fun _ => ⟨?_, ?_⟩
    · rintro ⟨r', hr', hl, hid, hne, htw⟩
      obtain ⟨r, hr, hk, -⟩ := hopen.2.1 r'.id hid
      have hev := hall.grown.1.evolves hw hr hr' hk.symm
      refine ⟨r, hr, hk ▸ hid, hev.contentHash ▸ hne,
        ((hall.live_iff hw hm.1 hin.1 hr hr' hk.symm).mp hl).2, ?_⟩
      rwa [hall.twin_iff hw hm.1 hin.1 hr hr' hev hl] at htw
    · rintro ⟨r, hr, hid, hne, hpre, htw⟩
      obtain ⟨q, hq, hk, hl⟩ := hopen.2.1 r.id hid
      obtain rfl : q = r := Table.eq_of_key hq hr hk
      obtain ⟨r', hr', hev⟩ := hall.grown.2 q hr
      have hl' := (hall.live_iff hw hm.1 hin.1 hr hr' hev.id).mpr ⟨hl, hpre⟩
      refine ⟨r', hr', hl', hev.id ▸ hid, hev.contentHash ▸ hne, ?_⟩
      rwa [hall.twin_iff hw hm.1 hin.1 hr hr' hev hl']
  have hpasses {pre : List MemoryBinds} {m : MemoryBinds} {post : List MemoryBinds}
      (he : ms = pre ++ m :: post) :
      (∃ out, writeMemories space episode now i db pre = .ok out) ↔ Passes db space pre := by
    rw [he, List.forall_mem_append] at hm hin hopen
    exact writeMemories_isOk_iff hw hin.1 hm.1 hopen.1
  rw [writeMemories_error_iff]
  constructor
  · rintro ⟨pre, m, post, db₁, ws, he, hpre, herr⟩
    obtain ⟨hix, hit⟩ := (hturn he hpre).mp herr
    exact ⟨hix, pre, m, post, he, (hpasses he).mp ⟨_, hpre⟩, hit⟩
  · rintro ⟨hix, pre, m, post, he, hpass, hit⟩
    obtain ⟨⟨db₁, ws⟩, hpre⟩ := (hpasses he).mpr hpass
    exact ⟨pre, m, post, db₁, ws, he, hpre, (hturn he hpre).mpr ⟨hix, hit⟩⟩

end Blocks

/-! ### The episode -/

/-- Chunks go in exactly when their vectors have the width of the index. -/
theorem createChunks_cases (space : SpaceName) (e : EpisodeId) (at_ : Timestamp) (position : ℕ)
    (chunks : List NewChunk) (hc : ∀ c ∈ db.episodeChunk, c.id.ulid < db.minted) :
    (∀ c ∈ chunks, fits db.dimension c.embedding = true) ∧
        (∃ db', createChunks space e at_ position db chunks = .ok db') ∨
      ¬ (∀ c ∈ chunks, fits db.dimension c.embedding = true) ∧
        createChunks space e at_ position db chunks = .error .vectorWidth := by
  induction chunks generalizing db position with
  | nil => exact .inl ⟨by simp, db, rfl⟩
  | cons chunk chunks ih =>
    rw [List.forall_mem_cons]
    unfold createChunks
    cases hf : fits db.dimension chunk.embedding with
    | false => exact .inr ⟨by simp, by simp⟩
    | true =>
      have hins : (db.episodeChunk.insert? ⟨⟨db.minted⟩, e, space, chunk.text, position,
          chunk.embedding, at_⟩).isSome := by
        refine Table.insert?_isSome.mpr fun c hcm => ?_
        have hlt := hc c hcm
        refine ⟨fun h => ?_, fun h => ?_⟩ <;>
        · have hid : c.id = ⟨db.minted⟩ := h
          rw [hid] at hlt
          exact absurd hlt (lt_irrefl db.minted)
      obtain ⟨t, ht⟩ := Option.isSome_iff_exists.mp hins
      rw [if_pos rfl, ht]
      have hc' : ∀ c ∈ t, c.id.ulid < db.minted + 1 := by
        intro c hcm
        rw [Table.mem_iff, Table.insert?_eq_some.mp ht, List.mem_append, List.mem_singleton] at hcm
        rcases hcm with hcm | rfl
        · exact Nat.lt_succ_of_lt (hc c hcm)
        · exact Nat.lt_succ_self _
      let db₁ : Db := { db with episodeChunk := t, minted := db.minted + 1 }
      have ih₁ := @ih db₁ (position + 1) hc'
      rcases ih₁ with ⟨hall, hok⟩ | ⟨hno, herr⟩
      · exact .inl ⟨⟨rfl, hall⟩, hok⟩
      · exact .inr ⟨fun h => hno h.2, herr⟩

end Agmem.Store
