import Agmem.Store.LiveClaims

/-! When a block of a batch goes through. A block closes the rows it names, less the one
that already holds its claim; it needs every one of them open, none named twice, and
none with an earlier copy closed at the block's own start. What an earlier block leaves
of this can be read off the table it met: a row it named is open afterwards only if it
holds that block's claim, and no open row gains a twin. -/

namespace Agmem.Store

open Core Relational

variable {db db' : Db} {space : SpaceName} {m : MemoryBinds} {w : Written MemoryId}

/-! ### The rows a block closes -/

/-- What a block closes of the rows it names. -/
def closes (db : Db) (space : SpaceName) (m : MemoryBinds) : List MemoryId :=
  match liveHolder db space m.hash with
  | some dup => complement m.old [dup]
  | none => m.old

/-- An open row that a block names is closed by it unless it holds the block's claim. -/
theorem mem_closes (hin : InSpace db.memory space m.old) {r : MemoryRecord} (hr : r ∈ db.memory)
    (hl : r.isLive = true) :
    r.id ∈ closes db space m ↔ r.id ∈ m.old ∧ r.contentHash ≠ m.hash := by
  have hs (hid : r.id ∈ m.old) : r.space = space := by
    obtain ⟨q, hq, hk, hs⟩ := hin r.id hid
    rwa [← Table.eq_of_key hq hr hk]
  unfold closes
  split
  · next dup hdup =>
    obtain ⟨d, hd, rfl, hds, hdh, hdl⟩ := liveHolder_eq_some hdup
    rw [mem_complement, List.mem_singleton]
    refine and_congr_right fun hid => not_congr ⟨fun h => ?_, fun h => ?_⟩
    · rw [Table.eq_of_key hr hd h, hdh]
    · rw [live_unique hr hd hl hdl ((hs hid).trans hds.symm) (h.trans hdh.symm)]
  · next hnone =>
    refine ⟨fun hid => ⟨hid, fun hh => ?_⟩, fun h => h.1⟩
    rw [liveHolder_eq_none.mp hnone r hr (hs hid) hh] at hl
    cases hl

theorem open_closes_iff : Open db.memory (closes db space m) ↔ Open db.memory m.old := by
  unfold closes
  split
  · next dup hdup =>
    obtain ⟨d, hd, rfl, -, -, hdl⟩ := liveHolder_eq_some hdup
    constructor
    · intro h id hid
      by_cases he : id = d.id
      · exact ⟨d, hd, he.symm, hdl⟩
      · exact h id (mem_complement.mpr ⟨hid, by simpa using he⟩)
    · exact fun h id hid => h id (mem_complement.mp hid).1
  · exact Iff.rfl

theorem count_closes {id : MemoryId} (hid : id ∈ closes db space m) :
    (closes db space m).count id = m.old.count id := by
  unfold closes at hid ⊢
  split at hid
  · exact List.count_filter (by simpa using (mem_complement.mp hid).2)
  · rfl

/-- No row is closed twice when no row of another claim is named twice. -/
theorem closes_nodup_iff (hin : InSpace db.memory space m.old) (hopen : Open db.memory m.old) :
    (closes db space m).Nodup ↔
      ∀ r ∈ db.memory, r.contentHash ≠ m.hash → m.old.count r.id ≤ 1 := by
  rw [List.nodup_iff_count_le_one]
  constructor
  · intro h r hr hne
    by_cases hid : r.id ∈ m.old
    · obtain ⟨q, hq, hk, hl⟩ := hopen r.id hid
      rw [Table.eq_of_key hq hr hk] at hl
      rw [← count_closes ((mem_closes hin hr hl).mpr ⟨hid, hne⟩)]
      exact h r.id
    · rw [List.count_eq_zero_of_not_mem hid]
      exact Nat.zero_le 1
  · intro h id
    by_cases hid : id ∈ closes db space m
    · obtain ⟨r, hr, rfl, hl⟩ := open_closes_iff.mpr hopen id hid
      rw [count_closes hid]
      exact h r hr ((mem_closes hin hr hl).mp hid).2
    · rw [List.count_eq_zero_of_not_mem hid]
      exact Nat.zero_le 1

theorem untwinned_closes_iff (hin : InSpace db.memory space m.old) {boundary : Timestamp} :
    Untwinned db.memory (closes db space m) boundary ↔ ∀ r ∈ db.memory, r.isLive = true →
      r.id ∈ m.old → r.contentHash ≠ m.hash → ¬ Twin db.memory r boundary := by
  refine forall₂_congr fun r hr => ⟨fun h hl hid hne => ?_, fun h hid hl => ?_⟩
  · exact h ((mem_closes hin hr hl).mpr ⟨hid, hne⟩) hl
  · obtain ⟨hid, hne⟩ := (mem_closes hin hr hl).mp hid
    exact h hl hid hne

/-! ### When it goes through -/

/-- What the block of one memory needs of the table it meets. -/
structure Block (db : Db) (space : SpaceName) (m : MemoryBinds) : Prop where
  targets : Open db.memory m.old
  once : ∀ r ∈ db.memory, r.contentHash ≠ m.hash → m.old.count r.id ≤ 1
  untwinned : ∀ r ∈ db.memory, r.isLive = true → r.id ∈ m.old → r.contentHash ≠ m.hash →
    ¬ Twin db.memory r m.row.validFrom
  fits : m.hash ∉ liveClaims db space → fits db.dimension m.row.embedding = true

theorem mem_liveClaims_iff {h : Text} :
    h ∈ liveClaims db space ↔ ∃ dup, liveHolder db space h = some dup := by
  rw [← Option.ne_none_iff_exists', ne_eq, liveHolder_eq_none]
  constructor
  · rintro ⟨r, hr, hs, hh, hl⟩ hno
    rw [hno r hr hs hh] at hl
    cases hl
  · intro hno
    by_contra hc
    refine hno fun q hq hs hh => ?_
    by_contra hl
    exact hc ⟨q, hq, hs, hh, (Bool.not_eq_false _).mp hl⟩

theorem not_mem_liveClaims {hash : Text} (h : liveHolder db space hash = none) :
    hash ∉ liveClaims db space := by
  rw [mem_liveClaims_iff, h]
  rintro ⟨dup, hdup⟩
  cases hdup

section

variable {episode : Option EpisodeId} {now : Timestamp}

/-- The block of a claim that stands is the closing alone. -/
theorem writeMemory_of_holder {dup : MemoryId} (h : liveHolder db space m.hash = some dup) :
    writeMemory db space episode m now =
      (closeTargets db m.old (closes db space m) dup m.row.validFrom).map
        fun db' => (db', .duplicate dup) := by
  unfold writeMemory closes
  rw [h]
  dsimp only
  cases closeTargets db m.old (complement m.old [dup]) dup m.row.validFrom <;> rfl

variable (hw : db.WellFormed) (hm : m.Coherent space) (hin : InSpace db.memory space m.old)
include hw hm hin

/-- The block of a new claim is the insert and the closing; a row just inserted changes
nothing about the closing. -/
theorem writeMemory_of_create (episode : Option EpisodeId) (now : Timestamp)
    (h : liveHolder db space m.hash = none)
    (hfits : fits db.dimension m.row.embedding = true) :
    ∃ db₁ : Db, (∃ row : MemoryRecord, row.id ∉ m.old ∧ row.invalidAt = none ∧
        db₁.memory.rows = db.memory.rows ++ [row]) ∧
      writeMemory db space episode m now =
        (closeTargets db₁ m.old m.old ⟨db.minted⟩ m.row.validFrom).map
          fun db' => (db', .created ⟨db.minted⟩) := by
  have hnone : ∀ q ∈ db.memory, q.space = m.row.space → q.contentHash = m.row.contentHash →
      q.isLive = false := by
    rw [hm.space, hm.hash]
    exact liveHolder_eq_none.mp h
  obtain ⟨db₁, id, hcreate⟩ := createMemory_isOk hw.memory m.row
    (m.src.getD (episode.elim .agent .episode)) now hfits hnone
  obtain ⟨-, rfl, t, ht, rfl⟩ := createMemory_ok hcreate
  refine ⟨{ db with memory := t, minted := db.minted + 1 }, ⟨_, fun hid => ?_, rfl, ht⟩, ?_⟩
  · obtain ⟨q, hq, hk, -⟩ := hin _ hid
    have hlt := hw.memory q hq
    rw [hk] at hlt
    exact absurd hlt (lt_irrefl db.minted)
  · unfold writeMemory
    rw [h]
    dsimp only
    rw [hcreate]
    dsimp only
    cases closeTargets { db with memory := t, minted := db.minted + 1 } m.old m.old ⟨db.minted⟩
      m.row.validFrom <;> rfl

omit hw hm in
/-- What a block needs, in terms of the rows it closes. -/
theorem block_iff_closes (hopen : Open db.memory m.old) : Block db space m ↔
    (closes db space m).Nodup ∧ Untwinned db.memory (closes db space m) m.row.validFrom ∧
      (m.hash ∉ liveClaims db space → fits db.dimension m.row.embedding = true) := by
  rw [closes_nodup_iff hin hopen, untwinned_closes_iff hin]
  exact ⟨fun h => ⟨h.once, h.untwinned, h.fits⟩, fun h => ⟨hopen, h.1, h.2.1, h.2.2⟩⟩

omit hw hm in
/-- What a block that went through has written, it could write. -/
theorem block_of_wrote {w : Written MemoryId} (h : Wrote space m db w db') :
    Block db space m := by
  refine (block_iff_closes hin h.targets_open).mpr ?_
  cases h with
  | created source now hf holder nodup targets untwinned rows =>
    have hc : closes db space m = m.old := by
      unfold closes
      rw [liveHolder_eq_none.mpr holder]
    rw [hc]
    exact ⟨nodup, untwinned, fun _ => hf⟩
  | @duplicate dup t mem inSpace hash live nodup targets untwinned rows =>
    have hL : m.hash ∈ liveClaims db space := ⟨dup, mem, inSpace, hash, live⟩
    obtain ⟨d, hd⟩ := mem_liveClaims_iff.mp hL
    obtain ⟨q, hq, rfl, hqs, hqh, hql⟩ := liveHolder_eq_some hd
    have hqd : q = dup :=
      live_unique hq mem hql live (hqs.trans inSpace.symm) (hqh.trans hash.symm)
    have hc : closes db space m = complement m.old [dup.id] := by
      unfold closes
      rw [hd, hqd]
    rw [hc]
    exact ⟨nodup, untwinned, fun h => absurd hL h⟩

/-- What a block that goes through needed, and that it needs no more. -/
theorem writeMemory_isOk_iff :
    (∃ out, writeMemory db space episode m now = .ok out) ↔ Block db space m := by
  have hmap {x : Except EngineError Db} {w : Written MemoryId} :
      (∃ out, (x.map fun db' => (db', w)) = .ok out) ↔ ∃ db', x = .ok db' := by
    cases x <;> simp [Except.map]
  constructor
  · rintro ⟨⟨db', w⟩, h⟩
    have hold : ∀ id ∈ m.old, id.ulid < db.minted := fun id hid => by
      obtain ⟨q, hq, rfl, -⟩ := hin id hid
      exact hw.memory q hq
    exact block_of_wrote hin (writeMemory_ok hold h)
  · intro hb
    obtain ⟨hnd, htw, hfit⟩ := (block_iff_closes hin hb.targets).mp hb
    cases h : liveHolder db space m.hash with
    | some dup =>
      rw [writeMemory_of_holder h, hmap, closeTargets_isOk_iff]
      exact ⟨hnd, open_closes_iff.mpr hb.targets, htw⟩
    | none =>
      have hL := not_mem_liveClaims h
      have hc : closes db space m = m.old := by unfold closes; rw [h]
      obtain ⟨db₁, ⟨row, hrow, hlive, hrows⟩, he⟩ :=
        writeMemory_of_create hw hm hin episode now h (hfit hL)
      rw [he, hmap, closeTargets_isOk_iff, open_append hrows hrow,
        untwinned_append hrows hrow hlive, ← hc]
      exact ⟨hnd, open_closes_iff.mpr hb.targets, htw⟩

/-- A block runs into an index exactly when it gets to close a row that has a twin. -/
theorem writeMemory_index_iff {index : Index} :
    writeMemory db space episode m now = .error (.indexExists index) ↔ index = .memHashLive ∧
      (m.hash ∉ liveClaims db space → fits db.dimension m.row.embedding = true) ∧
      ∃ r ∈ db.memory, r.isLive = true ∧ r.id ∈ m.old ∧ r.contentHash ≠ m.hash ∧
        Twin db.memory r m.row.validFrom := by
  have hmap {x : Except EngineError Db} {w : Written MemoryId} {e : EngineError} :
      (x.map fun db' => (db', w)) = .error e ↔ x = .error e := by
    cases x <;> simp [Except.map]
  have htwin : ¬ Untwinned db.memory (closes db space m) m.row.validFrom ↔
      ∃ r ∈ db.memory, r.isLive = true ∧ r.id ∈ m.old ∧ r.contentHash ≠ m.hash ∧
        Twin db.memory r m.row.validFrom := by
    rw [untwinned_closes_iff hin]
    push Not
    rfl
  rw [← htwin]
  cases h : liveHolder db space m.hash with
  | some dup =>
    have hL : m.hash ∈ liveClaims db space := mem_liveClaims_iff.mpr ⟨dup, h⟩
    rw [writeMemory_of_holder h, hmap, closeTargets_error_iff]
    simp [hL]
  | none =>
    have hL := not_mem_liveClaims h
    cases hf : fits db.dimension m.row.embedding with
    | false =>
      have he : writeMemory db space episode m now = .error .vectorWidth := by
        unfold writeMemory createMemory
        simp [h, hf]
      simp [he, hL]
    | true =>
      have hc : closes db space m = m.old := by unfold closes; rw [h]
      obtain ⟨db₁, ⟨row, hrow, hlive, hrows⟩, he⟩ :=
        writeMemory_of_create hw hm hin episode now h hf
      rw [he, hmap, closeTargets_error_iff, untwinned_append hrows hrow hlive, hc]
      simp

end

/-! ### What it leaves for the next -/

/-- After a block a row is open if it was, and was not named under another claim. -/
theorem Wrote.live_iff (h : Wrote space m db w db') (hw : db.WellFormed)
    (hin : InSpace db.memory space m.old) {r r' : MemoryRecord} (hr : r ∈ db.memory)
    (hr' : r' ∈ db'.memory) (hid : r'.id = r.id) :
    r'.isLive = true ↔ r.isLive = true ∧ (r.id ∈ m.old → r.contentHash = m.hash) := by
  have hs (hid : r.id ∈ m.old) : r.space = space := by
    obtain ⟨q, hq, hk, hs⟩ := hin r.id hid
    rwa [← Table.eq_of_key hq hr hk]
  cases h with
  | @created source now t _ holder _ _ _ rows =>
    rcases (mem_of_rows_map_append rows).mp hr' with ⟨q, hq, rfl⟩ | rfl
    · rw [closing_id] at hid
      obtain rfl : q = r := Table.eq_of_key hq hr hid
      rw [closing_isLive]
      refine and_congr_right fun hl => ⟨fun h hid => absurd hid h, fun h hid => ?_⟩
      rw [holder q hr (hs hid) (h hid)] at hl
      cases hl
    · have hlt := hw.memory r hr
      rw [← hid] at hlt
      exact absurd hlt (lt_irrefl db.minted)
  | @duplicate dup t mem inSpace hash live _ _ _ rows =>
    obtain ⟨q, hq, rfl⟩ := (mem_of_rows_map rows).mp hr'
    rw [closing_id] at hid
    obtain rfl : q = r := Table.eq_of_key hq hr hid
    rw [closing_isLive, mem_complement, List.mem_singleton]
    refine and_congr_right fun hl => ⟨fun h hid => ?_, fun h hno => hno.2 ?_⟩
    · by_contra hne
      refine h ⟨hid, fun he => hne ?_⟩
      rw [Table.eq_of_key hr mem he, hash]
    · rw [live_unique hr mem hl live ((hs hno.1).trans inSpace.symm) ((h hno.1).trans hash.symm)]

/-- A block that names only rows of its own claim, which stands, writes nothing. -/
theorem Wrote.memory_eq (h : Wrote space m db w db') (hin : InSpace db.memory space m.old)
    (hL : m.hash ∈ Store.liveClaims db space)
    (hown : ∀ r ∈ db.memory, r.id ∈ m.old → r.contentHash = m.hash) : db'.memory = db.memory := by
  have hopen := h.targets_open
  cases h with
  | created _ _ _ holder _ _ _ _ =>
    obtain ⟨r, hr, hs, hh, hl⟩ := hL
    rw [holder r hr hs hh] at hl
    cases hl
  | @duplicate dup t mem inSpace hash live _ _ _ rows =>
    have hnil : complement m.old [dup.id] = [] := by
      refine List.eq_nil_iff_forall_not_mem.mpr fun id hid => ?_
      obtain ⟨hold, hne⟩ := mem_complement.mp hid
      obtain ⟨r, hr, rfl, hrs⟩ := hin id hold
      obtain ⟨q, hq, hk, hql⟩ := hopen r.id hold
      rw [Table.eq_of_key hq hr hk] at hql
      refine hne ?_
      rw [live_unique hr mem hql live (hrs.trans inSpace.symm) ((hown r hr hold).trans hash.symm)]
      simp
    refine Table.ext ?_
    rw [rows, hnil, List.map_congr_left fun r _ => closing_of_notMem List.not_mem_nil, List.map_id']

/-- A block that leaves a row open gives it no twin and takes none from it. -/
theorem Wrote.twin_iff (h : Wrote space m db w db') {r r' : MemoryRecord} (hr : r ∈ db.memory)
    (hr' : r' ∈ db'.memory) (he : Evolves r r') (hl : r'.isLive = true) (boundary : Timestamp) :
    Twin db'.memory r' boundary ↔ Twin db.memory r boundary := by
  constructor
  · rintro ⟨q', hq', hs, hh, hat⟩
    have hclosed : q'.isLive = false := by rw [MemoryRecord.isLive, hat]; rfl
    have hback : ∃ q ∈ db.memory, Evolves q q' := by
      cases h with
      | created _ _ _ _ _ _ _ rows =>
        rcases (mem_of_rows_map_append rows).mp hq' with ⟨q, hq, rfl⟩ | rfl
        · exact ⟨q, hq, .closing _ _ _ q⟩
        · cases hclosed
      | duplicate _ _ _ _ _ _ _ rows =>
        obtain ⟨q, hq, rfl⟩ := (mem_of_rows_map rows).mp hq'
        exact ⟨q, hq, .closing _ _ _ q⟩
    obtain ⟨q, hq, heq⟩ := hback
    rw [heq.space, he.space] at hs
    rw [heq.contentHash, he.contentHash] at hh
    cases hql : q.isLive with
    | false => exact ⟨q, hq, hs, hh, (heq.closed hql).1.symm.trans hat⟩
    | true =>
      -- two open rows of one claim are one row, and `r'` is open
      obtain rfl : q = r := live_unique hq hr hql (he.live_of_live hl) hs hh
      obtain rfl : q' = r' := Table.eq_of_key hq' hr' (heq.id.trans he.id.symm)
      rw [hl] at hclosed
      cases hclosed
  · rintro ⟨q, hq, hs, hh, hat⟩
    obtain ⟨q', hq', heq⟩ := h.grown.2 q hq
    have hclosed : q.isLive = false := by rw [MemoryRecord.isLive, hat]; rfl
    refine ⟨q', hq', ?_, ?_, (heq.closed hclosed).1.trans hat⟩
    · rw [heq.space, hs, he.space]
    · rw [heq.contentHash, hh, he.contentHash]

section

variable {ms : List MemoryBinds} {ws : List (Written MemoryId)}

theorem WroteAll.live_iff (h : WroteAll space db ms ws db') (hw : db.WellFormed)
    (hm : ∀ m ∈ ms, m.Coherent space) (hin : ∀ m ∈ ms, InSpace db.memory space m.old)
    {r r' : MemoryRecord} (hr : r ∈ db.memory) (hr' : r' ∈ db'.memory) (hid : r'.id = r.id) :
    r'.isLive = true ↔
      r.isLive = true ∧ ∀ m ∈ ms, r.id ∈ m.old → r.contentHash = m.hash := by
  induction h generalizing r with
  | nil db =>
    obtain rfl : r' = r := Table.eq_of_key hr' hr hid
    simp
  | @cons db db₁ db' m ms w ws h _ ih =>
    obtain ⟨hm₀, hm⟩ := List.forall_mem_cons.mp hm
    obtain ⟨hin₀, hin⟩ := List.forall_mem_cons.mp hin
    obtain ⟨r₁, hr₁, he⟩ := h.grown.2 r hr
    rw [ih (h.wellFormed hm₀ hin₀ hw) hm (fun m' hm' => (hin m' hm').kept h.grown.2) hr₁ hr'
      (hid.trans he.id.symm), h.live_iff hw hin₀ hr hr₁ he.id, he.id, he.contentHash,
      List.forall_mem_cons, and_assoc]

/-- The block at a place of a list, with what came before it and what after. -/
theorem WroteAll.split {pre post : List MemoryBinds}
    (h : WroteAll space db (pre ++ m :: post) ws db') :
    ∃ db₁ db₂ w ws₁ ws₂, ws = ws₁ ++ w :: ws₂ ∧ WroteAll space db pre ws₁ db₁ ∧
      Wrote space m db₁ w db₂ ∧ WroteAll space db₂ post ws₂ db' := by
  obtain ⟨db₁, ws₁, ws₂, rfl, hpre, hrest⟩ := h.append_inv
  cases hrest with
  | cons hone rest => exact ⟨db₁, _, _, ws₁, _, rfl, hpre, hone, rest⟩

/-- While an open row is not named, every block of its claim is a duplicate of it. -/
theorem WroteAll.duplicate_of_holder (h : WroteAll space db ms ws db') (hw : db.WellFormed)
    (hm : ∀ m ∈ ms, m.Coherent space) (hin : ∀ m ∈ ms, InSpace db.memory space m.old)
    {r : MemoryRecord} (hr : r ∈ db.memory) (hs : r.space = space) (hl : r.isLive = true)
    (hno : ∀ m ∈ ms, r.id ∉ m.old) {i : ℕ} (hi : ms[i]? = some m) (hh : m.hash = r.contentHash) :
    ws[i]? = some (.duplicate r.id) := by
  induction h generalizing r i with
  | nil db => simp at hi
  | @cons db db₁ db' m₀ ms w ws h _ ih =>
    obtain ⟨hm₀, hm⟩ := List.forall_mem_cons.mp hm
    obtain ⟨hin₀, hin⟩ := List.forall_mem_cons.mp hin
    obtain ⟨hno₀, hno⟩ := List.forall_mem_cons.mp hno
    cases i with
    | zero =>
      obtain rfl : m₀ = m := by simpa using hi
      cases h with
      | created _ _ _ holder _ _ _ _ =>
        rw [holder r hr hs hh.symm] at hl
        cases hl
      | @duplicate dup t mem inSpace hash live _ _ _ _ =>
        rw [live_unique mem hr live hl (inSpace.trans hs.symm) (hash.trans hh)]
        rfl
    | succ i =>
      obtain ⟨r₁, hr₁, he⟩ := h.grown.2 r hr
      have hl₁ := (h.live_iff hw hin₀ hr hr₁ he.id).mpr ⟨hl, fun hid => absurd hid hno₀⟩
      have := ih (h.wellFormed hm₀ hin₀ hw) hm (fun m' hm' => (hin m' hm').kept h.grown.2) hr₁
        (he.space.trans hs) hl₁ (fun m' hm' => he.id ▸ hno m' hm') (by simpa using hi)
        (hh.trans he.contentHash.symm)
      rwa [he.id] at this

section

variable (h : WroteAll space db ms ws db') (hw : db.WellFormed)
  (hm : ∀ m ∈ ms, m.Coherent space) (hin : ∀ m ∈ ms, InSpace db.memory space m.old)
include h hw hm hin

/-- The first block of a claim that does not stand creates its row. -/
theorem WroteAll.created_of_new {pre post : List MemoryBinds} (he : ms = pre ++ m :: post)
    (hnew : m.hash ∉ Store.liveClaims db space) (hfirst : ∀ p ∈ pre, p.hash ≠ m.hash) :
    ∃ id, ws[pre.length]? = some (.created id) := by
  subst he
  rw [List.forall_mem_append] at hm hin
  obtain ⟨db₁, db₂, w, ws₁, ws₂, rfl, hpre, hone, -⟩ := h.split
  have hat : m.hash ∉ Store.liveClaims db₁ space := by
    rw [hpre.liveClaims hw hm.1 hin.1]
    refine Claims.notMem_standing hnew fun a ha => ?_
    obtain ⟨p, hp, rfl⟩ := List.mem_map.mp ha
    exact hfirst p hp
  obtain ⟨id, rfl⟩ := hone.created_iff.mpr hat
  exact ⟨id, by simp [← hpre.length]⟩

/-- Every later block of a claim that a block of the batch created is a duplicate of that row. -/
theorem WroteAll.duplicate_of_created {i j : ℕ} {m' : MemoryBinds} {id : MemoryId} (hij : i < j)
    (hi : ms[i]? = some m) (hj : ms[j]? = some m') (hh : m'.hash = m.hash)
    (hcreated : ws[i]? = some (.created id)) : ws[j]? = some (.duplicate id) := by
  obtain ⟨hlt, hmi⟩ := List.getElem?_eq_some_iff.mp hi
  obtain ⟨pre, post, he, hlen⟩ : ∃ pre post, ms = pre ++ m :: post ∧ pre.length = i :=
    ⟨ms.take i, ms.drop (i + 1), by rw [← hmi, List.getElem_cons_drop, List.take_append_drop],
      List.length_take_of_le hlt.le⟩
  subst he
  rw [List.forall_mem_append, List.forall_mem_cons] at hm hin
  obtain ⟨db₁, db₂, w, ws₁, ws₂, rfl, hpre, hone, hpost⟩ := h.split
  obtain rfl : ws₁.length = i := hpre.length.trans hlen
  obtain ⟨k, rfl⟩ : ∃ k, j = ws₁.length + (k + 1) := ⟨j - ws₁.length - 1, by omega⟩
  obtain rfl : w = .created id := by simpa using hcreated
  have hj' : post[k]? = some m' := by
    rw [← hlen, List.getElem?_append_right (Nat.le_add_right _ _), Nat.add_sub_cancel_left] at hj
    simpa using hj
  rw [List.getElem?_append_right (Nat.le_add_right _ _), Nat.add_sub_cancel_left,
    List.getElem?_cons_succ]
  have hw₁ := hpre.wellFormed hm.1 hin.1 hw
  have hw₂ := hone.wellFormed hm.2.1 (hin.2.1.kept hpre.grown.2) hw₁
  have hold : ∀ q ∈ post, InSpace db₁.memory space q.old := fun q hq =>
    (hin.2.2 q hq).kept hpre.grown.2
  have hin₂ : ∀ q ∈ post, InSpace db₂.memory space q.old := fun q hq =>
    (hold q hq).kept hone.grown.2
  cases hone with
  | @created source now t _ _ _ _ _ rows =>
    have hn : m.row.record ⟨db₁.minted⟩ source now ∈ t :=
      (mem_of_rows_map_append rows).mpr (.inr rfl)
    have hno : ∀ q ∈ post, (⟨db₁.minted⟩ : MemoryId) ∉ q.old := by
      intro q hq hid
      obtain ⟨r, hr, hk, -⟩ := hold q hq _ hid
      have hlt := hw₁.memory r hr
      rw [hk] at hlt
      exact absurd hlt (lt_irrefl db₁.minted)
    exact hpost.duplicate_of_holder hw₂ hm.2.2 hin₂ hn hm.2.1.space rfl hno hj'
      (hh.trans hm.2.1.hash.symm)

end

theorem WroteAll.twin_iff (h : WroteAll space db ms ws db') (hw : db.WellFormed)
    (hm : ∀ m ∈ ms, m.Coherent space) (hin : ∀ m ∈ ms, InSpace db.memory space m.old)
    {r r' : MemoryRecord} (hr : r ∈ db.memory) (hr' : r' ∈ db'.memory) (he : Evolves r r')
    (hl : r'.isLive = true) (boundary : Timestamp) :
    Twin db'.memory r' boundary ↔ Twin db.memory r boundary := by
  induction h generalizing r with
  | nil db =>
    obtain rfl : r' = r := Table.eq_of_key hr' hr he.id
    exact Iff.rfl
  | @cons db db₁ db' m ms w ws h rest ih =>
    obtain ⟨hm₀, hm⟩ := List.forall_mem_cons.mp hm
    obtain ⟨hin₀, hin⟩ := List.forall_mem_cons.mp hin
    have hw₁ := h.wellFormed hm₀ hin₀ hw
    obtain ⟨r₁, hr₁, he₀⟩ := h.grown.2 r hr
    have he₁ := rest.grown.1.evolves hw₁ hr₁ hr' (he.id.trans he₀.id.symm)
    rw [ih hw₁ hm (fun m' hm' => (hin m' hm').kept h.grown.2) hr₁ hr' he₁,
      h.twin_iff hr hr₁ he₀ (he₁.live_of_live hl)]

end

end Agmem.Store
