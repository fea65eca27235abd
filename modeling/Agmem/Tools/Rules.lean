import Agmem.Tools.Rows

/-! The rules of a row. Both write tools keep a claim from being blank, a summary from standing
without evidence, and the two lists of a row from naming anything twice; only `remember` also keeps
it short. -/

namespace Agmem.Tools.Rules

open Core Relational Store Transition

structure RowRules (r : MemoryRecord) : Prop where
  nonblank : trim r.content ≠ []
  short : r.content.length ≤ Remember.MAX_MEMORY_CHARS
  evidence : r.kind = .summary → r.derivedFrom ≠ []
  supersedes : r.supersedes.Nodup
  derivedFrom : r.derivedFrom.Nodup

/-- An insight is no longer than a claim may be. -/
def Short : Call → Prop
  | .reflect _ params _ _ _ => params.insight.length ≤ Remember.MAX_MEMORY_CHARS
  | _ => True

theorem rowRules_evolves {r r' : MemoryRecord} (he : Evolves r r') : RowRules r' ↔ RowRules r := by
  rw [he.frame]
  exact ⟨fun h => ⟨h.nonblank, h.short, h.evidence, h.supersedes, h.derivedFrom⟩,
    fun h => ⟨h.nonblank, h.short, h.evidence, h.supersedes, h.derivedFrom⟩⟩

variable [Hashing] {db : Db} {s t : Server} {call : Call}

theorem remembered_rules {input : Remember.MemoryInput} {m m' : NewMemory} {space : SpaceName}
    {r : MemoryRecord} (ha : Remember.Admits input m) (hd : Dressed m m')
    (hr : Stores space m' r) : RowRules r := by
  rw [hd] at hr
  have hcontent : r.content = input.content := hr.content.trans ha.content
  refine ⟨hcontent ▸ ha.nonblank, hcontent ▸ ha.short, fun hkind => ?_, ?_, ?_⟩
  · exact absurd (hr.kind.symm.trans hkind) ha.kind
  · exact hr.supersedes.nodup ha.supersedes
  · rw [hr.derivedFrom]
    exact ha.derivedFrom ▸ List.nodup_nil

/-- A row that `reflect` stores keeps every rule but the length. -/
theorem reflected_rules {params : Reflect.ReflectParams} {m : NewMemory} {space : SpaceName}
    {r : MemoryRecord} (ha : Reflect.Admits db space params m) (hr : Stores space m r) :
    RowRules r ↔ params.insight.length ≤ Remember.MAX_MEMORY_CHARS := by
  have hcontent : r.content = params.insight := hr.content.trans ha.content
  refine ⟨fun h => hcontent ▸ h.short, fun hshort => ⟨?_, ?_, fun _ => ?_, ?_, ?_⟩⟩
  · rw [hcontent]
    exact ha.nonblank
  · rwa [hcontent]
  · rw [hr.derivedFrom]
    exact ha.evidence
  · exact hr.supersedes.nodup ha.supersedes
  · rw [hr.derivedFrom]
    exact ha.derivedFrom

theorem asks_rules {r : MemoryRecord} (h : Asks db call r) : RowRules r ↔ Short call := by
  cases call with
  | remember service params writer registered clock =>
    obtain ⟨input, -, space, m, m', ha, hd, hr⟩ := h
    exact iff_of_true (remembered_rules ha hd hr) trivial
  | reflect service params writer registered clock =>
    obtain ⟨space, m, ha, hr⟩ := h
    exact reflected_rules ha hr
  | forget session service params now => exact h.elim

/-- A row that a call stores keeps the rules exactly if the call sends no longer insight than a
claim may be. -/
theorem stored_rules_iff (hs : s.db.Reachable) (h : serve s call = some t) {r : MemoryRecord}
    (hr : r ∈ t.db.memory) (hnew : ∀ q ∈ s.db.memory, q.id ≠ r.id) :
    RowRules r ↔ Short call := by
  rcases serve_gains hs h r hr with ⟨q, hq, he⟩ | ⟨q, hasks, he⟩
  · exact absurd he.id.symm (hnew q hq)
  · rw [rowRules_evolves he, asks_rules hasks]

/-- In a run without longer insights every row of the store keeps the rules. -/
theorem rules_of_run {dimension : ℕ} {steps : List (Transition.Step Server Call)}
    (h : Run serve (Server.empty dimension) steps t) (hshort : ∀ e ∈ steps, Short e.action) :
    ∀ r ∈ t.db.memory, RowRules r := by
  let Ruled (s : Server) : Prop := s.db.Reachable ∧ ∀ r ∈ s.db.memory, RowRules r
  have hstep (s : Server) (call : Call) (t : Server) (hs : serve s call = some t)
      (hshort : Short call) (hi : Ruled s) : Ruled t :=
    ⟨serve_reachable hs hi.1, (serve_gains hi.1 hs).all (fun _ _ he => (rowRules_evolves he).mpr)
      (fun _ hasks => (asks_rules hasks).mpr hshort) hi.2⟩
  have hstart : Ruled (Server.empty dimension) :=
    ⟨⟨dimension, [], .nil _⟩, fun r hr => absurd hr (Table.not_mem_empty r)⟩
  exact (h.invariant hstep hshort hstart).1.2

/-- A summary of a letter, drawn from a stored text. -/
def letterInsight : Reflect.ReflectParams :=
  ⟨none, ['a'], [.reads ⟨none, .reads 0⟩], some .summary, [], [], []⟩

omit [Hashing] in
/-- A text is filed, and a letter drawn from it. -/
theorem insight_rules : ∃ s t r, @serve plain (Server.empty 0) (.file 0 'e' none) = some s ∧
    @serve plain s (.reflect terminal letterInsight agent 5 (ticking 5)) = some t ∧
    r ∈ t.db.memory ∧ r.kind = .summary ∧ RowRules r := by
  have hstored : ∃ s t, @serve plain (Server.empty 0) (.file 0 'e' none) = some s ∧
      @serve plain s (.reflect terminal letterInsight agent 5 (ticking 5)) = some t ∧
      ∃ r ∈ t.db.memory.rows, r.kind = .summary ∧ ∀ q ∈ s.db.memory.rows, q.id ≠ r.id :=
    ⟨_, _, rfl, rfl, by decide +kernel⟩
  obtain ⟨s, t, hs, ht, r, hr, hkind, hnew⟩ := hstored
  have hreach := @serve_reachable plain _ _ _ hs ⟨0, [], .nil _⟩
  have hshort : Short (.reflect terminal letterInsight agent 5 (ticking 5)) :=
    show ['a'].length ≤ Remember.MAX_MEMORY_CHARS by decide
  exact ⟨s, t, r, hs, ht, hr, hkind, (@stored_rules_iff plain s t _ hreach ht r hr hnew).mpr hshort⟩

/-- An insight of one character more than a claim may hold, drawn from a stored text. -/
def longInsight : Reflect.ReflectParams :=
  ⟨none, List.replicate 10001 'a', [.reads ⟨none, .reads 0⟩], none, [], [], []⟩

omit [Hashing] in
theorem trim_longInsight : trim longInsight.insight = longInsight.insight := by
  refine trim_of_trimmed ⟨fun c hc => ?_, fun c hc => ?_⟩
  · cases List.eq_of_mem_replicate (List.mem_of_mem_head? hc)
    rfl
  · cases List.eq_of_mem_replicate (List.mem_of_mem_getLast? hc)
    rfl

omit [Hashing] in
theorem prepared_longInsight {cited : List Derivation}
    (h : Reflect.resolve db agmem longInsight.derivedFrom = .ok cited) :
    Reflect.prepared terminal db agmem longInsight =
      .ok (.inr (Reflect.memoryOf longInsight cited [], [])) := by
  rw [Reflect.prepared, trim_longInsight, h]
  rfl

theorem reflect_goes_through {service : Service} {params : Reflect.ReflectParams}
    {writer : Writer} {registered : Timestamp} {clock : ℕ → Clock} {space : SpaceName}
    (h : resolveSpace service s.db params.space registered = .ok (db, space)) :
    ∃ t, serve s (.reflect service params writer registered clock) = some t ∧
      t.db = (Reflect.store service db space params writer clock).1 := by
  refine ⟨_, rfl, ?_⟩
  rw [Reflect.run, h]

omit [Hashing] in
theorem long_insight_stored : ∃ steps t, @Run _ _ (@serve plain) (Server.empty 0) steps t ∧
    (∀ e ∈ steps,
      e.action ∈ [.file 0 'e' none, .reflect terminal longInsight agent 5 (ticking 5)]) ∧
    ∃ r ∈ t.db.memory, ¬ RowRules r := by
  obtain ⟨s, hs, hempty, cited, hcited⟩ :
      ∃ s, @serve plain (Server.empty 0) (.file 0 'e' none) = some s ∧ s.db.memory.rows = [] ∧
        ∃ cited, Reflect.resolve s.db agmem longInsight.derivedFrom = .ok cited :=
    ⟨_, rfl, rfl, _, rfl⟩
  have hspace : resolveSpace terminal s.db longInsight.space 5 = .ok (s.db, agmem) := rfl
  obtain ⟨t, ht, hdb⟩ : ∃ t,
      @serve plain s (.reflect terminal longInsight agent 5 (ticking 5)) = some t ∧
        t.db = (@Reflect.store plain terminal s.db agmem longInsight agent (ticking 5)).1 :=
    @reflect_goes_through plain _ _ _ _ _ _ _ _ hspace
  have hrows : t.db.memory.rows ≠ [] := by
    rw [hdb, @Reflect.store.eq_1 plain, prepared_longInsight hcited]
    cases hs
    cases hcited
    decide +kernel
  obtain ⟨r, hr⟩ := List.exists_mem_of_ne_nil _ hrows
  refine ⟨_, t, .cons hs (.cons ht (.nil t)), by simp, r, hr, ?_⟩
  -- The store was empty of claims, so the row is the insight; its length is not run through.
  have hreach := @serve_reachable plain _ _ _ hs ⟨0, [], .nil _⟩
  rcases @serve_gains plain _ _ _ hreach ht r hr with ⟨q, hq, -⟩ | ⟨q, hasks, he⟩
  · rw [Table.mem_iff, hempty] at hq
    cases hq
  · rw [rowRules_evolves he, @asks_rules plain _ _ _ hasks]
    change ¬(List.replicate 10001 'a').length ≤ Remember.MAX_MEMORY_CHARS
    rw [List.length_replicate]
    decide

end Agmem.Tools.Rules
