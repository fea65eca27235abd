import Agmem.Store.Rows
import Agmem.Tools.Server

/-! The rows a call stores. A `remember` call stores rows for the memories its validation let
through, a `reflect` call one row for its insight, and a `forget` call none; on the way from the
request to the row only the vector and the novelty are filled in. -/

namespace Agmem.Tools

open Core Relational Store Transition

/-- The same memory, with its vector and what the gate measured. -/
def Dressed (m m' : NewMemory) : Prop :=
  m' = { m with embedding := m'.embedding, novelty := m'.novelty }

theorem Dressed.refl (m : NewMemory) : Dressed m m := rfl

theorem Dressed.trans {m m' m'' : NewMemory} (h : Dressed m m') (h' : Dressed m' m'') :
    Dressed m m'' := by
  rw [Dressed, h', h]

theorem supersedesFrom_nodup {fieldAt : ℕ → String} {seen ids : List MemoryId} {position : ℕ}
    {raws : List (Raw MemoryId)} (hseen : seen.Nodup)
    (h : supersedesFrom fieldAt seen position raws = .ok ids) : ids.Nodup := by
  induction raws generalizing seen position with
  | nil =>
    cases h
    exact hseen
  | cons raw raws ih =>
    unfold supersedesFrom at h
    split at h
    · cases h
    · refine ih ?_ h
      split_ifs with hin
      · exact hseen
      · rw [← List.concat_eq_append]
        exact hseen.concat hin

/-! ### Remember -/

namespace Remember

/-- What validation checks of a memory. -/
structure Admits (input : MemoryInput) (m : NewMemory) : Prop where
  content : m.content = input.content
  nonblank : trim input.content ≠ []
  short : input.content.length ≤ MAX_MEMORY_CHARS
  kind : m.kind ≠ .summary
  supersedes : m.supersedes.Nodup
  derivedFrom : m.derivedFrom = []

theorem MemoryInput.validated_admits {input : MemoryInput} {index : ℕ} {m : NewMemory}
    (h : input.validated index = .ok m) : Admits input m := by
  unfold MemoryInput.validated at h
  split_ifs at h with hempty hlong hkind
  split at h
  · cases h
  · next supersedes hsupersedes =>
    split at h
    · cases h
    · cases h
      refine ⟨rfl, fun hnil => hempty (hnil ▸ rfl), Nat.le_of_not_lt hlong, fun hsummary => ?_,
        supersedesFrom_nodup .nil hsupersedes, rfl⟩
      cases hsent : input.kind with
      | none =>
        rw [hsent] at hsummary
        cases hsummary
      | some kind =>
        rw [hsent] at hsummary
        exact hkind (hsent.trans (congrArg some hsummary))

theorem validatedFrom_admits {inputs : List MemoryInput} {index : ℕ} {ms : List NewMemory}
    (h : validatedFrom index inputs = .ok ms) : List.Forall₂ Admits inputs ms := by
  induction inputs generalizing index ms with
  | nil =>
    cases h
    exact .nil
  | cons input inputs ih =>
    unfold validatedFrom at h
    split at h
    · cases h
    · next m hm =>
      split at h
      · cases h
      · next ms' hms =>
        cases h
        exact .cons (input.validated_admits hm) (ih hms)

theorem embed_dressed {embedder : Embedder} {ms ms' : List NewMemory}
    {episode episode' : Option NewEpisode} (h : embed embedder ms episode = .ok (ms', episode')) :
    List.Forall₂ Dressed ms ms' := by
  unfold embed at h
  dsimp only at h
  split_ifs at h
  · cases h
    exact List.forall₂_same.mpr fun m _ => .refl m
  · split at h
    · cases h
    · next vectors _ =>
      split_ifs at h with hlen
      cases h
      refine List.forall₂_iff_get.mpr ⟨?_, fun i h₁ h₂ => ?_⟩
      · rw [List.length_zipWith, hlen, Nat.min_eq_left (Nat.le_add_right ..)]
      · rw [List.get_eq_getElem, List.get_eq_getElem, List.getElem_zipWith]
        rfl

/-- What the gate does with the memory at an index. -/
structure GatedAs (index : ℕ) (m : NewMemory) (g : Gated) : Prop where
  dressed : Dressed m g.memory
  blocked : g.blocked = true ↔ g.duplicates ≠ []
  duplicates : ∀ d ∈ g.duplicates, d.of_ = index
  related : ∀ r ∈ g.related, r.of_ = index

theorem gate_gatedAs (bands : Thresholds) (index : ℕ) (m : NewMemory) (ns : List Neighbour) :
    GatedAs index m (gate bands index m ns) := by
  refine ⟨rfl, ?_, fun d hd => ?_, fun r hr => ?_⟩
  · simp only [gate, ne_eq, List.map_eq_nil_iff, List.filter_eq_nil_iff, List.any_eq_true]
    push Not
    rfl
  · obtain ⟨n, -, rfl⟩ := List.mem_map.mp hd
    rfl
  · obtain ⟨n, -, rfl⟩ := List.mem_map.mp hr
    rfl

theorem open_gatedAs (index : ℕ) (m : NewMemory) : GatedAs index m ⟨m, false, [], []⟩ :=
  ⟨rfl, by simp, fun _ hd => absurd hd List.not_mem_nil, fun _ hr => absurd hr List.not_mem_nil⟩

theorem gateFrom_gatedAs (bands : Thresholds) (index : ℕ) (ms : List NewMemory)
    (ns : List (List Neighbour)) :
    (gateFrom bands index ms ns).length = ms.length ∧
      ∀ i m g, ms[i]? = some m → (gateFrom bands index ms ns)[i]? = some g →
        GatedAs (index + i) m g := by
  induction ms generalizing index ns with
  | nil =>
    refine ⟨by simp [gateFrom], fun i m g hm _ => ?_⟩
    simp at hm
  | cons m ms ih =>
    have hcons (g₀ : Gated) (ns' : List (List Neighbour)) (h₀ : GatedAs index m g₀)
        (hg : gateFrom bands index (m :: ms) ns = g₀ :: gateFrom bands (index + 1) ms ns') :
        (gateFrom bands index (m :: ms) ns).length = (m :: ms).length ∧
          ∀ i m' g, (m :: ms)[i]? = some m' → (gateFrom bands index (m :: ms) ns)[i]? = some g →
            GatedAs (index + i) m' g := by
      rw [hg]
      refine ⟨congrArg Nat.succ (ih (index + 1) ns').1, fun i m' g hm hi => ?_⟩
      cases i with
      | zero =>
        cases hm
        cases hi
        exact h₀
      | succ i =>
        rw [← Nat.add_assoc, Nat.add_right_comm]
        exact (ih (index + 1) ns').2 i m' g hm hi
    cases ns with
    | nil => exact hcons _ [] (open_gatedAs index m) rfl
    | cons n ns =>
      by_cases h : gated m = true
      · exact hcons _ ns (gate_gatedAs bands index m n) (if_pos h)
      · exact hcons _ (n :: ns) (open_gatedAs index m) (if_neg h)

/-- What the gate is left with of the inputs of a call, one by one. -/
theorem prepared_gates {service : Service} {db : Db} {space : SpaceName} {params : RememberParams}
    {gates : List Gated} {episode : Option NewEpisode}
    (h : prepared service db space params = .ok (gates, episode)) :
    gates.length = params.memories.length ∧ ∀ i input g, params.memories[i]? = some input →
      gates[i]? = some g → ∃ m, Admits input m ∧ GatedAs i m g := by
  obtain ⟨memories, _, memories', neighbours, hvalid, hembed, rfl⟩ := prepared_ok h
  have hadmits := validatedFrom_admits (validated_ok hvalid).1
  have hdressed := embed_dressed hembed
  obtain ⟨hlen, hgated⟩ := gateFrom_gatedAs service.embedder.thresholds 0 memories' neighbours
  refine ⟨hlen.trans (hadmits.length_eq.trans hdressed.length_eq).symm,
    fun i input g hinput hg => ?_⟩
  obtain ⟨hi, rfl⟩ := List.getElem?_eq_some_iff.mp hinput
  have hi' : i < memories.length := hadmits.length_eq ▸ hi
  have hi'' : i < memories'.length := hdressed.length_eq ▸ hi'
  have hgate := hgated i memories'[i] g (List.getElem?_eq_getElem hi'') hg
  rw [Nat.zero_add] at hgate
  exact ⟨memories[i], List.Forall₂.get hadmits hi hi',
    { hgate with dressed := (List.Forall₂.get hdressed hi' hi'').trans hgate.dressed }⟩

end Remember

/-! ### Reflect -/

namespace Reflect

/-- What the citations of a call resolve to. -/
structure Resolves (db : Db) (spaces : List SpaceName) (cited out : List Derivation) : Prop where
  kept : cited ⊆ out
  nodup : cited.Nodup → out.Nodup
  located : ∀ d ∈ out, d ∈ cited ∨ ∃ c, located db spaces c = some d

theorem resolveFrom_resolves {db : Db} {spaces : List SpaceName} {cited out : List Derivation}
    {cs : List Citation} (h : resolveFrom db spaces cited cs = .ok out) :
    Resolves db spaces cited out ∧ (cs ≠ [] → out ≠ []) := by
  induction cs generalizing cited with
  | nil =>
    cases h
    exact ⟨⟨List.Subset.refl _, id, fun d hd => .inl hd⟩, fun hne => absurd rfl hne⟩
  | cons c cs ih =>
    unfold resolveFrom at h
    split at h
    · cases h
    · next resolved hlocated =>
      split at h
      · cases h
      · split_ifs at h with _ hin
        · obtain ⟨hres, -⟩ := ih h
          exact ⟨hres, fun _ hnil => absurd (hres.kept hin) (hnil ▸ List.not_mem_nil)⟩
        · obtain ⟨hres, -⟩ := ih h
          refine ⟨⟨fun d hd => hres.kept (List.mem_append_left _ hd), fun hnd => ?_,
            fun d hd => ?_⟩, fun _ hnil => ?_⟩
          · refine hres.nodup ?_
            rw [← List.concat_eq_append]
            exact hnd.concat hin
          · rcases hres.located d hd with hd | hd
            · rcases List.mem_append.mp hd with hd | hd
              · exact .inl hd
              · exact .inr ⟨c, List.mem_singleton.mp hd ▸ hlocated⟩
            · exact .inr hd
          · exact absurd (hres.kept (List.mem_append_right _ (List.mem_singleton_self resolved)))
              (hnil ▸ List.not_mem_nil)

/-- What a call asks to store, once it is let through. -/
structure Admits (db : Db) (space : SpaceName) (params : ReflectParams) (m : NewMemory) :
    Prop where
  content : m.content = params.insight
  nonblank : trim params.insight ≠ []
  supersedes : m.supersedes.Nodup
  evidence : m.derivedFrom ≠ []
  derivedFrom : m.derivedFrom.Nodup
  located : ∀ d ∈ m.derivedFrom, ∃ spaces c, located db spaces c = some d

theorem Admits.dressed {db : Db} {space : SpaceName} {params : ReflectParams} {m m' : NewMemory}
    (h : Admits db space params m) (hd : Dressed m m') : Admits db space params m' := by
  rw [hd]
  exact ⟨h.content, h.nonblank, h.supersedes, h.evidence, h.derivedFrom, h.located⟩

theorem embed_dressed {embedder : Embedder} {m m' : NewMemory}
    (h : embed embedder m = .ok m') : Dressed m m' := by
  unfold embed at h
  split_ifs at h
  · cases h
    exact .refl m
  · split at h
    · cases h
    · cases h
      rfl

theorem asked_ne_nil {raws : List (Raw Citation)} {cs : List Citation} (hne : raws ≠ [])
    (h : asked raws = .ok cs) : cs ≠ [] := by
  cases raws with
  | nil => exact absurd rfl hne
  | cons raw raws =>
    cases raw with
    | refused text => cases h
    | reads c =>
      unfold asked at h
      split at h
      · cases h
      · cases h
        exact List.cons_ne_nil _ _

/-- What a call may cite is some evidence, each piece of it found and named once. -/
theorem resolve_found {db : Db} {space : SpaceName} {citations : List (Raw Citation)}
    {cited : List Derivation} (h : resolve db space citations = .ok cited) :
    cited ≠ [] ∧ cited.Nodup ∧ ∀ d ∈ cited, ∃ spaces c, located db spaces c = some d := by
  unfold resolve at h
  by_cases hnone : citations.isEmpty = true
  · rw [if_pos hnone] at h
    cases h
  rw [if_neg hnone] at h
  split at h
  · cases h
  · next asked hasked =>
    obtain ⟨hres, hne⟩ := resolveFrom_resolves h
    refine ⟨hne (asked_ne_nil (fun hnil => hnone (List.isEmpty_iff.mpr hnil)) hasked),
      hres.nodup .nil, fun d hd => ?_⟩
    obtain ⟨c, hc⟩ := (hres.located d hd).resolve_left List.not_mem_nil
    exact ⟨_, c, hc⟩

theorem prepared_admits {service : Service} {db : Db} {space : SpaceName} {params : ReflectParams}
    {m : NewMemory} {related : List Related}
    (h : prepared service db space params = .ok (.inr (m, related))) :
    Admits db space params m := by
  unfold prepared at h
  split_ifs at h with hblank
  split at h
  · cases h
  · next cited hcited =>
    split at h
    · cases h
    · next supersedes hsupersedes =>
      split at h
      · cases h
      · next memory hembed =>
        obtain ⟨hsome, honce, hlocated⟩ := resolve_found hcited
        have hasked : Admits db space params (memoryOf params cited supersedes) :=
          ⟨rfl, fun hnil => hblank (List.isEmpty_iff.mpr hnil),
            supersedesFrom_nodup .nil hsupersedes, hsome, honce, hlocated⟩
        have hmemory := hasked.dressed (embed_dressed hembed)
        split at h
        · split at h
          · cases h
          · dsimp only at h
            split at h
            · cases h
            · cases h
              exact hmemory.dressed rfl
        · cases h
          exact hmemory

end Reflect

/-! ### Calls -/

section

variable [Hashing] {db db' : Db} {service : Service}

theorem resolveSpace_reachable (hr : db.Reachable) {requested : Option Text} {now : Timestamp}
    {space : SpaceName} (h : resolveSpace service db requested now = .ok (db', space)) :
    db'.Reachable := by
  obtain ⟨dimension, before, hbefore⟩ := hr
  obtain ⟨steps, hrun, -⟩ := resolveSpace_writes h
  exact ⟨dimension, _, hbefore.append hrun⟩

/-- The rows a call may store, each for one of its memories. -/
def Asks (db : Db) : Call → MemoryRecord → Prop
  | .remember _ params _ _ _, r => ∃ input ∈ params.memories, ∃ space m m',
      Remember.Admits input m ∧ Dressed m m' ∧ Stores space m' r
  | .reflect _ params _ _ _, r => ∃ space m, Reflect.Admits db space params m ∧ Stores space m r
  | .forget _ _ _ _, _ => False

theorem remember_gains (hr : db.Reachable) (params : Remember.RememberParams) (writer : Writer)
    (registered : Timestamp) (clock : ℕ → Clock) :
    Gains (Asks db (.remember service params writer registered clock)) db
      (Remember.run service db params writer registered clock).1 := by
  unfold Remember.run
  split
  · exact .refl _ db
  · next db₁ space hspace =>
    have hw := (resolveSpace_reachable hr hspace).wellFormed
    obtain ⟨t, rfl⟩ := resolveSpace_frame hspace
    unfold Remember.store
    split
    · exact .refl _ db
    · next gates episode hprepared =>
      dsimp only
      split_ifs
      · exact .refl _ db
      · split
        · exact .refl _ db
        · next hins =>
          refine (insertBatch_gains hw hins).mono ?_
          rintro r ⟨m', hm', hstores⟩
          obtain ⟨g, hg, rfl⟩ := List.mem_map.mp hm'
          obtain ⟨i, hi, rfl⟩ := List.mem_iff_getElem.mp (List.mem_filter.mp hg).1
          obtain ⟨hlen, hgates⟩ := Remember.prepared_gates hprepared
          have hlt : i < params.memories.length := hlen ▸ hi
          obtain ⟨m, hadmits, hgated⟩ := hgates i _ _ (List.getElem?_eq_getElem hlt)
            (List.getElem?_eq_getElem hi)
          exact ⟨_, List.getElem_mem hlt, space, m, _, hadmits, hgated.dressed, hstores⟩

theorem reflect_gains (hr : db.Reachable) (params : Reflect.ReflectParams) (writer : Writer)
    (registered : Timestamp) (clock : ℕ → Clock) :
    Gains (Asks db (.reflect service params writer registered clock)) db
      (Reflect.run service db params writer registered clock).1 := by
  unfold Reflect.run
  split
  · exact .refl _ db
  · next db₁ space hspace =>
    have hw := (resolveSpace_reachable hr hspace).wellFormed
    obtain ⟨t, rfl⟩ := resolveSpace_frame hspace
    unfold Reflect.store
    split
    · exact .refl _ db
    · exact .refl _ db
    · next m related hprepared =>
      split
      · exact .refl _ db
      · next db₂ out hins =>
        have hadmits := Reflect.prepared_admits hprepared
        have hgains : Gains (Asks db (.reflect service params writer registered clock)) db db₂ := by
          refine (insertBatch_gains hw hins).mono ?_
          rintro r ⟨m', hm', hstores⟩
          rw [List.mem_singleton.mp hm'] at hstores
          exact ⟨space, m, { hadmits with }, hstores⟩
        split <;> exact hgains

/-- A forget call stores nothing. -/
theorem forget_inherits (hr : db.Reachable) (pending : Forget.Pending)
    (params : Forget.ForgetParams) (now : MemoryId → Timestamp) :
    Gains (fun _ => False) db (Forget.run service db pending params now).1.1 := by
  have hforgets {request : Store.Forget} {db₂ : Db} {out : Forgotten}
      (h : Store.forget db request now = .ok (db₂, out)) : Gains (fun _ => False) db db₂ := by
    have hstep : step db (.forget request now) = some db₂ :=
      step_eq_some.mpr (map_fst_ok.mpr ⟨out, h⟩)
    exact step_gains hr.wellFormed hstep
  unfold Forget.run
  split_ifs
  · exact .refl _ db
  · split
    · exact .refl _ db
    · split
      · exact .refl _ db
      · unfold Forget.execute
        split
        · exact .refl _ db
        · split_ifs
          · exact .refl _ db
          · split
            · exact .refl _ db
            · next hforget => exact hforgets hforget
          · exact .refl _ db

/-- The rows after a call: those before it, as they evolved, and what it asked to store. -/
theorem serve_gains {s t : Server} {call : Call} (hr : s.db.Reachable)
    (h : serve s call = some t) : Gains (Asks s.db call) s.db t.db := by
  cases call with
  | remember service params writer registered clock =>
    cases h
    exact remember_gains hr params writer registered clock
  | reflect service params writer registered clock =>
    cases h
    exact reflect_gains hr params writer registered clock
  | forget session service params now =>
    cases h
    exact forget_inherits hr (s.pending session) params now

end

end Agmem.Tools
