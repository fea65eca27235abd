import Agmem.Store.Citers
import Agmem.Store.Placement
import Agmem.Tools.Rows

/-! The views of who cites a document, over whole runs of the program. A memory of `remember` is
derived from nothing and `reflect` looks up what it cites, and the two are the only tools that
insert; anything else that inserts may mix its citations in any way, as long as it has looked them
up too. So a link to a memory never names an episode, and the listing counts what the guard
lists. -/

namespace Agmem.Tools

open Core Relational Store Transition

/-- A link as `locate` answers one: to a memory only if the id was given out to a memory. -/
def given (db : Db) : Derivation → Bool
  | .memory id => decide (id.ulid < db.minted) &&
      db.episode.rows.all fun e => decide (e.id.ulid ≠ id.ulid)
  | .episode _ => true

/-- The caller has looked up what its memories are derived from. -/
def lookedUp (db : Db) : Op → Bool
  | .insertBatch batch _ => batch.memories.all fun m => m.derivedFrom.all (given db)
  | _ => true

/-- A call of a tool, or an operation that something else asks of the store. -/
inductive Event where
  | call (call : Call)
  | op (op : Op)

variable [Hashing]

def live (s : Server) : Event → Option Server
  | .call call => serve s call
  | .op op => if lookedUp s.db op then (step s.db op).map fun db => { s with db } else none

variable {s t : Server} {db : Db} {call : Call} {event : Event} {r : MemoryRecord}

omit [Hashing] in
/-- What `locate` answers is stored. -/
theorem located_memory {spaces : List SpaceName} {c : Reflect.Citation} {id : MemoryId}
    (h : Reflect.located db spaces c = some (.memory id)) : ∃ r ∈ db.memory, r.id = id := by
  unfold Reflect.located at h
  split at h
  · cases h
  · next asked _ =>
    simp only [locate, List.map_cons, List.head?_cons, Option.join_some] at h
    split_ifs at h with hmemory
    · cases h
      cases hget : db.memory.get? ⟨asked⟩ with
      | none => simp [hget] at hmemory
      | some r => exact ⟨r, Table.get?_eq_some.mp hget⟩
    · cases h

/-- The links of the rows a call may store name memories that are stored. -/
theorem asks_resolved (hr : db.Reachable) (h : Asks db call r) : ResolvedIn db r := by
  intro id hid
  cases call with
  | remember service params writer registered clock =>
    obtain ⟨input, -, space, m, m', hadmits, hdressed, hstores⟩ := h
    rw [hstores.derivedFrom, hdressed] at hid
    exact absurd (hadmits.derivedFrom ▸ hid) List.not_mem_nil
  | reflect service params writer registered clock =>
    obtain ⟨space, m, hadmits, hstores⟩ := h
    rw [hstores.derivedFrom] at hid
    obtain ⟨spaces, c, hlocated⟩ := hadmits.located _ hid
    obtain ⟨cited, hmem, rfl⟩ := located_memory hlocated
    exact ⟨hr.wellFormed.memory cited hmem, fun e he heq =>
      apart_reachable hr cited hmem e he heq.symm⟩
  | forget session service params now => exact h.elim

theorem stores_resolved {op : Op} (hlooked : lookedUp db op = true) (h : op.Stores r) :
    ResolvedIn db r := by
  cases op with
  | insertBatch batch clock =>
    obtain ⟨m, hm, hstores⟩ := h
    intro id hid
    rw [hstores.derivedFrom] at hid
    have hgiven := List.all_eq_true.mp (List.all_eq_true.mp hlooked m hm) _ hid
    simpa [given, Table.mem_iff] using hgiven
  | _ => exact h.elim

theorem serve_later (hr : s.db.Reachable) (h : serve s call = some t) : Later s.db t.db := by
  obtain ⟨steps, hrun⟩ := serve_run h
  let Follows (db : Db) : Prop := db.WellFormed ∧ Later s.db db
  have hstep : ∀ db op db', step db op = some db' → Follows db → Follows db' :=
    fun db op db' hs hi => ⟨step_wellFormed hs hi.1, hi.2.trans (step_later hi.1 hs)⟩
  exact (Reachable.invariant hstep ⟨steps, hrun⟩ ⟨hr.wellFormed, .refl s.db⟩).2

/-- Reachable, and with its links resolved. -/
def Cited (s : Server) : Prop := s.db.Reachable ∧ Resolved s.db

theorem live_cited (h : live s event = some t) (hs : Cited s) : Cited t := by
  obtain ⟨hr, hresolved⟩ := hs
  cases event with
  | call call =>
    exact ⟨serve_reachable h hr, hresolved.gains (serve_later hr h) (serve_gains hr h)
      fun r => asks_resolved hr⟩
  | op op =>
    simp only [live] at h
    split_ifs at h with hlooked
    obtain ⟨db', hstep, rfl⟩ := Option.map_eq_some_iff.mp h
    obtain ⟨dimension, before, hbefore⟩ := id hr
    refine ⟨⟨dimension, _, hbefore.snoc hstep⟩, hresolved.gains (step_later hr.wellFormed hstep)
      (step_gains hr.wellFormed hstep) fun r => stores_resolved hlooked⟩

/-- Whatever the program has done, the listing, the guard and the orphans agree on every document of
every space. -/
theorem views_agree {dimension : ℕ} (h : Reachable live (Server.empty dimension) s)
    (space : SpaceName) : ViewsAgree s.db space := by
  have hcited : Cited s := h.invariant (fun _ _ _ => live_cited)
    ⟨⟨dimension, [], .nil _⟩, fun r hr => absurd hr (Table.not_mem_empty r)⟩
  exact hcited.2.viewsAgree space

/-- A claim that cites the document with number 0 through both columns. -/
def citesTwice : NewMemory :=
  { NewMemory.new .fact ['b'] with
    source := some (.episode ⟨0⟩), derivedFrom := [.episode ⟨0⟩] }

omit [Hashing] in
/-- The claim is one citer, and every view of the store it is in agrees. -/
theorem cited_twice_agree : ∃ s, Reachable (@live plain) (Server.empty 0) s ∧
    ((documentCiters s.db agmem ⟨0⟩).length = 1 ∧
      (documents s.db agmem ⟨[], [], 10⟩).map DocumentSummary.cited = [1]) ∧
    ViewsAgree s.db agmem := by
  obtain ⟨steps, s, hrun, -, hp⟩ := exists_run_of_exec (@live plain) (Server.empty 0)
    [.call (.file 0 'a' (some .plan)), .op (remember 5 [citesTwice])]
    (fun u => decide ((documentCiters u.2.db agmem ⟨0⟩).length = 1 ∧
      (documents u.2.db agmem ⟨[], [], 10⟩).map DocumentSummary.cited = [1])) (by decide +kernel)
  exact ⟨s, ⟨steps, hrun⟩, of_decide_eq_true hp, @views_agree plain s 0 ⟨steps, hrun⟩ agmem⟩

end Agmem.Tools
