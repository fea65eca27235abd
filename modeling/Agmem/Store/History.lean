import Agmem.Store.Chains

/-! The chain a link is read in. The walk goes back along `supersedes`, which branches
where a row replaced several, and forward along `superseded_by`, which never does, at most
`MAX_CHAIN` links either way. So every link of a line of corrections that is not longer
than that is read in the same chain, the line itself; a row that was merged away is read
without the rows that were merged with it. -/

namespace Agmem.Store.History

open Core Relational Links Heads Transition

variable {db : Db}

/-! ### Stretches -/

/-- From `a` to `b` each row superseded the one before it, and nothing else. -/
def Stretch (db : Db) : MemoryId → MemoryId → Prop :=
  Relation.ReflTransGen fun a b => supersedesOf db b = [a]

/-- Nothing lies further than `MAX_CHAIN` links from `id`. -/
structure Uncut (db : Db) (id : MemoryId) : Prop where
  back : ∀ q, ¬ Walk (supersedesOf db) (MAX_CHAIN + 1) id q
  forth : ∀ q, ¬ Walk (supersededByOf db) (MAX_CHAIN + 1) id q

/-- A row that superseded one other row only is read in the chain of that row. -/
theorem chainRow_of_link (hl : LinkedBack db) {a b : MemoryId} (hlink : supersedesOf db b = [a])
    (hb : Whole db b) (hback : ∀ q, ¬ Walk (supersedesOf db) (MAX_CHAIN + 1) b q)
    (hforth : ∀ q, ¬ Walk (supersededByOf db) MAX_CHAIN b q) :
    collect (supersedesOf db) MAX_CHAIN b = a :: collect (supersedesOf db) MAX_CHAIN a ∧
      (chainRow db a).ids = (chainRow db b).ids := by
  have ha : a ∈ supersedesOf db b := hlink ▸ List.mem_singleton_self a
  have hnext : supersededByOf db a = [b] :=
    supersededByOf_eq_of_mem hl ha (hb.stored a (.inr (.inl ⟨0, by decide, .single ha⟩)))
  have hmax : MAX_CHAIN = 63 + 1 := rfl
  -- a way back to either end would be a way round
  have hnota : a ∉ collect (supersedesOf db) 63 a := by
    intro h
    obtain ⟨k, hk, hw⟩ := mem_collect.mp h
    obtain ⟨c, hc, hround⟩ := hb.forward hl (k := k + 1) (by omega) (.cons ha hw)
    rw [hnext, List.mem_singleton] at hc
    exact hb.not_cycle (j := k) (by omega) (hc ▸ hround)
  have hnotb : b ∉ collect (supersededByOf db) 63 b := by
    intro h
    obtain ⟨k, hk, hw⟩ := mem_collect.mp h
    exact hb.not_cycle (j := k) (by omega) hw
  have hearlier : collect (supersedesOf db) MAX_CHAIN b =
      a :: collect (supersedesOf db) MAX_CHAIN a := by
    rw [hmax, collect_of_link hlink hnota, collect_succ fun q hq => hback q (.cons ha hq)]
  have hlater : collect (supersededByOf db) MAX_CHAIN a =
      b :: collect (supersededByOf db) MAX_CHAIN b := by
    rw [hmax, collect_of_link hnext hnotb, collect_succ hforth]
  refine ⟨hearlier, ?_⟩
  simp only [chainRow, hearlier, hlater]
  simp

theorem Uncut.of_link {a b : MemoryId} (h : ∀ q, ¬ Walk (supersedesOf db) (MAX_CHAIN + 1) b q)
    (ha : a ∈ supersedesOf db b) (q : MemoryId) : ¬ Walk (supersedesOf db) (MAX_CHAIN + 1) a q := by
  intro hw
  obtain ⟨c, hc, -⟩ := Walk.take (j := MAX_CHAIN + 1) (k := 1) (.cons ha hw)
  exact h c hc

/-- Of two rows that `b` superseded and that are met on one way, neither is met before the other:
the second would lie behind `b`. -/
theorem not_met_before {a b x x' : MemoryId} (hb : Whole db b) (hx : supersededByOf db x = [b])
    (hx' : supersededByOf db x' = [b]) {i j : ℕ} (hwx : Walk (supersededByOf db) i a x)
    (hwx' : Walk (supersededByOf db) j a x') (hj : j ≤ MAX_CHAIN) : ¬ i < j := by
  intro hij
  have hstep : Walk (supersededByOf db) (i + 1) a b := hwx.snoc (hx ▸ List.mem_singleton_self b)
  have hrest : Walk (supersededByOf db) (j - (i + 1)) b x' :=
    hstep.rest (fun _ _ _ => eq_of_mem_supersededByOf)
      (by rwa [show i + 1 + (j - (i + 1)) = j by omega])
  exact hb.not_cycle (by omega) (hrest.snoc (hx' ▸ List.mem_singleton_self b))

/-- What a row superseded is met on the way from an earlier row with its chain. -/
theorem walk_of_chain_eq (hl : LinkedBack db) {a b z : MemoryId}
    (heq : (chainRow db a).ids = (chainRow db b).ids) (hb : Whole db b)
    (hab : a ∈ collect (supersedesOf db) MAX_CHAIN b) (hz : z ∈ supersedesOf db b) :
    supersededByOf db z = [b] ∧ ∃ i ≤ MAX_CHAIN, Walk (supersededByOf db) i a z := by
  obtain ⟨k, hk, hw⟩ := mem_collect.mp hab
  have hon (q : MemoryId) : OnChain db a q ↔ OnChain db b q := by
    rw [← mem_chainRow_ids, ← mem_chainRow_ids, heq]
  have ha : Whole db a := hb.of_ids heq
  have hzb : OnChain db b z := .inr (.inl ⟨0, by decide, .single hz⟩)
  have hnext := supersededByOf_eq_of_mem hl hz (hb.stored z hzb)
  refine ⟨hnext, ?_⟩
  rcases (hon z).mpr hzb with rfl | ⟨j, hj, hw'⟩ | ⟨j, hj, hw'⟩
  · exact ⟨0, Nat.zero_le _, rfl⟩
  · obtain ⟨c, hc, hahead⟩ := ha.forward hl hj hw'
    rw [hnext, List.mem_singleton] at hc
    subst hc
    cases j with
    | zero =>
      cases hahead
      exact absurd (hb.forward hl hk hw) (hb.not_cycle hk)
    | succ j => exact absurd hahead (hb.not_ahead hk hw (by omega))
  · exact ⟨j + 1, hj, hw'⟩

/-- What a row superseded is all in the chain of an earlier row, only if it is a single row. -/
theorem single_of_chain_eq (hl : LinkedBack db) (hnd : ∀ r ∈ db.memory, r.supersedes.Nodup)
    {a b : MemoryId} (heq : (chainRow db a).ids = (chainRow db b).ids) (hb : Whole db b)
    (hab : a ∈ collect (supersedesOf db) MAX_CHAIN b) : ∃ p, supersedesOf db b = [p] := by
  have hsame : ∀ y ∈ supersedesOf db b, ∀ z ∈ supersedesOf db b, y = z := by
    intro y hy z hz
    obtain ⟨hyb, i, hi, hwy⟩ := walk_of_chain_eq hl heq hb hab hy
    obtain ⟨hzb, j, hj, hwz⟩ := walk_of_chain_eq hl heq hb hab hz
    have hij : i = j := by
      have := not_met_before hb hyb hzb hwy hwz hj
      have := not_met_before hb hzb hyb hwz hwy hi
      omega
    subst hij
    exact hwy.rest (k := 0) (fun _ _ _ => eq_of_mem_supersededByOf) hwz
  obtain ⟨k, -, p, hp, -⟩ := mem_collect.mp hab
  obtain ⟨y, hy, hyid, hpy⟩ := mem_supersedesOf.mp hp
  have hlist : (supersedesOf db b).Nodup := by
    rw [← hyid, supersedesOf_eq hy]
    exact hnd y hy
  refine ⟨p, ?_⟩
  by_contra hne
  rcases (hlist.ne_singleton_iff p).mp hne with hnil | ⟨y, hy, hyp⟩
  · rw [hnil] at hp
    cases hp
  · exact hyp (hsame y hy p hp)

theorem stretch_of_chain_eq (hl : LinkedBack db) (hnd : ∀ r ∈ db.memory, r.supersedes.Nodup)
    {a : MemoryId} (hforth : ∀ q, ¬ Walk (supersededByOf db) (MAX_CHAIN + 1) a q) {n : ℕ} :
    ∀ b, (collect (supersedesOf db) MAX_CHAIN b).length = n →
      (chainRow db a).ids = (chainRow db b).ids → Whole db b →
      (∀ q, ¬ Walk (supersedesOf db) (MAX_CHAIN + 1) b q) →
      a ∈ collect (supersedesOf db) MAX_CHAIN b → Stretch db a b := by
  induction n with
  | zero =>
    intro b hlen _ _ _ hab
    rw [List.length_eq_zero_iff.mp hlen] at hab
    cases hab
  | succ n ih =>
    intro b hlen heq hb hback hab
    obtain ⟨p, hp⟩ := single_of_chain_eq hl hnd heq hb hab
    obtain ⟨k, hk, hw⟩ := mem_collect.mp hab
    have hshort (q : MemoryId) : ¬ Walk (supersededByOf db) MAX_CHAIN b q := by
      intro hw'
      have hlong : Walk (supersededByOf db) (MAX_CHAIN + 1 + k) a q := by
        rw [Nat.add_comm, ← Nat.add_assoc, Nat.add_right_comm]
        exact (hb.forward hl hk hw).append hw'
      obtain ⟨c, hc, -⟩ := Walk.take (j := MAX_CHAIN + 1) (k := k) hlong
      exact hforth c hc
    obtain ⟨hearlier, hids⟩ := chainRow_of_link hl hp hb hback hshort
    rw [hearlier] at hab hlen
    rcases List.mem_cons.mp hab with rfl | hap
    · exact .single hp
    · have hmem : p ∈ supersedesOf db b := by
        rw [hp]
        exact List.mem_singleton_self p
      refine (ih p (by simpa using hlen) (heq.trans hids.symm) (hb.of_ids hids) ?_ hap).tail hp
      exact Uncut.of_link hback hmem

/-- Where two walks give one list, one of the two links is met on the way back from the other. -/
theorem earlier_of_chain_eq {a b : MemoryId} (heq : (chainRow db a).ids = (chainRow db b).ids) :
    a = b ∨ a ∈ collect (supersedesOf db) MAX_CHAIN b ∨
      b ∈ collect (supersedesOf db) MAX_CHAIN a := by
  simp only [chainRow, List.append_assoc, List.singleton_append] at heq
  rcases List.append_eq_append_iff.mp heq with ⟨mid, hmid, htail⟩ | ⟨mid, hmid, htail⟩
  · cases mid with
    | nil => exact .inl (List.cons.inj htail).1
    | cons x mid =>
      refine .inr (.inl (List.mem_reverse.mp ?_))
      rw [hmid, (List.cons.inj htail).1]
      simp
  · cases mid with
    | nil => exact .inl (List.cons.inj htail).1.symm
    | cons x mid =>
      refine .inr (.inr (List.mem_reverse.mp ?_))
      rw [hmid, (List.cons.inj htail).1]
      simp

theorem chain_eq_of_stretch (hl : LinkedBack db) {a b : MemoryId} (h : Stretch db a b)
    (hb : Whole db b) (hback : ∀ q, ¬ Walk (supersedesOf db) (MAX_CHAIN + 1) b q)
    (ha : ∃ r ∈ db.memory, r.id = a)
    (hforth : ∀ q, ¬ Walk (supersededByOf db) (MAX_CHAIN + 1) a q) :
    (chainRow db a).ids = (chainRow db b).ids ∧
      ∀ q, ¬ Walk (supersedesOf db) (MAX_CHAIN + 1) a q := by
  induction h using Relation.ReflTransGen.head_induction_on with
  | refl => exact ⟨rfl, hback⟩
  | @head a c hlink _ ih =>
    have hac : a ∈ supersedesOf db c := by
      rw [hlink]
      exact List.mem_singleton_self a
    have hca : c ∈ supersededByOf db a := by
      rw [supersededByOf_eq_of_mem hl hac ha]
      exact List.mem_singleton_self c
    have hshort (q : MemoryId) : ¬ Walk (supersededByOf db) MAX_CHAIN c q :=
      fun hw => hforth q (.cons hca hw)
    have hlong (q : MemoryId) : ¬ Walk (supersededByOf db) (MAX_CHAIN + 1) c q := by
      intro hw
      obtain ⟨d, hd, -⟩ := Walk.take (j := MAX_CHAIN) (k := 1) hw
      exact hshort d hd
    obtain ⟨y, hy, hyid, -⟩ := mem_supersedesOf.mp hac
    obtain ⟨hids, hcback⟩ := ih ⟨y, hy, hyid⟩ hlong
    exact ⟨(chainRow_of_link hl hlink (hb.of_ids hids) hcback hshort).2.trans hids,
      Uncut.of_link hcback hac⟩

/-! ### Lines -/

/-- A whole line of corrections: a chain of rows whose first superseded none. -/
structure Line (db : Db) (rows : List MemoryRecord) : Prop where
  chained : Chained db rows
  first : ∀ r, rows.head? = some r → r.supersedes = []

theorem along_later {r : MemoryRecord} {rows : List MemoryRecord} (h : Chained db (r :: rows))
    (hl : LinkedBack db) : Along (supersededByOf db) r.id (rows.map MemoryRecord.id) := by
  induction rows generalizing r with
  | nil =>
    rw [List.map_nil, Along, supersededByOf_eq (h.stored r List.mem_cons_self), h.last r rfl]
    rfl
  | cons q rows ih =>
    have hnext : r.supersededBy = some q.id := (h.next hl (i := 0) (x := r) (y := q) rfl rfl).1
    refine ⟨?_, ih h.tail⟩
    rw [supersededByOf_eq (h.stored r List.mem_cons_self), hnext]
    rfl

theorem along_earlier {r : MemoryRecord} {before after : List MemoryRecord}
    (h : Line db (before ++ r :: after)) :
    Along (supersedesOf db) r.id (before.reverse.map MemoryRecord.id) := by
  induction before using List.reverseRecOn generalizing r after with
  | nil =>
    have hr : r ∈ db.memory := h.chained.stored r List.mem_cons_self
    rw [List.reverse_nil, List.map_nil, Along, supersedesOf_eq hr]
    exact h.first r rfl
  | append_singleton before q ih =>
    rw [List.append_assoc] at h
    have hr : r ∈ db.memory := h.chained.stored r (by simp)
    have hlink : r.supersedes = [q.id] := by
      have := (List.isChain_append.mp h.chained.links).2.1
      exact (List.isChain_cons_cons.mp this).1
    rw [List.reverse_append, List.reverse_singleton, List.singleton_append, List.map_cons]
    exact ⟨by rw [supersedesOf_eq hr, hlink], ih h⟩

/-- The chain of a link of a line is the line, cut `MAX_CHAIN` links before it and after it. -/
theorem Line.historyChain {r : MemoryRecord} {before after : List MemoryRecord}
    (h : Line db (before ++ r :: after)) (hl : LinkedBack db) :
    historyChain db r.space r.id =
      .ok (before.drop (before.length - MAX_CHAIN) ++ r :: after.take MAX_CHAIN) := by
  have hstored := h.chained.stored
  have hids : ((before ++ r :: after).map MemoryRecord.id).Nodup :=
    (h.chained.nodup hl).map_on fun x hx y hy => Table.eq_of_key (hstored x hx) (hstored y hy)
  have hafter : Chained db (r :: after) := by
    refine ⟨fun q hq => hstored q (List.mem_append_right _ hq),
      (List.isChain_append.mp h.chained.links).2.1, fun q hq => h.chained.last q ?_⟩
    rw [List.getLast?_append, hq]
    rfl
  obtain ⟨hbefore, hrest, hdisj⟩ := List.nodup_append.mp (List.map_append ▸ hids)
  have hearlier := collect_along (n := MAX_CHAIN) (along_earlier h)
    (by rw [List.map_reverse]; exact List.nodup_reverse.mpr hbefore)
  have hlater := collect_along (n := MAX_CHAIN) (along_later hafter hl)
    (List.nodup_cons.mp hrest).2
  have hchain : (chainRow db r.id).ids =
      (before.drop (before.length - MAX_CHAIN) ++ r :: after.take MAX_CHAIN).map
        MemoryRecord.id := by
    simp only [chainRow, hearlier, hlater]
    simp [List.map_take, List.take_reverse, List.map_drop]
  have hsub : (before.drop (before.length - MAX_CHAIN) ++ r :: after.take MAX_CHAIN).Sublist
      (before ++ r :: after) :=
    (List.drop_sublist _ _).append ((List.take_sublist _ _).cons_cons r)
  refine historyChain_ok_iff.mpr ⟨?_, ?_, hchain.symm, fun q hq => hstored q (hsub.subset hq)⟩
  · intro id hid
    exact ⟨r, hstored r (by simp), (List.mem_singleton.mp hid).symm, rfl⟩
  · rw [hchain]
    exact hids.sublist (hsub.map _)

/-! ### Which links are read alike -/

theorem rows_eq_iff_ids_eq {s t : SpaceName} {a b : MemoryId} {xs ys : List MemoryRecord}
    (hx : historyChain db s a = .ok xs) (hy : historyChain db t b = .ok ys) :
    xs = ys ↔ (chainRow db a).ids = (chainRow db b).ids := by
  obtain ⟨-, -, hxs, hxm⟩ := historyChain_ok_iff.mp hx
  obtain ⟨-, -, hys, hym⟩ := historyChain_ok_iff.mp hy
  rw [← hxs, ← hys]
  refine ⟨congrArg _, fun h => ?_⟩
  rw [← rows_of_ids hxm, ← rows_of_ids hym, h]

theorem chains_eq_iff [Hashing] (hdb : db.Reachable) {s t : SpaceName} {a b : MemoryId}
    {xs ys : List MemoryRecord} (hx : historyChain db s a = .ok xs)
    (hy : historyChain db t b = .ok ys) (ha : Uncut db a) (hb : Uncut db b) :
    xs = ys ↔ Stretch db a b ∨ Stretch db b a := by
  have hl := linkedBack_reachable hdb
  have hnd := supersedes_nodup hdb
  have hwa : Whole db a := (historyChain_isOk_iff.mp ⟨xs, hx⟩).2
  have hwb : Whole db b := (historyChain_isOk_iff.mp ⟨ys, hy⟩).2
  rw [rows_eq_iff_ids_eq hx hy]
  constructor
  · intro heq
    rcases earlier_of_chain_eq heq with rfl | hab | hba
    · exact .inl .refl
    · exact .inl (stretch_of_chain_eq hl hnd ha.forth b rfl heq hwb hb.back hab)
    · exact .inr (stretch_of_chain_eq hl hnd hb.forth a rfl heq.symm hwa ha.back hba)
  · rintro (hab | hba)
    · exact (chain_eq_of_stretch hl hab hwb hb.back (hwa.stored a (.inl rfl)) ha.forth).1
    · exact (chain_eq_of_stretch hl hba hwa ha.back (hwb.stored b (.inl rfl)) hb.forth).1.symm

/-- Two links are read in the same chain exactly when each row between them superseded the one
before it and no other. The chain of any link of a whole line is the line, cut `MAX_CHAIN` links
before it and after it; and where no link is missing and none goes round, every row is read. -/
theorem read_alike_iff_stretch [Hashing] (hdb : db.Reachable) :
    (∀ (s t : SpaceName) (a b : MemoryId) (xs ys : List MemoryRecord),
      historyChain db s a = .ok xs → historyChain db t b = .ok ys → Uncut db a → Uncut db b →
        (xs = ys ↔ Stretch db a b ∨ Stretch db b a)) ∧
    (∀ (r : MemoryRecord) (before after : List MemoryRecord), Line db (before ++ r :: after) →
      historyChain db r.space r.id =
        .ok (before.drop (before.length - MAX_CHAIN) ++ r :: after.take MAX_CHAIN)) ∧
    (Closed db → Acyclic (successor db) → ∀ r ∈ db.memory,
      ∃ rows, historyChain db r.space r.id = .ok rows) := by
  have hl := linkedBack_reachable hdb
  refine ⟨fun _ _ _ _ _ _ hx hy ha hb => chains_eq_iff hdb hx hy ha hb,
    fun _ _ _ h => h.historyChain hl, fun hc hacyclic r hr => ?_⟩
  refine historyChain_isOk_iff.mpr ⟨fun id hid => ?_, hc.whole hl hacyclic hr⟩
  exact ⟨r, hr, (List.mem_singleton.mp hid).symm, rfl⟩

/-- A table whose rows, in order, are a whole line. -/
theorem line_rows (links : db.memory.rows.IsChain fun x y => y.supersedes = [x.id])
    (last : db.memory.rows.getLast?.all (fun r => r.supersededBy.isNone) = true)
    (first : db.memory.rows.head?.all (fun r => r.supersedes.isEmpty) = true) :
    Line db db.memory.rows where
  chained := ⟨fun _ hr => hr, links, fun r hr => by simpa [hr] using last⟩
  first r hr := by simpa [hr] using first

/-- One claim is corrected twice, and each of the three wordings is read with the two others. -/
theorem read_alike_iff_stretch_line : ∃ db, @Db.Reachable plain db ∧ db.memory.rows.length = 3 ∧
    ∀ r ∈ db.memory, historyChain db r.space r.id = .ok db.memory.rows := by
  obtain ⟨steps, db, hrun, -, hp⟩ := exists_run_of_exec (@step plain) (Db.empty 0)
    [remember 0 [claim 'a' [] none], remember 9 [claim 'b' [0] none],
      remember 18 [claim 'c' [1] none]]
    (fun u => decide (u.2.memory.rows.length = 3 ∧
      u.2.memory.rows.IsChain (fun (x y : MemoryRecord) => y.supersedes = [x.id]) ∧
      u.2.memory.rows.getLast?.all (fun r => r.supersededBy.isNone) = true ∧
      u.2.memory.rows.head?.all (fun r => r.supersedes.isEmpty) = true)) (by decide)
  obtain ⟨hlen, hlinks, hlast, hfirst⟩ := of_decide_eq_true hp
  have hreach : @Db.Reachable plain db := ⟨0, steps, hrun⟩
  refine ⟨db, hreach, hlen, fun r hr => ?_⟩
  obtain ⟨before, after, hrows⟩ := List.append_of_mem hr
  have hline : Line db (before ++ r :: after) := hrows ▸ line_rows hlinks hlast hfirst
  have hshort : before.length ≤ MAX_CHAIN ∧ after.length ≤ MAX_CHAIN := by
    rw [hrows, List.length_append, List.length_cons] at hlen
    unfold MAX_CHAIN
    omega
  rw [(@read_alike_iff_stretch db plain hreach).2.1 r before after hline, hrows,
    Nat.sub_eq_zero_of_le hshort.1, List.drop_zero, List.take_of_length_le hshort.2]

/-- Two claims are merged into a third: each of the two is read without the other, the third with
both. -/
theorem merged_read_apart : ∃ db, @Db.Reachable plain db ∧ ∃ x ∈ db.memory, ∃ y ∈ db.memory,
    x.supersededBy = some y.id ∧ x.id ∈ y.supersedes ∧
      historyChain db x.space x.id ≠ historyChain db y.space y.id := by
  obtain ⟨steps, db, hrun, -, hp⟩ := exists_run_of_exec (@step plain) (Db.empty 0)
    [remember 0 [claim 'a' [] none, claim 'b' [] none], remember 9 [claim 'c' [0, 1] none]]
    (fun u => u.2.memory.rows.any fun x => u.2.memory.rows.any fun y =>
      decide (x.supersededBy = some y.id ∧ x.id ∈ y.supersedes) &&
        succeedsWith (fun rows => rows.length == 2) (historyChain u.2 x.space x.id) &&
        succeedsWith (fun rows => rows.length == 3) (historyChain u.2 y.space y.id)) (by decide)
  simp only [List.any_eq_true, Bool.and_eq_true, decide_eq_true_eq] at hp
  obtain ⟨x, hx, y, hy, ⟨⟨hxy, hyx⟩, htwo⟩, hthree⟩ := hp
  obtain ⟨xs, hxs, htwo⟩ := exists_of_succeedsWith htwo
  obtain ⟨ys, hys, hthree⟩ := exists_of_succeedsWith hthree
  refine ⟨db, ⟨0, steps, hrun⟩, x, hx, y, hy, hxy, hyx, fun h => ?_⟩
  rw [hxs, hys, Except.ok.injEq] at h
  rw [beq_iff_eq] at htwo hthree
  rw [h, hthree] at htwo
  cases htwo

end Agmem.Store.History
