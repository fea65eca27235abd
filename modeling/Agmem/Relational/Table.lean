import Mathlib.Data.List.Nodup
import Mathlib.Data.List.Forall2
import Mathlib.Data.Option.Basic

/-! Tables of rows with a primary key and one unique index. A table carries the
proof that no two of its rows share either, so a write that would break one is
refused and there is no table to go on with. The update statement visits a list
of keys in order, rewrites the rows that pass its guard, and reports the rows it
touched; a key that names nothing, or a row the guard turns away, is passed over
in silence. -/

namespace Agmem.Relational

/-- The primary key of a row and the columns its unique index reads. -/
class Row (ρ : Type*) (κ ι : outParam Type*) where
  key : ρ → κ
  index : ρ → ι

/-- Rows in insertion order, unique by key and by index. -/
structure Table (ρ : Type*) {κ ι : Type*} [Row ρ κ ι] where
  rows : List ρ
  keys : (rows.map Row.key).Nodup
  unique : (rows.map Row.index).Nodup

namespace Table

variable {ρ κ ι : Type*} [Row ρ κ ι]

@[ext] theorem ext {t u : Table ρ} (h : t.rows = u.rows) : t = u := by
  cases t; cases u; cases h; rfl

instance : Membership ρ (Table ρ) := ⟨fun t r => r ∈ t.rows⟩

theorem mem_iff {t : Table ρ} {r : ρ} : r ∈ t ↔ r ∈ t.rows := Iff.rfl

def empty : Table ρ := ⟨[], List.nodup_nil, List.nodup_nil⟩

@[simp] theorem empty_rows : (empty : Table ρ).rows = [] := rfl

@[simp] theorem not_mem_empty (r : ρ) : r ∉ (empty : Table ρ) := List.not_mem_nil

instance : EmptyCollection (Table ρ) := ⟨empty⟩

theorem eq_of_key {t : Table ρ} {r q : ρ} (hr : r ∈ t) (hq : q ∈ t)
    (h : Row.key r = Row.key q) : r = q :=
  List.inj_on_of_nodup_map t.keys hr hq h

theorem eq_of_index {t : Table ρ} {r q : ρ} (hr : r ∈ t) (hq : q ∈ t)
    (h : Row.index r = Row.index q) : r = q :=
  List.inj_on_of_nodup_map t.unique hr hq h

/-- Delete the rows that satisfy `p`. -/
def delete (t : Table ρ) (p : ρ → Bool) : Table ρ where
  rows := t.rows.filter (fun r => !p r)
  keys := t.keys.sublist (List.filter_sublist.map _)
  unique := t.unique.sublist (List.filter_sublist.map _)

@[simp] theorem mem_delete {t : Table ρ} {p : ρ → Bool} {r : ρ} :
    r ∈ t.delete p ↔ r ∈ t ∧ p r = false := by
  simp [mem_iff, delete]

/-- Rewrite every row, by a function that keeps the keys. -/
def rewrite (t : Table ρ) (f : ρ → ρ) (hkey : ∀ r, Row.key (f r) = Row.key r)
    (hindex : ∀ r, Row.index (f r) = Row.index r) : Table ρ where
  rows := t.rows.map f
  keys := by
    rw [List.map_map, show Row.key ∘ f = Row.key from funext hkey]
    exact t.keys
  unique := by
    rw [List.map_map, show Row.index ∘ f = Row.index from funext hindex]
    exact t.unique

variable [DecidableEq κ]

/-- Rewrite the row under a key, if there is one. -/
def rewriteAt (t : Table ρ) (k : κ) (f : ρ → ρ) (hkey : ∀ r, Row.key (f r) = Row.key r)
    (hindex : ∀ r, Row.index (f r) = Row.index r) : Table ρ :=
  t.rewrite (fun r => if Row.key r = k then f r else r)
    (fun r => by split_ifs; exacts [hkey r, rfl])
    (fun r => by split_ifs; exacts [hindex r, rfl])

/-- Where the rewritten row fails a test, it drops out of the rows that pass, and no other does. -/
theorem filter_rewriteAt (t : Table ρ) (k : κ) {f : ρ → ρ} (hkey : ∀ r, Row.key (f r) = Row.key r)
    (hindex : ∀ r, Row.index (f r) = Row.index r) {p : ρ → Bool} (hf : ∀ r, p (f r) = false) :
    (t.rewriteAt k f hkey hindex).rows.filter p =
      (t.rows.filter p).filter fun r => decide (Row.key r ≠ k) := by
  unfold rewriteAt rewrite
  dsimp only
  induction t.rows with
  | nil => rfl
  | cons r rows ih =>
    rw [List.map_cons]
    by_cases hr : Row.key r = k
    · rw [if_pos hr, List.filter_cons_of_neg (by rw [hf r]; decide), ih]
      cases hp : p r
      · rw [List.filter_cons_of_neg (by rw [hp]; decide)]
      · rw [List.filter_cons_of_pos hp, List.filter_cons_of_neg (by simp [hr])]
    · rw [if_neg hr]
      cases hp : p r
      · rw [List.filter_cons_of_neg (by rw [hp]; decide),
          List.filter_cons_of_neg (by rw [hp]; decide), ih]
      · rw [List.filter_cons_of_pos hp, List.filter_cons_of_pos hp,
          List.filter_cons_of_pos (by simp [hr]), ih]

/-- The row under a key. -/
def get? (t : Table ρ) (k : κ) : Option ρ := t.rows.find? (fun r => decide (Row.key r = k))

theorem get?_eq_some {t : Table ρ} {k : κ} {r : ρ} : t.get? k = some r ↔ r ∈ t ∧ Row.key r = k := by
  constructor
  · intro h
    exact ⟨List.mem_of_find?_eq_some h, by simpa using List.find?_some h⟩
  · rintro ⟨hr, rfl⟩
    cases hf : t.get? (Row.key r) with
    | none => exact absurd (List.find?_eq_none.mp hf r hr) (by simp)
    | some q =>
      have hq : q ∈ t := List.mem_of_find?_eq_some hf
      have hk : Row.key q = Row.key r := by simpa using List.find?_some hf
      rw [eq_of_key hq hr hk]

/-- What holds of the row behind a key. -/
theorem exists_get? {t : Table ρ} {k : κ} {p : ρ → Prop} :
    (∃ r, t.get? k = some r ∧ p r) ↔ ∃ r ∈ t, Row.key r = k ∧ p r := by
  simp only [get?_eq_some, and_assoc]

theorem get?_eq_none {t : Table ρ} {k : κ} : t.get? k = none ↔ ∀ r ∈ t, Row.key r ≠ k := by
  simp [get?, mem_iff]

/-- The delete statement over a list of keys, and the rows it took. -/
def deleteKeys (p : ρ → Bool) (t : Table ρ) : List κ → Table ρ × List ρ
  | [] => (t, [])
  | k :: ks =>
    match t.get? k with
    | none => deleteKeys p t ks
    | some r =>
      if p r then
        let u := deleteKeys p (t.delete fun q => decide (Row.key q = k)) ks
        (u.1, r :: u.2)
      else deleteKeys p t ks

/-- A row stays unless it was named and passes the guard. -/
theorem mem_deleteKeys {p : ρ → Bool} {t : Table ρ} {ks : List κ} {r : ρ} :
    r ∈ (t.deleteKeys p ks).1 ↔ r ∈ t ∧ ¬ (Row.key r ∈ ks ∧ p r = true) := by
  induction ks generalizing t with
  | nil => simp [deleteKeys]
  | cons k ks ih =>
    cases hg : t.get? k with
    | none =>
      have hno := get?_eq_none.mp hg
      simp only [deleteKeys, hg, ih, List.mem_cons]
      exact and_congr_right fun hr => by simp [hno r hr]
    | some q =>
      obtain ⟨hq, rfl⟩ := get?_eq_some.mp hg
      have hsame : r ∈ t → Row.key r = Row.key q → r = q := fun hr h => eq_of_key hr hq h
      by_cases hp : p q = true
      · simp only [deleteKeys, hg, hp, if_true, ih, mem_delete, decide_eq_false_iff_not,
          List.mem_cons]
        constructor
        · rintro ⟨⟨hr, hne⟩, hno⟩
          exact ⟨hr, fun h => hno ⟨h.1.resolve_left hne, h.2⟩⟩
        · rintro ⟨hr, hno⟩
          have hne : Row.key r ≠ Row.key q := fun h => hno ⟨.inl h, hsame hr h ▸ hp⟩
          exact ⟨⟨hr, hne⟩, fun h => hno ⟨.inr h.1, h.2⟩⟩
      · simp only [deleteKeys, hg, hp, Bool.false_eq_true, if_false, ih, List.mem_cons]
        refine and_congr_right fun hr => not_congr ⟨fun h => ⟨.inr h.1, h.2⟩, fun h => ?_⟩
        refine ⟨h.1.resolve_left fun he => hp ?_, h.2⟩
        rw [← hsame hr he]
        exact h.2

variable [DecidableEq ι]

/-- The engine's check: a list of rows is a table only if both keys are unique. -/
def build? (rows : List ρ) : Option (Table ρ) :=
  if h : (rows.map Row.key).Nodup ∧ (rows.map Row.index).Nodup then some ⟨rows, h.1, h.2⟩ else none

def insert? (t : Table ρ) (r : ρ) : Option (Table ρ) := build? (t.rows ++ [r])

/-- Rewrite the row under `k`. -/
def replace? (t : Table ρ) (k : κ) (f : ρ → ρ) : Option (Table ρ) :=
  build? (t.rows.map fun r => if Row.key r = k then f r else r)

/-- The update statement over a list of keys: the guard `p` is read off the row as
the statement finds it, so a key listed twice meets its own first rewrite. -/
def update? (p : ρ → Bool) (f : ρ → ρ) (t : Table ρ) : List κ → Option (Table ρ × List ρ)
  | [] => some (t, [])
  | k :: ks =>
    match t.get? k with
    | none => update? p f t ks
    | some r =>
      if p r then
        (t.replace? k f).bind fun t' => (update? p f t' ks).map fun u => (u.1, f r :: u.2)
      else update? p f t ks

theorem build?_eq_some {rows : List ρ} {t : Table ρ} : build? rows = some t ↔ t.rows = rows := by
  unfold build?
  constructor
  · intro h
    split_ifs at h with hn
    simp only [Option.some.injEq] at h
    subst h; rfl
  · rintro rfl
    rw [dif_pos ⟨t.keys, t.unique⟩]

theorem build?_isSome {rows : List ρ} :
    (build? rows).isSome ↔ (rows.map Row.key).Nodup ∧ (rows.map Row.index).Nodup := by
  unfold build?; split_ifs with h <;> simp [h]

theorem insert?_eq_some {t t' : Table ρ} {r : ρ} :
    t.insert? r = some t' ↔ t'.rows = t.rows ++ [r] := build?_eq_some

/-- A row goes in exactly when neither its key nor its index is taken. -/
theorem insert?_isSome {t : Table ρ} {r : ρ} :
    (t.insert? r).isSome ↔ ∀ q ∈ t, Row.key q ≠ Row.key r ∧ Row.index q ≠ Row.index r := by
  simp only [insert?, build?_isSome, List.map_append, List.map_cons, List.map_nil,
    List.nodup_append, List.nodup_singleton, t.keys, t.unique, true_and, List.mem_singleton,
    List.mem_map, forall_eq, mem_iff]
  constructor
  · rintro ⟨hk, hi⟩ q hq
    exact ⟨fun h => hk _ ⟨q, hq, rfl⟩ h, fun h => hi _ ⟨q, hq, rfl⟩ h⟩
  · intro h
    exact ⟨by rintro _ ⟨q, hq, rfl⟩; exact (h q hq).1, by rintro _ ⟨q, hq, rfl⟩; exact (h q hq).2⟩

theorem replace?_eq_some {t t' : Table ρ} {k : κ} {f : ρ → ρ} :
    t.replace? k f = some t' ↔ t'.rows = t.rows.map fun r => if Row.key r = k then f r else r :=
  build?_eq_some

section Update

variable {p : ρ → Bool} {f : ρ → ρ}

theorem update?_cons_none {t : Table ρ} {k : κ} {ks : List κ} (h : t.get? k = none) :
    update? p f t (k :: ks) = update? p f t ks := by
  simp [update?, h]

theorem update?_cons_skip {t : Table ρ} {k : κ} {ks : List κ} {r : ρ} (h : t.get? k = some r)
    (hp : p r = false) : update? p f t (k :: ks) = update? p f t ks := by
  simp [update?, h, hp]

theorem update?_cons_hit {t : Table ρ} {k : κ} {ks : List κ} {r : ρ} (h : t.get? k = some r)
    (hp : p r = true) : update? p f t (k :: ks) =
      (t.replace? k f).bind fun t' => (update? p f t' ks).map fun u => (u.1, f r :: u.2) := by
  simp [update?, h, hp]

/-- The three ways an update statement can treat its first key. -/
theorem update?_cons_cases {t t' : Table ρ} {k : κ} {ks : List κ} {rs : List ρ}
    (h : update? p f t (k :: ks) = some (t', rs)) :
    ((∀ r ∈ t, Row.key r = k → p r = false) ∧ update? p f t ks = some (t', rs)) ∨
    ∃ r t₁ rs', r ∈ t ∧ Row.key r = k ∧ p r = true ∧
      t₁.rows = (t.rows.map fun q => if Row.key q = k then f q else q) ∧
      update? p f t₁ ks = some (t', rs') ∧ rs = f r :: rs' := by
  cases hg : t.get? k with
  | none =>
    rw [update?_cons_none hg] at h
    exact .inl ⟨fun r hr hk => absurd hk (get?_eq_none.mp hg r hr), h⟩
  | some r =>
    obtain ⟨hr, hk⟩ := get?_eq_some.mp hg
    cases hp : p r with
    | false =>
      rw [update?_cons_skip hg hp] at h
      refine .inl ⟨fun q hq hqk => ?_, h⟩
      rwa [eq_of_key hq hr (hqk.trans hk.symm)]
    | true =>
      rw [update?_cons_hit hg hp, Option.bind_eq_some_iff] at h
      obtain ⟨t₁, ht₁, h⟩ := h
      obtain ⟨⟨t₂, rs'⟩, h₂, he⟩ := Option.map_eq_some_iff.mp h
      simp only [Prod.mk.injEq] at he
      obtain ⟨rfl, rfl⟩ := he
      exact .inr ⟨r, t₁, rs', hr, hk, hp, replace?_eq_some.mp ht₁, h₂, rfl⟩

theorem update?_nil {t t' : Table ρ} {rs : List ρ} (h : update? p f t [] = some (t', rs)) :
    t' = t ∧ rs = [] := by
  simp only [update?, Option.some.injEq, Prod.mk.injEq] at h
  exact ⟨h.1.symm, h.2.symm⟩

/-- What one rewrite keeps of a row, the whole statement keeps of every row. -/
theorem update?_map {R : ρ → ρ → Prop} (hrefl : ∀ r, R r r)
    (htrans : ∀ r q s, R r q → R q s → R r s) (hf : ∀ r, p r = true → R r (f r)) :
    ∀ (ks : List κ) (t t' : Table ρ) (rs : List ρ), update? p f t ks = some (t', rs) →
      ∃ g : ρ → ρ, t'.rows = t.rows.map g ∧ ∀ r ∈ t, R r (g r) := by
  intro ks
  induction ks with
  | nil =>
    intro t t' rs h
    obtain ⟨rfl, -⟩ := update?_nil h
    exact ⟨id, (List.map_id _).symm, fun r _ => hrefl r⟩
  | cons k ks ih =>
    intro t t' rs h
    rcases update?_cons_cases h with ⟨_, h⟩ | ⟨r, t₁, rs', hr, hk, hp, ht₁, h, -⟩
    · exact ih _ _ _ h
    · obtain ⟨g, hg, hR⟩ := ih _ _ _ h
      refine ⟨fun q => g (if Row.key q = k then f q else q), ?_, fun q hq => ?_⟩
      · rw [hg, ht₁, List.map_map]; rfl
      · have hmem : (if Row.key q = k then f q else q) ∈ t₁ := by
          rw [mem_iff, ht₁]; exact List.mem_map.mpr ⟨q, hq, rfl⟩
        refine htrans _ _ _ ?_ (hR _ hmem)
        split_ifs with hqk
        · rw [eq_of_key hq hr (hqk.trans hk.symm)]
          exact hf r hp
        · exact hrefl q

/-- The table after an update that rewrites no row twice: it names each key once, or turns off its
own guard. -/
theorem update?_rows (hkey : ∀ r, Row.key (f r) = Row.key r) :
    ∀ (ks : List κ) (t t' : Table ρ) (rs : List ρ),
      (ks.Nodup ∨ ∀ r, p r = true → p (f r) = false) → update? p f t ks = some (t', rs) →
      t'.rows = t.rows.map fun r => if p r = true ∧ Row.key r ∈ ks then f r else r := by
  intro ks
  induction ks with
  | nil =>
    intro t t' rs _ h
    obtain ⟨rfl, -⟩ := update?_nil h
    simp
  | cons k ks ih =>
    intro t t' rs honce h
    have hrest := honce.imp_left List.Nodup.of_cons
    rcases update?_cons_cases h with ⟨hno, h⟩ | ⟨r, t₁, rs', hr, hrk, hp, ht₁, h, -⟩
    · rw [ih _ _ _ hrest h]
      refine List.map_congr_left fun q hq => ?_
      by_cases hqk : Row.key q = k
      · simp [hno q hq hqk]
      · simp [hqk]
    · rw [ih _ _ _ hrest h, ht₁, List.map_map]
      refine List.map_congr_left fun q hq => ?_
      simp only [Function.comp_apply, List.mem_cons]
      by_cases hqk : Row.key q = k
      · have : q = r := eq_of_key hq hr (hqk.trans hrk.symm)
        subst this
        have hdone : ¬ (p (f q) = true ∧ Row.key (f q) ∈ ks) := by
          rintro ⟨hagain, hin⟩
          rw [hkey, hqk] at hin
          rcases honce with hnodup | hoff
          · exact (List.nodup_cons.mp hnodup).1 hin
          · rw [hoff q hp] at hagain
            cases hagain
        simp [hqk, hp, hdone]
      · simp [hqk]

/-- A rewrite under a guard that it turns off itself, as closing an open row does. -/
structure OneShot (p : ρ → Bool) (f : ρ → ρ) : Prop where
  key : ∀ r, Row.key (f r) = Row.key r
  once : ∀ r, p r = true → p (f r) = false

/-- The rows of a table one of whose rows was rewritten. -/
theorem mem_of_replace? {t t₁ : Table ρ} {q r : ρ} (hr : r ∈ t)
    (h : t.replace? (Row.key r) f = some t₁) : q ∈ t₁ ↔ q = f r ∨ q ∈ t ∧ q ≠ r := by
  rw [mem_iff, replace?_eq_some.mp h, List.mem_map]
  constructor
  · rintro ⟨q', hq', rfl⟩
    split_ifs with hc
    · exact .inl (by rw [eq_of_key hq' hr hc])
    · exact .inr ⟨hq', fun h => hc (h ▸ rfl)⟩
  · rintro (rfl | ⟨hq, hqr⟩)
    · exact ⟨r, hr, by simp⟩
    · exact ⟨q, hq, if_neg fun h => hqr (eq_of_key hq hr h)⟩

variable (hs : OneShot p f)
include hs

/-- The table after a one-shot update: every named row that passed the guard is
rewritten, once. -/
theorem OneShot.rows (ks : List κ) (t t' : Table ρ) (rs : List ρ)
    (h : update? p f t ks = some (t', rs)) :
    t'.rows = t.rows.map fun r => if p r = true ∧ Row.key r ∈ ks then f r else r :=
  update?_rows hs.key ks t t' rs (.inr hs.once) h

/-- The report is as long as the list of keys exactly when no key is listed twice and
every key names a row the guard lets through. -/
theorem OneShot.length : ∀ (ks : List κ) (t t' : Table ρ) (rs : List ρ),
    update? p f t ks = some (t', rs) → rs.length ≤ ks.length ∧
      (rs.length = ks.length ↔ ks.Nodup ∧ ∀ k ∈ ks, ∃ r ∈ t, Row.key r = k ∧ p r = true) := by
  intro ks
  induction ks with
  | nil =>
    intro t t' rs h
    obtain ⟨-, rfl⟩ := update?_nil h
    simp
  | cons k ks ih =>
    intro t t' rs h
    rcases update?_cons_cases h with ⟨hno, h⟩ | ⟨r, t₁, rs', hr, hk, hp, ht₁, h', rfl⟩
    · obtain ⟨hle, -⟩ := ih _ _ _ h
      refine ⟨Nat.le_succ_of_le hle, ?_, ?_⟩
      · intro he
        simp only [List.length_cons] at he
        omega
      · rintro ⟨-, hall⟩
        obtain ⟨q, hq, hqk, hqp⟩ := hall k List.mem_cons_self
        simp [hno q hq hqk] at hqp
    · obtain ⟨hle, hiff⟩ := ih _ _ _ h'
      have hin (q : ρ) : q ∈ t₁ ↔ ∃ q' ∈ t, (if Row.key q' = k then f q' else q') = q := by
        rw [mem_iff, ht₁]; exact List.mem_map
      refine ⟨by simpa using hle, ?_⟩
      simp only [List.length_cons, Nat.add_right_cancel_iff, hiff, List.nodup_cons,
        List.forall_mem_cons]
      constructor
      · rintro ⟨hnd, hall⟩
        have hback : ∀ k' ∈ ks, k' ≠ k ∧ ∃ r ∈ t, Row.key r = k' ∧ p r = true := by
          intro k' hk'
          obtain ⟨q, hq, hqk, hqp⟩ := hall k' hk'
          obtain ⟨q', hq', rfl⟩ := (hin q).mp hq
          split_ifs at hqk hqp with hc
          · rw [eq_of_key hq' hr (hc.trans hk.symm), hs.once r hp] at hqp
            simp at hqp
          · exact ⟨hqk ▸ hc, q', hq', hqk, hqp⟩
        exact ⟨⟨fun hm => (hback k hm).1 rfl, hnd⟩, ⟨r, hr, hk, hp⟩, fun k' hk' => (hback k' hk').2⟩
      · rintro ⟨⟨hkm, hnd⟩, -, hall⟩
        refine ⟨hnd, fun k' hk' => ?_⟩
        obtain ⟨q, hq, hqk, hqp⟩ := hall k' hk'
        have hne : Row.key q ≠ k := by rintro rfl; exact hkm (hqk ▸ hk')
        exact ⟨q, (hin q).mpr ⟨q, hq, by simp [hne]⟩, hqk, hqp⟩

/-- Rewriting one row is refused exactly when another row holds its new index. -/
theorem OneShot.replace?_isSome {t : Table ρ} {r : ρ} (hr : r ∈ t) :
    (t.replace? (Row.key r) f).isSome ↔
      ∀ q ∈ t, q ≠ r → Row.index (f r) ≠ Row.index q := by
  have hk : (t.rows.map fun q => if Row.key q = Row.key r then f q else q).map Row.key =
      t.rows.map Row.key := by
    rw [List.map_map]
    refine List.map_congr_left fun q _ => ?_
    simp only [Function.comp_apply]
    split_ifs <;> simp [hs.key]
  have hrows : t.rows.Nodup := t.keys.of_map _
  have helse : ∀ q ∈ t.rows, q ≠ r → (if Row.key q = Row.key r then f q else q) = q :=
    fun q hq hqr => if_neg fun h => hqr (eq_of_key hq hr h)
  simp only [replace?, build?_isSome, hk, t.keys, true_and, List.map_map]
  rw [List.nodup_map_iff_inj_on hrows]
  constructor
  · intro h q hq hqr he
    refine hqr (h q hq r hr ?_)
    rw [Function.comp_apply, Function.comp_apply, helse q hq hqr, if_pos rfl, he]
  · intro h q hq s hs' he
    rw [Function.comp_apply, Function.comp_apply] at he
    by_cases hqr : q = r <;> by_cases hsr : s = r
    · rw [hqr, hsr]
    · rw [hqr, if_pos rfl, helse s hs' hsr] at he
      exact absurd he (h s hs' hsr)
    · rw [hsr, if_pos rfl, helse q hq hqr] at he
      exact absurd he.symm (h q hq hqr)
    · rw [helse q hq hqr, helse s hs' hsr] at he
      exact eq_of_index hq hs' he

/-- A row that the guard lets through after a rewrite is another one. -/
theorem OneShot.mem_open {t t₁ : Table ρ} {q r : ρ} (hr : r ∈ t) (hp : p r = true)
    (h : t.replace? (Row.key r) f = some t₁) (hq : q ∈ t₁) (hqp : p q = true) :
    q ∈ t ∧ q ≠ r := by
  rcases (mem_of_replace? hr h).mp hq with rfl | hqt
  · simp [hs.once r hp] at hqp
  · exact hqt

/-- After one rewrite the rows that are still open meet no row that they did not meet before. -/
theorem OneShot.misses_after {t t₁ : Table ρ} {r : ρ} (hr : r ∈ t) (hp : p r = true)
    (hrep : t.replace? (Row.key r) f = some t₁)
    (hleave : ∀ r ∈ t, ∀ q ∈ t, p r = true → p q = true → Row.index (f r) ≠ Row.index q)
    (hapart : ∀ r ∈ t, ∀ q ∈ t, p r = true → p q = true → Row.index (f r) = Row.index (f q) → r = q)
    (ks : List κ) :
    (∀ r ∈ t₁, ∀ q ∈ t₁, p r = true → p q = true → Row.index (f r) ≠ Row.index q) ∧
    (∀ r ∈ t₁, ∀ q ∈ t₁, p r = true → p q = true → Row.index (f r) = Row.index (f q) → r = q) ∧
    ((∀ q ∈ t₁, Row.key q ∈ ks → p q = true → ∀ s ∈ t₁, p s = false →
        Row.index (f q) ≠ Row.index s) ↔
      ∀ q ∈ t, Row.key q ∈ Row.key r :: ks → p q = true → ∀ s ∈ t, p s = false →
        Row.index (f q) ≠ Row.index s) := by
  have hfree := (hs.replace?_isSome hr).mp (by simp [hrep])
  have hin (q : ρ) : q ∈ t₁ ↔ q = f r ∨ q ∈ t ∧ q ≠ r := mem_of_replace? hr hrep
  have hopen (q : ρ) (hq : q ∈ t₁) (hqp : p q = true) : q ∈ t ∧ q ≠ r :=
    hs.mem_open hr hp hrep hq hqp
  refine ⟨fun q hq s hs' hqp hsp => hleave q (hopen q hq hqp).1 s (hopen s hs' hsp).1 hqp hsp,
    fun q hq s hs' hqp hsp => hapart q (hopen q hq hqp).1 s (hopen s hs' hsp).1 hqp hsp, ?_⟩
  constructor
  · intro h q hq hqk hqp s hs' hsp
    by_cases hqr : q = r
    · subst hqr
      exact hfree s hs' fun h => by simp [h, hp] at hsp
    · have hq₁ : q ∈ t₁ := (hin q).mpr (.inr ⟨hq, hqr⟩)
      have hs₁ : s ∈ t₁ := (hin s).mpr (.inr ⟨hs', fun h => by simp [h, hp] at hsp⟩)
      have hqks : Row.key q ∈ ks :=
        (List.mem_cons.mp hqk).resolve_left fun h => hqr (eq_of_key hq hr h)
      exact h q hq₁ hqks hqp s hs₁ hsp
  · intro h q hq hqk hqp s hs' hsp
    obtain ⟨hqt, hqr⟩ := hopen q hq hqp
    rcases (hin s).mp hs' with rfl | ⟨hst, -⟩
    · exact fun he => hqr (hapart q hqt r hr hqp hp he)
    · exact h q hqt (List.mem_cons_of_mem _ hqk) hqp s hst hsp

/-- Where rewritten rows can only meet rows the guard turned away, the engine refuses
the statement exactly when one of them does. -/
theorem OneShot.isSome : ∀ (ks : List κ) (t : Table ρ),
    (∀ r ∈ t, ∀ q ∈ t, p r = true → p q = true → Row.index (f r) ≠ Row.index q) →
    (∀ r ∈ t, ∀ q ∈ t, p r = true → p q = true → Row.index (f r) = Row.index (f q) → r = q) →
      ((update? p f t ks).isSome ↔ ∀ r ∈ t, Row.key r ∈ ks → p r = true →
        ∀ q ∈ t, p q = false → Row.index (f r) ≠ Row.index q) := by
  intro ks
  induction ks with
  | nil => intro t _ _; simp [update?]
  | cons k ks ih =>
    intro t hleave hapart
    cases hg : t.get? k with
    | none =>
      rw [update?_cons_none hg, ih t hleave hapart]
      have hno := get?_eq_none.mp hg
      exact forall₂_congr fun r hr => by simp [hno r hr]
    | some r =>
      obtain ⟨hr, rfl⟩ := get?_eq_some.mp hg
      cases hp : p r with
      | false =>
        rw [update?_cons_skip hg hp, ih t hleave hapart]
        refine forall₂_congr fun q hq => ?_
        by_cases hqk : Row.key q = Row.key r
        · rw [eq_of_key hq hr hqk]
          simp [hp]
        · simp [hqk]
      | true =>
        rw [update?_cons_hit hg hp]
        cases hrep : t.replace? (Row.key r) f with
        | none =>
          simp only [Option.bind_none, Option.isSome_none, Bool.false_eq_true, false_iff]
          intro hall
          have : (t.replace? (Row.key r) f).isSome := by
            refine (hs.replace?_isSome hr).mpr fun q hq hqr => ?_
            cases hq' : p q with
            | false => exact hall r hr List.mem_cons_self hp q hq hq'
            | true => exact hleave r hr q hq hp hq'
          simp [hrep] at this
        | some t₁ =>
          obtain ⟨hleave', hapart', hmisses⟩ := hs.misses_after hr hp hrep hleave hapart ks
          rw [Option.bind_some, Option.isSome_map, ih t₁ hleave' hapart', hmisses]

end Update

end Table

end Agmem.Relational
