import Mathlib.Data.List.Nodup
import Mathlib.Tactic.Common

/-! Rows put into the order of a list of keys. Each row is taken out of the heap once, so a key
that comes twice finds nothing the second time. -/

namespace Agmem.Relational

variable {ρ κ ε : Type*} [DecidableEq κ] {key : ρ → κ}

def takeBy (key : ρ → κ) (missing : ε) (rows : List ρ) : List κ → Except ε (List ρ)
  | [] => .ok []
  | k :: ks =>
    match rows.find? fun r => decide (key r = k) with
    | none => .error missing
    | some r =>
      match takeBy key missing (rows.filter fun q => decide (key q ≠ k)) ks with
      | .error e => .error e
      | .ok rs => .ok (r :: rs)

/-- Rows without those of a key. -/
theorem forall_mem_others {rows rs : List ρ} {k : κ} :
    (∀ q ∈ rs, q ∈ rows.filter fun q => decide (key q ≠ k)) ↔
      k ∉ rs.map key ∧ ∀ q ∈ rs, q ∈ rows := by
  simp only [List.mem_filter, decide_eq_true_iff, List.mem_map, not_exists, not_and]
  exact ⟨fun h => ⟨fun q hq => (h q hq).2, fun q hq => (h q hq).1⟩,
    fun h q hq => ⟨h.2 q hq, h.1 q hq⟩⟩

/-- The rows come back in the order of the keys, provided no key is repeated and each has a row. -/
theorem takeBy_ok_iff {missing : ε} {rows out : List ρ} {ks : List κ}
    (hrows : ∀ r ∈ rows, ∀ q ∈ rows, key r = key q → r = q) :
    takeBy key missing rows ks = .ok out ↔ ks.Nodup ∧ out.map key = ks ∧ ∀ r ∈ out, r ∈ rows := by
  induction ks generalizing rows out with
  | nil =>
    simp only [takeBy, Except.ok.injEq, List.nodup_nil, true_and, List.map_eq_nil_iff]
    constructor
    · rintro rfl
      exact ⟨rfl, fun r hr => absurd hr List.not_mem_nil⟩
    · exact fun h => h.1.symm
  | cons k ks ih =>
    have hkept : ∀ r ∈ rows.filter (fun q => decide (key q ≠ k)),
        ∀ q ∈ rows.filter (fun q => decide (key q ≠ k)), key r = key q → r = q :=
      fun r hr q hq => hrows r (List.mem_of_mem_filter hr) q (List.mem_of_mem_filter hq)
    unfold takeBy
    cases hf : rows.find? fun r => decide (key r = k) with
    | none =>
      simp only [reduceCtorEq, false_iff]
      rintro ⟨-, hout, hsub⟩
      obtain ⟨r, rs, rfl, hid, -⟩ := List.map_eq_cons_iff.mp hout
      exact List.find?_eq_none.mp hf r (hsub r List.mem_cons_self) (by simpa using hid)
    | some r =>
      have hr : r ∈ rows := List.mem_of_find?_eq_some hf
      have hid : key r = k := by simpa using List.find?_some hf
      simp only
      constructor
      · intro h
        split at h
        · cases h
        · next rs hrs =>
          cases h
          obtain ⟨hnd, hout, hsub⟩ := (ih hkept).mp hrs
          obtain ⟨hnot, hsub⟩ := forall_mem_others.mp hsub
          exact ⟨List.nodup_cons.mpr ⟨hout ▸ hnot, hnd⟩, by rw [List.map_cons, hid, hout],
            List.forall_mem_cons.mpr ⟨hr, hsub⟩⟩
      · rintro ⟨hnd, hout, hsub⟩
        obtain ⟨q, rs, rfl, hqid, hrs⟩ := List.map_eq_cons_iff.mp hout
        obtain ⟨hnot, hnd⟩ := List.nodup_cons.mp hnd
        obtain ⟨hq, hsub⟩ := List.forall_mem_cons.mp hsub
        have hothers := forall_mem_others.mpr ⟨hrs.symm ▸ hnot, hsub⟩
        rw [(ih hkept).mpr ⟨hnd, hrs, hothers⟩, hrows q hq r hr (hqid.trans hid.symm)]

theorem takeBy_isOk_iff (missing : ε) {rows : List ρ} {ks : List κ}
    (hrows : ∀ r ∈ rows, ∀ q ∈ rows, key r = key q → r = q) :
    (∃ out, takeBy key missing rows ks = .ok out) ↔
      ks.Nodup ∧ ∀ k ∈ ks, ∃ r ∈ rows, key r = k := by
  constructor
  · rintro ⟨out, h⟩
    obtain ⟨hnd, hout, hsub⟩ := (takeBy_ok_iff hrows).mp h
    refine ⟨hnd, fun k hk => ?_⟩
    rw [← hout] at hk
    obtain ⟨r, hr, rfl⟩ := List.mem_map.mp hk
    exact ⟨r, hsub r hr, rfl⟩
  · rintro ⟨hnd, hall⟩
    have hout : ∃ out : List ρ, out.map key = ks ∧ ∀ r ∈ out, r ∈ rows := by
      clear hnd
      induction ks with
      | nil => exact ⟨[], rfl, by simp⟩
      | cons k ks ih =>
        obtain ⟨⟨r, hr, hk⟩, hall⟩ := List.forall_mem_cons.mp hall
        obtain ⟨out, hout, hsub⟩ := ih hall
        exact ⟨r :: out, by rw [List.map_cons, hk, hout], List.forall_mem_cons.mpr ⟨hr, hsub⟩⟩
    obtain ⟨out, hout, hsub⟩ := hout
    exact ⟨out, (takeBy_ok_iff hrows).mpr ⟨hnd, hout, hsub⟩⟩

end Agmem.Relational
