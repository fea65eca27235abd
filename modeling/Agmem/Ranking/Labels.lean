import Mathlib.Data.List.Flatten
import Mathlib.Data.List.Infix
import Mathlib.Data.List.Induction
import Mathlib.Tactic.SplitIfs

/-! Entries that carry several labels, and a cap on what one label may hold. A label may be counted
by how often it is named or by how many entries carry it; the two differ where an entry names it
twice, and a pass that goes by the one need not keep what the other keeps. -/

namespace Agmem.Ranking.Labels

variable {α κ : Type*}

/-- What a pass keeps, in order; `full` says whether there is room beside what it kept before. -/
def kept (full : List α → α → Bool) (l : List α) : List α :=
  l.foldl (fun ks x => if full ks x then ks else ks ++ [x]) []

/-- `P` holds of every entry and the ones before it. -/
def Along (P : List α → α → Prop) (l : List α) : Prop :=
  ∀ before x, before ++ [x] <+: l → P before x

section Count

variable [BEq κ] [LawfulBEq κ] (labels : α → List κ)

/-- How often the entries name a label. -/
def named (l : List α) (k : κ) : ℕ := (l.flatMap labels).count k

/-- How many entries carry a label. -/
def carried (l : List α) (k : κ) : ℕ := l.countP fun x => decide (k ∈ labels x)

def fullByName (cap : ℕ) (ks : List α) (x : α) : Bool :=
  (labels x).any fun k => decide (0 < named labels ks k) && decide (cap ≤ named labels ks k)

def fullByCarrier (cap : ℕ) (ks : List α) (x : α) : Bool :=
  (labels x).any fun k => decide (cap ≤ carried labels ks k)

end Count

/-! ### Passes -/

section Pass

variable {P Q : List α → α → Prop} {full : List α → α → Bool} {l : List α} {x : α}

theorem along_nil : Along P [] := fun before x h => by simp at h

theorem along_concat : Along P (l ++ [x]) ↔ Along P l ∧ P l x := by
  constructor
  · exact fun h => ⟨fun before y hy => h before y (hy.trans (List.prefix_append ..)),
      h l x List.prefix_rfl⟩
  · rintro ⟨h, hx⟩ before y hy
    rcases List.prefix_concat_iff.mp hy with heq | hy
    · obtain ⟨rfl, hyx⟩ := List.append_inj' heq rfl
      obtain rfl := List.singleton_inj.mp hyx
      exact hx
    · exact h before y hy

@[simp] theorem kept_nil (full : List α → α → Bool) : kept full [] = [] := rfl

theorem kept_concat (full : List α → α → Bool) (l : List α) (x : α) : kept full (l ++ [x]) =
    if full (kept full l) x then kept full l else kept full l ++ [x] := by
  rw [kept, List.foldl_concat]
  rfl

theorem kept_sublist (full : List α → α → Bool) (l : List α) : (kept full l).Sublist l := by
  induction l using List.reverseRecOn with
  | nil => exact .slnil
  | append_singleton l x ih =>
    rw [kept_concat]
    split_ifs
    · exact ih.trans (List.sublist_append_left ..)
    · exact ih.append (List.Sublist.refl _)

end Pass

/-! ### The two counts -/

section Count

variable [BEq κ] {labels : α → List κ} {l : List α} {k : κ} {x : α} {cap : ℕ}

theorem named_cons : named labels (x :: l) k = (labels x).count k + named labels l k := by
  rw [named, List.flatMap_cons, List.count_append, named]

theorem named_append {m : List α} :
    named labels (l ++ m) k = named labels l k + named labels m k := by
  rw [named, List.flatMap_append, List.count_append, named, named]

theorem named_le_of_sublist (labels : α → List κ) (k : κ) {m : List α} (h : l.Sublist m) :
    named labels l k ≤ named labels m k :=
  (h.flatMap labels).count_le k

theorem named_perm {m : List α} (h : l.Perm m) : named labels l k = named labels m k :=
  (h.flatMap_right labels).count_eq k

theorem named_eq_zero (h : ∀ x ∈ l, labels x = []) : named labels l k = 0 := by
  rw [named, List.flatMap_eq_nil_iff.mpr h, List.count_nil]

theorem fullByName_iff : fullByName labels cap l x = true ↔
    ∃ k ∈ labels x, 0 < named labels l k ∧ cap ≤ named labels l k := by
  simp [fullByName]

variable [LawfulBEq κ]

theorem carried_cons : carried labels (x :: l) k =
    carried labels l k + if k ∈ labels x then 1 else 0 := by
  rw [carried, List.countP_cons, carried]
  simp only [decide_eq_true_eq]

theorem carried_le_named (labels : α → List κ) (l : List α) (k : κ) :
    carried labels l k ≤ named labels l k := by
  induction l with
  | nil => exact Nat.zero_le _
  | cons x l ih =>
    rw [carried_cons, named_cons]
    split_ifs with hk
    · have hone := List.count_pos_iff.mpr hk
      omega
    · omega

/-- The counts are the same exactly if no entry names the label twice. -/
theorem carried_eq_named_iff :
    carried labels l k = named labels l k ↔ ∀ x ∈ l, (labels x).count k ≤ 1 := by
  induction l with
  | nil => simp [carried, named]
  | cons x l ih =>
    rw [carried_cons, named_cons, List.forall_mem_cons, ← ih]
    have hle := carried_le_named labels l k
    split_ifs with hk
    · have hone := List.count_pos_iff.mpr hk
      omega
    · rw [List.count_eq_zero_of_not_mem hk]
      omega

theorem carried_append {m : List α} :
    carried labels (l ++ m) k = carried labels l k + carried labels m k := List.countP_append

theorem carried_perm {m : List α} (h : l.Perm m) : carried labels l k = carried labels m k :=
  h.countP_eq _

theorem carried_pos_iff : 0 < carried labels l k ↔ ∃ x ∈ l, k ∈ labels x := by
  simp only [carried, List.countP_pos_iff, decide_eq_true_eq]

/-! ### A cap by either count -/

theorem fullByCarrier_iff : fullByCarrier labels cap l x = true ↔
    ∃ k ∈ labels x, cap ≤ carried labels l k := by
  simp [fullByCarrier]

/-- No more entries of a label are kept than the cap says. -/
theorem carried_kept_le (hcap : 0 < cap) :
    carried labels (kept (fullByName labels cap) l) k ≤ cap := by
  induction l using List.reverseRecOn with
  | nil => exact Nat.zero_le _
  | append_singleton l x ih =>
    rw [kept_concat]
    split_ifs with hfull
    · exact ih
    · rw [fullByName_iff] at hfull
      rw [carried_append, carried_cons]
      split_ifs with hk
      · have hle := carried_le_named labels (kept (fullByName labels cap) l) k
        have hroom : ¬ (0 < named labels (kept (fullByName labels cap) l) k ∧
            cap ≤ named labels (kept (fullByName labels cap) l) k) := fun h => hfull ⟨k, hk, h⟩
        have hnil : carried labels ([] : List α) k = 0 := rfl
        omega
      · exact ih

/-- The two tests agree where only a label that enough entries carry is named so often. -/
theorem full_iff_iff (hzero : cap = 0 → ∀ y ∈ l, labels y = []) :
    (fullByName labels cap l x = true ↔ fullByCarrier labels cap l x = true) ↔
      (cap = 0 → labels x = []) ∧
        (fullByCarrier labels cap l x = false → ∀ k ∈ labels x, named labels l k < cap) := by
  rw [fullByName_iff, ← Bool.not_eq_true, fullByCarrier_iff]
  constructor
  · intro h
    refine ⟨fun hcap => ?_, fun hroom k hk => ?_⟩
    · by_contra hx
      obtain ⟨k, hk⟩ := List.exists_mem_of_ne_nil _ hx
      obtain ⟨j, -, hpos, -⟩ := h.mpr ⟨k, hk, hcap ▸ Nat.zero_le _⟩
      rw [named_eq_zero (hzero hcap)] at hpos
      exact Nat.lt_irrefl _ hpos
    · by_contra hfull
      have hcap : cap ≤ named labels l k := Nat.le_of_not_lt hfull
      refine hroom (h.mp ⟨k, hk, ?_, hcap⟩)
      refine Nat.pos_of_ne_zero fun hnone => hroom ⟨k, hk, ?_⟩
      exact (hcap.trans hnone.le).trans (Nat.zero_le _)
  · rintro ⟨hbare, hroom⟩
    constructor
    · rintro ⟨k, hk, -, hcap⟩
      by_contra hfew
      exact absurd hcap (Nat.not_le_of_lt (hroom hfew k hk))
    · rintro ⟨k, hk, hcap⟩
      have hle := hcap.trans (carried_le_named labels l k)
      refine ⟨k, hk, (Nat.pos_of_ne_zero fun h => ?_).trans_le hle, hle⟩
      rw [hbare h] at hk
      exact List.not_mem_nil hk

/-- No label of an entry is named so often before it as the cap says. -/
def Roomy (labels : α → List κ) (cap : ℕ) : List α → Prop :=
  Along fun before x => ∀ k ∈ labels x, named labels before k < cap

/-- What a pass by carriers keeps leaves the other count below the cap, and a cap of zero meets no
label. -/
structure Fits (labels : α → List κ) (cap : ℕ) (l : List α) : Prop where
  bare : cap = 0 → ∀ x ∈ l, labels x = []
  roomy : Roomy labels cap (kept (fullByCarrier labels cap) l)

theorem Fits.bare_kept (h : Fits labels cap l) (full : List α → α → Bool) (hcap : cap = 0) :
    ∀ x ∈ kept full l, labels x = [] :=
  fun x hx => h.bare hcap x ((kept_sublist full l).subset hx)

theorem fits_concat : Fits labels cap (l ++ [x]) ↔ Fits labels cap l ∧ (cap = 0 → labels x = []) ∧
    (fullByCarrier labels cap (kept (fullByCarrier labels cap) l) x = false →
      ∀ k ∈ labels x, named labels (kept (fullByCarrier labels cap) l) k < cap) := by
  have hroomy : Roomy labels cap (kept (fullByCarrier labels cap) (l ++ [x])) ↔
      Roomy labels cap (kept (fullByCarrier labels cap) l) ∧
        (fullByCarrier labels cap (kept (fullByCarrier labels cap) l) x = false →
          ∀ k ∈ labels x, named labels (kept (fullByCarrier labels cap) l) k < cap) := by
    rw [kept_concat]
    split_ifs with hfull
    · exact (and_iff_left fun h => absurd (hfull.symm.trans h) (by decide)).symm
    · rw [imp_iff_right (eq_false_of_ne_true hfull)]
      exact along_concat
  constructor
  · intro h
    exact ⟨⟨fun hcap y hy => h.bare hcap y (List.mem_append_left _ hy), (hroomy.mp h.roomy).1⟩,
      fun hcap => h.bare hcap x (List.mem_concat_self), (hroomy.mp h.roomy).2⟩
  · rintro ⟨h, hx, hroom⟩
    refine ⟨fun hcap y hy => ?_, hroomy.mpr ⟨h.roomy, hroom⟩⟩
    rcases List.mem_append.mp hy with hy | hy
    · exact h.bare hcap y hy
    · obtain rfl := List.mem_singleton.mp hy
      exact hx hcap

theorem Fits.kept_eq (h : Fits labels cap l) :
    kept (fullByName labels cap) l = kept (fullByCarrier labels cap) l := by
  induction l using List.reverseRecOn with
  | nil => rfl
  | append_singleton l x ih =>
    obtain ⟨hl, hx⟩ := fits_concat.mp h
    have hfull := Bool.eq_iff_iff.mpr ((full_iff_iff (hl.bare_kept _)).mpr hx)
    rw [kept_concat, kept_concat, ih hl, hfull]

/-- A pass by names keeps within the rule by carriers exactly if what the rule keeps fits. -/
theorem agrees_iff_fits :
    Along (fun before x => fullByName labels cap (kept (fullByName labels cap) before) x = true ↔
      fullByCarrier labels cap (kept (fullByName labels cap) before) x = true) l ↔
        Fits labels cap l := by
  induction l using List.reverseRecOn with
  | nil => exact iff_of_true along_nil ⟨fun _ _ h => (nomatch h), along_nil⟩
  | append_singleton l x ih =>
    rw [along_concat, ih, fits_concat]
    refine and_congr_right fun h => ?_
    rw [h.kept_eq]
    exact full_iff_iff (h.bare_kept _)

/-- With a cap above zero, entries that name no label twice fit. -/
theorem fits_of_nodup (hcap : 0 < cap) (h : ∀ x ∈ l, (labels x).Nodup) : Fits labels cap l := by
  induction l using List.reverseRecOn with
  | nil => exact ⟨fun _ _ h => (nomatch h), along_nil⟩
  | append_singleton l x ih =>
    refine fits_concat.mpr ⟨ih fun y hy => h y (List.mem_append_left _ hy),
      fun hzero => absurd hzero hcap.ne', fun hfull k hk => ?_⟩
    rw [← carried_eq_named_iff.mpr fun y hy => List.nodup_iff_count.mp
      (h y (List.mem_append_left _ ((kept_sublist _ l).subset hy))) k]
    by_contra hfew
    rw [← Bool.not_eq_true, fullByCarrier_iff] at hfull
    exact hfull ⟨k, hk, Nat.le_of_not_lt hfew⟩

end Count

end Agmem.Ranking.Labels
