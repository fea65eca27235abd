import Agmem.Ranking.Gaps
import Agmem.Tools.Abstain

/-! What the cut takes off a page. The floor empties it or does nothing; under the knee, the one
drop that is over half of the whole spread, fall the rows that are measured under the floor and
not protected. -/

namespace Agmem.Tools.Abstain

open Ranking

/-! ### The envelope -/

theorem envelopeFrom_eq (running : ℚ) (xs : List ℚ) : envelopeFrom running xs =
    (List.range xs.length).map fun i => (xs.take (i + 1)).foldl min running := by
  induction xs generalizing running with
  | nil => rfl
  | cons x xs ih =>
    rw [envelopeFrom, ih, List.length_cons, List.range_succ_eq_map, List.map_cons, List.map_map]
    rfl

theorem envelope_eq (quality : List ℚ) :
    envelope quality = (List.range quality.length).map (Gaps.low quality) := by
  cases quality with
  | nil => rfl
  | cons x xs =>
    rw [envelope, envelopeFrom_eq, List.length_cons, List.range_succ_eq_map, List.map_cons,
      List.map_map]
    rfl

/-- The drops of the envelope, with the rows above them. -/
theorem drops_eq (quality : List ℚ) :
    (List.zipWith (fun above below => above - below) (envelope quality)
      (envelope quality).tail).zipIdx =
      (List.range (quality.length - 1)).map fun i => (Gaps.gap quality i, i) := by
  refine List.ext_getElem ?_ fun i hi hi' => ?_
  · simp [envelope_eq]
  · simp [envelope_eq, Gaps.gap]

theorem spread_eq (quality : List ℚ) :
    (envelope quality).head?.getD 0 - (envelope quality).getLast?.getD 0 =
      Gaps.spread quality := by
  cases quality with
  | nil => rfl
  | cons x xs => simp [envelope_eq, Gaps.spread, List.getLast?_eq_getElem?, List.head?_eq_getElem?]

/-! ### The knee -/

theorem lastMax_eq_none {l : List (ℚ × ℕ)} : lastMax l = none ↔ l = [] := by
  cases l with
  | nil => exact iff_of_true rfl rfl
  | cons x xs =>
    rw [lastMax]
    split <;> simp

theorem lastMax_spec {l : List (ℚ × ℕ)} {x : ℚ × ℕ} (h : lastMax l = some x) :
    x ∈ l ∧ ∀ y ∈ l, y.1 ≤ x.1 := by
  induction l generalizing x with
  | nil => cases h
  | cons z zs ih =>
    rw [lastMax] at h
    split at h
    · rename_i hnone
      obtain rfl := Option.some.inj h
      rw [lastMax_eq_none.mp hnone]
      simp
    · rename_i y hy
      obtain rfl := Option.some.inj h
      obtain ⟨hmem, hmax⟩ := ih hy
      split_ifs with hle
      · exact ⟨List.mem_cons_of_mem z hmem, List.forall_mem_cons.mpr ⟨hle, hmax⟩⟩
      · have hlt : y.1 < z.1 := not_le.mp hle
        exact ⟨List.mem_cons_self .., List.forall_mem_cons.mpr
          ⟨le_refl _, fun w hw => (hmax w hw).trans hlt.le⟩⟩

/-- A place with the largest drop. -/
def Widest (quality : List ℚ) (i : ℕ) : Prop :=
  i + 1 < quality.length ∧ ∀ j, j + 1 < quality.length → Gaps.gap quality j ≤ Gaps.gap quality i

/-- The drop under place `i` is over `MIN_GAP` and over half of the spread. -/
def Dominant (quality : List ℚ) (i : ℕ) : Prop :=
  MIN_GAP ≤ Gaps.gap quality i ∧ Gaps.spread quality < Gaps.gap quality i * DOMINANCE

instance (quality : List ℚ) (i : ℕ) : Decidable (Dominant quality i) :=
  inferInstanceAs (Decidable (_ ∧ _))

theorem not_dominant {quality : List ℚ} {i : ℕ} : ¬ Dominant quality i ↔
    Gaps.gap quality i < MIN_GAP ∨ Gaps.gap quality i * DOMINANCE ≤ Gaps.spread quality := by
  rw [Dominant, not_and_or, not_le, not_lt]

theorem Dominant.widest {quality : List ℚ} {i : ℕ} (h : Dominant quality i)
    (hi : i + 1 < quality.length) : Widest quality i := by
  refine ⟨hi, fun j hj => ?_⟩
  by_cases hne : j = i
  · rw [hne]
  · exact (Gaps.gap_lt_of_dominant hi hj hne h.2).le

/-- The search finds one of the largest drops. -/
theorem exists_widest {quality : List ℚ} (h : 2 ≤ quality.length) : ∃ k, Widest quality k ∧
    knee quality = if Dominant quality k then some k else none := by
  cases hmax : lastMax ((List.range (quality.length - 1)).map fun i =>
      (Gaps.gap quality i, i)) with
  | none =>
    have hlen := congrArg List.length (lastMax_eq_none.mp hmax)
    rw [List.length_map, List.length_range, List.length_nil] at hlen
    omega
  | some found =>
    obtain ⟨hmem, hle⟩ := lastMax_spec hmax
    obtain ⟨k, hk, rfl⟩ := List.mem_map.mp hmem
    rw [List.mem_range] at hk
    refine ⟨k, ⟨by omega, fun j hj => ?_⟩, ?_⟩
    · exact hle _ (List.mem_map.mpr ⟨j, List.mem_range.mpr (by omega), rfl⟩)
    · simp only [knee, drops_eq, spread_eq, hmax, ← not_dominant, ite_not]

/-- Whichever of the largest drops the search finds, the knee is the same. -/
theorem knee_of_widest {quality : List ℚ} {i : ℕ} (h : Widest quality i) :
    knee quality = if Dominant quality i then some i else none := by
  have hlen : 2 ≤ quality.length := Nat.le_trans (Nat.le_add_left 2 i) h.1
  obtain ⟨k, hk, hknee⟩ := exists_widest hlen
  have hgap : Gaps.gap quality k = Gaps.gap quality i :=
    le_antisymm (h.2 k hk.1) (hk.2 i h.1)
  have hiff : Dominant quality k ↔ Dominant quality i := by rw [Dominant, hgap, Dominant]
  rw [hknee]
  by_cases hdom : Dominant quality i
  · rw [if_pos (hiff.mpr hdom), if_pos hdom,
      Gaps.eq_of_dominant h.1 hk.1 hdom.2 hgap.ge]
  · rw [if_neg (fun hk => hdom (hiff.mp hk)), if_neg hdom]

theorem knee_eq_some_iff {quality : List ℚ} {i : ℕ} :
    knee quality = some i ↔ i + 1 < quality.length ∧ Dominant quality i := by
  constructor
  · intro h
    by_cases hlen : 2 ≤ quality.length
    · obtain ⟨k, hk, hknee⟩ := exists_widest hlen
      rw [h] at hknee
      split_ifs at hknee with hdom
      obtain rfl := Option.some.inj hknee
      exact ⟨hk.1, hdom⟩
    · have hnil : List.range (quality.length - 1) = [] := by
        rw [show quality.length - 1 = 0 by omega, List.range_zero]
      simp only [knee, drops_eq, hnil, List.map_nil, lastMax] at h
      cases h
  · rintro ⟨hi, hdom⟩
    rw [knee_of_widest (hdom.widest hi), if_pos hdom]

/-- A list in even steps has no knee, if it has three entries. -/
theorem knee_even {quality : List ℚ} {d : ℚ} (hd : 0 ≤ d) (h : Gaps.Evenly d quality)
    (hlen : 3 ≤ quality.length) : knee quality = none := by
  refine Option.eq_none_iff_forall_ne_some.mpr fun i hi => ?_
  obtain ⟨hi, hdom⟩ := knee_eq_some_iff.mp hi
  exact absurd hdom.2 (not_lt.mpr (Gaps.not_dominant_of_even hd h hlen hi))

/-! ### The page -/

section Page

variable {α : Type*} (page : List α) (floor : ℚ) (signals : α → Option ℚ × ℚ)
  (isProtected : α → Bool)

/-- The top row was measured, and the best that was measured on the page is under the floor. -/
def Unanswered : Prop :=
  (∃ top ∈ page.head?, (signals top).1.isSome = true) ∧
    ∃ best ∈ (page.filterMap fun row => (signals row).1).max?, best < floor

/-- The knee of the page. -/
def kneeOf : Option ℕ :=
  if page.length < 3 then none else knee (page.map fun row => (signals row).2)

/-- The rows that fall: after the knee, measured under the floor and not protected. -/
def falls (row : α × ℕ) : Bool :=
  (kneeOf page signals).any (fun knee => decide (knee < row.2)) &&
    (signals row.1).1.any (fun s => decide (s < floor)) && !isProtected row.1

/-- What a cut does to the page. -/
structure Trimmed : Prop where
  emptied_iff : page ≠ [] ∧ (apply page floor signals isProtected).1 = [] ↔
    Unanswered page floor signals
  kept : ¬ Unanswered page floor signals → (apply page floor signals isProtected).1 =
    (page.zipIdx.filter fun row => !falls page floor signals isProtected row).map Prod.fst
  top : ¬ Unanswered page floor signals →
    (apply page floor signals isProtected).1.head? = page.head?
  order : (apply page floor signals isProtected).1.Sublist page
  some_iff : (apply page floor signals isProtected).2.isSome = true ↔
    (apply page floor signals isProtected).1.length < page.length
  knee_iff : ∀ i, kneeOf page signals = some i ↔ 3 ≤ page.length ∧ i + 1 < page.length ∧
    Dominant (page.map fun row => (signals row).2) i
  knee_unique : ∀ i j, i + 1 < page.length → j + 1 < page.length →
    Dominant (page.map fun row => (signals row).2) i →
    Dominant (page.map fun row => (signals row).2) j → i = j
  knee_of_widest : ∀ i, 3 ≤ page.length → Widest (page.map fun row => (signals row).2) i →
    kneeOf page signals =
      if Dominant (page.map fun row => (signals row).2) i then some i else none
  knee_even : ∀ d, 0 ≤ d → Gaps.Evenly d (page.map fun row => (signals row).2) →
    kneeOf page signals = none

variable {page} {floor} {signals} {isProtected}

theorem unanswered_cons {top : α} {rest : List α} :
    ((signals top).1.isSome && ((top :: rest).filterMap fun row => (signals row).1).max?.any
      fun b => decide (b < floor)) = true ↔ Unanswered (top :: rest) floor signals := by
  rw [Bool.and_eq_true, Option.any_eq_true]
  simp only [decide_eq_true_eq]
  exact and_congr_left' ⟨fun h => ⟨top, rfl, h⟩, fun ⟨_, htop, h⟩ => Option.some.inj htop ▸ h⟩

theorem apply_unanswered (h : Unanswered page floor signals) :
    apply page floor signals isProtected =
      ([], some ⟨0, page.length, (page.filterMap fun row => (signals row).1).max?⟩) := by
  cases page with
  | nil =>
    obtain ⟨⟨top, htop, -⟩, -⟩ := h
    cases htop
  | cons top rest =>
    unfold apply
    exact if_pos (unanswered_cons.mpr h)

theorem not_falls_of_none (h : kneeOf page signals = none) (row : α × ℕ) :
    (!falls page floor signals isProtected row) = true := by
  rw [falls, h]
  rfl

theorem not_falls_of_some {knee : ℕ} (h : kneeOf page signals = some knee) (row : α × ℕ) :
    (!falls page floor signals isProtected row) =
      stays floor signals isProtected knee row := by
  rw [falls, stays, h, Option.any_some]
  by_cases hrow : row.2 ≤ knee
  · simp [hrow]
  · cases isProtected row.1 <;> simp [hrow, Nat.lt_of_not_le hrow]

/-- Without a knee nothing falls. -/
theorem kept_of_none (h : kneeOf page signals = none) :
    (page.zipIdx.filter fun row => !falls page floor signals isProtected row).map Prod.fst =
      page := by
  rw [List.filter_eq_self.mpr fun row _ => not_falls_of_none h row, List.zipIdx_map_fst]

theorem kept_sublist (page : List α) (floor : ℚ) (signals : α → Option ℚ × ℚ)
    (isProtected : α → Bool) : ((page.zipIdx.filter fun row =>
    !falls page floor signals isProtected row).map Prod.fst).Sublist page := by
  have h := (List.filter_sublist (p := fun row => !falls page floor signals isProtected row)
    (l := page.zipIdx)).map Prod.fst
  rwa [List.zipIdx_map_fst] at h

theorem apply_answered (h : ¬ Unanswered page floor signals) :
    (apply page floor signals isProtected).1 =
      (page.zipIdx.filter fun row => !falls page floor signals isProtected row).map Prod.fst ∧
    ((apply page floor signals isProtected).2.isSome = true ↔
      (apply page floor signals isProtected).1.length < page.length) := by
  cases page with
  | nil => exact ⟨rfl, iff_of_false (by simp [apply]) (by simp [apply])⟩
  | cons top rest =>
    have hsame (hknee : kneeOf (top :: rest) signals = none)
        (heq : apply (top :: rest) floor signals isProtected = (top :: rest, none)) :
        (apply (top :: rest) floor signals isProtected).1 = ((top :: rest).zipIdx.filter
          fun row => !falls (top :: rest) floor signals isProtected row).map Prod.fst ∧
        ((apply (top :: rest) floor signals isProtected).2.isSome = true ↔
          (apply (top :: rest) floor signals isProtected).1.length < (top :: rest).length) := by
      rw [heq, kept_of_none hknee]
      exact ⟨rfl, by simp⟩
    have hcond := fun hc => h (unanswered_cons.mp hc)
    by_cases hlen : (top :: rest).length < 3
    · refine hsame (if_pos hlen) ?_
      unfold apply
      simp only [if_neg hcond, if_pos hlen]
    · cases hknee : knee ((top :: rest).map fun row => (signals row).2) with
      | none =>
        refine hsame ((if_neg hlen).trans hknee) ?_
        unfold apply
        simp only [if_neg hcond, if_neg hlen, hknee]
      | some k =>
        have hkneeOf : kneeOf (top :: rest) signals = some k := (if_neg hlen).trans hknee
        have hstays : (fun row => !falls (top :: rest) floor signals isProtected row) =
            stays floor signals isProtected k := funext (not_falls_of_some hkneeOf)
        have hsub := kept_sublist (top :: rest) floor signals isProtected
        rw [hstays] at hsub ⊢
        unfold apply
        simp only [if_neg hcond, if_neg hlen, hknee]
        split_ifs with hfewer
        · exact ⟨rfl, iff_of_true rfl hfewer⟩
        · exact ⟨(hsub.eq_of_length_le (Nat.le_of_not_lt hfewer)).symm, by simp⟩

/-- The top row is above every knee. -/
theorem head_kept (page : List α) (floor : ℚ) (signals : α → Option ℚ × ℚ)
    (isProtected : α → Bool) : ((page.zipIdx.filter fun row =>
    !falls page floor signals isProtected row).map Prod.fst).head? = page.head? := by
  cases page with
  | nil => rfl
  | cons top rest =>
    have htop : (!falls (top :: rest) floor signals isProtected (top, 0)) = true := by
      cases h : kneeOf (top :: rest) signals with
      | none => exact not_falls_of_none h _
      | some k =>
        rw [not_falls_of_some h]
        simp [stays]
    rw [List.zipIdx_cons, List.filter_cons, if_pos htop]
    rfl

theorem kneeOf_eq_some_iff {i : ℕ} : kneeOf page signals = some i ↔ 3 ≤ page.length ∧
    i + 1 < page.length ∧ Dominant (page.map fun row => (signals row).2) i := by
  unfold kneeOf
  split_ifs with hlen
  · exact iff_of_false nofun fun h => absurd h.1 (by omega)
  · rw [knee_eq_some_iff, List.length_map]
    exact (and_iff_right (by omega)).symm

theorem apply_trimmed (page : List α) (floor : ℚ) (signals : α → Option ℚ × ℚ)
    (isProtected : α → Bool) : Trimmed page floor signals isProtected where
  emptied_iff := by
    constructor
    · rintro ⟨hne, hnil⟩
      by_contra h
      have hhead := head_kept page floor signals isProtected
      rw [← (apply_answered h).1, hnil] at hhead
      exact hne (List.head?_eq_none_iff.mp hhead.symm)
    · intro h
      refine ⟨?_, by rw [apply_unanswered h]⟩
      rintro rfl
      obtain ⟨⟨top, htop, -⟩, -⟩ := h
      cases htop
  kept h := (apply_answered h).1
  top h := by rw [(apply_answered h).1, head_kept]
  order := apply_sublist page floor signals isProtected
  some_iff := by
    by_cases h : Unanswered page floor signals
    · have hpos : 0 < page.length := by
        obtain ⟨⟨top, htop, -⟩, -⟩ := h
        exact List.length_pos_of_mem (List.mem_of_mem_head? htop)
      rw [apply_unanswered h]
      exact iff_of_true rfl hpos
    · exact (apply_answered h).2
  knee_iff _ := kneeOf_eq_some_iff
  knee_unique i j hi hj hdi hdj := by
    rw [← List.length_map (fun row => (signals row).2)] at hi hj
    exact Option.some.inj ((knee_eq_some_iff.mpr ⟨hi, hdi⟩).symm.trans
      (knee_eq_some_iff.mpr ⟨hj, hdj⟩))
  knee_of_widest i hlen h := by
    rw [kneeOf, if_neg (by omega), Abstain.knee_of_widest h]
  knee_even d hd h := by
    unfold kneeOf
    split_ifs with hlen
    · rfl
    · exact Abstain.knee_even hd h (by rw [List.length_map]; omega)

end Page

end Agmem.Tools.Abstain
