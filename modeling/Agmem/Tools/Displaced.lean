import Agmem.Tools.Occupancy
import Mathlib.Data.Finset.Card

/-! What the occupancy cap reports. Rows past their quota are only put last, so where the rows
within the quotas do not fill the page, some of the deferred rows come back onto it: the report
counts rows that never left, or speaks of a page that reads as before. -/

namespace Agmem.Tools.Occupancy

open Ranking

variable {α κ : Type*} [DecidableEq κ]

/-- The rows of the page, each by the place it had in the ranking. -/
def page (rows : List (α × ℕ)) (k : ℕ) : Finset ℕ := ((rows.take k).map Prod.snd).toFinset

def pageBefore (ranked : List α) (k : ℕ) : Finset ℕ := page ranked.zipIdx k

def pageAfter (ranked : List α) (k cap : ℕ) (key : α → Option κ) : Finset ℕ :=
  page (apply ranked.zipIdx k cap fun row => key row.1).1 k

/-- There is a report exactly if other rows are on the page, and it counts the ones that left. -/
def ReportsChange (ranked : List α) (k cap : ℕ) (key : α → Option κ) : Prop :=
  ((apply ranked k cap key).2.isSome = true ↔ pageBefore ranked k ≠ pageAfter ranked k cap key) ∧
    ∀ report ∈ (apply ranked k cap key).2,
      report.displaced = (pageBefore ranked k \ pageAfter ranked k cap key).card

instance (ranked : List α) (k cap : ℕ) (key : α → Option κ) :
    Decidable (ReportsChange ranked k cap key) :=
  inferInstanceAs (Decidable ((_ ↔ _) ∧ ∀ report ∈ (apply ranked k cap key).2, _))

variable {ranked : List α} {k cap : ℕ} {key : α → Option κ}

/-! ### Rows with their places -/

theorem take_zipIdx (l : List α) (k : ℕ) : l.zipIdx.take k = (l.take k).zipIdx := by
  conv_lhs => rw [← List.take_append_drop k l, List.zipIdx_append]
  by_cases hk : k ≤ l.length
  · exact List.take_left' (by rw [List.length_zipIdx, List.length_take, Nat.min_eq_left hk])
  · have hl : l.length ≤ k := Nat.le_of_not_le hk
    rw [List.drop_eq_nil_of_le hl, List.zipIdx_nil, List.append_nil, List.take_of_length_le]
    rw [List.length_zipIdx, List.length_take]
    exact Nat.min_le_left ..

theorem quiet_zipIdx :
    Quiet ranked.zipIdx k cap (fun row => key row.1) ↔ Quiet ranked k cap key := by
  have hdeferred := congrArg List.length (@deferred_zipIdx α κ _ cap key (ranked.take k) 0)
  rw [List.length_map] at hdeferred
  rw [Quiet, Quiet, List.length_zipIdx, take_zipIdx, ← List.length_eq_zero_iff, hdeferred,
    List.length_eq_zero_iff]

theorem nodup_places (l : List α) : (l.zipIdx.map Prod.snd).Nodup := by
  rw [List.zipIdx_map_snd]
  exact List.nodup_range'

/-! ### The page, in rows that hold a place each -/

section Rows

variable {rows : List (α × ℕ)} {quota : α × ℕ → Option κ}

/-- The rows of the page within their quotas stay on it, at its top. -/
theorem taken_page : ∃ rest, (resliced rows cap quota).take k =
    Quota.taken quota cap (rows.take k) ++ rest := by
  obtain ⟨later, -, hlater⟩ := taken_append quota cap (rows.take k) (rows.drop k)
  rw [List.take_append_drop] at hlater
  have hlen : (Quota.taken quota cap (rows.take k)).length ≤ k :=
    (Quota.taken_sublist quota cap _).length_le.trans (List.length_take_le ..)
  rw [resliced, hlater, List.append_assoc, List.take_append, List.take_of_length_le hlen]
  exact ⟨_, rfl⟩

/-- What leaves the page was past its quota there. -/
theorem page_sdiff : page rows k \ page (resliced rows cap quota) k =
    ((Quota.deferred quota cap (rows.take k)).map Prod.snd).toFinset \
      page (resliced rows cap quota) k := by
  obtain ⟨rest, hrest⟩ := @taken_page α κ _ k cap rows quota
  have hperm := (Quota.taken_append_deferred_perm quota cap (rows.take k)).map Prod.snd
  rw [List.map_append] at hperm
  have hstay : ((Quota.taken quota cap (rows.take k)).map Prod.snd).toFinset ⊆
      page (resliced rows cap quota) k := by
    rw [page, hrest, List.map_append, List.toFinset_append]
    exact Finset.subset_union_left
  have hpage : page rows k = ((rows.take k).map Prod.snd).toFinset := rfl
  rw [hpage, ← List.toFinset_eq_of_perm _ _ hperm, List.toFinset_append, Finset.union_sdiff_distrib,
    Finset.sdiff_eq_empty_iff_subset.mpr hstay, Finset.empty_union]

/-- Where the rows within the quotas fill the page, every row past its quota leaves it. -/
theorem disjoint_of_filled (hnodup : (rows.map Prod.snd).Nodup)
    (hfill : k ≤ (Quota.taken quota cap rows).length) :
    Disjoint ((Quota.deferred quota cap (rows.take k)).map Prod.snd).toFinset
      (page (resliced rows cap quota) k) := by
  have hplaces := ((Quota.taken_append_deferred_perm quota cap rows).map Prod.snd).nodup_iff.mpr
    hnodup
  rw [List.map_append] at hplaces
  obtain ⟨later, -, hlater⟩ := deferred_append quota cap (rows.take k) (rows.drop k)
  rw [List.take_append_drop] at hlater
  rw [page, resliced, List.take_append_of_le_length hfill, List.disjoint_toFinset_iff_disjoint]
  intro place hdeferred htaken
  have htaken := ((List.take_sublist k _).map Prod.snd).subset htaken
  refine List.disjoint_of_nodup_append hplaces htaken ?_
  rw [hlater, List.map_append]
  exact List.mem_append_left _ hdeferred

/-- Where they do not, the first row past its quota is still on it. -/
theorem not_disjoint_of_short (hshort : (Quota.taken quota cap rows).length < k)
    (hover : Quota.deferred quota cap (rows.take k) ≠ []) :
    ¬ Disjoint ((Quota.deferred quota cap (rows.take k)).map Prod.snd).toFinset
      (page (resliced rows cap quota) k) := by
  obtain ⟨later, -, hlater⟩ := deferred_append quota cap (rows.take k) (rows.drop k)
  rw [List.take_append_drop] at hlater
  cases hfirst : Quota.deferred quota cap (rows.take k) with
  | nil => exact absurd hfirst hover
  | cons row others =>
    rw [hfirst, List.cons_append] at hlater
    obtain ⟨left, hleft⟩ := Nat.exists_eq_add_of_lt hshort
    rw [page, resliced, hlater, List.take_append, List.disjoint_toFinset_iff_disjoint]
    have hroom : k - (Quota.taken quota cap rows).length = left + 1 := by omega
    rw [hroom, List.take_succ_cons]
    exact fun h => h (List.mem_map_of_mem (List.mem_cons_self ..))
      (List.mem_map_of_mem (List.mem_append_right _ (List.mem_cons_self ..)))

end Rows

/-! ### The report -/

theorem report_displaced (ranked : List α) (k cap : ℕ) (key : α → Option κ) :
    (apply ranked k cap key).2.map Resliced.displaced =
    if Quiet ranked k cap key then none
    else some (Quota.deferred key cap (ranked.take k)).length := by
  by_cases h : Quiet ranked k cap key
  · rw [apply_quiet h, if_pos h]
    rfl
  · obtain ⟨hk, hsome⟩ := not_or.mp h
    have hne : (Quota.deferred key cap (ranked.take k)).length ≠ 0 := by simpa using hsome
    rw [if_neg h]
    unfold apply
    simp only [if_neg hk, length_displaced (Nat.lt_of_not_le hk), if_neg hne, Option.map_some]

theorem length_taken_zipIdx :
    (Quota.taken (fun row : α × ℕ => key row.1) cap ranked.zipIdx).length =
      (Quota.taken key cap ranked).length := by
  rw [← @taken_zipIdx α κ _ cap key ranked 0, List.length_map]

/-- A quiet pass leaves the page as it was, and says nothing. -/
theorem reports_of_quiet (h : Quiet ranked k cap key) : ReportsChange ranked k cap key := by
  have hsame : pageAfter ranked k cap key = pageBefore ranked k := by
    rw [pageAfter, apply_quiet (quiet_zipIdx.mpr h), pageBefore]
  rw [ReportsChange, apply_quiet h, hsame]
  refine ⟨⟨fun hsome => ?_, fun hchange => absurd rfl hchange⟩, fun report hreport => ?_⟩
  · cases hsome
  · cases hreport

theorem places_deferred (ranked : List α) (k cap : ℕ) (key : α → Option κ) :
    ((Quota.deferred (fun row : α × ℕ => key row.1) cap
      (ranked.zipIdx.take k)).map Prod.snd).toFinset.card =
        (Quota.deferred key cap (ranked.take k)).length := by
  have hnodup : ((Quota.deferred (fun row : α × ℕ => key row.1) cap
      (ranked.take k).zipIdx).map Prod.snd).Nodup :=
    ((Quota.deferred_sublist _ cap _).map Prod.snd).nodup (nodup_places _)
  rw [take_zipIdx, List.toFinset_card_of_nodup hnodup, List.length_map,
    ← @deferred_zipIdx α κ _ cap key (ranked.take k) 0, List.length_map]

/-- A pass that puts rows last reports what it did if the other rows fill the page. -/
theorem reports_iff_filled (h : ¬ Quiet ranked k cap key) :
    ReportsChange ranked k cap key ↔ k ≤ (Quota.taken key cap ranked).length := by
  have hreport := report_displaced ranked k cap key
  rw [if_neg h] at hreport
  obtain ⟨report, happly, hdisplaced⟩ := Option.map_eq_some_iff.mp hreport
  have hover : Quota.deferred key cap (ranked.take k) ≠ [] := (not_or.mp h).2
  have hpositive := List.length_pos_iff.mpr hover
  have hafter : pageAfter ranked k cap key =
      page (resliced ranked.zipIdx cap fun row => key row.1) k := by
    rw [pageAfter, apply_fires (mt quiet_zipIdx.mp h)]
  have hleft := @page_sdiff α κ _ k cap ranked.zipIdx fun row => key row.1
  have hcard := places_deferred ranked k cap key
  have hcount : (pageBefore ranked k \ pageAfter ranked k cap key).card =
      (Quota.deferred key cap (ranked.take k)).length ↔
        Disjoint ((Quota.deferred (fun row : α × ℕ => key row.1) cap
          (ranked.zipIdx.take k)).map Prod.snd).toFinset (pageAfter ranked k cap key) := by
    rw [pageBefore, hafter, hleft, ← hcard, ← Finset.sdiff_eq_self_iff_disjoint]
    exact ⟨fun h => Finset.eq_of_subset_of_card_le Finset.sdiff_subset h.ge, congrArg Finset.card⟩
  rw [ReportsChange, happly]
  by_cases hfill : k ≤ (Quota.taken key cap ranked).length
  · have hdisjoint := disjoint_of_filled (k := k) (nodup_places ranked)
      (hfill.trans_eq length_taken_zipIdx.symm)
    rw [← hafter] at hdisjoint
    have hcounted := hcount.mpr hdisjoint
    refine iff_of_true ⟨iff_of_true rfl fun hsame => ?_, fun other hother => ?_⟩ hfill
    · rw [hsame, Finset.sdiff_self, Finset.card_empty] at hcounted
      omega
    · cases hother
      rw [hdisplaced, hcounted]
  · refine iff_of_false (fun hreports => ?_) hfill
    have hshort : (Quota.taken (fun row : α × ℕ => key row.1) cap ranked.zipIdx).length < k := by
      rw [length_taken_zipIdx]
      omega
    refine not_disjoint_of_short hshort (fun hnone => ?_) (hafter ▸ hcount.mp ?_)
    · exact (mt quiet_zipIdx.mp h) (.inr hnone)
    · rw [← hreports.2 report rfl, hdisplaced]

/-- The report is right exactly if all rows fit the page, or some `k` of them respect the quotas. -/
theorem reportsChange_iff (ranked : List α) (k cap : ℕ) (key : α → Option κ) :
    ReportsChange ranked k cap key ↔ ranked.length ≤ k ∨
      ∃ rows : List α, rows.Subperm ranked ∧ rows.length = k ∧ Quota.Within key cap rows := by
  by_cases h : Quiet ranked k cap key
  · refine iff_of_true (reports_of_quiet h) (or_iff_not_imp_left.mpr fun hlong => ?_)
    have hwithin := Quota.within_taken key cap (ranked.take k)
    rw [Quota.taken, Quota.split_eq_of_deferred_nil (h.resolve_left hlong)] at hwithin
    refine ⟨ranked.take k, (List.take_sublist k _).subperm, ?_, hwithin⟩
    rw [List.length_take, Nat.min_eq_left (Nat.le_of_not_le hlong)]
  · rw [reports_iff_filled h, or_iff_right (not_or.mp h).1]
    constructor
    · intro hfill
      refine ⟨(Quota.taken key cap ranked).take k, ?_, ?_, ?_⟩
      · exact ((List.take_sublist k _).trans (Quota.taken_sublist key cap ranked)).subperm
      · rw [List.length_take, Nat.min_eq_left hfill]
      · exact (Quota.within_taken key cap ranked).sublist (List.take_sublist k _)
    · rintro ⟨rows, hrows, rfl, hwithin⟩
      exact Quota.length_le_taken hrows hwithin

/-- Four rows of one source and a page of three: one is reported as displaced, and the page is the
same three rows as before. -/
theorem lone_source_reported :
    (apply ['a', 'a', 'a', 'a'] 3 (Occupancy.cap 3) some).2.map Resliced.displaced = some 1 ∧
      pageBefore ['a', 'a', 'a', 'a'] 3 = pageAfter ['a', 'a', 'a', 'a'] 3 (Occupancy.cap 3) some ∧
      ¬ ReportsChange ['a', 'a', 'a', 'a'] 3 (Occupancy.cap 3) some := by
  decide

end Agmem.Tools.Occupancy
