import Agmem.Ranking.Labels
import Agmem.Tools.Context

/-! The cap that one tag may hold of the lessons. The pass counts how often a tag is named among the
records it kept, and the rule how many of them carry it; the two agree where no tag that has room by
the rule is named too often. -/

namespace Agmem.Tools.Context

open Core Store Ranking

def keptByTag (cap : ℕ) (memories : List MemoryRecord) : List MemoryRecord :=
  (capFrom cap (fun _ => 0) memories).1

def deferredByTag (cap : ℕ) (memories : List MemoryRecord) : List MemoryRecord :=
  (capFrom cap (fun _ => 0) memories).2

/-- The record behind the ones `before` goes to the deferred ones. -/
def Deferred (cap : ℕ) (before : List MemoryRecord) (memory : MemoryRecord) : Prop :=
  deferredByTag cap (before ++ [memory]) = deferredByTag cap before ++ [memory]

/-- The kept ones precede the deferred ones and both keep their order, and a longer list changes
nothing about the records at its start. -/
structure Ordered (cap : ℕ) (memories : List MemoryRecord) : Prop where
  parts : capByTag memories cap = keptByTag cap memories ++ deferredByTag cap memories
  perm : (capByTag memories cap).Perm memories
  kept : (keptByTag cap memories).Sublist memories
  deferred : (deferredByTag cap memories).Sublist memories
  prefixes : ∀ before, before <+: memories →
    keptByTag cap before <+: keptByTag cap memories ∧
      deferredByTag cap before <+: deferredByTag cap memories

/-- A record is deferred exactly if `cap` of the records kept before it carry one of its tags. -/
def ByRule (cap : ℕ) : List MemoryRecord → Prop :=
  Labels.Along fun before memory => Deferred cap before memory ↔
    ∃ tag ∈ memory.tags, cap ≤ Labels.carried MemoryRecord.tags (keptByTag cap before) tag

variable {cap : ℕ} {counts : Text → ℕ} {memories before : List MemoryRecord} {memory : MemoryRecord}

/-! ### The order -/

theorem capFrom_perm (cap : ℕ) (counts : Text → ℕ) (memories : List MemoryRecord) :
    ((capFrom cap counts memories).1 ++ (capFrom cap counts memories).2).Perm memories := by
  fun_induction capFrom cap counts memories with
  | case1 counts => exact .nil
  | case2 counts memory memories h rest ih => exact List.perm_middle.trans (ih.cons memory)
  | case3 counts memory memories h rest ih => exact ih.cons memory

theorem capFrom_sublist (cap : ℕ) (counts : Text → ℕ) (memories : List MemoryRecord) :
    (capFrom cap counts memories).1.Sublist memories ∧
      (capFrom cap counts memories).2.Sublist memories := by
  fun_induction capFrom cap counts memories with
  | case1 counts => exact ⟨.slnil, .slnil⟩
  | case2 counts memory memories h rest ih => exact ⟨ih.1.cons memory, ih.2.cons_cons memory⟩
  | case3 counts memory memories h rest ih => exact ⟨ih.1.cons_cons memory, ih.2.cons memory⟩

/-! ### One record more -/

theorem foldl_count (tags : List Text) (tag : Text) :
    tags.foldl count counts tag = counts tag + tags.count tag := by
  induction tags generalizing counts with
  | nil => rfl
  | cons named tags ih =>
    rw [List.foldl_cons, ih, List.count_cons, count]
    by_cases h : named = tag
    · subst h
      rw [Function.update_self, if_pos (beq_self_eq_true _)]
      omega
    · rw [Function.update_of_ne (Ne.symm h), if_neg (by simpa using h)]
      rfl

/-- The pass knows of the records before what the names in those it kept say. -/
theorem capFrom_concat (cap : ℕ) (counts : Text → ℕ) (before : List MemoryRecord)
    (memory : MemoryRecord) : capFrom cap counts (before ++ [memory]) =
      if atQuota cap (fun tag => counts tag +
          Labels.named MemoryRecord.tags (capFrom cap counts before).1 tag) memory = true then
        ((capFrom cap counts before).1, (capFrom cap counts before).2 ++ [memory])
      else ((capFrom cap counts before).1 ++ [memory], (capFrom cap counts before).2) := by
  induction before generalizing counts with
  | nil => simp [capFrom, Labels.named]
  | cons first before ih =>
    rw [List.cons_append, capFrom, capFrom]
    by_cases hfirst : atQuota cap counts first = true
    · rw [if_pos hfirst, if_pos hfirst, ih]
      split_ifs <;> rfl
    · rw [if_neg hfirst, if_neg hfirst, ih]
      simp only [foldl_count, Labels.named_cons, Nat.add_assoc]
      split_ifs <;> rfl

/-- Whether a record is deferred goes by the names in the ones kept before it. -/
theorem capFrom_concat_zero (cap : ℕ) (before : List MemoryRecord) (memory : MemoryRecord) :
    capFrom cap (fun _ => 0) (before ++ [memory]) =
      if Labels.fullByName MemoryRecord.tags cap (keptByTag cap before) memory = true then
        (keptByTag cap before, deferredByTag cap before ++ [memory])
      else (keptByTag cap before ++ [memory], deferredByTag cap before) := by
  rw [capFrom_concat]
  simp only [Nat.zero_add]
  rfl

theorem deferred_iff : Deferred cap before memory ↔
    Labels.fullByName MemoryRecord.tags cap (keptByTag cap before) memory = true := by
  have hstep := congrArg Prod.snd (capFrom_concat_zero cap before memory)
  unfold Deferred
  rw [show deferredByTag cap (before ++ [memory]) = _ from hstep]
  split_ifs with hfull
  · exact iff_of_true rfl hfull
  · exact iff_of_false (fun h => by simpa using congrArg List.length h) hfull

/-- What the pass defers, it defers by what stands before. -/
theorem mem_deferredByTag (h : memory ∈ deferredByTag cap memories) :
    ∃ before, before ++ [memory] <+: memories ∧ Deferred cap before memory := by
  induction memories using List.reverseRecOn with
  | nil => exact (List.not_mem_nil h).elim
  | append_singleton before last ih =>
    have hstep := congrArg Prod.snd (capFrom_concat_zero cap before last)
    rw [show deferredByTag cap (before ++ [last]) = _ from hstep] at h
    have hbefore : memory ∈ deferredByTag cap before →
        ∃ start, start ++ [memory] <+: before ++ [last] ∧ Deferred cap start memory := fun hmem =>
      (ih hmem).imp fun start hstart => ⟨hstart.1.trans (List.prefix_append ..), hstart.2⟩
    split_ifs at h with hfull
    · rcases List.mem_append.mp h with hmem | hlast
      · exact hbefore hmem
      · obtain rfl := List.mem_singleton.mp hlast
        exact ⟨before, List.prefix_rfl, deferred_iff.mpr hfull⟩
    · exact hbefore h

theorem keptByTag_eq (cap : ℕ) (memories : List MemoryRecord) :
    keptByTag cap memories = Labels.kept (Labels.fullByName MemoryRecord.tags cap) memories := by
  induction memories using List.reverseRecOn with
  | nil => rfl
  | append_singleton before memory ih =>
    rw [Labels.kept_concat, ← ih, keptByTag, capFrom_concat_zero]
    split_ifs <;> rfl

theorem prefix_step (cap : ℕ) (before : List MemoryRecord) (memory : MemoryRecord) :
    keptByTag cap before <+: keptByTag cap (before ++ [memory]) ∧
      deferredByTag cap before <+: deferredByTag cap (before ++ [memory]) := by
  rw [keptByTag.eq_1 cap (before ++ [memory]), deferredByTag.eq_1 cap (before ++ [memory]),
    capFrom_concat_zero]
  split_ifs
  · exact ⟨List.prefix_rfl, List.prefix_append ..⟩
  · exact ⟨List.prefix_append .., List.prefix_rfl⟩

theorem prefix_run (cap : ℕ) (before after : List MemoryRecord) :
    keptByTag cap before <+: keptByTag cap (before ++ after) ∧
      deferredByTag cap before <+: deferredByTag cap (before ++ after) := by
  induction after using List.reverseRecOn with
  | nil =>
    rw [List.append_nil]
    exact ⟨List.prefix_rfl, List.prefix_rfl⟩
  | append_singleton after memory ih =>
    have hstep := prefix_step cap (before ++ after) memory
    rw [List.append_assoc] at hstep
    exact ⟨ih.1.trans hstep.1, ih.2.trans hstep.2⟩

theorem ordered (cap : ℕ) (memories : List MemoryRecord) : Ordered cap memories where
  parts := rfl
  perm := capFrom_perm cap _ memories
  kept := (capFrom_sublist cap _ memories).1
  deferred := (capFrom_sublist cap _ memories).2
  prefixes before h := by
    obtain ⟨after, rfl⟩ := h
    exact prefix_run cap before after

/-- A deferred record has a tag that the records name more often than the cap says. -/
theorem named_of_deferred (h : memory ∈ deferredByTag cap memories) :
    ∃ tag ∈ memory.tags, cap < Labels.named MemoryRecord.tags memories tag := by
  obtain ⟨before, hprefix, hdeferred⟩ := mem_deferredByTag h
  obtain ⟨tag, htag, -, hcap⟩ := Labels.fullByName_iff.mp (deferred_iff.mp hdeferred)
  refine ⟨tag, htag, ?_⟩
  have hlater : (keptByTag cap before ++ [memory]).Sublist memories :=
    ((capFrom_sublist cap _ before).1.append (List.Sublist.refl _)).trans hprefix.sublist
  have hone := List.count_pos_iff.mpr htag
  have hall := Labels.named_le_of_sublist MemoryRecord.tags tag hlater
  rw [Labels.named_append, Labels.named_cons] at hall
  omega

/-- Of a tag that more records carry than the cap says, one is deferred. -/
theorem deferred_of_carried (hcap : 0 < cap) {tag : Text}
    (h : cap < Labels.carried MemoryRecord.tags memories tag) :
    ∃ memory ∈ deferredByTag cap memories, tag ∈ memory.tags := by
  rw [← Labels.carried_perm (capFrom_perm cap (fun _ => 0) memories), Labels.carried_append] at h
  have hkept : Labels.carried MemoryRecord.tags (keptByTag cap memories) tag ≤ cap := by
    rw [keptByTag_eq]
    exact Labels.carried_kept_le hcap
  refine Labels.carried_pos_iff.mp ?_
  unfold keptByTag at hkept
  unfold deferredByTag
  omega

theorem byRule_iff_fits : ByRule cap memories ↔ Labels.Fits MemoryRecord.tags cap memories := by
  rw [← Labels.agrees_iff_fits, ByRule]
  simp only [deferred_iff, Labels.fullByCarrier_iff, keptByTag_eq]

/-- The records keep their order, and the rule is kept exactly if no record that has room by the
rule has a tag that those before it name too often, and no tag meets a cap of zero. -/
theorem capByTag_rule_iff (cap : ℕ) (memories : List MemoryRecord) :
    Ordered cap memories ∧
      (ByRule cap memories ↔ Labels.Fits MemoryRecord.tags cap memories) :=
  ⟨ordered cap memories, byRule_iff_fits⟩

/-- With a cap, records that name no tag twice are deferred by the rule. -/
theorem byRule_of_nodup (hcap : 0 < cap) (h : ∀ memory ∈ memories, memory.tags.Nodup) :
    ByRule cap memories :=
  byRule_iff_fits.mpr (Labels.fits_of_nodup hcap h)

/-- A lesson with these tags. -/
def lesson (id : ℕ) (tags : List Text) : MemoryRecord :=
  MemoryRow.record ⟨.user, .lesson, ['a'], ['a'], [], tags, none, .normal, 0, [], [],
    ⟨[], none, [], []⟩, none⟩ ⟨id⟩ .agent 0

/-- One lesson that names its tag as often as the cap says keeps the next one out. -/
theorem second_deferred :
    ¬ ByRule LESSONS_PER_TAG [lesson 0 [['a'], ['a'], ['a']], lesson 1 [['a']]] := by
  intro h
  exact absurd (deferred_iff.symm.trans
    (h [lesson 0 [['a'], ['a'], ['a']]] (lesson 1 [['a']]) List.prefix_rfl)) (by decide +kernel)

end Agmem.Tools.Context
