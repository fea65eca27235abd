import Agmem.Tools.Complete
import Agmem.Tools.Mentions

/-! The tags whose lessons outgrew the bound. A report counts how often its lessons name a tag, and
is about the lessons that carry it exactly if none of them names an over-full tag twice. -/

namespace Agmem.Tools.Consolidate

open Core Store Ranking Context

/-- The tags that too many lessons carry are reported, with their number and no lesson twice, and
they are what the cap of a session's block defers lessons for, in whatever order these are. -/
structure Advises (space : SpaceName) (lessons : List MemoryRecord) : Prop where
  reported : ∀ tag, (∃ t ∈ overFullTags space lessons, t.space = space ∧ t.tag = tag) ↔
    LESSONS_PER_TAG < Labels.carried MemoryRecord.tags lessons tag
  live : ∀ t ∈ overFullTags space lessons,
    t.live = Labels.carried MemoryRecord.tags lessons t.tag
  members : ∀ t ∈ overFullTags space lessons, (t.members.map MemoryRecord.id).Nodup
  followed : ∀ ranked : List MemoryRecord, ranked.Perm lessons →
    (∀ lesson ∈ deferredByTag LESSONS_PER_TAG ranked,
      ∃ t ∈ overFullTags space lessons, t.tag ∈ lesson.tags) ∧
    ∀ t ∈ overFullTags space lessons,
      ∃ lesson ∈ deferredByTag LESSONS_PER_TAG ranked, t.tag ∈ lesson.tags

variable {space : SpaceName} {lessons : List MemoryRecord} {tag : Text} {t : OverFullTag}

/-! ### A tag of the report -/

theorem length_lessonsOf_eq_named (lessons : List MemoryRecord) (tag : Text) :
    (lessonsOf lessons tag).length = Labels.named MemoryRecord.tags lessons tag :=
  length_lessonsOf lessons tag

theorem overFullTag_eq (h : t ∈ overFullTags space lessons) :
    t.live = Labels.named MemoryRecord.tags lessons t.tag ∧
      t.members = (lessonsOf lessons t.tag).take MAX_CLUSTER_MEMBERS := by
  rw [overFullTags, List.mem_insertionSort, List.mem_map] at h
  obtain ⟨entry, hentry, rfl⟩ := h
  obtain ⟨tag, -, rfl⟩ := List.mem_map.mp (List.mem_filter.mp hentry).1
  exact ⟨length_lessonsOf_eq_named lessons tag, rfl⟩

theorem named_of_overFullTag (h : t ∈ overFullTags space lessons) :
    LESSONS_PER_TAG < Labels.named MemoryRecord.tags lessons t.tag :=
  mem_overFullTags.mp ⟨t, h, space_of_mem_overFullTags h, rfl⟩

/-- The lessons of a tag that none names twice. -/
theorem lessonsOf_sublist (h : ∀ lesson ∈ lessons, lesson.tags.count tag ≤ 1) :
    (lessonsOf lessons tag).Sublist lessons := by
  have hone : (lessonsOf lessons tag).Sublist (lessons.flatMap fun lesson => [lesson]) := by
    refine List.Sublist.flatMap_right lessons fun lesson hlesson => ?_
    rw [List.map_const', length_filter_named]
    exact (List.replicate_sublist_replicate lesson).mpr (h lesson hlesson)
  rwa [List.flatMap_singleton'] at hone

/-- The lessons that a report is made from are distinct. -/
theorem lessonsRead_ids_nodup (db : Db) (space : SpaceName) :
    ((lessonsRead db space).map MemoryRecord.id).Nodup := by
  rw [lessonsRead, directLookup, List.map_map]
  exact Snapshots.strongest_ids_nodup db _ _

/-- A report advises exactly if no lesson repeats a tag that the lessons name too often. -/
theorem advises_iff (space : SpaceName) (hids : (lessons.map MemoryRecord.id).Nodup) :
    Advises space lessons ↔
      ∀ tag, LESSONS_PER_TAG < Labels.named MemoryRecord.tags lessons tag →
        ∀ lesson ∈ lessons, lesson.tags.count tag ≤ 1 := by
  constructor
  · intro h tag hnamed
    obtain ⟨t, ht, -, rfl⟩ := mem_overFullTags.mpr hnamed
    rw [← Labels.carried_eq_named_iff, ← h.live t ht, (overFullTag_eq ht).1]
  · intro h
    have hcount : ∀ tag, LESSONS_PER_TAG < Labels.named MemoryRecord.tags lessons tag →
        Labels.carried MemoryRecord.tags lessons tag =
          Labels.named MemoryRecord.tags lessons tag :=
      fun tag hnamed => Labels.carried_eq_named_iff.mpr (h tag hnamed)
    refine ⟨fun tag => mem_overFullTags.trans ⟨fun hnamed => ?_, fun hcarried => ?_⟩,
      fun t ht => ?_, fun t ht => ?_,
      fun ranked hperm => ⟨fun lesson hlesson => ?_, fun t ht => ?_⟩⟩
    · rwa [hcount tag hnamed]
    · exact hcarried.trans_le (Labels.carried_le_named ..)
    · rw [(overFullTag_eq ht).1, hcount t.tag (named_of_overFullTag ht)]
    · rw [(overFullTag_eq ht).2]
      exact hids.sublist (((List.take_sublist ..).trans
        (lessonsOf_sublist (h t.tag (named_of_overFullTag ht)))).map _)
    · obtain ⟨tag, htag, hnamed⟩ := named_of_deferred hlesson
      rw [Labels.named_perm hperm] at hnamed
      obtain ⟨t, ht, -, rfl⟩ := mem_overFullTags.mpr hnamed
      exact ⟨t, ht, htag⟩
    · refine deferred_of_carried (by decide) ?_
      rw [Labels.carried_perm hperm, hcount t.tag (named_of_overFullTag ht)]
      exact named_of_overFullTag ht

/-- Four lessons on one matter are reported. -/
theorem four_advised : Advises .user
    [lesson 0 [['a']], lesson 1 [['a']], lesson 2 [['a'], ['b']], lesson 3 [['a']]] := by
  have hnodup : ∀ memory ∈ [lesson 0 [['a']], lesson 1 [['a']], lesson 2 [['a'], ['b']],
      lesson 3 [['a']]], memory.tags.Nodup := by decide +kernel
  exact (advises_iff .user (by decide +kernel)).mpr fun tag _ memory hmemory =>
    List.nodup_iff_count.mp (hnodup memory hmemory) tag

/-- One lesson that names its tag four times is reported as four. -/
theorem lone_lesson_reported : ¬ Advises .user [lesson 0 [['a'], ['a'], ['a'], ['a']]] := fun h =>
  absurd (mem_overFullTags.symm.trans (h.reported ['a'])) (by decide +kernel)

end Agmem.Tools.Consolidate
