import AtomicCss.Proofs.Identifier.Fresh
import AtomicCss.Proofs.Sheet.Arrangement
import AtomicCss.Proofs.Sheet.Handout
set_option autoImplicit false

namespace AtomicCss

namespace Allocation

theorem drawEach_fresh (allocator : Allocator) (names : Nat) (keys : List ClassKey) :
    (fresh allocator names).drawEach keys =
      ⟨(allocator.take keys.eraseDups.length).2,
        keys.eraseDups.zip (allocator.take keys.eraseDups.length).1, List.replicate names []⟩ := by
  induction keys using List.reverseRecOn with
  | nil => rfl
  | append_singleton keys key ih =>
    have hlength := (allocator.length_take keys.eraseDups.length).symm
    have hkeys := OrderedMap.keys_zip hlength
    have hstep : (fresh allocator names).drawEach (keys ++ [key]) =
        (classFor key ((fresh allocator names).drawEach keys)).2 := drawEach_append _ _ _
    rw [hstep, ih, eraseDups_append_singleton, appendNew]
    by_cases hmem : key ∈ keys.eraseDups
    · obtain ⟨ident, hident⟩ := Option.isSome_iff_exists.1
        (OrderedMap.isSome_get?.2 (hkeys ▸ hmem))
      rw [classFor_eq hident, if_pos hmem]
    · have hnew := hmem
      rw [← hkeys] at hnew
      have hnone : OrderedMap.get? (keys.eraseDups.zip
          (allocator.take keys.eraseDups.length).1) key = none := by
        rw [← Option.not_isSome_iff_eq_none, OrderedMap.isSome_get?]
        exact hnew
      rw [if_neg hmem, List.length_append, List.length_singleton, Allocator.take_succ,
        List.zip_append hlength, classFor]
      simp only [hnone, OrderedMap.put_of_not_mem hnew]
      rfl

end Allocation

theorem Model.map_nameOf_sheet (m : Model) (preferred : List Text) (allocator : Allocator) :
    (m.plan preferred).keys.eraseDups.map (m.sheet preferred allocator).2.nameOf =
      (allocator.take (m.plan preferred).keys.eraseDups.length).1 := by
  have hclasses : (m.sheet preferred allocator).2.classes = (m.plan preferred).keys.eraseDups.zip
      (allocator.take (m.plan preferred).keys.eraseDups.length).1 := by
    rw [sheet_allocation_eq, (Allocation.drawn_assignEach _ _).2, Allocation.drawEach_fresh]
  have hfound := congrArg (List.map fun o => o.getD []) (OrderedMap.map_get?_zip
    (nodup_eraseDups (m.plan preferred).keys) (allocator.length_take _).symm)
  rw [← hclasses, List.map_map, List.map_map] at hfound
  exact hfound.trans (List.map_id _)

/-- The rule with other class names. -/
def Rule.relabel (f : Text → Text) (r : Rule) : Rule :=
  ⟨r.entries.map fun e => ⟨f e.ident, e.variant⟩, r.declarations⟩

def ScopeTree.relabel (f : Text → Text) (rules : ScopeTree Rule) : ScopeTree Rule :=
  rules.mapContent (List.map (Rule.relabel f))

namespace Group

variable {nameOf other : ClassKey → Text} {f : Text → Text} {g : Group}

theorem rule_relabel (h : ∀ e ∈ g.entryKeys, f (nameOf e.1) = other e.1) :
    (g.rule nameOf).relabel f = g.rule other := by
  rw [rule, Rule.relabel, List.map_map]
  refine congrArg (Rule.mk · g.declarations) (List.map_congr_left fun e he => ?_)
  exact congrArg (SelectorEntry.mk · e.2) (h e he)

theorem handout_relabel (f : Text → Text) (entries : List SelectorEntry)
    (contributors : List Contributor) :
    handout (entries.map fun e => ⟨f e.ident, e.variant⟩) contributors =
      (handout entries contributors).map fun r => (r.1, f r.2) := by
  simp [handout, List.map_flatMap, List.filter_map, Function.comp_def]

theorem receipts_relabel (h : ∀ e ∈ g.entryKeys, f (nameOf e.1) = other e.1) :
    (g.receipts nameOf).map (fun r => (r.1, f r.2)) = g.receipts other := by
  rw [receipts, receipts, ← handout_relabel, ← rule_relabel h]
  rfl

end Group

theorem Allocation.assignments_eq_map (a : Allocation) :
    a.assignments = (List.range a.assignments.length).map a.classesOf := by
  refine List.ext_getElem (by simp) fun i hi _ => ?_
  simp [classesOf, hi]

theorem exists_map_eq {l r : List Text} (hl : l.Nodup) (h : l.length = r.length) :
    ∃ f : Text → Text, l.map f = r := by
  refine ⟨fun t => (OrderedMap.get? (l.zip r) t).getD [], ?_⟩
  have hfound := congrArg (List.map fun o => o.getD []) (OrderedMap.map_get?_zip hl h)
  simpa [Function.comp_def] using hfound

namespace Model

variable {m : Model} {preferred : List Text} {f : Text → Text}

theorem mem_keys_of_mem_groupsOf {g : Group}
    (hg : g ∈ ScopeTree.groupsOf (m.plan preferred).blocks) {e : ClassKey × Variant}
    (he : e ∈ g.entryKeys) : e.1 ∈ (m.plan preferred).keys := by
  obtain ⟨s, hs⟩ := ScopeTree.mem_groupsOf.1 hg
  exact ScopeTree.mem_keys.2 ⟨s, g, e.2, hs, he⟩

theorem exists_key_of_mem_receipts {nameOf : ClassKey → Text} {r : NameId × Text}
    (hr : r ∈ m.receipts preferred nameOf) : ∃ k ∈ (m.plan preferred).keys, nameOf k = r.2 := by
  obtain ⟨g, hg, hr⟩ := List.mem_flatMap.1 hr
  obtain ⟨c, _, _, k, hk, hname⟩ := Group.mem_receipts.1 hr
  exact ⟨k, mem_keys_of_mem_groupsOf hg hk, hname⟩

theorem nameOf_sheet_inj (allocator : Allocator) {k l : ClassKey}
    (hk : k ∈ (m.plan preferred).keys) (hl : l ∈ (m.plan preferred).keys)
    (h : (m.sheet preferred allocator).2.nameOf k = (m.sheet preferred allocator).2.nameOf l) :
    k = l := by
  obtain ⟨s, g, v, hg, hk⟩ := ScopeTree.mem_keys.1 hk
  obtain ⟨t, f, w, hf, hl⟩ := ScopeTree.mem_keys.1 hl
  exact nameOf_sheet_injective allocator hg hf hk hl h

theorem rules_relabel {nameOf other : ClassKey → Text}
    (h : ∀ k ∈ (m.plan preferred).keys, f (nameOf k) = other k) :
    ((m.plan preferred).mapContent (List.map (Group.rule nameOf))).relabel f =
      (m.plan preferred).mapContent (List.map (Group.rule other)) := by
  rw [ScopeTree.relabel, ScopeTree.mapContent_mapContent]
  refine ScopeTree.mapContent_congr _ fun b hb => ?_
  rw [Function.comp_apply, List.map_map]
  refine List.map_congr_left fun g hg => Group.rule_relabel fun e he => ?_
  exact h e.1 (mem_keys_of_mem_groupsOf (List.mem_flatMap.2 ⟨b, hb, hg⟩) he)

theorem receipts_relabel {nameOf other : ClassKey → Text}
    (h : ∀ k ∈ (m.plan preferred).keys, f (nameOf k) = other k) :
    (m.receipts preferred nameOf).map (fun r => (r.1, f r.2)) = m.receipts preferred other := by
  rw [receipts, receipts, Group.receiptsOf, Group.receiptsOf, List.map_flatMap]
  refine List.flatMap_congr fun g hg => Group.receipts_relabel fun e he => ?_
  exact h e.1 (mem_keys_of_mem_groupsOf hg he)

section

variable {first second : Allocator}
  (h : ∀ k ∈ (m.plan preferred).keys,
    f ((m.sheet preferred first).2.nameOf k) = (m.sheet preferred second).2.nameOf k)
include h

theorem classesOf_sheet_relabel {n : NameId} (hn : n < m.names.length) :
    ((m.sheet preferred first).2.classesOf n).map f = (m.sheet preferred second).2.classesOf n := by
  rw [classesOf_sheet _ _ _ hn, classesOf_sheet _ _ _ hn, ← receipts_relabel h, List.filter_map,
    List.map_map, ← eraseDups_map, List.map_map]
  · rfl
  · intro a ha b hb heq
    obtain ⟨r, hr, rfl⟩ := List.mem_map.1 ha
    obtain ⟨s, hs, rfl⟩ := List.mem_map.1 hb
    obtain ⟨k, hk, hkr⟩ := exists_key_of_mem_receipts (List.mem_filter.1 hr).1
    obtain ⟨l, hl, hls⟩ := exists_key_of_mem_receipts (List.mem_filter.1 hs).1
    rw [← hkr, ← hls, h k hk, h l hl] at heq
    rw [← hkr, ← hls, nameOf_sheet_inj second hk hl heq]

theorem assignments_sheet_relabel :
    (m.sheet preferred first).2.assignments.map (List.map f) =
      (m.sheet preferred second).2.assignments := by
  rw [Allocation.assignments_eq_map, Allocation.assignments_eq_map (m.sheet preferred second).2,
    length_assignments_sheet, length_assignments_sheet, List.map_map]
  exact List.map_congr_left fun n hn => classesOf_sheet_relabel h (List.mem_range.1 hn)

end

/--
A run takes the first names of its allocator and writes them in their order, however often each
comes again. Runs with two allocators differ in the names only: the rules and the class lists of one
are those of the other with each name replaced by the one with the same number.
-/
theorem sheet_labels (m : Model) (preferred : List Text) :
    ∃ k, (∀ allocator : Allocator,
        let sheet := m.sheet preferred allocator
        m.generate preferred (.fresh allocator m.names.length) = (sheet.1.render, sheet.2) ∧
          sheet.1.identifiers.eraseDups = (allocator.take k).1 ∧
          sheet.2.allocator = (allocator.take k).2) ∧
      ∀ first second : Allocator, ∃ f : Text → Text,
        (first.take k).1.map f = (second.take k).1 ∧
          (m.sheet preferred second).1 = (m.sheet preferred first).1.relabel f ∧
          (m.sheet preferred second).2.assignments =
            (m.sheet preferred first).2.assignments.map (List.map f) := by
  refine ⟨(m.plan preferred).keys.eraseDups.length, fun allocator => ⟨rfl, ?_, ?_⟩,
    fun first second => ?_⟩
  · have hdistinct : ∀ k ∈ (m.plan preferred).keys, ∀ l ∈ (m.plan preferred).keys,
        (m.sheet preferred allocator).2.nameOf k = (m.sheet preferred allocator).2.nameOf l →
          k = l := fun k hk l hl => nameOf_sheet_inj allocator hk hl
    rw [sheet_rules, ScopeTree.identifiers_mapContent_rule, eraseDups_map hdistinct,
      map_nameOf_sheet]
  · rw [sheet_allocation_eq, (Allocation.drawn_assignEach _ _).1, Allocation.drawEach_fresh]
  · have hfirst := m.map_nameOf_sheet preferred first
    have hsecond := m.map_nameOf_sheet preferred second
    have hnodup : ((m.plan preferred).keys.eraseDups.map
        (m.sheet preferred first).2.nameOf).Nodup := by
      refine (nodup_eraseDups _).map_on fun k hk l hl => ?_
      exact nameOf_sheet_inj first (List.mem_eraseDups.1 hk) (List.mem_eraseDups.1 hl)
    rw [← hfirst, ← hsecond]
    obtain ⟨f, hf⟩ := exists_map_eq hnodup (r := (m.plan preferred).keys.eraseDups.map
      (m.sheet preferred second).2.nameOf) (by simp)
    have hnames : ∀ k ∈ (m.plan preferred).keys,
        f ((m.sheet preferred first).2.nameOf k) = (m.sheet preferred second).2.nameOf k := by
      intro k hk
      rw [List.map_map] at hf
      exact List.map_inj_left.1 hf k (List.mem_eraseDups.2 hk)
    refine ⟨f, hf, ?_, (assignments_sheet_relabel hnames).symm⟩
    rw [sheet_rules, sheet_rules, rules_relabel hnames]

end Model
end AtomicCss
