import AtomicCss.Proofs.Model.Reachable
import AtomicCss.Proofs.Sheet.Emission
import AtomicCss.Proofs.Sheet.Group
set_option autoImplicit false

namespace AtomicCss

/-- Some rule of the scope gives the declaration to whatever has these classes. -/
def ScopeTree.Delivers (rules : ScopeTree Rule) (classes : List Text) (scope : ScopeId)
    (variant : Variant) (d : Declaration) : Prop :=
  ∃ rule, (scope, rule) ∈ rules.contents ∧
    (∃ e ∈ rule.entries, e.variant = variant ∧ e.ident ∈ classes) ∧
      (d.property, d.value) ∈ rule.collected

theorem ScopeTree.mem_groupsOf {t : ScopeTree Group} {g : Group} :
    g ∈ groupsOf t.blocks ↔ ∃ s, (s, g) ∈ t.contents := by
  simp only [groupsOf, List.mem_flatMap, Prod.exists, mem_contents]

theorem Rule.mem_collected_rule {nameOf : ClassKey → Text} {g : Group} {d : Declaration}
    (h : (g.declarations.map Declaration.property).Nodup) :
    (d.property, d.value) ∈ (g.rule nameOf).collected ↔ d ∈ g.declarations := by
  rw [collected_of_nodup h, Group.rule, List.mem_map]
  constructor
  · rintro ⟨e, he, heq⟩
    cases e
    cases d
    cases heq
    exact he
  · exact fun hd => ⟨d, hd, rfl⟩

namespace Model

/-- The rules and the class names of a model, drawn from the allocator alone. -/
def sheet (m : Model) (preferred : List Text) (allocator : Allocator) :
    ScopeTree Rule × Allocation :=
  m.emit preferred (.fresh allocator m.names.length)

section

variable (m : Model) (preferred : List Text) (allocator : Allocator)

theorem sheet_allocation : (m.sheet preferred allocator).2 =
    (Allocation.fresh allocator m.names.length).afterGroups
      (ScopeTree.groupsOf (m.plan preferred).blocks) :=
  ScopeTree.state_emit _ _

theorem leads_sheet :
    (Allocation.fresh allocator m.names.length).Leads (m.sheet preferred allocator).2 := by
  rw [sheet_allocation]
  exact Allocation.leads_afterGroups _ _

theorem sound_sheet : (m.sheet preferred allocator).2.Sound :=
  (m.leads_sheet preferred allocator).sound (Allocation.sound_fresh _ _)

theorem sheet_rules : (m.sheet preferred allocator).1 = (m.plan preferred).mapContent
    (List.map (Group.rule (m.sheet preferred allocator).2.nameOf)) :=
  m.rules_emit preferred _

variable {m preferred}

theorem mem_contents_sheet {s : ScopeId} {rule : Rule} :
    (s, rule) ∈ (m.sheet preferred allocator).1.contents ↔
      ∃ g, (s, g) ∈ (m.plan preferred).contents ∧
        rule = g.rule (m.sheet preferred allocator).2.nameOf := by
  rw [sheet_rules, ScopeTree.contents_mapContent_map, List.mem_map]
  constructor
  · rintro ⟨⟨t, g⟩, hg, heq⟩
    cases heq
    exact ⟨g, hg, rfl⟩
  · rintro ⟨g, hg, rfl⟩
    exact ⟨(s, g), hg, rfl⟩

theorem classes_sheet {s : ScopeId} {g : Group} (hg : (s, g) ∈ (m.plan preferred).contents)
    {k : ClassKey} {v : Variant} (hk : (k, v) ∈ g.entryKeys) :
    (m.sheet preferred allocator).2.classes.get? k =
      some ((m.sheet preferred allocator).2.nameOf k) := by
  have hend := Allocation.Extends.refl (m.sheet preferred allocator).2
  rw [sheet_allocation] at hend
  have hdrawn := Allocation.isSome_afterGroups hend (ScopeTree.mem_groupsOf.2 ⟨s, hg⟩) hk
  rw [← sheet_allocation] at hdrawn
  obtain ⟨ident, hi⟩ := Option.isSome_iff_exists.1 hdrawn
  rw [hi, (Allocation.Extends.refl _).nameOf hi]

theorem nameOf_sheet_injective {s t : ScopeId} {g f : Group}
    (hg : (s, g) ∈ (m.plan preferred).contents) (hf : (t, f) ∈ (m.plan preferred).contents)
    {k l : ClassKey} {v w : Variant} (hk : (k, v) ∈ g.entryKeys) (hl : (l, w) ∈ f.entryKeys)
    (h : (m.sheet preferred allocator).2.nameOf k = (m.sheet preferred allocator).2.nameOf l) :
    k = l := by
  have hget := classes_sheet allocator hf hl
  rw [← h] at hget
  exact (m.sound_sheet preferred allocator).injective _ _ _ (classes_sheet allocator hg hk) hget

theorem mem_classesOf_sheet {n : NameId} {ident : Text} :
    ident ∈ (m.sheet preferred allocator).2.classesOf n ↔
      n < m.names.length ∧ ∃ s g, (s, g) ∈ (m.plan preferred).contents ∧
        ∃ c ∈ g.contributors, c.name = n ∧ ∃ k, (k, c.variant) ∈ g.entryKeys ∧
          (m.sheet preferred allocator).2.nameOf k = ident := by
  have hend := Allocation.Extends.refl (m.sheet preferred allocator).2
  rw [sheet_allocation] at hend
  have hclasses := Allocation.mem_classesOf_afterGroups (n := n) (i := ident) hend
  rw [← sheet_allocation, Allocation.classesOf_fresh] at hclasses
  rw [hclasses]
  simp only [List.not_mem_nil, false_or, Group.mem_receipts, ScopeTree.mem_groupsOf,
    Allocation.fresh, List.length_replicate]
  constructor
  · rintro ⟨hn, g, ⟨s, hg⟩, hc⟩
    exact ⟨hn, s, g, hg, hc⟩
  · rintro ⟨hn, s, g, hg, hc⟩
    exact ⟨hn, g, ⟨s, hg⟩, hc⟩

end

namespace WellFormed

variable {m : Model} (h : m.WellFormed) (preferred : List Text) (allocator : Allocator)
include h

theorem mem_recordsForName_of_delivers {n : NameId} {s : ScopeId} {v : Variant} {d : Declaration}
    (hd : (m.sheet preferred allocator).1.Delivers
      ((m.sheet preferred allocator).2.classesOf n) s v d) :
    ⟨⟨s, n, v.suffix⟩, v.repeats, d.property, d.value⟩ ∈ m.recordsForName n := by
  obtain ⟨rule, hrule, ⟨e, he, hv, hident⟩, hcollected⟩ := hd
  obtain ⟨g, hg, rfl⟩ := (mem_contents_sheet allocator).1 hrule
  have hof := (h.mem_contents_plan.1 hg).2
  obtain ⟨⟨k, w⟩, hk, rfl⟩ := List.mem_map.1 he
  obtain ⟨_, t, f, hf, c, hc, rfl, l, hl, hname⟩ := (mem_classesOf_sheet allocator).1 hident
  -- The class name stands for one key, and that key tells who contributes to the group.
  obtain rfl := nameOf_sheet_injective allocator hf hg hl hk hname
  have hmem := Group.contributes_of_key hk hl hc
  rw [Rule.mem_collected_rule (h.nodup_properties hof)] at hcollected
  obtain ⟨r, hr, rfl, hrc⟩ := Group.declared_of_mem hof hcollected hmem
  obtain ⟨hrm, rfl⟩ := h.mem_recordsInScope.1 hr
  obtain ⟨⟨_, _, _⟩, _, _, _⟩ := r
  subst hv
  cases hrc
  exact h.mem_recordsForName.2 ⟨hrm, rfl⟩

theorem delivers_of_mem_recordsForName {r : Record} (hr : r ∈ m.recordsForName r.site.name) :
    (m.sheet preferred allocator).1.Delivers
      ((m.sheet preferred allocator).2.classesOf r.site.name) r.site.scope r.contributor.variant
        r.declaration := by
  obtain ⟨hrm, _⟩ := h.mem_recordsForName.1 hr
  obtain ⟨hscope, hname, _⟩ := h.placed r hrm
  obtain ⟨g, hof, hd, hc⟩ := Group.exists_mem_ofRecords (h.mem_recordsInScope.2 ⟨hrm, rfl⟩)
  obtain ⟨k, hk⟩ := Group.exists_mem_entryKeys hc
  have hg : (r.site.scope, g) ∈ (m.plan preferred).contents := h.mem_contents_plan.2 ⟨hscope, hof⟩
  refine ⟨_, (mem_contents_sheet allocator).2 ⟨g, hg, rfl⟩,
    ⟨_, List.mem_map.2 ⟨_, hk, rfl⟩, rfl, ?_⟩, ?_⟩
  · exact (mem_classesOf_sheet allocator).2 ⟨hname, _, g, hg, _, hc, rfl, k, hk, rfl⟩
  · exact (Rule.mem_collected_rule (h.nodup_properties hof)).2 hd

theorem name_lt_of_mem_contents_plan {s : ScopeId} {g : Group}
    (hg : (s, g) ∈ (m.plan preferred).contents) {c : Contributor} (hc : c ∈ g.contributors) :
    c.name < m.names.length := by
  have hof := (h.mem_contents_plan.1 hg).2
  obtain ⟨d, hd⟩ := Group.exists_declaration hof
  obtain ⟨r, hr, _, rfl⟩ := Group.declared_of_mem hof hd hc
  exact (h.placed r (h.mem_recordsInScope.1 hr).1).2.1

end WellFormed

/--
Exact delivery: every style gets its own declarations through its class names and no others, no
class name is idle, and none belongs to nobody.
-/
theorem Reachable.delivers_iff {m : Model} (hm : m.Reachable) (preferred : List Text)
    (allocator : Allocator) :
    let sheet := m.sheet preferred allocator
    m.generate preferred (.fresh allocator m.names.length) = (sheet.1.render, sheet.2) ∧
    (∀ n s v d, sheet.1.Delivers (sheet.2.classesOf n) s v d ↔
      ⟨⟨s, n, v.suffix⟩, v.repeats, d.property, d.value⟩ ∈ m.recordsForName n) ∧
    (∀ n, ∀ ident ∈ sheet.2.classesOf n,
      ∃ s rule, (s, rule) ∈ sheet.1.contents ∧ ident ∈ rule.entries.map SelectorEntry.ident) ∧
    ∀ s rule, (s, rule) ∈ sheet.1.contents → ∀ e ∈ rule.entries,
      ∃ n < m.names.length, e.ident ∈ sheet.2.classesOf n := by
  have h := hm.wellFormed
  refine ⟨rfl, fun n s v d => ⟨h.mem_recordsForName_of_delivers preferred allocator,
    h.delivers_of_mem_recordsForName preferred allocator⟩, fun n ident hident => ?_,
    fun s rule hrule e he => ?_⟩
  · obtain ⟨_, s, g, hg, c, _, _, k, hk, rfl⟩ := (mem_classesOf_sheet allocator).1 hident
    refine ⟨s, _, (mem_contents_sheet allocator).2 ⟨g, hg, rfl⟩, ?_⟩
    simp only [Group.rule, List.map_map, List.mem_map, Function.comp_apply]
    exact ⟨_, hk, rfl⟩
  · obtain ⟨g, hg, rfl⟩ := (mem_contents_sheet allocator).1 hrule
    obtain ⟨⟨k, w⟩, hk, rfl⟩ := List.mem_map.1 he
    obtain ⟨c, hc, rfl⟩ := Group.exists_contributor_of_mem_entryKeys hk
    have hname := h.name_lt_of_mem_contents_plan preferred hg hc
    exact ⟨c.name, hname, (mem_classesOf_sheet allocator).2
      ⟨hname, s, g, hg, c, hc, rfl, k, hk, rfl⟩⟩

theorem Reachable.delivers_shared_color :
    let m := ((Model.empty.ingest ⟨[], ['a']⟩ [.declaration "color".toList "red".toList]).2.ingest
      ⟨[], ['b']⟩ [.declaration "color".toList "red".toList, .declaration "top".toList ['0']]).2
    m.Reachable ∧ (m.sheet [] ⟨[], [], 0⟩).1.Delivers ((m.sheet [] ⟨[], [], 0⟩).2.classesOf 1)
      rootScope ⟨[], 1⟩ ⟨"color".toList, "red".toList⟩ := by
  have hm := (Reachable.empty.ingest ⟨[], ['a']⟩ [.declaration "color".toList "red".toList]).ingest
    ⟨[], ['b']⟩ [.declaration "color".toList "red".toList, .declaration "top".toList ['0']]
  exact ⟨hm, ((hm.delivers_iff [] ⟨[], [], 0⟩).2.1 1 _ _ _).2 (by decide +kernel)⟩

end Model
end AtomicCss
