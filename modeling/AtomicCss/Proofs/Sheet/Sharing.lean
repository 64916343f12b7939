import AtomicCss.Proofs.Model.Reachable
import AtomicCss.Proofs.Sheet.Emission
import AtomicCss.Proofs.Sheet.Group
set_option autoImplicit false

namespace AtomicCss

def Contributes (records : List Record) (d : Declaration) (c : Contributor) : Prop :=
  ∃ r ∈ records, r.declaration = d ∧ r.contributor = c

/-- The rules, before their bodies are folded, give the records of a scope with nothing repeated. -/
structure SharesMinimally (records : List Record) (rules : List Rule) : Prop where
  once : ∀ d, rules.countP (d ∈ ·.declarations) =
    if d ∈ records.map Record.declaration then 1 else 0
  together : ∀ d ∈ records.map Record.declaration, ∀ e ∈ records.map Record.declaration,
    (∃ rule ∈ rules, d ∈ rule.declarations ∧ e ∈ rule.declarations) ↔
      ∀ c, Contributes records d c ↔ Contributes records e c
  nonempty : ∀ rule ∈ rules, rule.declarations ≠ []
  properties : ∀ rule ∈ rules, (rule.declarations.map Declaration.property).Nodup
  /-- Going through a map keeps the declarations and their order. -/
  collected : ∀ rule ∈ rules,
    rule.collected = rule.declarations.map fun d => (d.property, d.value)
  entries : ∀ rule ∈ rules, ∀ d ∈ rule.declarations, (rule.entries.map (·.variant)).Nodup ∧
    ∀ v, v ∈ rule.entries.map (·.variant) ↔ ∃ c, Contributes records d c ∧ c.variant = v

namespace Group

variable {records : List Record} {g : Group}

theorem mem_contributors_iff (hg : g ∈ ofRecords records) {d : Declaration}
    (hd : d ∈ g.declarations) {c : Contributor} : c ∈ g.contributors ↔ Contributes records d c := by
  rw [← ((mem_declarations hg).1 hd).2]
  exact mem_contributorsOf

theorem variants_rule (nameOf : ClassKey → Text) (g : Group) :
    (g.rule nameOf).entries.map (·.variant) = g.entryKeys.map (·.2) := by
  simp [rule, Function.comp_def]

theorem once_rules (nameOf : ClassKey → Text) (d : Declaration) :
    ((ofRecords records).map (rule nameOf)).countP (d ∈ ·.declarations) =
      if d ∈ records.map Record.declaration then 1 else 0 := by
  have hgroups : ((ofRecords records).map (rule nameOf)).countP (d ∈ ·.declarations) =
      (ofRecords records).countP (d ∈ ·.declarations) := List.countP_map
  rw [hgroups]
  split
  next hd => exact countP_of_declared hd
  next hd => exact countP_of_not_declared hd

theorem together_iff {d e : Declaration} (hd : d ∈ records.map Record.declaration)
    (he : e ∈ records.map Record.declaration) :
    (∃ g ∈ ofRecords records, d ∈ g.declarations ∧ e ∈ g.declarations) ↔
      ∀ c, Contributes records d c ↔ Contributes records e c := by
  constructor
  · rintro ⟨g, hg, hdg, heg⟩ c
    exact (mem_contributors_iff hg hdg).symm.trans (mem_contributors_iff hg heg)
  · intro hsame
    obtain ⟨r, hr, rfl⟩ := List.mem_map.1 hd
    obtain ⟨g, hg, hdg, _⟩ := exists_mem_ofRecords hr
    refine ⟨g, hg, hdg, (mem_declarations hg).2 ⟨List.mem_map.1 he, ?_⟩⟩
    rw [← ((mem_declarations hg).1 hdg).2]
    refine Sorted.ofList_congr fun c => ?_
    have hc := (hsame c).symm
    simpa [Contributes, and_assoc] using hc

end Group

namespace Model

variable {m : Model}

theorem WellFormed.sharesMinimally (h : m.WellFormed) (nameOf : ClassKey → Text) (s : ScopeId) :
    SharesMinimally (m.recordsInScope s)
      ((Group.ofRecords (m.recordsInScope s)).map (Group.rule nameOf)) where
  once := Group.once_rules nameOf
  together d hd e he := by
    rw [← Group.together_iff hd he]
    simp [Group.rule]
  nonempty := by
    refine List.forall_mem_map.2 fun g hg => ?_
    obtain ⟨d, hd⟩ := Group.exists_declaration hg
    exact List.ne_nil_of_mem hd
  properties := List.forall_mem_map.2 fun g hg => h.nodup_properties hg
  collected := List.forall_mem_map.2 fun g hg => Rule.collected_of_nodup (h.nodup_properties hg)
  entries := by
    refine List.forall_mem_map.2 fun g hg d hd => ?_
    rw [Group.variants_rule]
    refine ⟨g.nodup_variants, fun v => ?_⟩
    simp only [Group.mem_variants, Group.mem_contributors_iff hg hd]

theorem WellFormed.perm_scopes_plan (h : m.WellFormed) (preferred : List Text) :
    ((m.plan preferred).blocks.map (·.1)).Perm (List.range m.scopes.length) := by
  rw [plan, ScopeTree.scopes_mapContent]
  exact h.perm_scopes_arrange _

theorem WellFormed.contentAt_plan (h : m.WellFormed) (preferred : List Text) (s : ScopeId) :
    (m.plan preferred).contentAt s = Group.ofRecords (m.recordsInScope s) := by
  have hnodup := (h.perm_scopes_arrange (preferred.map Header.key)).nodup_iff.2 List.nodup_range
  rw [plan, ScopeTree.contentAt_mapContent rfl _ hnodup, h.contentAt_arrange]

/--
The text that is generated is that of a tree with every scope once. In each scope every declaration
is in one rule, together with those that have the same contributors, and the rule has one selector
for each variant of the contributors.
-/
theorem Reachable.shares_minimally (hm : m.Reachable) (preferred : List Text) (a : Allocation) :
    let emitted := m.emit preferred a
    m.generate preferred a = (emitted.1.render, emitted.2) ∧
      (emitted.1.blocks.map (·.1)).Perm (List.range m.scopes.length) ∧
      ∀ s, SharesMinimally (m.recordsInScope s) (emitted.1.contentAt s) := by
  intro emitted
  have h := hm.wellFormed
  have hscopes := h.perm_scopes_plan preferred
  have hrules : emitted.1 = _ := m.rules_emit preferred a
  rw [hrules, ScopeTree.scopes_mapContent]
  refine ⟨by rw [← hrules]; rfl, hscopes, fun s => ?_⟩
  rw [ScopeTree.contentAt_mapContent rfl _ (hscopes.nodup_iff.2 List.nodup_range),
    h.contentAt_plan]
  exact h.sharesMinimally _ s

theorem Reachable.shares_minimally_hover :
    let m := ((Model.empty.ingest ⟨[], ['a']⟩ [.declaration "top".toList ['0'],
      .declaration "color".toList "red".toList]).2.ingest ⟨[], ['b']⟩ [
        .declaration "color".toList "red".toList,
        .rule ":hover".toList [.declaration "color".toList "red".toList]]).2
    let emitted := m.emit [] (.fresh ⟨[], [], 0⟩ 2)
    m.Reachable ∧ SharesMinimally (m.recordsInScope 0) (emitted.1.contentAt 0) ∧
      emitted.1.contentAt 0 = [
        ⟨[⟨['a'], [], 1⟩], [⟨"top".toList, ['0']⟩]⟩,
        ⟨[⟨['b'], [], 1⟩, ⟨['c'], ":hover".toList, 1⟩], [⟨"color".toList, "red".toList⟩]⟩] := by
  intro m emitted
  have hm : m.Reachable := .ingest _ _ (.ingest _ _ .empty)
  obtain ⟨_, _, hshares⟩ := hm.shares_minimally [] (.fresh ⟨[], [], 0⟩ 2)
  exact ⟨hm, hshares 0, by decide +kernel⟩

end Model
end AtomicCss
