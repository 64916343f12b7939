import AtomicCss.Proofs.Sheet.Arrangement
import AtomicCss.Proofs.Sheet.Handout
set_option autoImplicit false

namespace AtomicCss.Model

theorem state_emit (m : Model) (preferred : List Text) (a : Allocation) :
    (m.emit preferred a).2 = a.afterGroups (ScopeTree.groupsOf (m.plan preferred).blocks) :=
  ScopeTree.state_emit _ _

theorem mem_groupsOf_plan {m : Model} {p q : List Text} {g : Group} :
    g ∈ ScopeTree.groupsOf (m.plan p).blocks ↔ g ∈ ScopeTree.groupsOf (m.plan q).blocks := by
  have hperm : (m.plan p).blocks.Perm (m.plan q).blocks := by
    rw [plan_eq_arrange, plan_eq_arrange]
    exact (ScopeTree.perm_blocks_arrange _ _).trans (ScopeTree.perm_blocks_arrange _ _).symm
  exact (hperm.flatMap_right _).mem_iff

theorem rules_emit_eq_arrange (m : Model) (preferred : List Text) (a : Allocation) :
    (m.emit preferred a).1 =
      (m.groups.mapContent (List.map (Group.rule (m.emit preferred a).2.nameOf))).arrange
        (preferred.map Header.key) := by
  rw [rules_emit, plan_eq_arrange, ScopeTree.mapContent_arrange]

/-- One emission leaves nothing to do for the next, in whatever order that goes through the scopes.
-/
theorem state_emit_again (m : Model) (p q : List Text) (a : Allocation) :
    (m.emit q (m.emit p a).2).2 = (m.emit p a).2 := by
  have hend : (a.afterGroups (ScopeTree.groupsOf (m.plan p).blocks)).Extends (m.emit p a).2 := by
    rw [state_emit]
    exact .refl _
  rw [state_emit m q]
  refine Allocation.afterGroups_again (fun g hg e he => ?_) fun g hg r hr hlt => ?_
  · exact Allocation.isSome_afterGroups hend (mem_groupsOf_plan.1 hg) he
  · rw [state_emit, (Allocation.leads_afterGroups _ _).length] at hlt
    rw [state_emit]
    exact (Allocation.mem_classesOf_afterGroups hend).2
      (Or.inr ⟨hlt, g, mem_groupsOf_plan.1 hg, hr⟩)

/--
Generating again, with the same or another order of preference: the allocation stays as it is, with
everything drawn and everything given out, and so do the rules up to the order of sibling at-rules.
-/
theorem generate_again (m : Model) (p q : List Text) (a : Allocation) :
    let first := m.emit p a
    let second := m.emit q first.2
    m.generate p a = (first.1.render, first.2) ∧
      m.generate q first.2 = (second.1.render, first.2) ∧
      first.1.Shuffled second.1 ∧
      m.generate p first.2 = m.generate p a := by
  intro first second
  have hagain : ∀ q, (m.emit q first.2).2 = first.2 := fun q => m.state_emit_again p q a
  have hrules : ∀ q, (m.emit q first.2).1 =
      (m.groups.mapContent (List.map (Group.rule first.2.nameOf))).arrange
        (q.map Header.key) := by
    intro q
    rw [rules_emit_eq_arrange, hagain]
  have hfirst : first.1 = _ := m.rules_emit_eq_arrange p a
  have hgenerate : ∀ (q : List Text) (b : Allocation),
      m.generate q b = ((m.emit q b).1.render, (m.emit q b).2) := fun _ _ => rfl
  refine ⟨rfl, ?_, ?_, ?_⟩
  · rw [hgenerate, hagain]
  · rw [hfirst, hrules q]
    exact ScopeTree.shuffled_arrange _ _ _
  · rw [hgenerate, hgenerate, hagain, hrules, ← hfirst]

end AtomicCss.Model
