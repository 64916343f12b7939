import AtomicCss.Proofs.Model.Reachable
import AtomicCss.Proofs.Shorthand.Sets
import AtomicCss.Proofs.Style.Spelling
set_option autoImplicit false

namespace AtomicCss

open Node (marksAll)

namespace Selector

/-- What follows the class in a selector. -/
def IsSuffix (t : Text) : Prop := t = [] ∨ isChain t = true

theorem Pseudo.isSuffix {entry : Text} {s : Pseudo} (h : Pseudo.ofEntry? entry = some s) :
    IsSuffix s.suffix := by
  unfold Pseudo.ofEntry? at h
  dsimp only at h
  split at h
  · cases h
  next hchain =>
    cases h
    simp only [Bool.or_eq_true, not_or] at hchain
    exact Or.inr (by simpa using hchain.2)

end Selector

theorem Spot.declares_isSuffix (nodes : List Node) :
    (Spot.root.walkAll nodes).Declares fun t => Selector.IsSuffix t.suffix :=
  declares_walkAll (fun _ _ _ _ h => Selector.Pseudo.isSuffix h) (fun _ _ h => h) .root
    (Or.inl rfl) nodes

def Step.mark : Step → Mark
  | .enter _ header => .opening true header
  | .declare _ property value => .leaf (.declaration property value)

theorem Walk.mem_andThen {a b : Walk} {step : Step} (h : step ∈ (a.andThen b).steps) :
    step ∈ a.steps ∨ step ∈ b.steps := by
  unfold andThen at h
  split at h
  · exact List.mem_append.1 h
  · exact Or.inl h

namespace Spot

mutual

theorem mark_mem_of_walk (spot : Spot) (node : Node) {step : Step}
    (h : step ∈ (spot.walk node).steps) : step.mark ∈ node.marks := by
  match node with
  | .declaration property value =>
    rw [walk, List.mem_singleton] at h
    subst h
    exact List.mem_singleton.2 rfl
  | .rule selector children =>
    have hall := fun t (ht : step ∈ (walkAll t children).steps) =>
      mark_mem_of_walkAll t children ht
    have hchildren : step.mark ∈ marksAll children := by
      rw [walk] at h
      split at h
      · generalize Selector.entries selector = entries at h
        induction entries with
        | nil => cases h
        | cons entry r ih =>
          rw [List.foldr_cons] at h
          split at h
          · cases h
          · exact (Walk.mem_andThen h).elim (hall _) ih
      · cases h
    exact List.mem_cons_of_mem _ (List.mem_append_left _ hchildren)
  | .atRule header children =>
    rw [walk] at h
    rcases Walk.mem_andThen h with h | h
    · rw [List.mem_singleton.1 h]
      exact List.mem_cons_self
    · have hchildren := mark_mem_of_walkAll _ children h
      exact List.mem_cons_of_mem _ (List.mem_append_left _ hchildren)
  | .statement header => cases h

theorem mark_mem_of_walkAll (spot : Spot) (nodes : List Node) {step : Step}
    (h : step ∈ (spot.walkAll nodes).steps) : step.mark ∈ marksAll nodes := by
  match nodes with
  | [] => cases h
  | node :: r =>
    rw [walkAll] at h
    rcases Walk.mem_andThen h with h | h
    · exact List.mem_append_left _ (mark_mem_of_walk spot node h)
    · exact List.mem_append_right _ (mark_mem_of_walkAll spot r h)

end

end Spot

namespace Shorthand

theorem isProperty_shorthand {e : Entry} (h : e ∈ expandable) : IsProperty e.shorthand := by
  revert e
  decide +kernel

theorem isProperty_longhand {e : Entry} (h : e ∈ expandable) {l : Text} (hl : l ∈ e.longhands) :
    IsProperty l := by
  revert l e
  decide +kernel

theorem isProperty_expansion {p v : Text} (hp : IsProperty p) {d : Text × Text}
    (hd : d ∈ expansion p v) : IsProperty d.1 := by
  rcases expansion_cases p v with hkeep | ⟨e, he, _, hkeys⟩
  · rw [hkeep, List.mem_singleton] at hd
    rw [hd]
    exact hp
  · exact isProperty_longhand he (hkeys ▸ List.mem_map.2 ⟨d, hd, rfl⟩)

end Shorthand

structure Record.Spelled (r : Record) : Prop where
  property : IsProperty r.property
  suffix : Selector.IsSuffix r.site.suffix

namespace Model

structure Spelled (m : Model) : Prop where
  records : ∀ r ∈ m.records, r.Spelled
  headers : ∀ scope ∈ m.scopes, ∀ p, scope.parent = some p → IsHeader scope.header

theorem spelled_empty : empty.Spelled where
  records r hr := by cases hr
  headers scope hscope p hp := by
    rw [List.mem_singleton.1 hscope] at hp
    cases hp

variable {m : Model}

theorem mem_records_insert {r s : Record} (h : s ∈ (m.insert r).records) :
    s ∈ m.records ∨ s = r := by
  unfold insert at h
  split at h
  · obtain ⟨i, hi⟩ := List.mem_iff_getElem?.1 h
    rw [List.getElem?_modify] at hi
    obtain ⟨old, hold, hi⟩ := Option.map_eq_some_iff.1 hi
    split at hi
    · exact Or.inr hi.symm
    · exact Or.inl (hi ▸ List.mem_of_getElem? hold)
  · simpa using h

theorem Spelled.insert (h : m.Spelled) {r : Record} (hr : r.Spelled) : (m.insert r).Spelled where
  records s hs := (mem_records_insert hs).elim (h.records s) fun heq => heq ▸ hr
  headers := by
    rw [scopes_insert]
    exact h.headers

theorem Spelled.declare (h : m.Spelled) (style : StyleName) {site : Site} (repeats : Nat)
    {property : Text} (value : Text) (hsuffix : Selector.IsSuffix site.suffix)
    (hproperty : IsProperty property) :
    (m.declare style site repeats property value).Spelled :=
  declare_induct (p := Spelled) ⟨h.records, h.headers⟩ fun _ hn _ hd =>
    hn.insert ⟨Shorthand.isProperty_expansion hproperty hd, hsuffix⟩

theorem Spelled.resolveScope (h : m.Spelled) (parent : ScopeId) {header : Text}
    (hheader : IsHeader header) : (m.resolveScope parent header).2.Spelled := by
  unfold Model.resolveScope
  split
  · exact h
  · refine ⟨h.records, fun scope hscope p hp => ?_⟩
    rcases List.mem_append.1 hscope with hscope | hscope
    · exact h.headers scope hscope p hp
    · rw [List.mem_singleton.1 hscope]
      exact hheader

theorem Spelled.perform (h : m.Spelled) (style : StyleName) (name : NameId) {step : Step}
    (hmark : step.mark.Spelled IsProperty)
    (hsuffix : ∀ spot property value, step = .declare spot property value →
      Selector.IsSuffix spot.suffix) : (m.perform style name step).Spelled := by
  cases step with
  | enter path header => exact h.resolveScope _ hmark
  | declare spot property value =>
    exact h.declare style spot.repeats value (hsuffix spot property value rfl) hmark

theorem Spelled.performAll (h : m.Spelled) (style : StyleName) (name : NameId) {steps : List Step}
    (hmarks : ∀ step ∈ steps, step.mark.Spelled IsProperty)
    (hsuffix : ∀ spot property value, .declare spot property value ∈ steps →
      Selector.IsSuffix spot.suffix) : (m.performAll style name steps).Spelled := by
  induction steps generalizing m with
  | nil => exact h
  | cons step steps ih =>
    refine ih (h.perform style name (hmarks step List.mem_cons_self) ?_)
      (fun s hs => hmarks s (List.mem_cons_of_mem _ hs))
      fun spot property value hs => hsuffix spot property value (List.mem_cons_of_mem _ hs)
    exact fun spot property value hs => hsuffix spot property value (hs ▸ List.mem_cons_self)

theorem Spelled.ingest (h : m.Spelled) (style : StyleName) {text : Text} {nodes : List Node}
    (hparse : parse text = .ok nodes) : (m.ingest style nodes).2.Spelled := by
  have hadd : (m.addName style).Spelled := ⟨h.records, h.headers⟩
  rw [ingest_eq]
  refine hadd.performAll style _ (fun step hstep => ?_) (Spot.declares_isSuffix nodes)
  exact spelled_of_parse hparse _ (Spot.mark_mem_of_walkAll .root nodes hstep)

end Model
end AtomicCss
