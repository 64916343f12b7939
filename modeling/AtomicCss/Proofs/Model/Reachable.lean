import AtomicCss.Proofs.Model.Walk
set_option autoImplicit false

namespace AtomicCss

namespace Walk

/-- The places of declarations all satisfy `p`. -/
def Declares (p : Spot → Prop) (w : Walk) : Prop :=
  ∀ spot property value, .declare spot property value ∈ w.steps → p spot

theorem Declares.andThen {p : Spot → Prop} {a b : Walk} (ha : a.Declares p) (hb : b.Declares p) :
    (a.andThen b).Declares p := by
  obtain ⟨steps, stop⟩ := a
  intro spot property value h
  cases stop with
  | some fault => exact ha spot property value h
  | none =>
    rcases List.mem_append.1 h with h | h
    · exact ha spot property value h
    · exact hb spot property value h

theorem declares_nil (p : Spot → Prop) (stop : Option NestingFault) : Declares p ⟨[], stop⟩ :=
  fun _ _ _ h => absurd h List.not_mem_nil

end Walk

namespace Spot

mutual

theorem declares_walk {p : Spot → Prop}
    (hpseudo : ∀ spot entry s, p spot → Selector.Pseudo.ofEntry? entry = some s →
      p (spot.withPseudo s))
    (hinside : ∀ spot header, p spot → p (spot.inside header)) (spot : Spot) (h : p spot)
    (node : Node) : (spot.walk node).Declares p := by
  match node with
  | .declaration property value =>
    intro t q v ht
    simp only [walk, List.mem_singleton, Step.declare.injEq] at ht
    rw [ht.1]
    exact h
  | .rule selector children =>
    have hall := fun t ht => declares_walkAll hpseudo hinside t ht children
    rw [walk]
    by_cases hs : spot.suffix.isEmpty
    · rw [if_pos hs]
      induction Selector.entries selector with
      | nil => exact Walk.declares_nil p none
      | cons entry r ih =>
        rw [List.foldr_cons]
        cases he : Selector.Pseudo.ofEntry? entry with
        | none => exact Walk.declares_nil p _
        | some s => exact (hall _ (hpseudo spot entry s h he)).andThen ih
    · rw [if_neg hs]
      exact Walk.declares_nil p _
  | .atRule header children =>
    rw [walk]
    refine Walk.Declares.andThen (fun t q v ht => ?_)
      (declares_walkAll hpseudo hinside _ (hinside spot header h) children)
    simp at ht
  | .statement header => exact Walk.declares_nil p _

theorem declares_walkAll {p : Spot → Prop}
    (hpseudo : ∀ spot entry s, p spot → Selector.Pseudo.ofEntry? entry = some s →
      p (spot.withPseudo s))
    (hinside : ∀ spot header, p spot → p (spot.inside header)) (spot : Spot) (h : p spot)
    (nodes : List Node) : (spot.walkAll nodes).Declares p := by
  match nodes with
  | [] => exact Walk.declares_nil p none
  | node :: r =>
    exact (declares_walk hpseudo hinside spot h node).andThen
      (declares_walkAll hpseudo hinside spot h r)

end

end Spot

theorem Selector.Pseudo.repeats_pos {entry : Text} {s : Selector.Pseudo} {n : Nat}
    (h : Selector.Pseudo.ofEntry? entry = some s) (hn : s.repeats = some n) : 1 ≤ n := by
  unfold Selector.Pseudo.ofEntry? at h
  simp only at h
  split at h
  · cases h
  · cases h
    by_cases hz : (Selector.ampersands 0 [] (Text.trim entry)).1 = 0
    · simp [hz] at hn
    · simp only [hz, if_false, Option.some.injEq] at hn
      omega

theorem Spot.declares_repeats_pos (spot : Spot) (h : 1 ≤ spot.repeats) (nodes : List Node) :
    (spot.walkAll nodes).Declares fun t => 1 ≤ t.repeats := by
  refine declares_walkAll (fun t entry s ht he => ?_) (fun t header ht => ht) spot h nodes
  cases hn : s.repeats with
  | none => simpa [Spot.withPseudo, hn] using ht
  | some n => simpa [Spot.withPseudo, hn] using Selector.Pseudo.repeats_pos he hn

namespace Model

theorem WellFormed.scopeAt_lt {m : Model} (h : m.WellFormed) (path : List Text) :
    m.scopeAt path < m.scopes.length := by
  have key : ∀ (r s : ScopeId), r < m.scopes.length →
      path.foldlM (fun s header => m.scopeIndex.get? (s, Header.key header)) r = some s →
      s < m.scopes.length := by
    induction path with
    | nil =>
      intro r s hr hs
      cases hs
      exact hr
    | cons header path ih =>
      intro r s _ hs
      obtain ⟨t, ht, hs⟩ := Option.bind_eq_some_iff.1 hs
      obtain ⟨u, hu, _⟩ := (h.scopeIndex _ _ _).1 ht
      exact ih t s (List.getElem?_eq_some_iff.1 hu).1 hs
  unfold scopeAt
  cases hs : m.scopeAt? path with
  | none => exact h.scopes_pos
  | some s => exact key rootScope s h.scopes_pos hs

theorem names_declare (m : Model) (style : StyleName) (site : Site) (repeats : Nat)
    (property value : Text) : (m.declare style site repeats property value).names = m.names :=
  declare_induct (p := fun n => n.names = m.names) rfl fun n hn _ _ => (names_insert n _).trans hn

theorem names_perform (style : StyleName) (name : NameId) (m : Model) (step : Step) :
    (m.perform style name step).names = m.names := by
  cases step with
  | enter path header => exact names_resolveScope m _ header
  | declare spot property value => exact names_declare m _ _ _ _ _

theorem names_performAll (style : StyleName) (name : NameId) (m : Model) (steps : List Step) :
    (m.performAll style name steps).names = m.names := by
  induction steps generalizing m with
  | nil => rfl
  | cons step steps ih => exact (ih _).trans (names_perform style name m step)

theorem WellFormed.declare {m : Model} (h : m.WellFormed) (style : StyleName) {site : Site}
    {repeats : Nat} (hs : site.scope < m.scopes.length) (hn : site.name < m.names.length)
    (hr : 1 ≤ repeats) (property value : Text) :
    (m.declare style site repeats property value).WellFormed := by
  refine (declare_induct (p := fun n : Model =>
    n.WellFormed ∧ n.scopes = m.scopes ∧ n.names = m.names)
    ⟨h.warn style site property, rfl, rfl⟩ fun n ⟨hwf, hscopes, hnames⟩ d _ => ?_).1
  refine ⟨hwf.insert ?_ ?_ hr, (scopes_insert n _).trans hscopes, (names_insert n _).trans hnames⟩
  · rw [hscopes]
    exact hs
  · rw [hnames]
    exact hn

theorem WellFormed.perform {m : Model} (h : m.WellFormed) (style : StyleName) {name : NameId}
    (hn : name < m.names.length) {step : Step}
    (hr : ∀ spot property value, step = .declare spot property value → 1 ≤ spot.repeats) :
    (m.perform style name step).WellFormed := by
  cases step with
  | enter path header => exact h.resolveScope (h.scopeAt_lt path) header
  | declare spot property value =>
    exact h.declare style (h.scopeAt_lt _) hn (hr spot property value rfl) _ _

theorem WellFormed.performAll {m : Model} (h : m.WellFormed) (style : StyleName) {name : NameId}
    (hn : name < m.names.length) {steps : List Step}
    (hr : ∀ spot property value, .declare spot property value ∈ steps → 1 ≤ spot.repeats) :
    (m.performAll style name steps).WellFormed := by
  induction steps generalizing m with
  | nil => exact h
  | cons step steps ih =>
    refine ih (h.perform style hn fun spot property value hs => ?_) ?_
      fun spot property value hs => hr spot property value (List.mem_cons_of_mem _ hs)
    · exact hr spot property value (hs ▸ List.mem_cons_self)
    · rw [names_perform]
      exact hn

/-- A new name with its steps, all of them or those before the first violation. -/
theorem ingest_eq (m : Model) (style : StyleName) (nodes : List Node) :
    m.ingest style nodes =
      ((match (Spot.root.walkAll nodes).stop with
        | none => .ok m.names.length
        | some fault => .error ⟨fault, style⟩),
      (m.addName style).performAll style m.names.length (Spot.root.walkAll nodes).steps) := by
  have hstands : (Place.mk style ⟨rootScope, m.names.length, []⟩ 1).Stands .root
      (m.addName style) := ⟨rfl, rfl, rfl⟩
  have hrun := Place.ingestAll_eq_run _ _ _ hstands nodes
  simp only [Model.ingest, hrun, Walk.run]
  cases (Spot.root.walkAll nodes).stop <;> rfl

theorem names_ingest (m : Model) (style : StyleName) (nodes : List Node) :
    (m.ingest style nodes).2.names = m.names ++ [style] := by
  rw [ingest_eq]
  exact names_performAll _ _ _ _

theorem grows_ingest (m : Model) (style : StyleName) (nodes : List Node) :
    m.Grows (m.ingest style nodes).2 := by
  rw [ingest_eq]
  exact grows_performAll style _ (m.addName style) _

theorem WellFormed.ingest {m : Model} (h : m.WellFormed) (style : StyleName) (nodes : List Node) :
    (m.ingest style nodes).2.WellFormed := by
  rw [ingest_eq]
  have hrepeats := Spot.declares_repeats_pos .root (Nat.le_refl 1) nodes
  refine (h.addName style).performAll style ?_ hrepeats
  simp [Model.addName]

/-- Models after any ingestions, successful or not, and look-ups of scopes under known ones. -/
inductive Reachable : Model → Prop where
  | empty : Reachable .empty
  | ingest {m : Model} (style : StyleName) (nodes : List Node) :
      Reachable m → Reachable (m.ingest style nodes).2
  | resolveScope {m : Model} {parent : ScopeId} (header : Text) :
      Reachable m → parent < m.scopes.length → Reachable (m.resolveScope parent header).2

theorem Reachable.wellFormed {m : Model} (h : m.Reachable) : m.WellFormed := by
  induction h with
  | empty => exact wellFormed_empty
  | ingest style nodes _ ih => exact ih.ingest style nodes
  | resolveScope header _ hp ih => exact ih.resolveScope hp header

end Model
end AtomicCss
