import AtomicCss.Proofs.Model.Flatten
set_option autoImplicit false

namespace AtomicCss

namespace Model

/-- The scope stands inside at-rules with these header keys, outermost first. -/
inductive Encloses (m : Model) : List Text → ScopeId → Prop where
  | root : Encloses m [] rootScope
  | child {keys : List Text} {p i : ScopeId} {scope : Scope} : Encloses m keys p →
      m.scopes[i]? = some scope → scope.parent = some p →
      Encloses m (keys ++ [Header.key scope.header]) i

theorem scopeAt?_congr {m : Model} {path other : List Text}
    (h : path.map Header.key = other.map Header.key) : m.scopeAt? path = m.scopeAt? other := by
  have hkeys : ∀ p : List Text, m.scopeAt? p =
      (p.map Header.key).foldlM (fun s key => m.scopeIndex.get? (s, key)) rootScope := by
    intro p
    rw [scopeAt?, List.foldlM_map]
  rw [hkeys, hkeys, h]

theorem scopeAt?_concat (m : Model) (path : List Text) (header : Text) :
    m.scopeAt? (path ++ [header]) =
      (m.scopeAt? path).bind fun s => m.scopeIndex.get? (s, Header.key header) := by
  rw [scopeAt?, List.foldlM_append]
  simp only [List.foldlM_cons, List.foldlM_nil, bind_pure]
  rfl

namespace WellFormed

variable {m : Model} (h : m.WellFormed)
include h

theorem encloses_of_scopeAt? {path : List Text} {s : ScopeId} (hs : m.scopeAt? path = some s) :
    m.Encloses (path.map Header.key) s := by
  induction path using List.reverseRecOn generalizing s with
  | nil =>
    cases hs
    exact .root
  | append_singleton path header ih =>
    rw [scopeAt?_concat] at hs
    obtain ⟨p, hp, hs⟩ := Option.bind_eq_some_iff.1 hs
    obtain ⟨scope, hscope, hparent, hkey⟩ := (h.scopeIndex _ _ _).1 hs
    rw [List.map_append, List.map_singleton, ← hkey]
    exact .child (ih hp) hscope hparent

theorem exists_path_of_encloses {keys : List Text} {s : ScopeId} (hs : m.Encloses keys s) :
    ∃ path, path.map Header.key = keys ∧ m.scopeAt? path = some s := by
  induction hs with
  | root => exact ⟨[], rfl, rfl⟩
  | @child keys p i scope _ hscope hparent ih =>
    obtain ⟨path, hkeys, hp⟩ := ih
    have hindex := (h.scopeIndex p _ i).2 ⟨scope, hscope, hparent, rfl⟩
    refine ⟨path ++ [scope.header], by simp [hkeys], ?_⟩
    rw [scopeAt?_concat, hp]
    exact hindex

theorem encloses_unique {keys : List Text} {s t : ScopeId} (hs : m.Encloses keys s)
    (ht : m.Encloses keys t) : s = t := by
  obtain ⟨path, rfl, hpath⟩ := h.exists_path_of_encloses hs
  obtain ⟨other, hkeys, hother⟩ := h.exists_path_of_encloses ht
  rw [scopeAt?_congr hkeys, hpath] at hother
  exact Option.some.inj hother

end WellFormed

theorem Grows.encloses {m n : Model} (hg : m.Grows n) (hm : m.WellFormed) (hn : n.WellFormed)
    {keys : List Text} {s : ScopeId} (hs : m.Encloses keys s) : n.Encloses keys s := by
  obtain ⟨path, rfl, hpath⟩ := hm.exists_path_of_encloses hs
  exact hn.encloses_of_scopeAt? (hg.scopeAt? hpath)

/--
Ingestion is flattening: it fails with the first violation of the walk or not at all, the new style
has the records that the steps before it write, and no other style has other records than before.
-/
theorem Reachable.ingest_flattens {m : Model} (hm : m.Reachable) (style : StyleName)
    (nodes : List Node) :
    let walk := Spot.root.walkAll nodes
    let after := (m.ingest style nodes).2
    (m.ingest style nodes).1 =
      (match walk.stop with
        | none => .ok m.names.length
        | some fault => .error ⟨fault, style⟩) ∧
    after.names = m.names ++ [style] ∧
    (∀ keys s, m.Encloses keys s → after.Encloses keys s) ∧
    (∀ spot property value, .declare spot property value ∈ walk.steps →
      ∀ s, after.Encloses (spot.path.map Header.key) s ↔ s = after.scopeAt spot.path) ∧
    after.recordsForName m.names.length =
      (walk.steps.flatMap (Step.writes after m.names.length)).foldl Record.write [] ∧
    ∀ name, name ≠ m.names.length → after.recordsForName name = m.recordsForName name := by
  intro walk after
  have h := hm.wellFormed
  have hafter : after.WellFormed := h.ingest style nodes
  have hgrows : m.Grows after := grows_ingest m style nodes
  refine ⟨congrArg Prod.fst (ingest_eq m style nodes), names_ingest m style nodes,
    fun keys s => hgrows.encloses h hafter, fun spot property value hstep s => ?_,
    h.recordsForName_ingest style nodes (.refl _), fun name hname => ?_⟩
  · have hmet : ∃ t, after.scopeAt? spot.path = some t := by
      have hgrown : ((m.addName style).performAll style m.names.length walk.steps).Grows after := by
        rw [show after = (m.ingest style nodes).2 from rfl, ingest_eq]
        exact .refl _
      exact (Follows.ingest m style nodes).scopeAt? hgrown hstep
    obtain ⟨t, ht⟩ := hmet
    have hencloses := hafter.encloses_of_scopeAt? ht
    rw [scopeAt_eq ht]
    exact ⟨fun hs => hafter.encloses_unique hs hencloses, fun hs => hs ▸ hencloses⟩
  · exact h.recordsForName_ingest_of_ne style nodes hname

theorem Reachable.ingest_flattens_print :
    let m := (Model.empty.ingest ⟨[], ['a']⟩ [.atRule "@media print".toList [.statement []]]).2
    let after := m.ingest ⟨[], ['b']⟩ [
      .rule "&&:hover, :focus".toList [.declaration "top".toList ['0']],
      .atRule "@media  print".toList [
        .rule ":hover, p".toList [.declaration "overflow".toList "auto".toList]],
      .declaration "top".toList ['1']]
    m.Reachable ∧ after.1 = .error ⟨.nonPseudoSelector ['p'], ⟨[], ['b']⟩⟩ ∧
    after.2.recordsForName 1 = [
      ⟨⟨0, 1, ":hover".toList⟩, 2, "top".toList, ['0']⟩,
      ⟨⟨0, 1, ":focus".toList⟩, 1, "top".toList, ['0']⟩,
      ⟨⟨1, 1, ":hover".toList⟩, 1, "overflow-x".toList, "auto".toList⟩,
      ⟨⟨1, 1, ":hover".toList⟩, 1, "overflow-y".toList, "auto".toList⟩] := by
  intro m after
  have hm : m.Reachable := .ingest _ _ .empty
  obtain ⟨hanswer, _, _, _, hrecords, _⟩ := hm.ingest_flattens ⟨[], ['b']⟩ _
  exact ⟨hm, hanswer.trans (by decide +kernel), hrecords.trans (by decide +kernel)⟩

end Model
end AtomicCss
