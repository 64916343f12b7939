import AtomicCss.Proofs.Compile.Model
import AtomicCss.Proofs.Shorthand.Sets
set_option autoImplicit false

namespace AtomicCss

/-- What a style declares at a scope and suffix, in source order, when `m` knows the scopes. -/
def Model.declaredAt (m : Model) (s : ScopeId) (suffix : Text) (steps : List Step) :
    List (Text × Text) :=
  steps.filterMap fun
    | .enter _ _ => none
    | .declare spot property value =>
      if m.scopeAt? spot.path = some s ∧ spot.suffix = suffix then some (property, value) else none

/-- What the declarations write, shorthands taken apart. -/
def writtenBy (declared : List (Text × Text)) : List (Text × Text) :=
  declared.flatMap fun d => Shorthand.expansion d.1 d.2

theorem mem_writtenBy {declared : List (Text × Text)} {w : Text × Text} :
    w ∈ writtenBy declared ↔ ∃ d ∈ declared, w ∈ Shorthand.expansion d.1 d.2 := List.mem_flatMap

theorem writtenBy_append_cons (first after : List (Text × Text)) (last : Text × Text) :
    writtenBy (first ++ last :: after) =
      writtenBy first ++ (Shorthand.expansion last.1 last.2 ++ writtenBy after) := by
  simp [writtenBy]

theorem Model.mem_declaredAt {m : Model} {s : ScopeId} {suffix : Text} {steps : List Step}
    {d : Text × Text} :
    d ∈ m.declaredAt s suffix steps ↔ ∃ spot, .declare spot d.1 d.2 ∈ steps ∧
      m.scopeAt? spot.path = some s ∧ spot.suffix = suffix := by
  rw [declaredAt, List.mem_filterMap]
  constructor
  · rintro ⟨step, hstep, heq⟩
    cases step with
    | enter path header => cases heq
    | declare spot property value =>
      dsimp only at heq
      split at heq
      next hs =>
        cases heq
        exact ⟨spot, hstep, hs⟩
      next => cases heq
  · rintro ⟨spot, hstep, hs⟩
    exact ⟨_, hstep, if_pos hs⟩

theorem writtenBy_declaredAt {m : Model} (name : NameId) {s : ScopeId} {suffix : Text}
    {steps : List Step} (h : ∀ step ∈ steps, ∃ t, m.scopeAt? step.path = some t) :
    writtenBy (m.declaredAt s suffix steps) =
      ((steps.flatMap (Step.writes m name)).filter (·.site = ⟨s, name, suffix⟩)).map fun r =>
        (r.property, r.value) := by
  induction steps with
  | nil => rfl
  | cons step steps ih =>
    have hrest := ih fun t ht => h t (List.mem_cons_of_mem _ ht)
    obtain ⟨t, ht⟩ := h step List.mem_cons_self
    rw [writtenBy] at hrest
    rw [List.flatMap_cons, List.filter_append, List.map_append, ← hrest, writtenBy,
      Model.declaredAt, List.filterMap_cons]
    cases step with
    | enter path header => rfl
    | declare spot property value =>
      have hscope : m.scopeAt? spot.path = some t := ht
      by_cases hs : t = s ∧ spot.suffix = suffix
      · obtain ⟨rfl, rfl⟩ := hs
        simp [Step.writes, Spot.site, Model.scopeAt, hscope, Model.declaredAt, List.filter_map,
          Function.comp_def]
      · have hsite : ¬(t = s ∧ spot.suffix = suffix) := hs
        simp [Step.writes, Spot.site, Model.scopeAt, hscope, hsite, Model.declaredAt,
          List.filter_map, Function.comp_def]

theorem exists_split_of_ne {α : Type} {a b : α} {l : List α} (ha : a ∈ l) (hb : b ∈ l)
    (hne : a ≠ b) :
    (∃ x y z, l = x ++ a :: (y ++ b :: z)) ∨ ∃ x y z, l = x ++ b :: (y ++ a :: z) := by
  obtain ⟨x, y, rfl⟩ := List.append_of_mem ha
  rcases List.mem_append.1 hb with hb | hb
  · obtain ⟨u, v, rfl⟩ := List.append_of_mem hb
    exact Or.inr ⟨u, v, y, by simp⟩
  · obtain ⟨u, v, rfl⟩ := List.append_of_mem ((List.mem_cons.1 hb).resolve_left hne.symm)
    exact Or.inl ⟨x, u, v, rfl⟩

namespace Description.Holds

variable {m before : Model} {i : NameId} {style : StyleName × Text} {nodes : List Node}
  (h : Holds m i style nodes before) {s : ScopeId} {suffix : Text}
include h

theorem grows_performAll :
    ((before.addName style.1).performAll style.1 i (Spot.root.walkAll nodes).steps).Grows m := by
  have hg := h.extends_ingest.grows
  rw [Model.ingest_eq, h.number] at hg
  exact hg

theorem follows : (before.addName style.1).Follows style.1 i (Spot.root.walkAll nodes).steps := by
  have hf := Model.Follows.ingest before style.1 nodes
  rw [h.number] at hf
  exact hf

theorem scopeAt? {step : Step} (hs : step ∈ (Spot.root.walkAll nodes).steps) :
    ∃ t, m.scopeAt? step.path = some t :=
  h.follows.scopeAt? h.grows_performAll hs

theorem recordsForName_eq : m.recordsForName i =
    ((Spot.root.walkAll nodes).steps.flatMap (Step.writes m i)).foldl Record.write [] := by
  have hlt : i < (before.ingest style.1 nodes).2.names.length := by
    rw [Model.names_ingest, ← h.number]
    simp
  have hown := h.reachable.wellFormed.recordsForName_ingest style.1 nodes h.extends_ingest.grows
  rw [h.number] at hown
  rw [h.extends_ingest.records i hlt, hown]

theorem filter_recordsForName : (m.recordsForName i).filter (·.site = ⟨s, i, suffix⟩) =
    (((Spot.root.walkAll nodes).steps.flatMap (Step.writes m i)).filter
      (·.site = ⟨s, i, suffix⟩)).foldl Record.write [] := by
  rw [h.recordsForName_eq, Record.filter_foldl_write fun r t hk => by rw [(Prod.mk.inj hk).1]]
  rfl

theorem mem_writtenBy {r : Record} (hr : r ∈ m.recordsForName i)
    (hsite : r.site = ⟨s, i, suffix⟩) :
    (r.property, r.value) ∈
      writtenBy (m.declaredAt s suffix (Spot.root.walkAll nodes).steps) := by
  rw [writtenBy_declaredAt i fun step => h.scopeAt?]
  have hmem : r ∈ (m.recordsForName i).filter (·.site = ⟨s, i, suffix⟩) :=
    List.mem_filter.2 ⟨hr, by simpa using hsite⟩
  rw [h.filter_recordsForName, Record.mem_foldl_write_nil] at hmem
  obtain ⟨u, v, heq, _⟩ := hmem
  rw [heq]
  exact List.mem_map.2 ⟨r, by simp, rfl⟩

theorem exists_record {u v : List (Text × Text)} {p x : Text}
    (heq : writtenBy (m.declaredAt s suffix (Spot.root.walkAll nodes).steps) = u ++ (p, x) :: v)
    (hv : p ∉ v.map (·.1)) :
    ∃ r ∈ m.recordsForName i, r.site = ⟨s, i, suffix⟩ ∧ r.property = p ∧ r.value = x := by
  rw [writtenBy_declaredAt i fun step => h.scopeAt?] at heq
  obtain ⟨w, t, hsplit, _, ht⟩ := List.map_eq_append_iff.1 heq
  obtain ⟨r, z, rfl, hr, hz⟩ := List.map_eq_cons_iff.1 ht
  cases hr
  have hsite : r.site = ⟨s, i, suffix⟩ := by
    have hmem := List.mem_append_right w (List.mem_cons_self (a := r) (l := z))
    rw [← hsplit] at hmem
    simpa using (List.mem_filter.1 hmem).2
  have hmem : r ∈ (m.recordsForName i).filter (·.site = ⟨s, i, suffix⟩) := by
    rw [h.filter_recordsForName, Record.mem_foldl_write_nil]
    refine ⟨w, z, hsplit, fun y hy hk => hv ?_⟩
    rw [← hz, ← (Prod.mk.inj hk).2]
    exact List.mem_map.2 ⟨_, List.mem_map_of_mem hy, rfl⟩
  exact ⟨r, (List.mem_filter.1 hmem).1, hsite, rfl, rfl⟩

theorem exists_warning {a b : Text × Text}
    (ha : a ∈ m.declaredAt s suffix (Spot.root.walkAll nodes).steps)
    (hb : b ∈ m.declaredAt s suffix (Spot.root.walkAll nodes).steps)
    (hclash : Shorthand.Clash a.1 b.1) : ∃ w ∈ m.warnings, w.style = style.1 := by
  have hwarned : ∀ w ∈ ((before.addName style.1).performAll style.1 i
      (Spot.root.walkAll nodes).steps).warnings, w ∈ m.warnings := by
    intro w hw
    have hkeeps := h.extends_ingest.warnings
    rw [Model.ingest_eq, h.number] at hkeeps
    exact hkeeps.subset hw
  obtain ⟨p, hp, hps, hpsuffix⟩ := Model.mem_declaredAt.1 ha
  obtain ⟨q, hq, hqs, hqsuffix⟩ := Model.mem_declaredAt.1 hb
  have hsite : p.site m i = q.site m i := by
    rw [Spot.site, Spot.site, Model.scopeAt_eq hps, Model.scopeAt_eq hqs, hpsuffix, hqsuffix]
  have hne : Step.declare p a.1 a.2 ≠ .declare q b.1 b.2 := by
    intro heq
    rw [(Step.declare.inj heq).2.1] at hclash
    rcases hclash with hclash | hclash <;> simp [Shorthand.resets_self] at hclash
  rcases exists_split_of_ne hp hq hne with ⟨x, y, z, heq⟩ | ⟨x, y, z, heq⟩
  · obtain ⟨w, hw, hstyle⟩ := Model.exists_warning_performAll heq h.follows h.grows_performAll
      hsite hclash
    exact ⟨w, hwarned w hw, hstyle⟩
  · obtain ⟨w, hw, hstyle⟩ := Model.exists_warning_performAll heq h.follows h.grows_performAll
      hsite.symm hclash.symm
    exact ⟨w, hwarned w hw, hstyle⟩

end Description.Holds
end AtomicCss
