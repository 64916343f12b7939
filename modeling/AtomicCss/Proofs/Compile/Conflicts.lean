import AtomicCss.Proofs.Compile.Site
import AtomicCss.Proofs.Model.Alike
import AtomicCss.Proofs.Shorthand.Reports
set_option autoImplicit false

/-!
How many warnings a style is given, and that the order of its declarations does not matter to that.

A name is new when its style is ingested, so nothing has been declared yet at its sites, and every
warning of the ingestion stems from two declarations of the style at one site.
-/

namespace AtomicCss

open Shorthand (ConflictTracker resets)

/-- Where the step stands, when `m` knows the scopes. -/
def Step.site (m : Model) (name : NameId) : Step → Site
  | .enter path _ => ⟨m.scopeAt path, name, []⟩
  | .declare spot _ _ => spot.site m name

/-- What a step declares, at its site. -/
def Step.declared? (m : Model) (name : NameId) : Step → Option (Site × Text)
  | .enter _ _ => none
  | .declare spot property _ => some (spot.site m name, property)

theorem Step.filterMap_declared? (m : Model) (name : NameId) (spot : Spot) (property value : Text)
    (steps : List Step) :
    (Step.declare spot property value :: steps).filterMap (Step.declared? m name) =
      (spot.site m name, property) :: steps.filterMap (Step.declared? m name) := rfl

/-- What a step declares, with the keys of the at-rules around it and the selector of its rule. -/
def Step.placed? : Step → Option ((List Text × Text) × Text)
  | .enter _ _ => none
  | .declare spot property _ => some ((spot.path.map Header.key, spot.suffix), property)

namespace Model

variable {style : StyleName} {name : NameId}

/-- The warnings that each step adds, with the site of the step. -/
def raised (style : StyleName) (name : NameId) (m : Model) : List Step → List (Site × Warning)
  | [] => []
  | step :: steps =>
    let next := m.perform style name step
    (next.warnings.drop m.warnings.length).map (step.site m name, ·) ++ next.raised style name steps

theorem warnings_performAll (m : Model) (steps : List Step) :
    (m.performAll style name steps).warnings =
      m.warnings ++ (m.raised style name steps).map (·.2) := by
  induction steps generalizing m with
  | nil => simp [performAll, raised]
  | cons step steps ih =>
    obtain ⟨added, hadded⟩ : m.warnings <+: (m.perform style name step).warnings :=
      warnings_prefix_perform m step
    have hdrop : (m.perform style name step).warnings.drop m.warnings.length = added := by
      rw [← hadded, List.drop_left]
    calc (m.performAll style name (step :: steps)).warnings
        = (m.perform style name step).warnings ++
            ((m.perform style name step).raised style name steps).map (·.2) := ih _
      _ = m.warnings ++ (m.raised style name (step :: steps)).map (·.2) := by
          rw [raised, hdrop, ← hadded, List.map_append, List.map_map, List.append_assoc]
          simp [Function.comp_def]

theorem raised_eq {m n : Model} {steps : List Step} (hf : m.Follows style name steps)
    (hg : (m.performAll style name steps).Grows n) :
    m.raised style name steps =
      (m.conflicts.reports (steps.filterMap (Step.declared? n name))).map fun x =>
        (x.1, ⟨x.2, style⟩) := by
  induction steps generalizing m with
  | nil => rfl
  | cons step steps ih =>
    have hlater := (grows_performAll style name m (step :: steps)).trans hg
    rw [raised, ih hf.2 hg]
    cases step with
    | enter path header =>
      rw [perform, warnings_resolveScope, conflicts_resolveScope, List.drop_length]
      rfl
    | declare spot property value =>
      have hsite : spot.site n name = spot.site m name := hlater.site_eq hf.1
      rw [perform, warnings_declare, conflicts_declare, List.drop_left, Step.filterMap_declared?,
        hsite, ConflictTracker.reports]
      simp [Step.site, ConflictTracker.record]

section

variable (m : Model) (style : StyleName) (nodes : List Node)

theorem raised_ingest :
    (m.addName style).raised style m.names.length (Spot.root.walkAll nodes).steps =
      (m.conflicts.reports ((Spot.root.walkAll nodes).steps.filterMap
        (Step.declared? (m.ingest style nodes).2 m.names.length))).map fun x =>
          (x.1, ⟨x.2, style⟩) := by
  refine raised_eq (Follows.ingest m style nodes) ?_
  rw [ingest_eq]
  exact .refl _

theorem warnings_ingest_eq_raised :
    (m.ingest style nodes).2.warnings = m.warnings ++
      ((m.addName style).raised style m.names.length (Spot.root.walkAll nodes).steps).map
        (·.2) := by
  rw [ingest_eq]
  exact warnings_performAll _ _

end

theorem declaredAt_perform_of_ne (m : Model) {site : Site} (h : site.name ≠ name) (step : Step) :
    (m.perform style name step).conflicts.declaredAt site = m.conflicts.declaredAt site := by
  cases step with
  | enter path header => rw [perform, conflicts_resolveScope]
  | declare spot property value =>
    rw [perform, conflicts_declare, ConflictTracker.declaredAt_record, if_neg]
    rintro rfl
    exact h rfl

theorem declaredAt_performAll_of_ne (m : Model) {site : Site} (h : site.name ≠ name)
    (steps : List Step) :
    (m.performAll style name steps).conflicts.declaredAt site = m.conflicts.declaredAt site := by
  induction steps generalizing m with
  | nil => rfl
  | cons step steps ih => exact (ih _).trans (declaredAt_perform_of_ne m h step)

theorem Reachable.declaredAt_eq_nil {m : Model} (hm : m.Reachable) {site : Site}
    (h : m.names.length ≤ site.name) : m.conflicts.declaredAt site = [] := by
  induction hm with
  | empty => rfl
  | @ingest m style nodes _ ih =>
    rw [names_ingest, List.length_append, List.length_singleton] at h
    rw [ingest_eq, declaredAt_performAll_of_ne _ (Nat.ne_of_gt h)]
    exact ih (Nat.le_of_lt h)
  | @resolveScope m parent header _ _ ih =>
    rw [names_resolveScope] at h
    rw [conflicts_resolveScope]
    exact ih h

theorem propertiesAt_declared {n : Model} {s : ScopeId} {suffix : Text} {steps : List Step}
    (h : ∀ step ∈ steps, ∃ t, n.scopeAt? step.path = some t) :
    ConflictTracker.propertiesAt ⟨s, name, suffix⟩ (steps.filterMap (Step.declared? n name)) =
      (n.declaredAt s suffix steps).map (·.1) := by
  induction steps with
  | nil => rfl
  | cons step steps ih =>
    have hrest := ih fun t ht => h t (List.mem_cons_of_mem _ ht)
    obtain ⟨t, ht⟩ := h step List.mem_cons_self
    cases step with
    | enter path header => exact hrest
    | declare spot property value =>
      have hscope : n.scopeAt? spot.path = some t := ht
      have hsite : spot.site n name = ⟨t, name, spot.suffix⟩ := by
        rw [Spot.site, scopeAt_eq hscope]
      rw [ConflictTracker.propertiesAt, declaredAt] at hrest
      rw [ConflictTracker.propertiesAt, Step.filterMap_declared?, declaredAt, List.filterMap_cons,
        hsite]
      by_cases hs : t = s ∧ spot.suffix = suffix
      · simp [hscope, hs, hrest]
      · have hne : (⟨t, name, spot.suffix⟩ : Site) ≠ ⟨s, name, suffix⟩ := fun heq =>
          hs ⟨(Site.mk.inj heq).1, (Site.mk.inj heq).2.2⟩
        simp [hscope, hs, hne, hrest]

/-- The scope inside at-rules with these keys. -/
def scopeOf (m : Model) (keys : List Text) : ScopeId :=
  (keys.foldlM (fun s key => m.scopeIndex.get? (s, key)) rootScope).getD rootScope

theorem scopeOf_map_key (m : Model) (path : List Text) :
    m.scopeOf (path.map Header.key) = m.scopeAt path := by
  rw [scopeOf, List.foldlM_map, scopeAt, scopeAt?]

theorem filterMap_declared?_eq (n : Model) (name : NameId) (steps : List Step) :
    steps.filterMap (Step.declared? n name) = (steps.filterMap Step.placed?).map fun d =>
      (⟨n.scopeOf d.1.1, name, d.1.2⟩, d.2) := by
  rw [List.map_filterMap]
  refine List.filterMap_congr fun step _ => ?_
  cases step with
  | enter path header => rfl
  | declare spot property value =>
    simp only [Step.declared?, Step.placed?, Option.map_some, scopeOf_map_key]
    rfl

theorem WellFormed.scopeOf_inj {n : Model} (h : n.WellFormed) {path other : List Text}
    (hp : ∃ s, n.scopeAt? path = some s) (ho : ∃ s, n.scopeAt? other = some s)
    (heq : n.scopeOf (path.map Header.key) = n.scopeOf (other.map Header.key)) :
    path.map Header.key = other.map Header.key := by
  obtain ⟨s, hs⟩ := hp
  obtain ⟨t, ht⟩ := ho
  rw [scopeOf_map_key, scopeOf_map_key, scopeAt_eq hs, scopeAt_eq ht] at heq
  exact h.keys_unique (heq ▸ h.encloses_of_scopeAt? hs) (h.encloses_of_scopeAt? ht)

theorem exists_path_of_placed {steps : List Step} {a : List Text × Text}
    (h : a ∈ (steps.filterMap Step.placed?).map (·.1)) :
    ∃ step ∈ steps, a.1 = step.path.map Header.key := by
  obtain ⟨d, hd, rfl⟩ := List.mem_map.1 h
  obtain ⟨step, hstep, heq⟩ := List.mem_filterMap.1 hd
  cases step with
  | enter path header => cases heq
  | declare spot property value =>
    cases heq
    exact ⟨_, hstep, rfl⟩

theorem Reachable.warnings_ingest {m : Model} (hm : m.Reachable) (style : StyleName)
    (nodes : List Node) :
    (m.ingest style nodes).2.warnings = m.warnings ++
      (ConflictTracker.empty.reports ((Spot.root.walkAll nodes).steps.filterMap Step.placed?)).map
        fun x => ⟨x.2, style⟩ := by
  have hafter := hm.wellFormed.ingest style nodes
  rw [warnings_ingest_eq_raised, raised_ingest, filterMap_declared?_eq]
  generalize hn : (m.ingest style nodes).2 = n at hafter
  generalize hplaced : (Spot.root.walkAll nodes).steps.filterMap Step.placed? = placed
  have hinj : ∀ a ∈ placed.map (·.1), ∀ b ∈ placed.map (·.1),
      (⟨n.scopeOf a.1, m.names.length, a.2⟩ : Site) = ⟨n.scopeOf b.1, m.names.length, b.2⟩ →
        a = b := by
    rintro ⟨keys, suffix⟩ ha ⟨others, _⟩ hb heq
    rw [← hplaced] at ha hb
    obtain ⟨step, hstep, rfl⟩ := exists_path_of_placed ha
    obtain ⟨other, hother, rfl⟩ := exists_path_of_placed hb
    obtain ⟨hscope, _, rfl⟩ := Site.mk.inj heq
    have hmet := exists_scopeAt?_ingest m style hstep
    have hotherMet := exists_scopeAt?_ingest m style hother
    rw [hn] at hmet hotherMet
    rw [hafter.scopeOf_inj hmet hotherMet hscope]
  have hseen : ∀ a ∈ placed.map (·.1),
      m.conflicts.declaredAt ⟨n.scopeOf a.1, m.names.length, a.2⟩ =
        ConflictTracker.empty.declaredAt a :=
    fun a _ => hm.declaredAt_eq_nil (Nat.le_refl _)
  have hreports := ConflictTracker.reports_map
    (f := fun a : List Text × Text => (⟨n.scopeOf a.1, m.names.length, a.2⟩ : Site)) hinj hseen
  rw [hreports, List.map_map, List.map_map]
  rfl

/--
Every warning of an ingestion names a shorthand and a longhand that it resets, and is raised at a
site of the new name. At each scope and suffix a shorthand and one of its longhands are warned about
as often as declarations of the two can be paired, counted as they are written, once for each entry
of a selector list.

So a style that declares the same at the same places, in whatever order, is given the same warnings.
If an ingestion fails, what it declares is what stands before the violation.
-/
theorem Reachable.warnings_counted {m : Model} (hm : m.Reachable) (style : StyleName)
    (nodes : List Node) :
    let steps := (Spot.root.walkAll nodes).steps
    let after := (m.ingest style nodes).2
    let raised := (m.addName style).raised style m.names.length steps
    after.warnings = m.warnings ++ raised.map (·.2) ∧
    (∀ x ∈ raised, x.1.name = m.names.length ∧ x.2.style = style ∧
      resets x.2.conflict.shorthand x.2.conflict.longhand = true) ∧
    (∀ s suffix S L, resets S L = true →
      raised.count (⟨s, m.names.length, suffix⟩, ⟨⟨S, L⟩, style⟩) =
        ((after.declaredAt s suffix steps).map (·.1)).count S *
          ((after.declaredAt s suffix steps).map (·.1)).count L) ∧
    ∀ n : Model, n.Reachable → n.warnings.Perm m.warnings → ∀ others : List Node,
      ((Spot.root.walkAll others).steps.filterMap Step.placed?).Perm
        (steps.filterMap Step.placed?) →
      (n.ingest style others).2.warnings.Perm after.warnings := by
  intro steps after raised
  have hraised : raised = (m.conflicts.reports
      (steps.filterMap (Step.declared? after m.names.length))).map fun x => (x.1, ⟨x.2, style⟩) :=
    raised_ingest m style nodes
  refine ⟨warnings_ingest_eq_raised m style nodes, fun x hx => ?_, fun s suffix S L h => ?_,
    fun n hn hsame others hperm => ?_⟩
  · rw [hraised] at hx
    obtain ⟨y, hy, rfl⟩ := List.mem_map.1 hx
    refine ⟨?_, rfl, ConflictTracker.resets_of_mem_reports hy⟩
    have hplace := ConflictTracker.place_of_mem_reports hy
    rw [filterMap_declared?_eq, List.map_map] at hplace
    obtain ⟨d, _, hd⟩ := List.mem_map.1 hplace
    rw [← hd]
    rfl
  · have hcount := ConflictTracker.count_reports h m.conflicts ⟨s, m.names.length, suffix⟩
      (steps.filterMap (Step.declared? after m.names.length))
    have hmet : ∀ step ∈ steps, ∃ t, after.scopeAt? step.path = some t := fun _ =>
      exists_scopeAt?_ingest m style
    rw [hm.declaredAt_eq_nil (Nat.le_refl _), List.nil_append, propertiesAt_declared hmet] at hcount
    have hinj : Function.Injective fun x : Site × Shorthand.Conflict =>
        (x.1, (⟨x.2, style⟩ : Warning)) := by
      intro x y heq
      obtain ⟨hsite, hwarning⟩ := Prod.mk.inj heq
      exact Prod.ext hsite (Warning.mk.inj hwarning).1
    have hmap := List.count_map_of_injective
      (m.conflicts.reports (steps.filterMap (Step.declared? after m.names.length))) _ hinj
      (⟨s, m.names.length, suffix⟩, ⟨S, L⟩)
    rw [hraised, ← hcount]
    simpa using hmap
  · rw [hn.warnings_ingest style others, hm.warnings_ingest style nodes]
    exact hsame.append ((ConflictTracker.reports_perm _ hperm).map _)

theorem Reachable.warnings_counted_flex :
    let declare (d : String × String) : Node := .declaration d.1.toList d.2.toList
    let nodes := [declare ("flex", "1"), .rule ":hover, :focus".toList [declare ("flex-grow", "2"),
      declare ("flex", "1")], declare ("flex-grow", "2"), declare ("flex", "none")]
    let others := [.rule ":focus,:hover".toList [declare ("flex", "1"), declare ("flex-grow", "2")],
      declare ("flex-grow", "2"), declare ("flex", "none"), declare ("flex", "1")]
    (Model.empty.ingest ⟨[], ['a']⟩ others).2.warnings.Perm
      (Model.empty.ingest ⟨[], ['a']⟩ nodes).2.warnings ∧
    ((Model.empty.addName ⟨[], ['a']⟩).raised ⟨[], ['a']⟩ 0
      (Spot.root.walkAll nodes).steps).count (⟨rootScope, 0, []⟩,
        ⟨⟨"flex".toList, "flex-grow".toList⟩, ⟨[], ['a']⟩⟩) = 2 := by
  intro declare nodes others
  obtain ⟨_, _, hcount, hperm⟩ := Reachable.empty.warnings_counted ⟨[], ['a']⟩ nodes
  exact ⟨hperm .empty .empty (.refl _) others (by decide +kernel),
    (hcount rootScope [] _ _ (by decide +kernel)).trans (by decide +kernel)⟩

end Model
end AtomicCss
