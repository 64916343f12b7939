import AtomicCss.Proofs.Model.Flatten
set_option autoImplicit false

namespace AtomicCss

/-- One of the two properties resets the other. -/
def Shorthand.Clash (p q : Text) : Prop := resets p q = true ∨ resets q p = true

theorem Shorthand.exists_mem_conflictsWith {seen : List Text} {p q : Text} (hp : p ∈ seen)
    (h : Clash p q) : ∃ c, c ∈ conflictsWith seen q := by
  rcases h with h | h
  · exact ⟨⟨p, q⟩, List.mem_append_right _
      (List.mem_map.2 ⟨p, List.mem_filter.2 ⟨hp, h⟩, rfl⟩)⟩
  · exact ⟨⟨q, p⟩, List.mem_append_left _
      (List.mem_map.2 ⟨p, List.mem_filter.2 ⟨hp, h⟩, rfl⟩)⟩

namespace Model

variable {style : StyleName} {name : NameId}

@[simp] theorem conflicts_insert (m : Model) (r : Record) :
    (m.insert r).conflicts = m.conflicts := by
  unfold insert
  split <;> rfl

@[simp] theorem warnings_insert (m : Model) (r : Record) : (m.insert r).warnings = m.warnings := by
  unfold insert
  split <;> rfl

theorem conflicts_declare (m : Model) (site : Site) (repeats : Nat) (property value : Text) :
    (m.declare style site repeats property value).conflicts =
      (m.conflicts.record site property).2 :=
  declare_induct (p := fun n => n.conflicts = _) rfl fun n hn _ _ =>
    (conflicts_insert n _).trans hn

theorem warnings_declare (m : Model) (site : Site) (repeats : Nat) (property value : Text) :
    (m.declare style site repeats property value).warnings =
      m.warnings ++ (m.conflicts.record site property).1.map (⟨·, style⟩) :=
  declare_induct (p := fun n => n.warnings = _) rfl fun n hn _ _ =>
    (warnings_insert n _).trans hn

theorem conflicts_resolveScope (m : Model) (parent : ScopeId) (header : Text) :
    (m.resolveScope parent header).2.conflicts = m.conflicts := by
  unfold resolveScope
  split <;> rfl

theorem warnings_resolveScope (m : Model) (parent : ScopeId) (header : Text) :
    (m.resolveScope parent header).2.warnings = m.warnings := by
  unfold resolveScope
  split <;> rfl

theorem warnings_prefix_perform (m : Model) (step : Step) :
    m.warnings <+: (m.perform style name step).warnings := by
  cases step with
  | enter path header =>
    have hkeep := warnings_resolveScope m (m.scopeAt path) header
    exact hkeep ▸ List.prefix_refl _
  | declare spot property value =>
    rw [perform, warnings_declare]
    exact List.prefix_append _ _

theorem warnings_prefix_performAll (m : Model) (steps : List Step) :
    m.warnings <+: (m.performAll style name steps).warnings := by
  induction steps generalizing m with
  | nil => exact List.prefix_refl _
  | cons step steps ih => exact (warnings_prefix_perform m step).trans (ih _)

theorem mem_declaredAt_perform {m : Model} {site : Site} {p : Text}
    (h : p ∈ m.conflicts.declaredAt site) (step : Step) :
    p ∈ (m.perform style name step).conflicts.declaredAt site := by
  cases step with
  | enter path header =>
    rw [perform, conflicts_resolveScope]
    exact h
  | declare spot property value =>
    rw [perform, conflicts_declare, Shorthand.ConflictTracker.declaredAt_record]
    split
    next heq =>
      rw [heq]
      exact List.mem_append_left _ h
    next => exact h

theorem mem_declaredAt_performAll {m : Model} {site : Site} {p : Text}
    (h : p ∈ m.conflicts.declaredAt site) (steps : List Step) :
    p ∈ (m.performAll style name steps).conflicts.declaredAt site := by
  induction steps generalizing m with
  | nil => exact h
  | cons step steps ih => exact ih (mem_declaredAt_perform h step)

theorem mem_declaredAt_declare (style : StyleName) (name : NameId) (m : Model) (spot : Spot)
    (property value : Text) :
    property ∈ (m.perform style name (.declare spot property value)).conflicts.declaredAt
      (spot.site m name) := by
  rw [perform, conflicts_declare, Shorthand.ConflictTracker.declaredAt_record, if_pos rfl]
  simp

theorem exists_warning_perform {m : Model} {spot : Spot} {p q : Text}
    (hp : p ∈ m.conflicts.declaredAt (spot.site m name)) (h : Shorthand.Clash p q) (value : Text) :
    ∃ w ∈ (m.perform style name (.declare spot q value)).warnings, w.style = style := by
  obtain ⟨c, hc⟩ := Shorthand.exists_mem_conflictsWith hp h
  refine ⟨⟨c, style⟩, ?_, rfl⟩
  rw [perform, warnings_declare]
  exact List.mem_append_right _ (List.mem_map.2 ⟨c, hc, rfl⟩)

theorem exists_warning_of_seen {m n : Model} {before after : List Step} {spot : Spot} {p q v : Text}
    (hf : m.Follows style name (before ++ .declare spot q v :: after))
    (hg : (m.performAll style name (before ++ .declare spot q v :: after)).Grows n)
    (hp : p ∈ m.conflicts.declaredAt (spot.site n name)) (h : Shorthand.Clash p q) :
    ∃ w ∈ (m.performAll style name (before ++ .declare spot q v :: after)).warnings,
      w.style = style := by
  obtain ⟨_, hs, _⟩ := follows_append.1 hf
  rw [performAll_append] at hg ⊢
  have hlater := (grows_performAll style name _ (.declare spot q v :: after)).trans hg
  rw [hlater.site_eq hs] at hp
  obtain ⟨w, hw, hstyle⟩ := exists_warning_perform (mem_declaredAt_performAll hp before) h v
  exact ⟨w, (warnings_prefix_performAll _ after).subset hw, hstyle⟩

theorem exists_warning_performAll {m n : Model} {before mid after : List Step} {a b : Spot}
    {p q v w : Text} {steps : List Step}
    (hsteps : steps = before ++ .declare a p v :: (mid ++ .declare b q w :: after))
    (hf : m.Follows style name steps) (hg : (m.performAll style name steps).Grows n)
    (hsite : a.site n name = b.site n name) (h : Shorthand.Clash p q) :
    ∃ x ∈ (m.performAll style name steps).warnings, x.style = style := by
  subst hsteps
  obtain ⟨_, hs, hrest⟩ := follows_append.1 hf
  rw [performAll_append] at hg ⊢
  have hlater := (grows_performAll style name (m.performAll style name before)
    (.declare a p v :: (mid ++ .declare b q w :: after))).trans hg
  have hseen := mem_declaredAt_declare style name (m.performAll style name before) a p v
  rw [← hlater.site_eq hs, hsite] at hseen
  exact exists_warning_of_seen hrest hg hseen h

end Model
end AtomicCss
