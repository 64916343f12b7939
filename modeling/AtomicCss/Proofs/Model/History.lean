import AtomicCss.Proofs.Model.Flatten
set_option autoImplicit false

namespace AtomicCss

/-- The at-rule is one of those that meet in the block of this parent and header. -/
def sameBlock (parent : ScopeId) (header : Text) (e : ScopeId × Text) : Bool :=
  e.1 = parent && Header.key e.2 = Header.key header

/-- The at-rule that a step enters, and the scope it stands in when `m` knows the scopes. -/
def Step.entered? (m : Model) : Step → Option (ScopeId × Text)
  | .enter path header => some (m.scopeAt path, header)
  | .declare _ _ _ => none

namespace Model

/-- What at-rules have been met, one after the other, each with the scope it stands in. -/
inductive Meets : Model → List (ScopeId × Text) → Prop where
  | empty : Meets .empty []
  | ingest {m : Model} {met : List (ScopeId × Text)} (style : StyleName) (nodes : List Node) :
      Meets m met → Meets (m.ingest style nodes).2
        (met ++ (Spot.root.walkAll nodes).steps.filterMap
          (Step.entered? (m.ingest style nodes).2))
  | resolveScope {m : Model} {met : List (ScopeId × Text)} {parent : ScopeId} (header : Text) :
      Meets m met → parent < m.scopes.length →
        Meets (m.resolveScope parent header).2 (met ++ [(parent, header)])

theorem Reachable.exists_meets {m : Model} (h : m.Reachable) : ∃ met, m.Meets met := by
  induction h with
  | empty => exact ⟨[], .empty⟩
  | ingest style nodes _ ih =>
    obtain ⟨met, hmet⟩ := ih
    exact ⟨_, .ingest style nodes hmet⟩
  | resolveScope header _ hp ih =>
    obtain ⟨met, hmet⟩ := ih
    exact ⟨_, .resolveScope header hmet hp⟩

/-- The scope is the block of this header inside `parent`. -/
def IsBlock (m : Model) (i parent : ScopeId) (header : Text) : Prop :=
  ∃ s, m.scopes[i]? = some s ∧ s.parent = some parent ∧ s.header = header

/-- The scopes are what was met: blocks in the order in which they were first met. -/
structure Recalls (m : Model) (met : List (ScopeId × Text)) : Prop where
  known : ∀ e ∈ met, ∃ i, m.scopeIndex.get? (e.1, Header.key e.2) = some i
  header : ∀ i p h, m.IsBlock i p h → met.find? (sameBlock p h) = some (p, h)
  order : ∀ i j p q h k, i < j → m.IsBlock i p h → m.IsBlock j q k →
    met.findIdx (sameBlock p h) < met.findIdx (sameBlock q k)

theorem recalls_empty : empty.Recalls [] := by
  have hnone : ∀ i p h, ¬empty.IsBlock i p h := by
    rintro i p h ⟨s, hs, hp, _⟩
    cases i with
    | zero =>
      cases hs
      cases hp
    | succ i => simp [empty] at hs
  exact ⟨fun _ he => absurd he List.not_mem_nil, fun i p h hb => absurd hb (hnone i p h),
    fun i j p q h k _ hb => absurd hb (hnone i p h)⟩

theorem isBlock_resolveScope {m : Model} {parent : ScopeId} {header : Text} {i p : ScopeId}
    {h : Text} (hb : (m.resolveScope parent header).2.IsBlock i p h) :
    m.IsBlock i p h ∧ i < m.scopes.length ∨
      i = m.scopes.length ∧ p = parent ∧ h = header ∧
        m.scopeIndex.get? (parent, Header.key header) = none := by
  obtain ⟨s, hs, hp, hh⟩ := hb
  unfold resolveScope at hs
  cases hk : m.scopeIndex.get? (parent, Header.key header) with
  | some id =>
    rw [hk] at hs
    exact Or.inl ⟨⟨s, hs, hp, hh⟩, (List.getElem?_eq_some_iff.1 hs).1⟩
  | none =>
    rw [hk] at hs
    rw [getElem?_concat] at hs
    split at hs
    next hi =>
      cases hs
      cases hp
      exact Or.inr ⟨hi, rfl, hh.symm, rfl⟩
    next => exact Or.inl ⟨⟨s, hs, hp, hh⟩, (List.getElem?_eq_some_iff.1 hs).1⟩

namespace Recalls

variable {m : Model} {met : List (ScopeId × Text)} (h : m.Recalls met)
include h

theorem of_scopes {n : Model} (hscopes : n.scopes = m.scopes)
    (hindex : n.scopeIndex = m.scopeIndex) : n.Recalls met := by
  have hblock : ∀ {i p k}, n.IsBlock i p k → m.IsBlock i p k := by
    rintro i p k ⟨s, hs, hb⟩
    exact ⟨s, hscopes ▸ hs, hb⟩
  exact ⟨hindex ▸ h.known, fun i p k hb => h.header i p k (hblock hb),
    fun i j p q k l hij hb hc => h.order i j p q k l hij (hblock hb) (hblock hc)⟩

theorem exists_mem {i p : ScopeId} {k : Text} (hb : m.IsBlock i p k) :
    ∃ e ∈ met, sameBlock p k e = true :=
  List.find?_isSome.1 (by rw [h.header i p k hb]; rfl)

theorem not_met {parent : ScopeId} {header : Text}
    (hnew : m.scopeIndex.get? (parent, Header.key header) = none) :
    ∀ e ∈ met, sameBlock parent header e = false := by
  intro e he
  obtain ⟨i, hi⟩ := h.known e he
  refine Bool.eq_false_iff.2 fun hsame => ?_
  obtain ⟨rfl, hkey⟩ : e.1 = parent ∧ Header.key e.2 = Header.key header := by
    simpa [sameBlock] using hsame
  rw [hkey, hnew] at hi
  cases hi

theorem resolveScope (parent : ScopeId) (header : Text) :
    (m.resolveScope parent header).2.Recalls (met ++ [(parent, header)]) := by
  have hself : sameBlock parent header (parent, header) = true := by simp [sameBlock]
  refine ⟨fun e he => ?_, fun i p k hb => ?_, fun i j p q k l hij hb hc => ?_⟩
  · rcases List.mem_append.1 he with he | he
    · obtain ⟨i, hi⟩ := h.known e he
      exact ⟨i, grows_resolveScope m parent header _ _ hi⟩
    · obtain rfl := List.mem_singleton.1 he
      exact ⟨_, get?_resolveScope m parent header⟩
  · rcases isBlock_resolveScope hb with ⟨hb, _⟩ | ⟨_, rfl, rfl, hnew⟩
    · rw [List.find?_append, h.header i p k hb, Option.some_or]
    · have hnone : met.find? (sameBlock p k) = none :=
        List.find?_eq_none.2 fun e he => by simp [h.not_met hnew e he]
      rw [List.find?_append, hnone]
      simp [hself]
  · have hkeep : ∀ {i p k}, m.IsBlock i p k → (met ++ [(parent, header)]).findIdx (sameBlock p k) =
        met.findIdx (sameBlock p k) := fun hb => by
      rw [List.findIdx_append, if_pos (List.findIdx_lt_length.2 (h.exists_mem hb))]
    rcases isBlock_resolveScope hb with ⟨hold, hi⟩ | ⟨hi, _⟩
    · rw [hkeep hold]
      rcases isBlock_resolveScope hc with ⟨hc, _⟩ | ⟨_, rfl, rfl, hnew⟩
      · rw [hkeep hc]
        exact h.order i j p q k l hij hold hc
      · -- what is new comes behind everything that has been met
        have hlast : met.findIdx (sameBlock q l) = met.length :=
          List.findIdx_eq_length.2 (h.not_met hnew)
        rw [List.findIdx_append, hlast, if_neg (Nat.lt_irrefl _)]
        exact Nat.lt_of_lt_of_le (List.findIdx_lt_length.2 (h.exists_mem hold))
          (Nat.le_add_left _ _)
    · have hlt : m.scopes.length < j := hi ▸ hij
      rcases isBlock_resolveScope hc with ⟨_, hj⟩ | ⟨hj, _⟩
      · exact absurd hlt (Nat.not_lt_of_gt hj)
      · exact absurd hj (Nat.ne_of_gt hlt)

theorem declare (style : StyleName) (site : Site) (repeats : Nat) (property value : Text) :
    (m.declare style site repeats property value).Recalls met :=
  declare_induct (p := fun n => n.Recalls met) (h.of_scopes rfl rfl)
    fun n hn _ _ => hn.of_scopes (scopes_insert n _) (scopeIndex_insert n _)

end Recalls

theorem Recalls.performAll {style : StyleName} {name : NameId} {m n : Model}
    {met : List (ScopeId × Text)} (h : m.Recalls met) {steps : List Step}
    (hf : m.Follows style name steps) (hg : (m.performAll style name steps).Grows n) :
    (m.performAll style name steps).Recalls (met ++ steps.filterMap (Step.entered? n)) := by
  induction steps generalizing m met with
  | nil => exact (List.append_nil met).symm ▸ h
  | cons step steps ih =>
    have hlater := (grows_performAll style name m (step :: steps)).trans hg
    cases step with
    | enter path header =>
      obtain ⟨s, hs⟩ : ∃ s, m.scopeAt? path = some s := hf.1
      have hscope : n.scopeAt path = m.scopeAt path := by
        rw [scopeAt_eq (hlater.scopeAt? hs), scopeAt_eq hs]
      have hentered : (Step.enter path header :: steps).filterMap (Step.entered? n) =
          [(m.scopeAt path, header)] ++ steps.filterMap (Step.entered? n) := by
        rw [← hscope]
        rfl
      rw [hentered, ← List.append_assoc]
      exact ih (h.resolveScope (m.scopeAt path) header) hf.2 hg
    | declare spot property value =>
      exact ih (h.declare style (spot.site m name) spot.repeats property value) hf.2 hg

theorem Meets.recalls {m : Model} {met : List (ScopeId × Text)} (h : m.Meets met) :
    m.Recalls met := by
  induction h with
  | empty => exact recalls_empty
  | @ingest m met style nodes _ ih =>
    have hgrows : ((m.addName style).performAll style m.names.length
        (Spot.root.walkAll nodes).steps).Grows (m.ingest style nodes).2 := by
      rw [ingest_eq]
      exact .refl _
    have hrun := Recalls.performAll (m := m.addName style) (ih.of_scopes rfl rfl)
      (Follows.ingest m style nodes) hgrows
    rw [ingest_eq] at hrun ⊢
    exact hrun
  | resolveScope header _ _ ih =>
    exact ih.resolveScope _ header

end Model
end AtomicCss
