import AtomicCss.Proofs.Model.Ingestion
import AtomicCss.Proofs.Model.Rearranged
set_option autoImplicit false

namespace AtomicCss

namespace Model

/-- The scopes of a model with their indexes, which only at-rules change. -/
def skeleton (m : Model) :
    List Scope × OrderedMap (ScopeId × Text) ScopeId × List (List ScopeId) :=
  (m.scopes, m.scopeIndex, m.children)

theorem skeleton_insert (m : Model) (r : Record) : (m.insert r).skeleton = m.skeleton := by
  unfold insert
  split <;> rfl

theorem skeleton_declare (m : Model) (style : StyleName) (site : Site) (repeats : Nat)
    (property value : Text) :
    (m.declare style site repeats property value).skeleton = m.skeleton :=
  declare_induct (p := fun n => n.skeleton = m.skeleton) rfl
    fun n hn _ _ => (skeleton_insert n _).trans hn

section

variable {m n : Model} (h : m.skeleton = n.skeleton)
include h

theorem scopeAt?_skeleton (path : List Text) : m.scopeAt? path = n.scopeAt? path := by
  have hindex : m.scopeIndex = n.scopeIndex := congrArg (·.2.1) h
  rw [scopeAt?, scopeAt?, hindex]

theorem scopeAt_skeleton (path : List Text) : m.scopeAt path = n.scopeAt path := by
  rw [scopeAt, scopeAt, scopeAt?_skeleton h]

theorem skeleton_resolveScope (parent : ScopeId) (header : Text) :
    (m.resolveScope parent header).2.skeleton = (n.resolveScope parent header).2.skeleton := by
  obtain ⟨hscopes, h⟩ := Prod.mk.inj h
  obtain ⟨hindex, hchildren⟩ := Prod.mk.inj h
  unfold resolveScope
  rw [hindex]
  cases n.scopeIndex.get? (parent, Header.key header) with
  | some id => simp [skeleton, hscopes, hindex, hchildren]
  | none => simp [skeleton, hscopes, hchildren]

theorem skeleton_performAll (style other : StyleName) (i j : NameId) (steps : List Step) :
    (m.performAll style i (steps.filter Step.isEnter)).skeleton =
      (n.performAll other j steps).skeleton := by
  induction steps generalizing m n with
  | nil => exact h
  | cons step steps ih =>
    cases step with
    | enter path header =>
      have hnext := skeleton_resolveScope h (m.scopeAt path) header
      conv at hnext => rhs; rw [scopeAt_skeleton h]
      exact ih hnext
    | declare spot property value =>
      exact ih (h.trans (skeleton_declare n other _ _ property value).symm)

theorem skeleton_performAll_congr (style other : StyleName) (i j : NameId) {a b : List Step}
    (henters : a.filter Step.isEnter = b.filter Step.isEnter) :
    (m.performAll style i a).skeleton = (n.performAll other j b).skeleton := by
  have hleft := skeleton_performAll (m := m) rfl style style i i a
  rw [henters] at hleft
  exact hleft.symm.trans (skeleton_performAll h style other i j b)

end

/-- A scope stands inside one sequence of at-rules only. -/
theorem WellFormed.keys_unique {m : Model} (h : m.WellFormed) {keys others : List Text}
    {s : ScopeId} (hs : m.Encloses keys s) (ho : m.Encloses others s) : keys = others := by
  induction hs generalizing others with
  | root =>
    cases ho with
    | root => rfl
    | child _ hscope hparent =>
      rw [show m.scopes[rootScope]? = _ from h.root] at hscope
      cases hscope
      cases hparent
  | child _ hscope hparent ih =>
    cases ho with
    | root =>
      rw [show m.scopes[rootScope]? = _ from h.root] at hscope
      cases hscope
      cases hparent
    | child ho hother hotherParent =>
      rw [hscope] at hother
      cases hother
      rw [hparent] at hotherParent
      cases hotherParent
      rw [ih ho]

end Model

def Longhand.record (m : Model) (name : NameId) (w : Longhand) : Record :=
  ⟨w.spot.site m name, w.spot.repeats, w.property, w.value⟩

theorem Step.flatMap_writes (m : Model) (name : NameId) (steps : List Step) :
    steps.flatMap (Step.writes m name) =
      (steps.flatMap Step.longhands).map (Longhand.record m name) := by
  rw [List.map_flatMap]
  refine List.flatMap_congr fun step _ => ?_
  cases step with
  | enter path header => rfl
  | declare spot property value =>
    rw [writes, longhands, List.map_map]
    rfl

theorem Step.path_of_mem_longhands {steps : List Step} {w : Longhand}
    (h : w ∈ steps.flatMap Step.longhands) : ∃ step ∈ steps, step.path = w.spot.path := by
  obtain ⟨step, hstep, hw⟩ := List.mem_flatMap.1 h
  cases step with
  | enter path header => cases hw
  | declare spot property value =>
    obtain ⟨d, _, rfl⟩ := List.mem_map.1 hw
    exact ⟨_, hstep, rfl⟩

namespace Model

section

variable {m : Model} (h : m.WellFormed) (name : NameId)
include h

theorem WellFormed.key_record_iff {w u : Longhand} (hw : ∃ s, m.scopeAt? w.spot.path = some s)
    (hu : ∃ s, m.scopeAt? u.spot.path = some s) :
    (w.record m name).key = (u.record m name).key ↔ w.key = u.key := by
  obtain ⟨s, hs⟩ := hw
  obtain ⟨t, ht⟩ := hu
  simp only [Longhand.record, Record.key, Longhand.key, Spot.site, Prod.mk.injEq, Site.mk.injEq,
    scopeAt_eq hs, scopeAt_eq ht, true_and, and_assoc]
  refine and_congr_left fun _ => ⟨?_, fun hkeys => ?_⟩
  · rintro rfl
    exact h.keys_unique (h.encloses_of_scopeAt? hs) (h.encloses_of_scopeAt? ht)
  · rw [scopeAt?_congr hkeys, ht] at hs
    exact (Option.some.inj hs).symm

theorem WellFormed.filter_writes {steps : List Step}
    (hknown : ∀ step ∈ steps, ∃ s, m.scopeAt? step.path = some s) {w : Longhand}
    (hw : ∃ s, m.scopeAt? w.spot.path = some s) :
    (steps.flatMap (Step.writes m name)).filter (·.key = (w.record m name).key) =
      (Step.writesTo w.key steps).map fun x => ⟨w.spot.site m name, x.1, w.property, x.2⟩ := by
  have hiff : ∀ u ∈ steps.flatMap Step.longhands,
      (u.record m name).key = (w.record m name).key ↔ u.key = w.key := by
    intro u hu
    obtain ⟨step, hstep, hpath⟩ := Step.path_of_mem_longhands hu
    exact h.key_record_iff name (hpath ▸ hknown step hstep) hw
  rw [Step.flatMap_writes, List.filter_map, Step.writesTo, List.map_map]
  have hfilter : (steps.flatMap Step.longhands).filter
      ((fun r : Record => decide (r.key = (w.record m name).key)) ∘ Longhand.record m name) =
      (steps.flatMap Step.longhands).filter (·.key = w.key) :=
    List.filter_congr fun u hu => by simp [hiff u hu]
  rw [hfilter]
  refine List.map_congr_left fun u hu => ?_
  obtain ⟨hu, hkey⟩ := List.mem_filter.1 hu
  obtain ⟨hsite, hproperty⟩ := Prod.mk.inj ((hiff u hu).2 (of_decide_eq_true hkey))
  exact congrArg₂ (Record.mk · u.spot.repeats · u.value) hsite hproperty

theorem WellFormed.filter_writes_congr {a b : List Step}
    (ha : ∀ step ∈ a, ∃ s, m.scopeAt? step.path = some s)
    (hb : ∀ step ∈ b, ∃ s, m.scopeAt? step.path = some s) (hab : Step.KeepsOrder a b)
    (k : Site × Text) :
    (a.flatMap (Step.writes m name)).filter (·.key = k) =
      (b.flatMap (Step.writes m name)).filter (·.key = k) := by
  have hknown : ∀ step ∈ a ++ b, ∃ s, m.scopeAt? step.path = some s := fun step hstep =>
    (List.mem_append.1 hstep).elim (ha step) (hb step)
  by_cases hkey : ∃ w ∈ (a ++ b).flatMap Step.longhands, (w.record m name).key = k
  · obtain ⟨w, hw, rfl⟩ := hkey
    obtain ⟨step, hstep, hpath⟩ := Step.path_of_mem_longhands hw
    have hscope := hpath ▸ hknown step hstep
    rw [h.filter_writes name ha hscope, h.filter_writes name hb hscope, hab.writes]
  · have hnone : ∀ r ∈ (a ++ b).flatMap (Step.writes m name), r.key ≠ k := by
      rw [Step.flatMap_writes]
      exact List.forall_mem_map.2 fun w hw heq => hkey ⟨w, hw, heq⟩
    rw [List.flatMap_append, List.forall_mem_append] at hnone
    rw [List.filter_eq_nil_iff.2 fun r hr => by simpa using hnone.1 r hr,
      List.filter_eq_nil_iff.2 fun r hr => by simpa using hnone.2 r hr]

end

/-- The same names and scopes, and the same record for each key. -/
structure Alike (m n : Model) : Prop where
  names : m.names = n.names
  skeleton : m.skeleton = n.skeleton
  records : ∀ k, m.records.filter (·.key = k) = n.records.filter (·.key = k)

namespace Alike

variable {m n : Model} (h : m.Alike n)
include h

theorem mem_records {r : Record} : r ∈ m.records ↔ r ∈ n.records := by
  have hiff : ∀ l : List Record, r ∈ l ↔ r ∈ l.filter (·.key = r.key) := by simp
  rw [hiff m.records, hiff n.records, h.records]

theorem mem_recordsInScope (hm : m.WellFormed) (hn : n.WellFormed) (s : ScopeId) (r : Record) :
    r ∈ m.recordsInScope s ↔ r ∈ n.recordsInScope s := by
  rw [hm.mem_recordsInScope, hn.mem_recordsInScope, h.mem_records]

theorem ingest (hm : m.WellFormed) (hn : n.WellFormed) (style : StyleName) {l r : List Node}
    (hlr : Step.KeepsOrder (Spot.root.walkAll l).steps (Spot.root.walkAll r).steps) :
    (m.ingest style l).2.Alike (n.ingest style r).2 := by
  have hname : n.names.length = m.names.length := congrArg List.length h.names.symm
  have hskeleton : (m.ingest style l).2.skeleton = (n.ingest style r).2.skeleton := by
    have hnamed : (m.addName style).skeleton = (n.addName style).skeleton := h.skeleton
    rw [ingest_eq, ingest_eq]
    exact skeleton_performAll_congr hnamed style style _ _ hlr.enters
  have hwrites : Step.writes (n.ingest style r).2 m.names.length =
      Step.writes (m.ingest style l).2 m.names.length := by
    funext step
    cases step with
    | enter path header => rfl
    | declare spot property value =>
      rw [Step.writes, Step.writes, Spot.site, Spot.site, scopeAt_skeleton hskeleton]
  refine ⟨by rw [names_ingest, names_ingest, h.names], hskeleton, fun k => ?_⟩
  have hkeys : ∀ r s : Record, s.key = r.key → decide (s.key = k) = decide (r.key = k) :=
    fun r s hk => by rw [hk]
  rw [hm.records_ingest style l (.refl _), hn.records_ingest style r (.refl _),
    Record.filter_foldl_write hkeys, Record.filter_foldl_write hkeys, h.records, hname, hwrites,
    (hm.ingest style l).filter_writes_congr _ (fun step => exists_scopeAt?_ingest m style)
      (fun step hstep => ?_) hlr]
  rw [scopeAt?_skeleton hskeleton]
  exact exists_scopeAt?_ingest n style hstep

end Alike

end Model
end AtomicCss
