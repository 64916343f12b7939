import AtomicCss.Proofs.Model.Alike
import Mathlib.Order.Monotone.Basic
set_option autoImplicit false

namespace AtomicCss

namespace Record

def renumber (p : NameId → NameId) (r : Record) : Record :=
  { r with site := { r.site with name := p r.site.name } }

variable {p : NameId → NameId} (hp : Function.Injective p)
include hp

theorem key_renumber_iff {r t : Record} :
    (r.renumber p).key = (t.renumber p).key ↔ r.key = t.key := by
  obtain ⟨⟨_, _, _⟩, _, _, _⟩ := r
  obtain ⟨⟨_, _, _⟩, _, _, _⟩ := t
  simp [key, renumber, hp.eq_iff]

theorem write_renumber (l : List Record) (r : Record) :
    write (l.map (renumber p)) (r.renumber p) = (write l r).map (renumber p) := by
  induction l with
  | nil => rfl
  | cons s l ih =>
    rw [List.map_cons, write, write, ih]
    by_cases hs : s.key = r.key
    · rw [if_pos hs, if_pos ((key_renumber_iff hp).2 hs), List.map_cons]
    · rw [if_neg hs, if_neg fun heq => hs ((key_renumber_iff hp).1 heq), List.map_cons]

theorem foldl_write_renumber (ws l : List Record) :
    (ws.map (renumber p)).foldl write (l.map (renumber p)) =
      (ws.foldl write l).map (renumber p) := by
  induction ws generalizing l with
  | nil => rfl
  | cons r ws ih => rw [List.map_cons, List.foldl_cons, List.foldl_cons, write_renumber hp, ih]

end Record

theorem Step.writes_renumber (p : NameId → NameId) (m : Model) (name : NameId) (step : Step) :
    (step.writes m name).map (Record.renumber p) = step.writes m (p name) := by
  cases step with
  | enter path header => rfl
  | declare spot property value =>
    rw [writes, writes, List.map_map]
    rfl

namespace Model

/-- The same scopes and, in the same order, the same records with other numbers for the names. -/
structure Renumbers (p : NameId → NameId) (m n : Model) : Prop where
  left : m.WellFormed
  right : n.WellFormed
  skeleton : m.skeleton = n.skeleton
  records : n.records = m.records.map (Record.renumber p)

namespace Renumbers

variable {p : NameId → NameId} {m n : Model} (h : m.Renumbers p n)
include h

theorem recordsInScope (s : ScopeId) :
    n.recordsInScope s = (m.recordsInScope s).map (Record.renumber p) := by
  rw [h.left.recordsInScope_eq, h.right.recordsInScope_eq, h.records, List.filter_map]
  rfl

theorem addName (style : StyleName) : m.Renumbers p (n.addName style) :=
  ⟨h.left, h.right.addName style, h.skeleton, h.records⟩

theorem ingest (hp : Function.Injective p) (hname : p m.names.length = n.names.length)
    (a b : StyleName) (nodes : List Node) :
    (m.ingest a nodes).2.Renumbers p (n.ingest b nodes).2 := by
  have hskeleton : (m.ingest a nodes).2.skeleton = (n.ingest b nodes).2.skeleton := by
    have hnamed : (m.addName a).skeleton = (n.addName b).skeleton := h.skeleton
    rw [ingest_eq, ingest_eq]
    exact skeleton_performAll_congr hnamed a b _ _ rfl
  have hwrites : ∀ step : Step, step.writes (n.ingest b nodes).2 n.names.length =
      (step.writes (m.ingest a nodes).2 m.names.length).map (Record.renumber p) := by
    intro step
    rw [Step.writes_renumber, hname]
    cases step with
    | enter path header => rfl
    | declare spot property value =>
      rw [Step.writes, Step.writes, Spot.site, Spot.site, scopeAt_skeleton hskeleton]
  refine ⟨h.left.ingest a nodes, h.right.ingest b nodes, hskeleton, ?_⟩
  rw [h.right.records_ingest b nodes (.refl _), h.left.records_ingest a nodes (.refl _), h.records,
    ← Record.foldl_write_renumber hp, List.map_flatMap]
  exact congrArg (List.foldl _ _) (List.flatMap_congr fun step _ => hwrites step)

end Renumbers
end Model
end AtomicCss
