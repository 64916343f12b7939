import AtomicCss.Proofs.Sheet.Arrangement
import AtomicCss.Proofs.Sheet.Group
set_option autoImplicit false

namespace AtomicCss

namespace Group

variable {l r : List Record} (h : ∀ record, record ∈ l ↔ record ∈ r)
include h

theorem contributorsOf_congr (d : Declaration) : contributorsOf l d = contributorsOf r d := by
  refine Sorted.ofList_congr fun c => ?_
  simp only [List.mem_map, List.mem_filter, h]

theorem contributions_congr : contributions l = contributions r := by
  have hdeclarations : Sorted.ofList (l.map Record.declaration) =
      Sorted.ofList (r.map Record.declaration) :=
    Sorted.ofList_congr fun d => by simp only [List.mem_map, h]
  rw [contributions, contributions, hdeclarations]
  exact List.map_congr_left fun d _ => by rw [contributorsOf_congr h]

theorem ofRecords_congr : ofRecords l = ofRecords r := by
  have hset : bySet l = bySet r := by rw [bySet, bySet, contributions_congr h]
  rw [ofRecords, ofRecords, hset]

end Group

namespace Model

variable {m n : Model} (hscopes : m.scopes = n.scopes) (hchildren : m.children = n.children)
include hscopes hchildren

theorem mapContent_treeAt_congr {α : Type} {f g : List Record → List α}
    (h : ∀ s, f (m.recordsInScope s) = g (n.recordsInScope s)) (depth : Nat) (s : ScopeId) :
    (m.treeAt depth s).mapContent f = (n.treeAt depth s).mapContent g := by
  have hheader : ∀ s, m.headerOf s = n.headerOf s := fun s => by
    rw [headerOf, headerOf, hscopes]
  induction depth generalizing s with
  | zero => rw [treeAt, treeAt, ScopeTree.mapContent, ScopeTree.mapContent, hheader, h]; rfl
  | succ depth ih =>
    have hsame : m.childrenOf s = n.childrenOf s := by rw [childrenOf, childrenOf, hchildren]
    rw [treeAt, treeAt, ScopeTree.mapContent, ScopeTree.mapContent, hheader, h, hsame,
      ScopeTree.mapContentAll_eq_map, ScopeTree.mapContentAll_eq_map, List.map_map, List.map_map]
    exact congrArg _ (List.map_congr_left fun t _ => ih t)

variable (hrecords : ∀ s record, record ∈ m.recordsInScope s ↔ record ∈ n.recordsInScope s)
include hrecords

theorem plan_congr (preferred : List Text) : m.plan preferred = n.plan preferred := by
  have hgroups : m.groups = n.groups := by
    rw [groups, groups, tree, tree, hscopes]
    exact mapContent_treeAt_congr hscopes hchildren
      (fun s => Group.ofRecords_congr (hrecords s)) _ _
  rw [plan_eq_arrange, plan_eq_arrange, hgroups]

theorem emit_congr (preferred : List Text) : m.emit preferred = n.emit preferred := by
  rw [emit, emit, plan_congr hscopes hchildren hrecords]

end Model
end AtomicCss
