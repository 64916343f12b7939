import AtomicCss.Model.Basic
import AtomicCss.Sheet.Rule
set_option autoImplicit false

/-!
From a model to rules: the tree of its scopes in the preferred order, the groups of each scope, and
class names in the order in which the rules are written.
-/

namespace AtomicCss

namespace Model

def treeAt (m : Model) : Nat → ScopeId → ScopeTree Record
  | 0, s => .node s (m.headerOf s) (m.recordsInScope s) []
  | depth + 1, s =>
    .node s (m.headerOf s) (m.recordsInScope s) ((m.childrenOf s).map (m.treeAt depth))

/-- The scopes with their records. A tree is not deeper than it has scopes. -/
def tree (m : Model) : ScopeTree Record := m.treeAt m.scopes.length rootScope

end Model

namespace Group

/-- What stands in the selector: one class for a single contributor, else one for each variant. -/
def entryKeys (g : Group) : List (ClassKey × Variant) :=
  match g.contributors with
  | [c] => [(.own c.name, c.variant)]
  | set => (Sorted.ofList (set.map Contributor.variant)).map fun v => (.shared set v, v)

def assignAll (entries : List SelectorEntry) (contributors : List Contributor) :
    StateM Allocation Unit :=
  contributors.forM fun c =>
    (entries.filter (·.variant = c.variant)).forM fun e => Allocation.assign c.name e.ident

def emit (g : Group) : StateM Allocation Rule := do
  let entries ← g.entryKeys.mapM fun (key, variant) => do
    let ident ← Allocation.classFor key
    return SelectorEntry.mk ident variant
  assignAll entries g.contributors
  return ⟨entries, g.declarations⟩

end Group

namespace ScopeTree

mutual

/-- Class names are drawn for the groups of a scope first, then for its children. -/
def emit : ScopeTree Group → StateM Allocation (ScopeTree Rule)
  | .node scope header groups children => do
    let rules ← groups.mapM Group.emit
    let inner ← emitAll children
    return .node scope header rules inner

def emitAll : List (ScopeTree Group) → StateM Allocation (List (ScopeTree Rule))
  | [] => return []
  | t :: r => do
    let first ← emit t
    let rest ← emitAll r
    return first :: rest

end

end ScopeTree

namespace Model

def plan (m : Model) (preferred : List Text) : ScopeTree Group :=
  (m.tree.arrange (preferred.map Header.key)).mapContent Group.ofRecords

def emit (m : Model) (preferred : List Text) : StateM Allocation (ScopeTree Rule) :=
  (m.plan preferred).emit

def generate (m : Model) (preferred : List Text) : StateM Allocation Text :=
  ScopeTree.render <$> m.emit preferred

end Model
end AtomicCss
