import AtomicCss.Model.Record
import AtomicCss.Style.Header
set_option autoImplicit false

namespace AtomicCss

inductive ScopeTree (α : Type) where
  | node (scope : ScopeId) (header : Text) (content : List α) (children : List (ScopeTree α))
  deriving Repr

namespace ScopeTree

variable {α β : Type}

def scope : ScopeTree α → ScopeId
  | .node scope _ _ _ => scope

def header : ScopeTree α → Text
  | .node _ header _ _ => header

def content : ScopeTree α → List α
  | .node _ _ content _ => content

def children : ScopeTree α → List (ScopeTree α)
  | .node _ _ _ children => children

def key (t : ScopeTree α) : Text := Header.key t.header

mutual

def mapContent (f : List α → List β) : ScopeTree α → ScopeTree β
  | .node scope header content children =>
    .node scope header (f content) (mapContentAll f children)

def mapContentAll (f : List α → List β) : List (ScopeTree α) → List (ScopeTree β)
  | [] => []
  | t :: r => mapContent f t :: mapContentAll f r

end

/--
Siblings in order of preference: first those whose key is not listed, as they stand, then the others
in the order of the list.
-/
def byPreference (preferred : List Text) (siblings : List (ScopeTree α)) : List (ScopeTree α) :=
  siblings.filter (·.key ∉ preferred)
    ++ preferred.eraseDups.flatMap fun k => siblings.filter (·.key = k)

mutual

def arrange (preferred : List Text) : ScopeTree α → ScopeTree α
  | .node scope header content children =>
    .node scope header content (byPreference preferred (arrangeAll preferred children))

def arrangeAll (preferred : List Text) : List (ScopeTree α) → List (ScopeTree α)
  | [] => []
  | t :: r => arrange preferred t :: arrangeAll preferred r

end

end ScopeTree
end AtomicCss
