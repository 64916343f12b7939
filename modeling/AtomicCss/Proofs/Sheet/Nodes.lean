import AtomicCss.Proofs.Style.Spelling
import AtomicCss.Sheet.Rule
set_option autoImplicit false

/-!
The nodes that a tree of rules stands for, and which pieces of the tree can be read back alone.

Selectors, declarations and headers are written one after the other as they are. A piece is closed
if it stays one statement there, and its value has no blanks at its ends to lose.
-/

namespace AtomicCss

namespace Rule

def selector (r : Rule) : Text := Text.join [','] (r.entries.map SelectorEntry.render)

def toNode (r : Rule) : Node := .rule r.selector (r.body.map fun d => .declaration d.1 d.2)

/-- Whether a declaration is still itself when it stands between others. -/
def isClosedDeclaration (d : Text × Text) : Bool :=
  isWhole (d.1 ++ ':' :: d.2) && Text.trim d.2 == d.2

def isClosed (r : Rule) : Bool := isWhole r.selector && r.body.all isClosedDeclaration

end Rule

namespace ScopeTree

mutual

/-- A rule for each rule of the scope, and an at-rule for each scope below that is not empty. -/
def toNodes : ScopeTree Rule → List Node
  | .node _ _ rules children => rules.map Rule.toNode ++ blockNodes children

def blockNodes : List (ScopeTree Rule) → List Node
  | [] => []
  | t :: r =>
    let inner := toNodes t
    if inner.isEmpty then blockNodes r else .atRule t.header inner :: blockNodes r

end

mutual

/-- Whether all pieces that are written are closed. -/
def isClosed : ScopeTree Rule → Bool
  | .node _ _ rules children => rules.all Rule.isClosed && blocksClosed children

def blocksClosed : List (ScopeTree Rule) → Bool
  | [] => true
  | t :: r => (t.toNodes.isEmpty || isWhole t.header && isClosed t) && blocksClosed r

end

variable {α β : Type}

mutual

/-- The content of all scopes has `q`, and the headers of the scopes below have `p`. -/
def Each (p : Text → Prop) (q : α → Prop) : ScopeTree α → Prop
  | .node _ _ content children => (∀ a ∈ content, q a) ∧ EachAll p q children

def EachAll (p : Text → Prop) (q : α → Prop) : List (ScopeTree α) → Prop
  | [] => True
  | t :: r => (p t.header ∧ Each p q t) ∧ EachAll p q r

end

end ScopeTree

structure Rule.Spelled (r : Rule) : Prop where
  dot : r.selector.head? = some '.'
  trim : Text.trim r.selector = r.selector
  properties : ∀ d ∈ r.body, IsProperty d.1

/-- Trees whose headers and properties are spelled the way the parser spells them. -/
abbrev ScopeTree.Spelled (t : ScopeTree Rule) : Prop := t.Each IsHeader Rule.Spelled

theorem Rule.Spelled.ne_nil {r : Rule} (h : r.Spelled) : r.selector ≠ [] := by
  intro hnil
  have hdot := h.dot
  rw [hnil] at hdot
  cases hdot

theorem Rule.Spelled.atHeader {r : Rule} (h : r.Spelled) : isAtHeader r.selector = false := by
  rw [isAtHeader, h.dot]
  decide

end AtomicCss
