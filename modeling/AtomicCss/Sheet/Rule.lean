import AtomicCss.Sheet.Allocation
import AtomicCss.Sheet.ScopeTree
import AtomicCss.Shorthand.Collapse
set_option autoImplicit false

namespace AtomicCss

structure SelectorEntry where
  ident : Text
  variant : Variant
  deriving DecidableEq, Repr

structure Rule where
  entries : List SelectorEntry
  declarations : List Declaration
  deriving DecidableEq, Repr

/-- A selector repeats its class at least once. -/
def SelectorEntry.render (e : SelectorEntry) : Text :=
  (List.replicate (max e.variant.repeats 1) ('.' :: e.ident)).flatten ++ e.variant.suffix

namespace Rule

/-- The declarations by property. Of two with one property the later counts. -/
def collected (r : Rule) : Declarations :=
  OrderedMap.ofList (r.declarations.map fun d => (d.property, d.value))

def body (r : Rule) : Declarations := Shorthand.collapse r.collected

def renderBody (m : Declarations) : Text := Text.join [';'] (m.map fun d => d.1 ++ ':' :: d.2)

def render (r : Rule) : Text :=
  Text.join [','] (r.entries.map SelectorEntry.render) ++ '{' :: (renderBody r.body ++ ['}'])

end Rule

namespace ScopeTree

mutual

/-- The rules of a scope and the blocks below it, one on a line. -/
def render : ScopeTree Rule → Text
  | .node _ _ rules children => Text.join ['\n'] (rules.map Rule.render ++ renderBlocks children)

def renderBlocks : List (ScopeTree Rule) → List Text
  | [] => []
  | t :: r =>
    let inner := render t
    if inner.isEmpty then renderBlocks r
    else (t.header ++ '{' :: (inner ++ ['}'])) :: renderBlocks r

end

end ScopeTree
end AtomicCss
