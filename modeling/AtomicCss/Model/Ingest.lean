import AtomicCss.Model.Basic
import AtomicCss.Selector.List
import AtomicCss.Selector.Pseudo
import AtomicCss.Style.Node
set_option autoImplicit false

/-!
Flattening a style into the model.

Nodes are taken in document order. A rule takes its children once for each entry of its selector
list, an at-rule takes them in its scope. The first violation ends the ingestion; what came before
it stays.
-/

namespace AtomicCss

/-- A run that leaves a model behind also when it fails. -/
abbrev Ingestion := EStateM StructuralError Model

/-- Where ingestion is inside a style. -/
structure Place where
  style : StyleName
  site : Site
  repeats : Nat
  deriving DecidableEq, Repr

namespace Place

def fail (p : Place) (fault : NestingFault) : Ingestion Unit := throw ⟨fault, p.style⟩

def withPseudo (p : Place) (s : Selector.Pseudo) : Place :=
  { p with site := { p.site with suffix := s.suffix }, repeats := s.repeats.getD p.repeats }

def withScope (p : Place) (s : ScopeId) : Place := { p with site := { p.site with scope := s } }

def declare (p : Place) (property value : Text) : Ingestion Unit :=
  modify fun m => m.declare p.style p.site p.repeats property value

def resolve (p : Place) (header : Text) : Ingestion Place :=
  modifyGet fun m =>
    let (s, m) := m.resolveScope p.site.scope header
    (p.withScope s, m)

mutual

def ingest (p : Place) : Node → Ingestion Unit
  | .declaration property value => p.declare property value
  | .rule selector children =>
    if p.site.suffix.isEmpty then
      (Selector.entries selector).forM fun entry =>
        match Selector.Pseudo.ofEntry? entry with
        | none => p.fail (.nonPseudoSelector entry)
        | some s => ingestAll (p.withPseudo s) children
    else p.fail (.nestedRule selector)
  | .atRule header children => do
    let inner ← p.resolve header
    ingestAll inner children
  | .statement header => p.fail (.atRuleWithoutBlock header)

def ingestAll (p : Place) : List Node → Ingestion Unit
  | [] => pure ()
  | n :: r => do
    ingest p n
    ingestAll p r

end

end Place

def Model.ingest (m : Model) (style : StyleName) (nodes : List Node) :
    Except StructuralError NameId × Model :=
  let id := m.names.length
  match Place.ingestAll ⟨style, ⟨rootScope, id, []⟩, 1⟩ nodes (m.addName style) with
  | .ok _ m => (.ok id, m)
  | .error e m => (.error e, m)

end AtomicCss
