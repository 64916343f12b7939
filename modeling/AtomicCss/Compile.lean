import AtomicCss.ClassMap.Module
import AtomicCss.Input.Description
import AtomicCss.Model.Ingest
import AtomicCss.Selector.ClassName
import AtomicCss.Sheet.Generate
import AtomicCss.Style.Parser
set_option autoImplicit false

/-!
From a description to a stylesheet and a class map.

Class names in the verbatim CSS are reserved, styles are taken in the order of their names, and the
first error ends the compilation.
-/

namespace AtomicCss

structure CompileOptions where
  /-- What every generated class name begins with. -/
  stem : Text
  mode : EmissionMode
  deriving DecidableEq, Repr

inductive CompileError where
  | verbatimSyntax (binding : Text) (error : SyntaxError)
  | syntaxError (style : StyleName) (error : SyntaxError)
  | nesting (error : StructuralError)
  | invalidStem (stem : Text)
  deriving DecidableEq, Repr

namespace CompileError

/-- The syntax error that caused this one, if one did. -/
def cause? : CompileError → Option SyntaxError
  | .verbatimSyntax _ e | .syntaxError _ e => some e
  | .nesting _ | .invalidStem _ => none

def message : CompileError → Text
  | .verbatimSyntax binding e =>
    "Failed to parse verbatim CSS in `".toList ++ binding ++ "`: ".toList ++ e.message
  | .syntaxError style e => "Failed to parse ".toList ++ style.text ++ ": ".toList ++ e.message
  | .nesting e => e.message
  | .invalidStem stem =>
    stem ++ " isn't a valid CSS identifier prefix. Accepted characters are ^[a-zA-Z\\-_]+".toList
      ++ "[a-zA-Z\\-_0-9]*$".toList

end CompileError

/-- The parts that are not blank, trimmed, one after the other on lines of their own. -/
def assembleCss (prologue : Option Text) (body : Text) (epilogue : Option Text) : Text :=
  let parts := [prologue, some body, epilogue].filterMap id
  Text.join ['\n'] ((parts.map Text.trim).filter (!·.isEmpty))

namespace Description

def verbatimClasses (binding : Text) : Option Text → Except CompileError (List Text)
  | none => .ok []
  | some text => ((parse text).mapError (.verbatimSyntax binding)).map Node.classNames

def reserved (d : Description) : Except CompileError (List Text) := do
  let first ← verbatimClasses prologueName d.prologue
  let last ← verbatimClasses epilogueName d.epilogue
  return Sorted.ofList (first ++ last)

def styles (d : Description) : List (StyleName × Text) :=
  d.namespaces.flatMap fun n => n.2.map fun s => (⟨n.1, s.1⟩, s.2)

end Description

def Model.addStyle (m : Model) (style : StyleName × Text) : Except CompileError Model := do
  let nodes ← (parse style.2).mapError (.syntaxError style.1)
  match m.ingest style.1 nodes with
  | (.ok _, m) => return m
  | (.error e, _) => throw (.nesting e)

def Description.model (d : Description) : Except CompileError Model :=
  d.styles.foldlM Model.addStyle .empty

/-- What a compilation finds out: the model of all styles, its rules, and who got which class. -/
structure Compilation where
  model : Model
  rules : ScopeTree Rule
  allocation : Allocation
  deriving Repr

def Description.compilation (d : Description) (stem : Text) : Except CompileError Compilation := do
  let reserved ← d.reserved
  match Allocator.ofStem? stem reserved with
  | none => throw (.invalidStem stem)
  | some allocator =>
    let model ← d.model
    let (rules, allocation) := (model.emit d.atRules).run (.fresh allocator model.names.length)
    return ⟨model, rules, allocation⟩

structure CompileOutput where
  css : Text
  module : Text
  classes : ClassMap
  warnings : List Warning
  deriving Repr

/-- The class map of a compilation, with all namespaces of the description. -/
def Compilation.classes (c : Compilation) (d : Description) : ClassMap :=
  .build (d.namespaces.map (·.1)) c.model.names c.allocation.assignments

def Compilation.output (c : Compilation) (d : Description) (mode : EmissionMode) :
    CompileOutput where
  css := assembleCss d.prologue c.rules.render d.epilogue
  module := (c.classes d).renderModule mode
  classes := c.classes d
  warnings := c.model.warnings

def compile (d : Description) (options : CompileOptions) : Except CompileError CompileOutput :=
  (d.compilation options.stem).map (·.output d options.mode)

end AtomicCss
