import AtomicCss.ClassMap.Module
import AtomicCss.Stylesheet.MediaOrder
set_option autoImplicit false

namespace AtomicCss.Stylesheet

/-- What is left to a library for stylesheets. Its faults are texts. -/
class Library where
  Sheet : Type
  parse : Text → Except Text Sheet
  /-- The rules at the top of a sheet, as nodes. -/
  rules : Sheet → List Node
  withRules : Sheet → List Node → Sheet
  printQuery : Text → Except Text Text
  print (minify : Bool) : Sheet → Except Text Text

inductive CanonicalFault where
  | cannotParse (cause : Text)
  | cannotPrintQuery (cause : Text)
  | cannotPrint (cause : Text)
  deriving DecidableEq, Repr

def CanonicalFault.message : CanonicalFault → Text
  | .cannotParse cause => "Failed to parse generated CSS: ".toList ++ cause
  | .cannotPrintQuery cause => "Failed to print media query: ".toList ++ cause
  | .cannotPrint cause => "Failed to print generated CSS: ".toList ++ cause

variable [Library]

/-- The rules with sorted media blocks, if the queries of all blocks can be printed. -/
def arrange (rules : List Node) : Except Text (List Node) := do
  let _ ← (rules.filterMap mediaBlock?).mapM fun block =>
    Library.printQuery (block.1.dropWhile Header.isKeywordChar)
  return sortMedia (fun query => (Library.printQuery query).toOption.getD []) rules

def canonicalize (css : Text) (mode : EmissionMode) : Except CanonicalFault Text := do
  let sheet ← (Library.parse css).mapError .cannotParse
  let rules ← (arrange (Library.rules sheet)).mapError .cannotPrintQuery
  (Library.print (mode == .plain) (Library.withRules sheet rules)).mapError .cannotPrint

end AtomicCss.Stylesheet
