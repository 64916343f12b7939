import AtomicCss.Text.Basic
set_option autoImplicit false

/-!
What styles are flattened to: records, each saying that a name declares a property with a value, in
a scope and under a selector suffix.
-/

namespace AtomicCss

/-- A number for each at-rule block that styles share; zero stands outside all of them. -/
abbrev ScopeId := Nat

def rootScope : ScopeId := 0

abbrev NameId := Nat

structure StyleName where
  space : Text
  name : Text
  deriving DecidableEq, Repr

def StyleName.text (n : StyleName) : Text := n.space ++ '.' :: n.name

structure Scope where
  id : ScopeId
  parent : Option ScopeId
  header : Text
  deriving DecidableEq, Repr

/-- Where a name declares something. -/
structure Site where
  scope : ScopeId
  name : NameId
  suffix : Text
  deriving DecidableEq, Repr

structure Record where
  site : Site
  repeats : Nat
  property : Text
  value : Text
  deriving DecidableEq, Repr

/-- A name declares a property at most once at a site. -/
def Record.key (r : Record) : Site × Text := (r.site, r.property)

inductive NestingFault where
  | nonPseudoSelector (entry : Text)
  | nestedRule (selector : Text)
  | atRuleWithoutBlock (header : Text)
  deriving DecidableEq, Repr

/-- A style text that has the form of CSS but not of a style. -/
structure StructuralError where
  fault : NestingFault
  style : StyleName
  deriving DecidableEq, Repr

def NestingFault.message : NestingFault → Text
  | .nonPseudoSelector entry => "non-pseudo selector found: `".toList ++ entry ++ ['`']
  | .nestedRule selector => "nested rule found: `".toList ++ selector ++ ['`']
  | .atRuleWithoutBlock header => "at-rule without block: `".toList ++ header ++ ['`']

def StructuralError.message (e : StructuralError) : Text :=
  e.fault.message ++ " in ".toList ++ e.style.text

end AtomicCss
