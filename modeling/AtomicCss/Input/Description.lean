import AtomicCss.Data.SortedMap
import AtomicCss.Text.Basic
set_option autoImplicit false

/-!
The input of a compilation: a document of named bindings.

Bindings whose names begin with an underscore are reserved; those with a meaning are verbatim CSS
for the beginning and the end, and the preferred order of at-rules. Every other binding is a
namespace of styles, whose name has to be one that a module can export.
-/

namespace AtomicCss

inductive Binding where
  | text (t : Text)
  | list (l : List Text)
  | styles (s : SortedMap Text Text)
  deriving DecidableEq, Repr

inductive SourceFormat where
  | json
  | toml
  deriving DecidableEq, Repr

def SourceFormat.name : SourceFormat → Text
  | .json => "JSON".toList
  | .toml => "TOML".toList

/-- What is said of a source that is no document of bindings. -/
def SourceFormat.complaint (format : SourceFormat) (cause : Text) : Text :=
  "Invalid ".toList ++ format.name ++ " input: ".toList ++ cause

/-- Reading documents, which is left to libraries: the bindings of a source, or why it has none. -/
class DocumentReader where
  bindings : SourceFormat → Text → Except Text (SortedMap Text Binding)

structure Description where
  prologue : Option Text
  epilogue : Option Text
  /-- Headers of at-rules in the preferred order. -/
  atRules : List Text
  namespaces : SortedMap Text (SortedMap Text Text)
  deriving DecidableEq, Repr

inductive Shape where
  | text
  | list
  | styles
  deriving DecidableEq, Repr

def Shape.phrase : Shape → Text
  | .text => "a string of CSS".toList
  | .list => "a list of at-rule headers".toList
  | .styles => "a table of style names to style text".toList

inductive BindingError where
  | wrongShape (binding : Text) (expected : Shape)
  | notAnIdentifier (binding : Text)
  deriving DecidableEq, Repr

def BindingError.message : BindingError → Text
  | .wrongShape binding expected =>
    "Binding `".toList ++ binding ++ "` must be ".toList ++ expected.phrase
  | .notAnIdentifier binding =>
    "Namespace `".toList ++ binding ++ "` is not a valid JavaScript identifier".toList

/-- Words that cannot be the name of an exported constant. -/
def reservedWords : List Text := [
  "await", "break", "case", "catch", "class", "const", "continue", "debugger", "default", "delete",
  "do", "else", "enum", "export", "extends", "false", "finally", "for", "function", "if",
  "implements", "import", "in", "instanceof", "interface", "let", "new", "null", "package",
  "private", "protected", "public", "return", "static", "super", "switch", "this", "throw", "true",
  "try", "typeof", "var", "void", "while", "with", "yield"].map String.toList

def isExportName : Text → Bool
  | [] => false
  | c :: r =>
    !reservedWords.contains (c :: r) && (c.isAlpha || c = '$')
      && r.all fun d => d.isAlphanum || d = '_' || d = '$'

namespace Description

def empty : Description := ⟨none, none, [], []⟩

def prologueName : Text := "_start".toList

def epilogueName : Text := "_end".toList

def atRulesName : Text := "_atrules".toList

/-- Takes one binding. Namespaces come in ascending order, so each is added at the end. -/
def add (d : Description) (name : Text) (binding : Binding) : Except BindingError Description :=
  if name = prologueName then
    match binding with
    | .text t => .ok { d with prologue := some t }
    | _ => .error (.wrongShape name .text)
  else if name = epilogueName then
    match binding with
    | .text t => .ok { d with epilogue := some t }
    | _ => .error (.wrongShape name .text)
  else if name = atRulesName then
    match binding with
    | .list l => .ok { d with atRules := l }
    | _ => .error (.wrongShape name .list)
  else if name.head? = some '_' then .ok d
  else
    match binding with
    | .styles s =>
      if isExportName name then .ok { d with namespaces := d.namespaces ++ [(name, s)] }
      else .error (.notAnIdentifier name)
    | _ => .error (.wrongShape name .styles)

/-- The description of a document. The first bad binding in the order of names is reported. -/
def ofBindings (bindings : SortedMap Text Binding) : Except BindingError Description :=
  bindings.foldlM (fun d b => d.add b.1 b.2) empty

end Description
end AtomicCss
