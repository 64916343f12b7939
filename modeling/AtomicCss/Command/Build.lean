import AtomicCss.Command.Arguments
import AtomicCss.Compile
import AtomicCss.Files.Host
import AtomicCss.Input.Description
import AtomicCss.Stylesheet.Canonical
set_option autoImplicit false

/-!
One build: read the input, compile it, and write the stylesheet and the module, announcing each of
the two whose content has changed. Both are rendered before anything is written. Reading a document
and printing a stylesheet are left to any two libraries.
-/

namespace AtomicCss.Command

inductive BuildError where
  | cannotRead (path : Text) (fault : FileFault)
  | unsupported (path : Text)
  | cannotDecode (path : Text) (format : SourceFormat) (cause : Text)
  | badBinding (path : Text) (error : BindingError)
  | cannotCompile (error : CompileError)
  | cannotPrint (fault : Stylesheet.CanonicalFault)
  | cannotCreate (path : Text) (fault : FileFault)
  | cannotWrite (path : Text) (fault : FileFault)
  deriving DecidableEq, Repr

/-- The error with its causes, the outermost first. -/
def BuildError.message : BuildError → Text
  | .cannotRead path fault => "Failed to read ".toList ++ path ++ ": ".toList ++ fault.message
  | .unsupported path =>
    "Unsupported input ".toList ++ path ++ ", expected a .json or .toml file".toList
  | .cannotDecode path format cause =>
    "Failed to load ".toList ++ path ++ ": ".toList ++ format.complaint cause
  | .badBinding path error => "Failed to load ".toList ++ path ++ ": ".toList ++ error.message
  | .cannotCompile error =>
    error.message ++ error.cause?.elim [] fun cause => ": ".toList ++ cause.message
  | .cannotPrint fault => fault.message
  | .cannotCreate path fault => "Failed to create ".toList ++ path ++ ": ".toList ++ fault.message
  | .cannotWrite path fault => "Failed to write ".toList ++ path ++ ": ".toList ++ fault.message

structure BuildReport where
  cssChanged : Bool
  moduleChanged : Bool
  warnings : Nat
  deriving DecidableEq, Repr

def artifactPaths (output : Text) : Text × Text :=
  (output ++ ".css".toList, output ++ ".js".toList)

structure Artifacts where
  css : Text
  module : Text
  warnings : Nat
  deriving DecidableEq, Repr

def sourceFormat? (path : Text) : Option SourceFormat :=
  if Path.extension? path = some "json".toList then some .json
  else if Path.extension? path = some "toml".toList then some .toml
  else none

def describe [DocumentReader] (path source : Text) : Except BuildError Description :=
  match sourceFormat? path with
  | none => .error (.unsupported path)
  | some format => do
    let bindings ← (DocumentReader.bindings format source).mapError (.cannotDecode path format)
    (Description.ofBindings bindings).mapError (.badBinding path)

def render [Stylesheet.Library] (o : Options) (d : Description) : Except BuildError Artifacts := do
  let output ← (compile d ⟨o.stem, o.mode⟩).mapError .cannotCompile
  let css ← (Stylesheet.canonicalize output.css o.mode).mapError .cannotPrint
  return ⟨css, output.module, output.warnings.length⟩

section

variable {m : Type → Type} [Monad m] [Host m]

def attempt {α : Type} (onFault : FileFault → BuildError) (action : m (Except FileFault α)) :
    ExceptT BuildError m α :=
  ExceptT.mk ((·.mapError onFault) <$> action)

def loadInput [DocumentReader] (path : Text) : ExceptT BuildError m Description := do
  let source ← attempt (.cannotRead path) (Host.read path)
  ExceptT.mk (pure (describe path source))

/-- Makes a directory whose ancestors follow it in the list, and those of them that are missing. -/
def makeDirectories : List Text → m (Except FileFault Unit)
  | [] => return .ok ()
  | path :: above => do
    match ← Host.makeDirectory path with
    | .ok () => return .ok ()
    | .error .notFound =>
      match ← makeDirectories above with
      | .error e => return .error e
      | .ok () =>
        match ← Host.makeDirectory path with
        | .ok () => return .ok ()
        | .error e => return if ← Host.isDirectory path then .ok () else .error e
    | .error e => return if ← Host.isDirectory path then .ok () else .error e

def prepare (path : Text) : ExceptT BuildError m Unit :=
  match Path.parent? path with
  | none | some [] => return ()
  | some parent => attempt (.cannotCreate parent) (makeDirectories (Path.ancestors parent))

/-- Writes a file, announces it if that changed its content, and tells whether it did. -/
def writeReporting (path content : Text) : ExceptT BuildError m Bool := do
  let before ← attempt (.cannotRead path) (Host.fingerprint path)
  attempt (.cannotWrite path) (Host.write path content)
  let after ← attempt (.cannotRead path) (Host.fingerprint path)
  if before = after then return false
  else
    ExceptT.lift (Host.print ("[atomize] saved ".toList ++ path ++ ['\n']))
    return true

variable [DocumentReader] [Stylesheet.Library]

def build (o : Options) : ExceptT BuildError m BuildReport := do
  let description ← loadInput o.input
  let artifacts ← ExceptT.mk (pure (render o description))
  let (cssPath, modulePath) := artifactPaths o.output
  prepare cssPath
  let cssChanged ← writeReporting cssPath artifacts.css
  let moduleChanged ← writeReporting modulePath artifacts.module
  return ⟨cssChanged, moduleChanged, artifacts.warnings⟩

def rebuild (o : Options) : m Bool := do
  match ← (build o).run with
  | .ok _ => return true
  | .error _ => return false

end

end AtomicCss.Command
