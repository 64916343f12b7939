import AtomicCss.ClassMap.Module
set_option autoImplicit false

/-!
The command line: flags, one option with a value, and paths, in any order.

Words are taken from left to right. A value counts only when the next word or the end shows that it
is complete, so a bad value is reported then, unless that word is no argument at all.
-/

namespace AtomicCss.Command

inductive UsageError where
  | unknownArgument (word : Text)
  | repeatedArgument (name : Text)
  | missingValue (name : Text)
  | unexpectedValue (name : Text)
  | tooFewPaths
  | tooManyPaths
  deriving DecidableEq, Repr

namespace UsageError

def message : UsageError → Text
  | .unknownArgument word => "error: unexpected argument '".toList ++ word ++ "' found\n".toList
  | .repeatedArgument name =>
    "error: the argument '".toList ++ name ++ "' cannot be used multiple times\n".toList
  | .missingValue name =>
    "error: a value is required for '".toList ++ name ++ "' but none was supplied\n".toList
  | .unexpectedValue name =>
    "error: unexpected value for '".toList ++ name ++ "' found\n".toList
  | .tooFewPaths => "too few arguments".toList
  | .tooManyPaths => "too many arguments".toList

end UsageError

structure Options where
  input : Text
  output : Text
  watch : Bool
  mode : EmissionMode
  stem : Text
  deriving DecidableEq, Repr

inductive Invocation where
  | help
  | build (options : Options)
  deriving DecidableEq, Repr

def usageLines : List String := [
  "Compile namespaced style definitions into atomic CSS and a class map module",
  "",
  "Usage: atomize [options] <input> <output>",
  "",
  "Arguments:",
  "  [path]...  <input> (.json or .toml) and <output> (written as <output>.css and <output>.js)",
  "",
  "Options:",
  "  -w, --watch            Rebuild whenever the input file changes",
  "  -d, --dev              Pretty-print the CSS and emit validating accessors in the module",
  "      --prefix <string>  Prefix prepended to every generated class name [default: \"\"]",
  "  -h, --help             Print this message"]

def usage : Text := ClassMap.unlines (usageLines.map String.toList)

inductive Flag where
  | watch
  | dev
  | help
  deriving DecidableEq, Repr

def Flag.name : Flag → Text
  | .watch => "--watch".toList
  | .dev => "--dev".toList
  | .help => "--help".toList

def Flag.ofLetter? (c : Char) : Option Flag :=
  if c = 'w' then some .watch
  else if c = 'd' then some .dev
  else if c = 'h' then some .help
  else none

def Flag.ofWord? (t : Text) : Option Flag :=
  if t = "watch".toList then some .watch
  else if t = "dev".toList then some .dev
  else if t = "help".toList then some .help
  else none

def stemOption : Text := "prefix".toList

inductive Pending where
  | nothing
  | paths (l : List Text)
  /-- The option for the stem, whose value has not come. -/
  | stemName
  | stem (value : Text)
  deriving DecidableEq, Repr

structure Scan where
  flags : List Flag
  stem : Option Text
  paths : List Text
  pending : Pending
  onlyPaths : Bool
  deriving DecidableEq, Repr

namespace Scan

def initial : Scan := ⟨[], none, [], .nothing, false⟩

def setStem (s : Scan) (value : Text) : Except UsageError Scan :=
  if s.stem.isSome then .error (.repeatedArgument "--prefix".toList)
  else .ok { s with stem := some value, pending := .nothing }

def settle (s : Scan) : Except UsageError Scan :=
  match s.pending with
  | .nothing => .ok s
  | .paths l =>
    if l.any List.isEmpty then .error (.missingValue "[path]...".toList)
    else .ok { s with paths := s.paths ++ l, pending := .nothing }
  | .stemName => .error (.missingValue "--prefix <string>".toList)
  | .stem value => s.setStem value

def addFlag (s : Scan) (f : Flag) : Except UsageError Scan := do
  let s ← s.settle
  if f ∈ s.flags then throw (.repeatedArgument f.name)
  else return { s with flags := s.flags ++ [f] }

def addPath (s : Scan) (word : Text) : Except UsageError Scan :=
  match s.pending with
  | .paths l => .ok { s with pending := .paths (l ++ [word]) }
  | _ => s.settle.map fun s => { s with pending := .paths [word] }

def addLetters (s : Scan) (letters : Text) : Except UsageError Scan :=
  letters.foldlM (fun s c =>
    match Flag.ofLetter? c with
    | some f => s.addFlag f
    | none => .error (.unknownArgument ['-', c])) s

def addLong (s : Scan) (word : Text) : Except UsageError Scan :=
  let name := word.takeWhile (· != '=')
  let value? := (word.dropWhile (· != '=')).tail?
  match Flag.ofWord? name, value? with
  | some f, none => s.addFlag f
  | some f, some _ => .error (.unexpectedValue f.name)
  | none, value? =>
    if name = stemOption then
      match value? with
      | none => s.settle.map fun s => { s with pending := .stemName }
      | some value => s.settle.bind (·.setStem value)
    else .error (.unknownArgument ("--".toList ++ name))

/-- Takes a word. After the option for the stem, any word is its value. -/
def take (s : Scan) (word : Text) : Except UsageError Scan :=
  if s.pending = .stemName then .ok { s with pending := .stem word }
  else if s.onlyPaths then s.addPath word
  else
    match word with
    | ['-', '-'] => .ok { s with onlyPaths := true }
    | '-' :: '-' :: r => s.addLong r
    | '-' :: c :: r => s.addLetters (c :: r)
    | _ => s.addPath word

def finish (s : Scan) : Except UsageError Invocation := do
  let s ← s.settle
  if .help ∈ s.flags then return .help
  match s.paths with
  | [input, output] =>
    return .build {
      input := input
      output := output
      watch := s.flags.contains .watch
      mode := if s.flags.contains .dev then .dev else .plain
      stem := s.stem.getD [] }
  | [] | [_] => throw .tooFewPaths
  | _ => throw .tooManyPaths

end Scan

def Invocation.ofWords (words : List Text) : Except UsageError Invocation :=
  (words.foldlM Scan.take Scan.initial).bind Scan.finish

end AtomicCss.Command
