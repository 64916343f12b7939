import AtomicCss.Command.Build
import AtomicCss.Input.Load
import AtomicCss.Stylesheet.Printing
set_option autoImplicit false

/-!
The command: help, a single build, or watching the input. Here builds get their libraries.
-/

namespace AtomicCss.Command

inductive Outcome where
  | exit (status : Nat)
  /-- The input names a file, and builds follow its changes from here on. -/
  | watch (options : Options)
  deriving DecidableEq, Repr

namespace Outcome

def success : Outcome := .exit 0

def failure : Outcome := .exit 1

def help : Outcome := .exit 2

end Outcome

section

variable {m : Type → Type} [Monad m] [Host m]

def complainLine (t : Text) : m Unit := Host.complain (t ++ ['\n'])

def execute (o : Options) : m Outcome := do
  if o.watch then
    match Path.fileName? o.input with
    | some _ => return .watch o
    | none =>
      complainLine (o.input ++ " is not a file".toList)
      return .failure
  else
    match ← (build o).run with
    | .ok _ => return .success
    | .error e =>
      complainLine e.message
      return .failure

def run (words : List Text) : m Outcome := do
  match Invocation.ofWords words with
  | .error e =>
    complainLine e.message
    return .failure
  | .ok .help =>
    Host.print (usage ++ ['\n'])
    return .help
  | .ok (.build o) => execute o

end

end AtomicCss.Command
