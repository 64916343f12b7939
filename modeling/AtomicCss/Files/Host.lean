import AtomicCss.Files.Tree
set_option autoImplicit false

/-!
What a build asks of its surroundings: files, directories and two output streams.

A `Workspace` is such a surrounding as a plain value, so that what a build does can be computed.
-/

namespace AtomicCss

class Host (m : Type → Type) where
  read : Text → m (Except FileFault Text)
  /-- What tells whether the content of a file has changed; none if there is no file. -/
  fingerprint : Text → m (Except FileFault (Option Text))
  write : Text → Text → m (Except FileFault Unit)
  makeDirectory : Text → m (Except FileFault Unit)
  isDirectory : Text → m Bool
  print : Text → m Unit
  complain : Text → m Unit

structure Workspace where
  tree : FileTree
  stdout : Text
  stderr : Text
  deriving DecidableEq, Repr

namespace Workspace

def change (f : FileTree → Except FileFault FileTree) : StateM Workspace (Except FileFault Unit) :=
  fun w =>
    match f w.tree with
    | .ok tree => (.ok (), { w with tree := tree })
    | .error e => (.error e, w)

/-- A missing file is no fault here. -/
def fingerprint (w : Workspace) (path : Text) : Except FileFault (Option Text) :=
  match w.tree.read path with
  | .ok content => .ok (some content)
  | .error .notFound => .ok none
  | .error e => .error e

instance : Host (StateM Workspace) where
  read path := fun w => (w.tree.read path, w)
  fingerprint path := fun w => (w.fingerprint path, w)
  write path content := change (·.write path content)
  makeDirectory path := change (·.makeDirectory path)
  isDirectory path := fun w => (w.tree.isDirectory path, w)
  print t := fun w => ((), { w with stdout := w.stdout ++ t })
  complain t := fun w => ((), { w with stderr := w.stderr ++ t })

end Workspace
end AtomicCss
