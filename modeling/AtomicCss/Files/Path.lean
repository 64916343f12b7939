import AtomicCss.Text.Basic
set_option autoImplicit false

/-!
Paths as text, with slashes between their components.

Repeated slashes, slashes at the end and components that are a single dot, other than a leading one,
mean nothing to `fileName?` and `parent?`.
-/

namespace AtomicCss.Path

def dropTail : Text → Text
  | '/' :: c :: r => dropTail (c :: r)
  | '.' :: '/' :: r => dropTail ('/' :: r)
  | t => t

def lastReversed (t : Text) : Text := t.takeWhile (· != '/')

/-- The last component, if it names something: neither a root nor a dot or two. -/
def fileName? (path : Text) : Option Text :=
  let name := (lastReversed (dropTail path.reverse)).reverse
  if name.isEmpty || name = ['.'] || name = ['.', '.'] then none else some name

def parent? (path : Text) : Option Text :=
  let reversed := dropTail path.reverse
  if reversed.isEmpty || reversed = ['/'] then none
  else
    match reversed.dropWhile (· != '/') with
    | [] => some []
    | ['/'] => some ['/']
    | _ :: r => some (dropTail r).reverse

/-- What follows the last dot of the file name, unless that dot is its first character. -/
def extension? (path : Text) : Option Text := do
  let name ← fileName? path
  let reversed := name.reverse
  match reversed.dropWhile (· != '.') with
  | [] | ['.'] => none
  | _ => some (reversed.takeWhile (· != '.')).reverse

/-- The path and all directories above it, innermost first, in at most `fuel` steps. -/
def ancestorsWithin : Nat → Text → List Text
  | 0, _ => []
  | fuel + 1, path =>
    if path.isEmpty then []
    else path :: (parent? path).elim [] (ancestorsWithin fuel)

/-- The path and all directories above it, innermost first. -/
def ancestors (path : Text) : List Text := ancestorsWithin (path.length + 1) path

def components (path : Text) : List Text :=
  (path.splitOn '/').filter (!·.isEmpty)

end AtomicCss.Path
