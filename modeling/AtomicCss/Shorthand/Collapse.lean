import AtomicCss.Data.OrderedMap
import AtomicCss.Shorthand.Expand
set_option autoImplicit false

/-!
Folding complete groups of longhands back into their shorthand.

The shorthand takes the place of the first longhand of its group. A group stays as it is where a
value has a priority, or where a CSS-wide keyword, which can only stand alone, meets another value.
-/

namespace AtomicCss

/-- Declarations by property, in order. -/
abbrev Declarations := OrderedMap Text Text

namespace Shorthand

def wideKeywords : List Text :=
  ["inherit", "initial", "unset", "revert", "revert-layer"].map String.toList

def isWideKeyword (value : Text) : Bool := wideKeywords.any (Text.sameLetters (Text.trim value))

/-- Whether a CSS-wide keyword stands next to a different value. -/
def mixesWideKeywords : List Text → Bool
  | [] => false
  | v :: r =>
    (v :: r).any isWideKeyword
      && !(v :: r).all fun w => Text.sameLetters (Text.trim w) (Text.trim v)

/-- The value of the shorthand whose longhands have these values. -/
def Form.gather? : Form → List Text → Option Text
  | .sides, [top, right, bottom, left] => some (Text.join [' '] (shorten top right bottom left))
  | .corners, values => do
    match ← values.mapM radii? with
    | [(h₁, v₁), (h₂, v₂), (h₃, v₃), (h₄, v₄)] =>
      let horizontal := Text.join [' '] (shorten h₁ h₂ h₃ h₄)
      let vertical := Text.join [' '] (shorten v₁ v₂ v₃ v₄)
      if horizontal = vertical then some horizontal
      else some (horizontal ++ " / ".toList ++ vertical)
    | _ => none
  | .axes, [x, y] => some (if x = y then x else x ++ ' ' :: y)
  | _, _ => none

def Entry.fold? (entry : Entry) (m : Declarations) : Option Text :=
  if entry.shorthand ∈ m.keys then none
  else do
    let values ← entry.longhands.mapM m.get?
    if values.any hasPriority || mixesWideKeywords values then none
    else entry.form.gather? values

/-- Puts `e` where the first of the `properties` stands and drops the others. -/
def replaceGroup (properties : List Text) (e : Text × Text) : Declarations → Declarations
  | [] => []
  | d :: r =>
    if d.1 ∈ properties then e :: r.filter (·.1 ∉ properties)
    else d :: replaceGroup properties e r

def Entry.collapse (m : Declarations) (entry : Entry) : Declarations :=
  match entry.fold? m with
  | none => m
  | some value => replaceGroup entry.longhands (entry.shorthand, value) m

def collapse (m : Declarations) : Declarations := expandable.foldl Entry.collapse m

end Shorthand
end AtomicCss
