import AtomicCss.Shorthand.Value
set_option autoImplicit false

namespace AtomicCss.Shorthand

/-- An exclamation mark gives the whole declaration another priority. -/
def hasPriority (value : Text) : Bool := value.contains '!'

def Form.spread? : Form → Text → Option (List Text)
  | .sides, value => box? value
  | .corners, value =>
    match slashParts value with
    | [both] => box? both
    | [horizontal, vertical] => do
      let h ← box? horizontal
      let v ← box? vertical
      return List.zipWith corner h v
    | _ => none
  | .axes, value =>
    match tokens? value with
    | some [both] => some [both, both]
    | some [x, y] => some [x, y]
    | _ => none
  | .composite, _ => none

/-- The longhands of a declaration; none if it has to stay as it is. -/
def expand? (property value : Text) : Option (List (Text × Text)) := do
  let entry ← expandable.find? (·.shorthand = property)
  if hasPriority value then none
  else
    let values ← entry.form.spread? value
    return entry.longhands.zip values

/-- The declarations that a declaration stands for: its longhands, or itself. -/
def expansion (property value : Text) : List (Text × Text) :=
  (expand? property value).getD [(property, value)]

end AtomicCss.Shorthand
