import AtomicCss.Input.Description
import AtomicCss.Json.Reader
set_option autoImplicit false

/-!
Documents of bindings in JSON.

Bindings are read one after the other, and one of a shape that no binding can have ends the reading
as soon as its value is complete, whatever comes after it.
-/

namespace AtomicCss

inductive JsonFault where
  | malformed
  /-- Well-formed so far, but no document of bindings. -/
  | unexpectedShape
  deriving DecidableEq, Repr

def JsonFault.message : JsonFault → Text
  | .malformed => "the text is not JSON".toList
  | .unexpectedShape => "a value has none of the shapes of a binding".toList

namespace Json

def text? : Json → Option Text
  | .string t => some t
  | _ => none

/-- Of two members with one key the later counts. -/
def binding? : Json → Option Binding
  | .string t => some (.text t)
  | .array l => (l.mapM text?).map .list
  | .object l => (l.mapM fun m => (text? m.2).map (m.1, ·)).map fun s => .styles (.ofList s)
  | _ => none

/-- The bindings up to the end of the document, in at most `fuel` steps. -/
def bindings (fuel : Nat) (isFirst : Bool) (t : Text) :
    Except JsonFault (List (Text × Binding) × Text) :=
  match fuel, skipSpace t with
  | _ + 1, '}' :: r => .ok ([], r)
  | fuel + 1, t =>
    match (comma? isFirst t).bind key? with
    | none => .error .malformed
    | some (k, r) =>
      match value? fuel (maxDepth - 1) r with
      | none => .error .malformed
      | some (v, r) =>
        match v.binding? with
        | none => .error .unexpectedShape
        | some b => (bindings fuel false r).map fun (l, rest) => ((k, b) :: l, rest)
  | 0, _ => .error .malformed

def document (t : Text) : Except JsonFault (List (Text × Binding)) :=
  match skipSpace t with
  | '{' :: r =>
    match bindings (r.length + 1) true r with
    | .ok (l, rest) => if (skipSpace rest).isEmpty then .ok l else .error .malformed
    | .error e => .error e
  | '[' :: _ => .error .unexpectedShape
  | t => if (atom? t).isSome then .error .unexpectedShape else .error .malformed

end Json
end AtomicCss
