import AtomicCss.Input.JsonDocument
import AtomicCss.Input.TomlDocument
set_option autoImplicit false

namespace AtomicCss

inductive InputError where
  | json (fault : JsonFault)
  | toml
  | binding (error : BindingError)
  deriving DecidableEq, Repr

def InputError.message : InputError → Text
  | .json fault => SourceFormat.json.complaint fault.message
  | .toml => SourceFormat.toml.complaint Toml.faultMessage
  | .binding error => error.message

namespace Description

/-- The description of bindings in the order of their source. Of two with one name the later counts.
-/
def ofMembers (members : List (Text × Binding)) : Except InputError Description :=
  (ofBindings (.ofList members)).mapError .binding

def load (format : SourceFormat) (source : Text) : Except InputError Description :=
  match format with
  | .json =>
    match Json.document source with
    | .ok members => ofMembers members
    | .error fault => .error (.json fault)
  | .toml =>
    match Toml.bindings? source with
    | some members => ofMembers members
    | none => .error .toml

end Description

instance : DocumentReader where
  bindings format source :=
    match format with
    | .json => ((Json.document source).map .ofList).mapError JsonFault.message
    | .toml => (Toml.bindings? source).elim (.error Toml.faultMessage) fun l => .ok (.ofList l)

end AtomicCss
