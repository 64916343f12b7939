import AtomicCss.Data.OrderedMap
import AtomicCss.Input.Description
import AtomicCss.Toml.Reader
set_option autoImplicit false

/-!
Documents of bindings in TOML.

A key is written once. A table comes from its header, from an inline table, or from dotted keys, and
from one of these only. A date or time stands as a table with a single member.
-/

namespace AtomicCss.Toml

/-- What a document has said about one binding so far. -/
inductive Slot where
  /-- Complete: no later statement may add to it. -/
  | closed (b : Value)
  /-- The members that dotted keys gave. -/
  | dotted (members : List (Text × Text))
  /-- The members below a header. -/
  | headed (members : List (Text × Text))
  deriving DecidableEq, Repr

structure Draft where
  slots : OrderedMap Text Slot
  /-- The table whose header came last. -/
  current : Option Text
  deriving Repr

def addMember? (members : List (Text × Text)) (k v : Text) : Option (List (Text × Text)) :=
  if members.any (·.1 = k) then none else some (members ++ [(k, v)])

def Draft.add? (d : Draft) (s : Statement) : Option Draft :=
  match s, d.current with
  | .header [k], _ =>
    match d.slots.get? k with
    | none => some ⟨d.slots.put k (.headed []), some k⟩
    | some _ => none
  | .assign [k] v, none =>
    match d.slots.get? k with
    | none => some { d with slots := d.slots.put k (.closed v) }
    | some _ => none
  | .assign [k, m] (.text t), none =>
    match d.slots.get? k with
    | none => some { d with slots := d.slots.put k (.dotted [(m, t)]) }
    | some (.dotted members) =>
      (addMember? members m t).map fun l => { d with slots := d.slots.put k (.dotted l) }
    | some _ => none
  | .assign [m] (.text t), some k =>
    match d.slots.get? k with
    | some (.headed members) =>
      (addMember? members m t).map fun l => { d with slots := d.slots.put k (.headed l) }
    | _ => none
  | _, _ => none

def dateTimeName : Text := "$__toml_private_datetime".toList

def distinctKeys (members : List (Text × Text)) : Bool :=
  let keys := members.map (·.1)
  keys.eraseDups.length = keys.length

def Slot.binding? : Slot → Option Binding
  | .closed (.text t) => some (.text t)
  | .closed (.list l) => some (.list l)
  | .closed (.table m) => if distinctKeys m then some (.styles (.ofList m)) else none
  | .closed (.dateTime t) => some (.styles [(dateTimeName, t)])
  | .dotted m | .headed m => some (.styles (.ofList m))

/-- The bindings of a document, in the order in which they are first named. -/
def bindings? (t : Text) : Option (List (Text × Binding)) := do
  let statements ← document? t
  let draft ← statements.foldlM Draft.add? ⟨[], none⟩
  draft.slots.mapM fun e => e.2.binding?.map (e.1, ·)

def faultMessage : Text := "the text is not a document of bindings".toList

end AtomicCss.Toml
