import AtomicCss.Data.Sorted
import AtomicCss.Style.Node
import AtomicCss.Text.Alphabetic
import AtomicCss.Text.Quoting
set_option autoImplicit false

/-!
The class names that the selectors of verbatim CSS mention.

A class name starts after a dot that stands outside strings and attribute brackets. A backslash
takes the next character into the name as it is.
-/

namespace AtomicCss.Selector

def startsName : Text → Bool
  | [] => false
  | '-' :: c :: _ => isAlphabetic c || c = '_' || c = '-' || c = '\\'
  | c :: _ => isAlphabetic c || c = '_' || c = '\\' || 0x80 ≤ c.toNat

/-- Characters of a class name that are written without a backslash. -/
def continuesName (c : Char) : Bool := isNameChar c || 0x80 ≤ c.toNat

inductive ClassScan where
  | between (quoting : Quoting) (inAttribute : Bool)
  /-- Inside a class name, of which `read` has been read, last character first. -/
  | name (read : Text)
  deriving DecidableEq, Repr

/-- The state after `c`, which stands before `r` and outside class names. -/
def ClassScan.pass (quoting : Quoting) (inAttribute : Bool) (c : Char) (r : Text) : ClassScan :=
  if quoting = .bare then
    if c = '.' && !inAttribute && startsName r then .name []
    else
      .between (quoting.next c)
        (if c = '[' then true else if c = ']' then false else inAttribute)
  else .between (quoting.next c) inAttribute

def classNamesFrom : ClassScan → Text → List Text
  | .between _ _, [] => []
  | .between q a, c :: r => classNamesFrom (.pass q a c r) r
  | .name read, [] => [read.reverse]
  | .name read, '\\' :: c :: r => classNamesFrom (.name (c :: read)) r
  | .name read, c :: r =>
    if continuesName c then classNamesFrom (.name (c :: read)) r
    else read.reverse :: classNamesFrom (.pass .bare false c r) r

def classNames (selector : Text) : List Text := classNamesFrom (.between .bare false) selector

end AtomicCss.Selector

namespace AtomicCss.Node

mutual

/-- Every class name in the rule selectors of a tree, as written. -/
def classMentions : Node → List Text
  | .declaration _ _ | .statement _ => []
  | .rule selector children => Selector.classNames selector ++ classMentionsAll children
  | .atRule _ children => classMentionsAll children

def classMentionsAll : List Node → List Text
  | [] => []
  | n :: r => classMentions n ++ classMentionsAll r

end

def classNames (nodes : List Node) : List Text := Sorted.ofList (classMentionsAll nodes)

end AtomicCss.Node
