import AtomicCss.Text.Blank
import AtomicCss.Text.Quoting
set_option autoImplicit false

/-!
The selectors that a nested rule may have: ampersands, which repeat the class, and a chain of
pseudo-classes and pseudo-elements, which is kept as written.
-/

namespace AtomicCss.Selector

structure Pseudo where
  /-- How many ampersands lead, if any do. -/
  repeats : Option Nat
  suffix : Text
  deriving DecidableEq, Repr

/--
Counts leading ampersands after `count` of them and the blanks `gap` (last first).

Blanks between two ampersands mean nothing; blanks before anything else stay.
-/
def ampersands (count : Nat) (gap : Text) : Text → Nat × Text
  | [] => (count, gap.reverse)
  | c :: r =>
    if c = '&' then ampersands (count + 1) [] r
    else if isCssBlank c then ampersands count (c :: gap) r
    else (count, gap.reverse ++ c :: r)

/-- A place in a chain of pseudo-classes and pseudo-elements. -/
inductive ChainState where
  /-- Where a segment may begin or the chain end. -/
  | boundary
  | colon
  | doubleColon
  | name
  | arguments (depth : Nat) (quoting : Quoting)
  deriving DecidableEq, Repr

namespace ChainState

def step : ChainState → Char → Option ChainState
  | .boundary, c => if c = ':' then some .colon else none
  | .colon, c =>
    if c = ':' then some .doubleColon else if isNameChar c then some .name else none
  | .doubleColon, c => if isNameChar c then some .name else none
  | .name, c =>
    if isNameChar c then some .name
    else if c = ':' then some .colon
    else if c = '(' then some (.arguments 1 .bare)
    else none
  | .arguments depth quoting, c =>
    if quoting = .bare then
      if c = ')' then if depth = 1 then some .boundary else some (.arguments (depth - 1) .bare)
      else if c = '(' then some (.arguments (depth + 1) .bare)
      else some (.arguments depth (quoting.next c))
    else some (.arguments depth (quoting.next c))

def mayEnd : ChainState → Bool
  | .boundary | .name => true
  | .colon | .doubleColon | .arguments _ _ => false

end ChainState

def isChain (t : Text) : Bool := (t.foldlM ChainState.step .boundary).any ChainState.mayEnd

/-- Reads one entry of a selector list; combinators, classes, types and the like are refused. -/
def Pseudo.ofEntry? (entry : Text) : Option Pseudo :=
  let (count, suffix) := ampersands 0 [] (Text.trim entry)
  if (count = 0 && suffix.isEmpty) || !isChain suffix then none
  else some ⟨if count = 0 then none else some count, suffix⟩

end AtomicCss.Selector
