import AtomicCss.Shorthand.Table
import AtomicCss.Text.Blank
import AtomicCss.Text.Quoting
set_option autoImplicit false

/-!
Values of shorthands as lists of tokens, and the box notation: one to four values stand for top,
right, bottom and left, a missing one repeating its opposite or the first.
-/

namespace AtomicCss.Shorthand

def nesting (depth : Nat) (c : Char) : Nat :=
  if c = '(' then depth + 1 else if c = ')' then depth - 1 else depth

def finishToken (read : Text) : List Text := if read.isEmpty then [] else [read.reverse]

/-- The tokens of a text, after the characters `read` of a first one. -/
def tokensFrom (quoting : Quoting) (depth : Nat) (read : Text) : Text → List Text
  | [] => finishToken read
  | c :: r =>
    if quoting = .bare then
      if isBlank c && depth = 0 then finishToken read ++ tokensFrom .bare 0 [] r
      else tokensFrom (quoting.next c) (nesting depth c) (c :: read) r
    else tokensFrom (quoting.next c) depth (c :: read) r

/-- A value may hide any number of tokens behind `var()`. -/
def mentionsVariable (token : Text) : Bool := Text.hasInfix "var(".toList token.lower

/--
The parts of a value between blanks that stand outside strings and parentheses; none if the value is
blank or its number of tokens cannot be known.
-/
def tokens? (value : Text) : Option (List Text) :=
  let found := tokensFrom .bare 0 [] value
  if found.isEmpty || found.any mentionsVariable then none else some found

/-- Spreads one to four values over top, right, bottom and left. -/
def spread? : List Text → Option (List Text)
  | [all] => some [all, all, all, all]
  | [vertical, horizontal] => some [vertical, horizontal, vertical, horizontal]
  | [top, horizontal, bottom] => some [top, horizontal, bottom, horizontal]
  | [top, right, bottom, left] => some [top, right, bottom, left]
  | _ => none

/-- The fewest values that spread to the given top, right, bottom and left. -/
def shorten (top right bottom left : Text) : List Text :=
  if left ≠ right then [top, right, bottom, left]
  else if bottom ≠ top then [top, right, bottom]
  else if right ≠ top then [top, right]
  else [top]

theorem spread?_shorten (top right bottom left : Text) :
    spread? (shorten top right bottom left) = some [top, right, bottom, left] := by
  unfold shorten
  split
  · rfl
  split
  · simp_all [spread?]
  split <;> simp_all [spread?]

/--
The parts of a value between slashes outside strings and parentheses, after the characters `read`
(last first) of a first one. A backslash does not keep a string open here.
-/
def slashPartsFrom (quote : Option Char) (depth : Nat) (read : Text) : Text → List Text
  | [] => [read.reverse]
  | c :: r =>
    match quote with
    | some q => slashPartsFrom (if c = q then none else some q) depth (c :: read) r
    | none =>
      if isQuote c then slashPartsFrom (some c) depth (c :: read) r
      else if c = '/' && depth = 0 then read.reverse :: slashPartsFrom none 0 [] r
      else slashPartsFrom none (nesting depth c) (c :: read) r

def slashParts (value : Text) : List Text := slashPartsFrom none 0 [] value

theorem slashPartsFrom_ne_nil (quote : Option Char) (depth : Nat) (read t : Text) :
    slashPartsFrom quote depth read t ≠ [] := by
  induction t generalizing quote depth read with
  | nil => simp [slashPartsFrom]
  | cons c r ih =>
    unfold slashPartsFrom
    split
    · exact ih _ _ _
    · split
      · exact ih _ _ _
      · split
        · simp
        · exact ih _ _ _

def box? (value : Text) : Option (List Text) := (tokens? value).bind spread?

def corner (horizontal vertical : Text) : Text :=
  if horizontal = vertical then horizontal else horizontal ++ ' ' :: vertical

def radii? (value : Text) : Option (Text × Text) :=
  match tokens? value with
  | some [both] => some (both, both)
  | some [horizontal, vertical] => some (horizontal, vertical)
  | _ => none

end AtomicCss.Shorthand
