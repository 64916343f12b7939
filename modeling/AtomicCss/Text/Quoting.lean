import AtomicCss.Text.Basic
set_option autoImplicit false

/-!
Where a scanner stands with respect to quoted strings.

A string opens with `"` or `'`, closes with the same character, and a backslash inside it takes the
next character along. `Quoting.next` is the one step that all scanners of selectors and values
share.
-/

namespace AtomicCss

def isQuote (c : Char) : Bool := c = '"' || c = '\''

inductive Quoting where
  | bare
  | inside (quote : Char)
  | escaped (quote : Char)
  deriving DecidableEq, Repr

def Quoting.next : Quoting → Char → Quoting
  | .bare, c => if isQuote c then .inside c else .bare
  | .inside q, c => if c = '\\' then .escaped q else if c = q then .bare else .inside q
  | .escaped q, _ => .inside q

def Quoting.after (q : Quoting) (t : Text) : Quoting := t.foldl Quoting.next q

@[simp] theorem Quoting.after_nil (q : Quoting) : q.after [] = q := rfl

@[simp] theorem Quoting.after_cons (q : Quoting) (c : Char) (t : Text) :
    q.after (c :: t) = (q.next c).after t := rfl

/-- Only quotes open strings. -/
def Quoting.Proper : Quoting → Prop
  | .bare => True
  | .inside q | .escaped q => isQuote q = true

theorem Quoting.Proper.next {q : Quoting} (h : q.Proper) (c : Char) : (q.next c).Proper := by
  cases q with
  | bare =>
    rw [Quoting.next]
    split
    next hc => exact hc
    next => trivial
  | inside x =>
    rw [Quoting.next]
    split
    · exact h
    split
    · trivial
    · exact h
  | escaped x => exact h

end AtomicCss
