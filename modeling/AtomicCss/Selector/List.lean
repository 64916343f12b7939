import AtomicCss.Text.Blank
import AtomicCss.Text.Quoting
set_option autoImplicit false

namespace AtomicCss.Selector

/-- The depth after a character outside strings. A surplus closer changes nothing. -/
def nesting (depth : Nat) (c : Char) : Nat :=
  if c = '(' || c = '[' then depth + 1
  else if c = ')' || c = ']' then depth - 1
  else depth

/-- The entries of a text, the first of which begins with `read` (last character first). -/
def entriesFrom (quoting : Quoting) (depth : Nat) (read : Text) : Text → List Text
  | [] => [read.reverse]
  | c :: r =>
    if quoting = .bare then
      if c = ',' && depth = 0 then read.reverse :: entriesFrom .bare 0 [] r
      else entriesFrom (quoting.next c) (nesting depth c) (c :: read) r
    else entriesFrom (quoting.next c) depth (c :: read) r

def pieces (selector : Text) : List Text := entriesFrom .bare 0 [] selector

def entries (selector : Text) : List Text := (pieces selector).map Text.trim

theorem entriesFrom_ne_nil (quoting : Quoting) (depth : Nat) (read t : Text) :
    entriesFrom quoting depth read t ≠ [] := by
  induction t generalizing quoting depth read with
  | nil => simp [entriesFrom]
  | cons c r ih =>
    unfold entriesFrom
    split
    · split
      · simp
      · exact ih _ _ _
    · exact ih _ _ _

theorem join_entriesFrom (quoting : Quoting) (depth : Nat) (read t : Text) :
    Text.join [','] (entriesFrom quoting depth read t) = read.reverse ++ t := by
  induction t generalizing quoting depth read with
  | nil => simp [entriesFrom]
  | cons c r ih =>
    unfold entriesFrom
    split
    · split
      · rename_i h
        simp only [Bool.and_eq_true, decide_eq_true_eq] at h
        rw [Text.join_cons _ _ (entriesFrom_ne_nil _ _ _ _), ih]
        simp [h.1]
      · rw [ih]; simp
    · rw [ih]; simp

theorem join_pieces (selector : Text) : Text.join [','] (pieces selector) = selector := by
  simp [pieces, join_entriesFrom]

@[simp] theorem entries_nil : entries [] = [[]] := rfl

end AtomicCss.Selector
