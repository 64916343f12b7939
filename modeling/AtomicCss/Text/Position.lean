import AtomicCss.Text.Basic
set_option autoImplicit false

namespace AtomicCss

structure Position where
  line : Nat
  column : Nat
  deriving DecidableEq, Repr

namespace Position

def first : Position := ⟨1, 1⟩

def advance (p : Position) (c : Char) : Position :=
  if c = '\n' then ⟨p.line + 1, 1⟩ else ⟨p.line, p.column + 1⟩

def after (t : Text) : Position := t.foldl advance first

def message (p : Position) : Text :=
  (toString p.line).toList ++ ':' :: (toString p.column).toList

@[simp] theorem after_nil : after [] = first := rfl

theorem after_append_singleton (t : Text) (c : Char) :
    after (t ++ [c]) = (after t).advance c := by
  simp [after]

end Position
end AtomicCss
