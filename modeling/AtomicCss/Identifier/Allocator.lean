import AtomicCss.Identifier.Word
set_option autoImplicit false

namespace AtomicCss

structure Allocator where
  stem : Text
  reserved : List Text
  /-- The number of the last word looked at. -/
  counter : Nat
  deriving DecidableEq, Repr

namespace Allocator

/-- A stem is empty or an ASCII identifier that does not begin with a digit. -/
def isStem : Text → Bool
  | [] => true
  | c :: r => (c.isAlpha || c = '-' || c = '_') && r.all isNameChar

def ofStem? (stem : Text) (reserved : List Text) : Option Allocator :=
  if isStem stem then some ⟨stem, reserved, 0⟩ else none

def candidate (a : Allocator) (n : Nat) : Text := a.stem ++ Word.ofNumber n

/-- The next number whose name is free. Of one more numbers than names are reserved, one is. -/
def nextNumber (a : Allocator) : Nat :=
  ((List.range' (a.counter + 1) a.reserved.length).find? fun n => a.candidate n ∉ a.reserved).getD
    (a.counter + 1 + a.reserved.length)

def next (a : Allocator) : Text × Allocator :=
  (a.candidate a.nextNumber, { a with counter := a.nextNumber })

def take (a : Allocator) : Nat → List Text × Allocator
  | 0 => ([], a)
  | n + 1 =>
    let (ident, a) := a.next
    let (rest, a) := a.take n
    (ident :: rest, a)

@[simp] theorem stem_next (a : Allocator) : a.next.2.stem = a.stem := rfl

@[simp] theorem reserved_next (a : Allocator) : a.next.2.reserved = a.reserved := rfl

theorem counter_lt_next (a : Allocator) : a.counter < a.next.2.counter := by
  simp only [next, nextNumber]
  cases h : (List.range' (a.counter + 1) a.reserved.length).find?
      fun n => a.candidate n ∉ a.reserved with
  | none => simp only [Option.getD_none]; omega
  | some n =>
    have hn := List.mem_range'_1.1 (List.mem_of_find?_eq_some h)
    simp only [Option.getD_some]; omega

theorem length_take (a : Allocator) (n : Nat) : (a.take n).1.length = n := by
  induction n generalizing a with
  | zero => rfl
  | succ n ih => simp [take, ih]

end Allocator
end AtomicCss
