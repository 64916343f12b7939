import AtomicCss.Data.OrderedMap
import AtomicCss.Identifier.Allocator
import AtomicCss.Sheet.Group
set_option autoImplicit false

/-!
Class names on demand: one for each key, drawn when the key is first asked for, and the list of
class names of each style in the order in which it got them.
-/

namespace AtomicCss

/-- What a class name stands for. -/
inductive ClassKey where
  /-- What one style has to itself. -/
  | own (name : NameId)
  /-- What a set of contributors shares, as it stands in selectors of one kind. -/
  | shared (set : List Contributor) (variant : Variant)
  deriving DecidableEq, Repr

structure Allocation where
  allocator : Allocator
  classes : OrderedMap ClassKey Text
  assignments : List (List Text)
  deriving DecidableEq, Repr

namespace Allocation

def fresh (allocator : Allocator) (names : Nat) : Allocation :=
  ⟨allocator, [], List.replicate names []⟩

def classFor (key : ClassKey) : StateM Allocation Text := fun a =>
  match a.classes.get? key with
  | some ident => (ident, a)
  | none =>
    let (ident, allocator) := a.allocator.next
    (ident, { a with allocator := allocator, classes := a.classes.put key ident })

def assign (name : NameId) (ident : Text) : StateM Allocation Unit := fun a =>
  ((), { a with assignments :=
    a.assignments.modify name fun l => if ident ∈ l then l else l ++ [ident] })

theorem classFor_eq {key : ClassKey} {a : Allocation} {ident : Text}
    (h : a.classes.get? key = some ident) : classFor key a = (ident, a) := by
  simp only [classFor, h]

theorem get?_classFor (key : ClassKey) (a : Allocation) :
    (classFor key a).2.classes.get? key = some (classFor key a).1 := by
  unfold classFor
  split
  · assumption
  · simp [OrderedMap.get?_put]

theorem get?_classFor_of_ne {key other : ClassKey} (h : key ≠ other) (a : Allocation) :
    (classFor key a).2.classes.get? other = a.classes.get? other := by
  unfold classFor
  split
  · rfl
  · simp [OrderedMap.get?_put, h]

end Allocation
end AtomicCss
