import AtomicCss.Data.OrderedMap
import AtomicCss.Shorthand.Table
set_option autoImplicit false

/-!
Composite shorthands that meet one of their own longhands.

Atomic rules do not keep the order of two declarations of one style, so a composite shorthand and a
longhand that it resets are reported whichever of them comes first.
-/

namespace AtomicCss.Shorthand

structure Conflict where
  shorthand : Text
  longhand : Text
  deriving DecidableEq, Repr

def resets (shorthand longhand : Text) : Bool :=
  (compositeLonghands shorthand).any (·.contains longhand)

def conflictsWith (seen : List Text) (property : Text) : List Conflict :=
  (seen.filter (resets property)).map (⟨property, ·⟩)
    ++ (seen.filter (resets · property)).map (⟨·, property⟩)

/-- The properties declared so far at each place. -/
structure ConflictTracker (κ : Type) where
  seen : OrderedMap κ (List Text)
  deriving Repr

namespace ConflictTracker

variable {κ : Type} [DecidableEq κ]

def empty : ConflictTracker κ := ⟨[]⟩

def declaredAt (t : ConflictTracker κ) (place : κ) : List Text := (t.seen.get? place).getD []

def record (t : ConflictTracker κ) (place : κ) (property : Text) :
    List Conflict × ConflictTracker κ :=
  (conflictsWith (t.declaredAt place) property,
    ⟨t.seen.put place (t.declaredAt place ++ [property])⟩)

theorem declaredAt_record (t : ConflictTracker κ) (place other : κ) (property : Text) :
    (t.record place property).2.declaredAt other =
      if place = other then t.declaredAt place ++ [property] else t.declaredAt other := by
  simp only [record, declaredAt, OrderedMap.get?_put]
  split <;> rfl

end ConflictTracker
end AtomicCss.Shorthand
