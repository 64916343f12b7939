import AtomicCss.Proofs.Model.Walk
import Mathlib.Data.List.Forall2
set_option autoImplicit false

namespace AtomicCss

/-- The same node, but for the order of siblings at every depth. -/
inductive Node.Rearranged : Node → Node → Prop where
  | declaration (property value : Text) :
      Rearranged (.declaration property value) (.declaration property value)
  | rule (selector : Text) {l k r : List Node} :
      List.Forall₂ Rearranged l k → k.Perm r → Rearranged (.rule selector l) (.rule selector r)
  | atRule (header : Text) {l k r : List Node} :
      List.Forall₂ Rearranged l k → k.Perm r → Rearranged (.atRule header l) (.atRule header r)
  | statement (header : Text) : Rearranged (.statement header) (.statement header)

namespace Node

def RearrangedAll (l r : List Node) : Prop := ∃ k, List.Forall₂ Rearranged l k ∧ k.Perm r

mutual

theorem Rearranged.refl (n : Node) : n.Rearranged n := by
  match n with
  | .declaration property value => exact .declaration property value
  | .rule selector children => exact .rule selector (forall₂_rearranged_refl children) (.refl _)
  | .atRule header children => exact .atRule header (forall₂_rearranged_refl children) (.refl _)
  | .statement header => exact .statement header

theorem forall₂_rearranged_refl (l : List Node) : List.Forall₂ Rearranged l l := by
  match l with
  | [] => exact .nil
  | n :: r => exact .cons (.refl n) (forall₂_rearranged_refl r)

end

end Node

theorem Walk.stop_andThen {a b : Walk} :
    (a.andThen b).stop = none ↔ a.stop = none ∧ b.stop = none := by
  obtain ⟨steps, stop⟩ := a
  cases stop <;> simp [andThen]

namespace Spot

theorem stop_walkAll {spot : Spot} {l : List Node} :
    (spot.walkAll l).stop = none ↔ ∀ n ∈ l, (spot.walk n).stop = none := by
  induction l with
  | nil => simp [walkAll, Walk.done]
  | cons n r ih => rw [walkAll, Walk.stop_andThen, ih, List.forall_mem_cons]

theorem stop_walk_rule {spot : Spot} {selector : Text} {children : List Node} :
    (spot.walk (.rule selector children)).stop = none ↔ spot.suffix.isEmpty = true ∧
      ∀ entry ∈ Selector.entries selector, ∃ s, Selector.Pseudo.ofEntry? entry = some s ∧
        (walkAll (spot.withPseudo s) children).stop = none := by
  rw [walk]
  by_cases hs : spot.suffix.isEmpty
  · rw [if_pos hs]
    induction Selector.entries selector with
    | nil => simp [hs, Walk.done]
    | cons entry r ih =>
      rw [List.foldr_cons, List.forall_mem_cons]
      cases he : Selector.Pseudo.ofEntry? entry with
      | none => simp [Walk.fail]
      | some s =>
        rw [Walk.stop_andThen, ih]
        simp [hs]
  · simp [hs, Walk.fail]

theorem stop_walk_atRule {spot : Spot} {header : Text} {children : List Node} :
    (spot.walk (.atRule header children)).stop = none ↔
      (walkAll (spot.inside header) children).stop = none := by
  rw [walk, Walk.stop_andThen]
  simp

theorem stop_walkAll_perm (spot : Spot) {l r : List Node} (h : l.Perm r) :
    (spot.walkAll l).stop = none ↔ (spot.walkAll r).stop = none := by
  simp only [stop_walkAll, h.mem_iff]

mutual

theorem stop_walk_rearranged (spot : Spot) (n : Node) {o : Node} (h : n.Rearranged o) :
    (spot.walk n).stop = none ↔ (spot.walk o).stop = none := by
  match n with
  | .declaration _ _ | .statement _ =>
    cases h
    exact Iff.rfl
  | .rule selector children =>
    cases h with
    | rule _ hall hperm =>
      have hsame := fun spot => (stop_walkAll_forall₂ spot children hall).trans
        (stop_walkAll_perm spot hperm)
      simp only [stop_walk_rule, hsame]
  | .atRule header children =>
    cases h with
    | atRule _ hall hperm =>
      rw [stop_walk_atRule, stop_walk_atRule]
      exact (stop_walkAll_forall₂ _ children hall).trans (stop_walkAll_perm _ hperm)

theorem stop_walkAll_forall₂ (spot : Spot) (l : List Node) {r : List Node}
    (h : List.Forall₂ Node.Rearranged l r) :
    (spot.walkAll l).stop = none ↔ (spot.walkAll r).stop = none := by
  match l with
  | [] =>
    cases h
    exact Iff.rfl
  | n :: rest =>
    cases h with
    | cons hn hrest =>
      rw [walkAll, walkAll, Walk.stop_andThen, Walk.stop_andThen, stop_walk_rearranged spot n hn,
        stop_walkAll_forall₂ spot rest hrest]

end

theorem stop_walkAll_rearranged (spot : Spot) {l r : List Node} (h : Node.RearrangedAll l r) :
    (spot.walkAll l).stop = none ↔ (spot.walkAll r).stop = none := by
  obtain ⟨k, hall, hperm⟩ := h
  exact (stop_walkAll_forall₂ spot l hall).trans (stop_walkAll_perm spot hperm)

end Spot

/-- One longhand that a declaration writes. -/
structure Longhand where
  spot : Spot
  property : Text
  value : Text
  deriving DecidableEq, Repr

/-- Longhands with one key are written to one place. -/
def Longhand.key (w : Longhand) : List Text × Text × Text :=
  (w.spot.path.map Header.key, w.spot.suffix, w.property)

namespace Step

def isEnter : Step → Bool
  | .enter _ _ => true
  | .declare _ _ _ => false

def longhands : Step → List Longhand
  | .enter _ _ => []
  | .declare spot property value =>
    (Shorthand.expansion property value).map fun d => ⟨spot, d.1, d.2⟩

/-- What the steps write to a key, one after the other. -/
def writesTo (key : List Text × Text × Text) (steps : List Step) : List (Nat × Text) :=
  ((steps.flatMap longhands).filter (·.key = key)).map fun w => (w.spot.repeats, w.value)

/-- At-rules come in the same order, and so do the writes to every key. -/
structure KeepsOrder (a b : List Step) : Prop where
  enters : a.filter isEnter = b.filter isEnter
  writes : ∀ key, writesTo key a = writesTo key b

theorem writesTo_eq_nil {key : List Text × Text × Text} {steps : List Step}
    (h : ∀ w ∈ steps.flatMap longhands, w.key ≠ key) : writesTo key steps = [] := by
  rw [writesTo, List.filter_eq_nil_iff.2 fun w hw => by simpa using h w hw]
  rfl

theorem keepsOrder_iff {a b : List Step} :
    KeepsOrder a b ↔ a.filter isEnter = b.filter isEnter ∧
      ∀ w ∈ (a ++ b).flatMap longhands, writesTo w.key a = writesTo w.key b := by
  refine ⟨fun h => ⟨h.enters, fun w _ => h.writes w.key⟩, fun h => ⟨h.1, fun key => ?_⟩⟩
  by_cases hkey : ∃ w ∈ (a ++ b).flatMap longhands, w.key = key
  · obtain ⟨w, hw, rfl⟩ := hkey
    exact h.2 w hw
  · have hnone : ∀ w ∈ a.flatMap longhands ++ b.flatMap longhands, w.key ≠ key := fun w hw heq =>
      hkey ⟨w, by rwa [List.flatMap_append], heq⟩
    rw [writesTo_eq_nil fun w hw => hnone w (List.mem_append_left _ hw),
      writesTo_eq_nil fun w hw => hnone w (List.mem_append_right _ hw)]

instance (a b : List Step) : Decidable (KeepsOrder a b) := decidable_of_iff _ keepsOrder_iff.symm

end Step
end AtomicCss
