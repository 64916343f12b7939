import AtomicCss.Proofs.Style.Scan
import Mathlib.Logic.Relation
import Mathlib.Tactic.MkIffOfInductiveProp
set_option autoImplicit false

/-!
How a style text is read from the left, told without a reader: complete strings and comments at one
go, and all else character by character, with the blocks and parentheses that are open.

There is at most one way on from a cursor (`Cursor.Step.unique`), so a text has at most one place
where none is left (`Cursor.Reached.unique_end`).
-/

namespace AtomicCss

/-- What stands between two quotes `q`, on one line but for escaped line feeds. -/
inductive StringBody (q : Char) : Text → Prop where
  | nil : StringBody q []
  | plain {c : Char} {s : Text} : c ≠ q → c ≠ '\\' → c ≠ '\n' → StringBody q s →
      StringBody q (c :: s)
  | escaped {c : Char} {s : Text} : StringBody q s → StringBody q ('\\' :: c :: s)

/-- Text that neither opens a comment or string nor a block or parenthesis, nor closes any. -/
@[mk_iff]
structure IsPlain (depth : Nat) (c : Char) (r : Text) : Prop where
  quote : isQuote c = false
  parenthesis : c ≠ '(' ∧ c ≠ ')'
  brace : depth = 0 → c ≠ '{' ∧ c ≠ '}'
  comment : ¬(c = '/' ∧ r.head? = some '*')

/-- A place outside strings and comments. -/
structure Cursor where
  /-- The text from each brace on whose block is open, innermost first. -/
  blocks : List Text
  depth : Nat
  rest : Text

namespace Cursor

inductive Step : Cursor → Cursor → Prop where
  | plain {blocks : List Text} {depth : Nat} {c : Char} {r : Text} : IsPlain depth c r →
      Step ⟨blocks, depth, c :: r⟩ ⟨blocks, depth, r⟩
  | quoted {blocks : List Text} {depth : Nat} {q : Char} {s r : Text} : isQuote q = true →
      StringBody q s → Step ⟨blocks, depth, q :: (s ++ q :: r)⟩ ⟨blocks, depth, r⟩
  | comment {blocks : List Text} {depth : Nat} {s r : Text} : ¬['*', '/'] <:+: s →
      Step ⟨blocks, depth, '/' :: '*' :: (s ++ '*' :: '/' :: r)⟩ ⟨blocks, depth, r⟩
  | opening {blocks : List Text} {depth : Nat} {r : Text} :
      Step ⟨blocks, depth, '(' :: r⟩ ⟨blocks, depth + 1, r⟩
  | closing {blocks : List Text} {depth : Nat} {r : Text} :
      Step ⟨blocks, depth, ')' :: r⟩ ⟨blocks, depth - 1, r⟩
  | openBlock {blocks : List Text} {r : Text} :
      Step ⟨blocks, 0, '{' :: r⟩ ⟨('{' :: r) :: blocks, 0, r⟩
  | closeBlock {w : Text} {blocks : List Text} {r : Text} :
      Step ⟨w :: blocks, 0, '}' :: r⟩ ⟨blocks, 0, r⟩

/-- Reading `t` comes to this place. -/
def Reached (t : Text) (x : Cursor) : Prop := Relation.ReflTransGen Step ⟨[], 0, t⟩ x

end Cursor

theorem StringBody.unique {q : Char} (hq : isQuote q = true) {s u r v : Text} (hs : StringBody q s)
    (hu : StringBody q u) (h : s ++ q :: r = u ++ q :: v) : s = u ∧ r = v := by
  have hback : q ≠ '\\' := by
    rintro rfl
    cases hq
  induction hs generalizing u with
  | nil =>
    cases hu with
    | nil => exact ⟨rfl, (List.cons.inj h).2⟩
    | plain hne _ _ _ => exact absurd (List.cons.inj h).1.symm hne
    | escaped _ => exact absurd (List.cons.inj h).1 hback
  | plain hne hescape _ _ ih =>
    cases hu with
    | nil => exact absurd (List.cons.inj h).1 hne
    | plain _ _ _ hu =>
      obtain ⟨rfl, htail⟩ := List.cons.inj h
      obtain ⟨rfl, rfl⟩ := ih hu htail
      exact ⟨rfl, rfl⟩
    | escaped _ => exact absurd (List.cons.inj h).1 hescape
  | escaped _ ih =>
    cases hu with
    | nil => exact absurd (List.cons.inj h).1.symm hback
    | plain _ hescape _ _ => exact absurd (List.cons.inj h).1.symm hescape
    | escaped hu =>
      obtain ⟨rfl, htail⟩ := List.cons.inj (List.cons.inj h).2
      obtain ⟨rfl, rfl⟩ := ih hu htail
      exact ⟨rfl, rfl⟩

theorem ne_slash_of_unclosed {s r x : Text} (h : ¬['*', '/'] <:+: '*' :: s) :
    s ++ '*' :: r ≠ '/' :: x := by
  cases s with
  | nil => simp
  | cons c s =>
    rintro heq
    obtain ⟨rfl, _⟩ := List.cons.inj heq
    exact h (List.IsPrefix.isInfix ⟨s, rfl⟩)

theorem comment_unique {s u r v : Text} (hs : ¬['*', '/'] <:+: s) (hu : ¬['*', '/'] <:+: u)
    (h : s ++ '*' :: '/' :: r = u ++ '*' :: '/' :: v) : s = u ∧ r = v := by
  induction s generalizing u with
  | nil =>
    cases u with
    | nil => exact ⟨rfl, (List.cons.inj (List.cons.inj h).2).2⟩
    | cons c u =>
      obtain ⟨rfl, htail⟩ := List.cons.inj h
      exact absurd htail.symm (ne_slash_of_unclosed hu)
  | cons c s ih =>
    cases u with
    | nil =>
      obtain ⟨rfl, htail⟩ := List.cons.inj h
      exact absurd htail (ne_slash_of_unclosed hs)
    | cons d u =>
      obtain ⟨rfl, htail⟩ := List.cons.inj h
      rw [List.infix_cons_iff, not_or] at hs hu
      obtain ⟨rfl, rfl⟩ := ih hs.2 hu.2 htail
      exact ⟨rfl, rfl⟩

namespace Cursor

theorem Step.unique {x y z : Cursor} (hy : Step x y) (hz : Step x z) : y = z := by
  generalize hx : x = x' at hz
  cases hy <;> cases hz <;> simp only [Cursor.mk.injEq, List.cons.injEq] at hx
  case quoted.quoted hq hs _ _ _ _ _ _ hs' =>
    obtain ⟨rfl, rfl, rfl, htail⟩ := hx
    rw [(hs.unique hq hs' htail).2]
  case comment.comment hs _ _ _ _ hs' =>
    obtain ⟨rfl, rfl, _, _, htail⟩ := hx
    rw [(comment_unique hs hs' htail).2]
  -- elsewhere the first characters are the same, or they are of different kinds
  all_goals grind [isPlain_iff, isQuote]

theorem Reached.unique_end {t : Text} {x y : Cursor} (hx : Reached t x) (hy : Reached t y)
    (hxend : ∀ z, ¬Step x z) (hyend : ∀ z, ¬Step y z) : x = y := by
  have hunique : Relator.RightUnique Step := fun _ _ _ => Step.unique
  rcases Relation.ReflTransGen.total_of_right_unique hunique hx hy with h | h
  · rcases Relation.ReflTransGen.cases_head h with heq | ⟨z, hz, _⟩
    · exact heq
    · exact absurd hz (hxend z)
  · rcases Relation.ReflTransGen.cases_head h with heq | ⟨z, hz, _⟩
    · exact heq.symm
    · exact absurd hz (hyend z)

end Cursor
end AtomicCss
