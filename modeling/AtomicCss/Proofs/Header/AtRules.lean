import AtomicCss.Proofs.Header.KeptStrings
import AtomicCss.Proofs.Model.Reachable
import AtomicCss.Proofs.Style.Layout
set_option autoImplicit false

/-!
What becomes of the strings in the headers of at-rules.

The tree has the header in its stored form, and a model puts at-rules into one scope if their keys
are equal. So strings are safe, and keep scopes apart, where both forms keep them. They do if
blanks stand evenly in all strings and none ends with a backslash before its quote.
-/

namespace AtomicCss

namespace Header

open Text (strings)

theorem readsAs_atRule {h y : Text} {children : List Node} (hwhole : isWhole h = true)
    (hat : isAtHeader (Text.trim h) = true) (hy : EndsAs y children) :
    ReadsAs (h ++ '{' :: (y ++ ['}'])) [.atRule (normalize h) children] := by
  refine .block hwhole ?_ (fun before p => ?_) hy
  · intro hnil
    rw [hnil] at hat
    cases hat
  · rw [OpenBlock.close, if_pos hat, normalize_trim]

theorem strings_eq_of_key_eq {g h : Text} (hg : KeepsStrings g) (hh : KeepsStrings h)
    (hkey : key g = key h) : strings g = strings h := by
  rw [← hg.2, hkey, hh.2]

theorem exists_scope_of_key {m : Model} (hm : m.Reachable) {parent i : ScopeId} {k : Text}
    (hi : m.scopeIndex.get? (parent, k) = some i) :
    ∃ s, m.scopes[i]? = some s ∧ key s.header = k := by
  obtain ⟨s, hs, _, hkey⟩ := (hm.wellFormed.scopeIndex parent k i).1 hi
  exact ⟨s, hs, hkey⟩

/--
For a header with closed strings: when its stored form and its key keep its strings, a condition
under which they do, and what follows for the tree and for the scopes of every model. The scope
that its at-rules are put into is printed with strings that are kept, and any other header that
leads there has the same ones.
-/
theorem keepsStrings_atRule {h : Text} (hclosed : Quoting.bare.after h = .bare) :
    (KeepsStrings h ↔
      (∀ w ∈ strings h, normalize w = w) ∧ spares .bare none none (normalize h) = true) ∧
    ((∀ w ∈ strings h, normalize w = w ∧ w.dropLast.getLast? ≠ some '\\') → KeepsStrings h) ∧
    (∀ y children, isWhole h = true → isAtHeader (Text.trim h) = true → EndsAs y children →
      ReadsAs (h ++ '{' :: (y ++ ['}'])) [.atRule (normalize h) children]) ∧
    (KeepsStrings h → KeepsStrings (normalize h) ∧ ∀ m : Model, m.Reachable → ∀ parent i,
      m.scopeIndex.get? (parent, key h) = some i →
        (∃ s, m.scopes[i]? = some s ∧ (KeepsStrings s.header → strings s.header = strings h)) ∧
        ∀ p g, m.scopeIndex.get? (p, key g) = some i → KeepsStrings g → strings g = strings h) := by
  refine ⟨keepsStrings_iff hclosed, keepsStrings_of_forall hclosed,
    fun y children => readsAs_atRule, fun hkept => ⟨hkept.normalize, fun m hm parent i hi => ?_⟩⟩
  obtain ⟨s, hs, hkey⟩ := exists_scope_of_key hm hi
  refine ⟨⟨s, hs, fun hscope => strings_eq_of_key_eq hscope hkept hkey⟩, fun p g hg hkeptg => ?_⟩
  obtain ⟨t, ht, hgkey⟩ := exists_scope_of_key hm hg
  rw [hs] at ht
  cases ht
  exact strings_eq_of_key_eq hkeptg hkept (hgkey.symm.trans hkey)

theorem keepsStrings_escaped_quote :
    let h := "@supports ( content :  \"a : \\\" b\" )".toList
    Quoting.bare.after h = .bare ∧ KeepsStrings h := by
  intro h
  have hclosed : Quoting.bare.after h = .bare := by decide
  exact ⟨hclosed, (keepsStrings_atRule hclosed).2.1 (by decide)⟩

/--
A backslash that is escaped stands before the quote that ends the first string. The key takes what
follows for a string, and what is in the second string for unquoted, so that two headers lead to one
scope. And where blanks stand together in a string, the stored form has one of them.
-/
theorem not_keepsStrings_escaped_backslash :
    let h := "@supports (content: \"\\\\\") and (content: \"a : b\")".toList
    let g := "@supports (content: \"\\\\\") and (content: \"a:b\")".toList
    let w := "@supports (content: \"a  b\")".toList
    let m := (Model.empty.resolveScope rootScope h).2
    Quoting.bare.after h = .bare ∧ Quoting.bare.after g = .bare ∧ strings (key h) ≠ strings h ∧
      strings g ≠ strings h ∧
      (m.resolveScope rootScope g).1 = (m.resolveScope rootScope h).1 ∧
      Quoting.bare.after w = .bare ∧ strings (normalize w) ≠ strings w := by
  decide

end Header
end AtomicCss
