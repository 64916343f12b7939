import AtomicCss.Text.Basic
set_option autoImplicit false

/-!
Scanners that cut a text at separators, but only where the scanner is at rest.

A text is whole if the scanner gets through it without a cut, and closed if it ends at rest. Every
text is a whole one, or a whole and closed one with a separator and another text behind it; that is
the induction by which all facts about cut texts are proved.
-/

namespace AtomicCss

structure Cutter (σ : Type) where
  rest : σ
  next : σ → Char → σ
  separates : Char → Bool
  next_rest : ∀ c, separates c = true → next rest c = rest

namespace Cutter

variable {σ : Type} [DecidableEq σ] (k : Cutter σ)

def after (s : σ) (t : Text) : σ := t.foldl k.next s

/-- Whether no separator is met at rest. -/
def passes : σ → Text → Bool
  | _, [] => true
  | s, c :: r => !(s = k.rest && k.separates c) && passes (k.next s c) r

def IsWhole (t : Text) : Prop := k.passes k.rest t = true

def IsClosed (t : Text) : Prop := k.after k.rest t = k.rest

instance (t : Text) : Decidable (k.IsWhole t) := inferInstanceAs (Decidable (_ = true))

instance (t : Text) : Decidable (k.IsClosed t) := inferInstanceAs (Decidable (_ = _))

omit [DecidableEq σ] in
@[simp] theorem after_nil (s : σ) : k.after s [] = s := rfl

omit [DecidableEq σ] in
@[simp] theorem after_cons (s : σ) (c : Char) (t : Text) :
    k.after s (c :: t) = k.after (k.next s c) t := rfl

omit [DecidableEq σ] in
theorem after_append (s : σ) (t r : Text) : k.after s (t ++ r) = k.after (k.after s t) r :=
  List.foldl_append

@[simp] theorem passes_nil (s : σ) : k.passes s [] = true := rfl

theorem passes_cons (s : σ) (c : Char) (t : Text) :
    k.passes s (c :: t) = (!(s = k.rest && k.separates c) && k.passes (k.next s c) t) := rfl

theorem passes_append (s : σ) (t r : Text) :
    k.passes s (t ++ r) = (k.passes s t && k.passes (k.after s t) r) := by
  induction t generalizing s with
  | nil => rfl
  | cons c t ih => rw [List.cons_append, passes_cons, passes_cons, ih, Bool.and_assoc, after_cons]

theorem passes_or_cuts (s : σ) (t : Text) : k.passes s t = true ∨
    ∃ u c r, t = u ++ c :: r ∧ k.passes s u = true ∧ k.after s u = k.rest ∧
      k.separates c = true := by
  induction t generalizing s with
  | nil => exact Or.inl rfl
  | cons c t ih =>
    by_cases hcut : s = k.rest ∧ k.separates c = true
    · exact Or.inr ⟨[], c, t, rfl, rfl, hcut.1, hcut.2⟩
    · have hgo : ∀ u : Text, k.passes s (c :: u) = k.passes (k.next s c) u := by
        intro u
        rw [passes_cons]
        have hstay : (s = k.rest && k.separates c) = false := by
          simpa using fun hs hc => hcut ⟨hs, hc⟩
        rw [hstay, Bool.not_false, Bool.true_and]
      rcases ih (k.next s c) with h | ⟨u, d, r, rfl, hu, hrest, hd⟩
      · exact Or.inl ((hgo t).trans h)
      · exact Or.inr ⟨c :: u, d, r, rfl, (hgo u).trans hu, hrest, hd⟩

@[simp] theorem isWhole_nil : k.IsWhole [] := rfl

omit [DecidableEq σ] in
@[simp] theorem isClosed_nil : k.IsClosed [] := rfl

variable {k}

omit [DecidableEq σ] in
theorem IsClosed.append {t : Text} (ht : k.IsClosed t) (r : Text) :
    k.IsClosed (t ++ r) ↔ k.IsClosed r := by
  rw [IsClosed, after_append, ht, IsClosed]

theorem IsClosed.isWhole_append {t : Text} (ht : k.IsClosed t) (r : Text) :
    k.IsWhole (t ++ r) ↔ k.IsWhole t ∧ k.IsWhole r := by
  rw [IsWhole, passes_append, ht, Bool.and_eq_true, IsWhole, IsWhole]

omit [DecidableEq σ] in
theorem isClosed_separator {c : Char} (hc : k.separates c = true) (r : Text) :
    k.IsClosed (c :: r) ↔ k.IsClosed r := by
  rw [IsClosed, after_cons, k.next_rest c hc, IsClosed]

theorem not_isWhole_separator {c : Char} (hc : k.separates c = true) (r : Text) :
    ¬k.IsWhole (c :: r) := by
  simp [IsWhole, passes_cons, hc]

theorem isWhole_of_append {t r : Text} (h : k.IsWhole (t ++ r)) : k.IsWhole t := by
  rw [IsWhole, passes_append, Bool.and_eq_true] at h
  exact h.1

/-- Every text is whole, or it goes on behind a separator. -/
@[elab_as_elim]
theorem cut_induction {P : Text → Prop} (whole : ∀ t, k.IsWhole t → P t)
    (cut : ∀ t c r, k.IsWhole t → k.IsClosed t → k.separates c = true → P r → P (t ++ c :: r))
    (t : Text) : P t := by
  induction hn : t.length using Nat.strongRecOn generalizing t with
  | _ n ih =>
    rcases k.passes_or_cuts k.rest t with h | ⟨u, c, r, rfl, hu, hrest, hc⟩
    · exact whole t h
    · refine cut u c r hu hrest hc (ih r.length ?_ r rfl)
      rw [← hn, List.length_append, List.length_cons]
      omega

end Cutter
end AtomicCss
