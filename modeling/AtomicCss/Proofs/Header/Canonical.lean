import AtomicCss.Proofs.Header.Spaces
import Mathlib.Logic.Relation
set_option autoImplicit false

/-!
The key of a header as a canonical form.

Without strings, two headers have the same key if and only if one becomes the other by changes of
spacing that mean nothing (`Respaced`): at the ends, next to other blanks, and where punctuation
swallows them. One direction walks along the header and takes the changes one by one; for the other,
what `respace` writes is the same before and after each change.
-/

namespace AtomicCss.Header

/-- One blank more in a place where it means nothing, or a blank for another blank. -/
inductive Respaced : Text → Text → Prop where
  | start {b : Char} (t : Text) : isBlank b = true → Respaced t (b :: t)
  | finish {b : Char} (t : Text) : isBlank b = true → Respaced t (t ++ [b])
  | exchange {a b : Char} (s t : Text) : isBlank a = true → isBlank b = true →
      Respaced (s ++ a :: t) (s ++ b :: t)
  | double {a b : Char} (s t : Text) : isBlank a = true → isBlank b = true →
      Respaced (s ++ a :: t) (s ++ a :: b :: t)
  | after {c b : Char} (s t : Text) : swallowsAfter c = true → isBlank b = true →
      Respaced (s ++ c :: t) (s ++ c :: b :: t)
  | before {c b : Char} (s t : Text) : swallowsBefore c = true → isBlank b = true →
      Respaced (s ++ c :: t) (s ++ b :: c :: t)

/-- The smallest equivalence that allows these changes. -/
abbrev SameSpacing : Text → Text → Prop := Relation.EqvGen Respaced

theorem swallowsAfter_ink {c : Char} (h : swallowsAfter c = true) : isBlank c = false := by
  simp only [swallowsAfter, Bool.or_eq_true, decide_eq_true_eq] at h
  rcases h with (rfl | rfl) | rfl <;> rfl

theorem swallowsBefore_ink {c : Char} (h : swallowsBefore c = true) : isBlank c = false := by
  simp only [swallowsBefore, Bool.or_eq_true, decide_eq_true_eq] at h
  rcases h with (rfl | rfl) | rfl <;> rfl

theorem Respaced.respace_eq {g h : Text} (hs : Respaced g h) :
    respace apart none false g = respace apart none false h := by
  cases hs with
  | start t hb => rw [respace_blank hb, respace_gap true fun _ => rfl]
  | @finish b _ hb =>
    have hend : ∀ last gap, respace apart last gap [] = respace apart last gap [b] := by
      intro last gap
      rw [respace_blank hb]
      rfl
    simpa using respace_append_congr hend g none false
  | exchange s t ha hb =>
    refine respace_append_congr (fun last gap => ?_) s none false
    rw [respace_blank ha, respace_blank hb]
  | double s t ha hb =>
    refine respace_append_congr (fun last gap => ?_) s none false
    rw [respace_blank ha, respace_blank ha, respace_blank hb]
  | after s t hc hb =>
    refine respace_append_congr (fun last gap => ?_) s none false
    rw [respace_ink (swallowsAfter_ink hc), respace_ink (swallowsAfter_ink hc), respace_blank hb,
      respace_gap true (by simp [apart, hc])]
  | @before c b s t hc hb =>
    refine respace_append_congr (fun last gap => ?_) s none false
    have hjoin : last.any (apart · c) = false := by cases last <;> simp [apart, hc]
    rw [respace_blank hb, respace_ink (swallowsBefore_ink hc),
      respace_ink (swallowsBefore_ink hc), hjoin, Bool.and_false, Bool.and_false]

theorem SameSpacing.respace_eq {g h : Text} (hs : SameSpacing g h) :
    respace apart none false g = respace apart none false h := by
  induction hs with
  | rel _ _ step => exact step.respace_eq
  | refl _ => rfl
  | symm _ _ _ ih => exact ih.symm
  | trans _ _ _ _ _ first second => exact first.trans second

theorem sameSpacing_drop {s : Text} {c : Char} (h : s.getLast?.any (apart · c) = false) (t : Text) :
    SameSpacing (s ++ ' ' :: c :: t) (s ++ c :: t) := by
  have hspace : isBlank ' ' = true := by decide
  refine .symm _ _ (.rel _ _ ?_)
  rcases List.eq_nil_or_concat s with rfl | ⟨u, d, rfl⟩
  · exact .start (c :: t) hspace
  · have hjoin : swallowsAfter d = true ∨ swallowsBefore c = true := by
      cases hd : swallowsAfter d with
      | true => exact Or.inl rfl
      | false => simpa [apart, hd] using h
    rcases hjoin with hd | hc
    · simpa using Respaced.after u (c :: t) hd hspace
    · exact .before _ t hc hspace

theorem sameSpacing_respace (s t : Text) (gap : Bool) :
    SameSpacing (s ++ ((if gap then [' '] else []) ++ t))
      (s ++ respace apart s.getLast? gap t) := by
  have hspace : isBlank ' ' = true := by decide
  induction t generalizing s gap with
  | nil =>
    cases gap with
    | false => exact .refl _
    | true => simpa [respace] using Relation.EqvGen.symm _ _ (.rel _ _ (.finish s hspace))
  | cons c r ih =>
    cases hc : isBlank c with
    | true =>
      rw [respace_blank hc]
      refine .trans _ _ _ ?_ (ih s true)
      cases gap with
      | false => exact .rel _ _ (.exchange s r hc hspace)
      | true => exact .symm _ _ (.rel _ _ (.double s r hspace hc))
    | false =>
      rw [respace_ink hc]
      cases hpart : gap && s.getLast?.any (apart · c) with
      | true =>
        have hnext := ih (s ++ [' ', c]) false
        simpa [(Bool.and_eq_true_iff.1 hpart).1] using hnext
      | false =>
        have hnext := ih (s ++ [c]) false
        refine .trans _ (s ++ c :: r) _ ?_ (by simpa using hnext)
        cases gap with
        | false => exact .refl _
        | true => exact sameSpacing_drop hpart r

theorem sameSpacing_key {h : Text} (hquote : ∀ c ∈ h, isQuote c = false) :
    SameSpacing h (key h) := by
  rw [key_eq_respace hquote]
  exact sameSpacing_respace [] h false

/--
The key is a canonical form: taking it again changes nothing, taking it of the stored form gives the
same, and headers without strings share it exactly if only meaningless spacing tells them apart.
-/
theorem key_canonical (h : Text) :
    key (key h) = key h ∧ key (normalize h) = key h ∧
      ∀ g : Text, (∀ c ∈ g, isQuote c = false) → (∀ c ∈ h, isQuote c = false) →
        (key g = key h ↔ SameSpacing g h) := by
  refine ⟨key_key h, key_normalize h, fun g hg hh => ⟨fun hkey => ?_, fun hsame => ?_⟩⟩
  · have hback := Relation.EqvGen.symm _ _ (sameSpacing_key hh)
    rw [← hkey] at hback
    exact .trans _ _ _ (sameSpacing_key hg) hback
  · rw [key_eq_respace hg, key_eq_respace hh, hsame.respace_eq]

theorem key_canonical_media :
    let g := "@media\t( min-width :\n100px )  ,print".toList
    let h := "@media (min-width:100px),print ".toList
    (∀ c ∈ g, isQuote c = false) ∧ (∀ c ∈ h, isQuote c = false) ∧ SameSpacing g h := by
  intro g h
  have hall : (g ++ h).all (fun c => !isQuote c) = true := by decide
  have hg : ∀ c ∈ g, isQuote c = false := fun c hc => by
    simpa using List.all_eq_true.1 hall c (List.mem_append_left h hc)
  have hh : ∀ c ∈ h, isQuote c = false := fun c hc => by
    simpa using List.all_eq_true.1 hall c (List.mem_append_right g hc)
  exact ⟨hg, hh, ((key_canonical h).2.2 g hg hh).1 (by decide)⟩

end AtomicCss.Header
