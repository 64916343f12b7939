import AtomicCss.Proofs.Header.Spaces
set_option autoImplicit false

namespace AtomicCss

namespace Text

/--
The strings of a text that goes on in the state `q`, with their quotes. `read` is what has been read
of the string that is open, last character first; it counts as a string if the text ends in it.
-/
def stringsFrom (read : Text) (q : Quoting) : Text → List Text
  | [] => if q = .bare then [] else [read.reverse]
  | c :: r =>
    if q.next c = .bare then
      (if q = .bare then [] else [(c :: read).reverse]) ++ stringsFrom [] .bare r
    else stringsFrom (c :: read) (q.next c) r

def strings (t : Text) : List Text := stringsFrom [] .bare t

end Text

namespace Quoting

def idle : Quoting → Quoting
  | .escaped q => .inside q
  | q => q

def IsPlain (c : Char) : Prop := isQuote c = false ∧ c ≠ '\\'

variable {q : Quoting} {c : Char}

theorem Proper.next_plain (h : q.Proper) (hc : IsPlain c) : q.next c = q.idle := by
  cases q with
  | bare => simp [Quoting.next, idle, hc.1]
  | inside x =>
    have hne : c ≠ x := by
      rintro rfl
      exact absurd h (by simp [Proper, hc.1])
    simp [Quoting.next, idle, hc.2, hne]
  | escaped x => rfl

@[simp] theorem idle_idle (q : Quoting) : q.idle.idle = q.idle := by cases q <;> rfl

@[simp] theorem idle_eq_bare : q.idle = .bare ↔ q = .bare := by cases q <;> simp [idle]

theorem Proper.idle (h : q.Proper) : q.idle.Proper := by cases q <;> exact h

theorem isPlain_blank (hc : isBlank c = true) : IsPlain c := by
  have hne : ∀ d, isBlank d = false → c ≠ d := fun _ => ne_of_isBlank hc
  exact ⟨by simp [isQuote, hne '"' (by decide), hne '\'' (by decide)], hne '\\' (by decide)⟩

end Quoting

namespace Header

open Text (strings stringsFrom)

/--
What has been read of a string and what is written of it: with any rest, the first is normalized to
the second with the rest rewritten.
-/
structure Rewrites (q : Quoting) (read written : Text) (last : Option Char) (gap : Bool) :
    Prop where
  bare : q = .bare → read = [] ∧ written = []
  inside : q ≠ .bare → last ≠ none ∧
    ∀ u, normalize (read.reverse ++ u) = written.reverse ++ respace always last gap u

theorem rewrites_bare (last : Option Char) (gap : Bool) : Rewrites .bare [] [] last gap :=
  ⟨fun _ => ⟨rfl, rfl⟩, fun h => absurd rfl h⟩

variable {q p : Quoting} {read written t : Text} {last : Option Char} {gap : Bool} {c : Char}

theorem Rewrites.blank (h : Rewrites p read written last gap) (hc : isBlank c = true) :
    Rewrites p (if p = .bare then [] else c :: read) written last true where
  bare hp := by
    rw [if_pos hp]
    exact ⟨rfl, (h.bare hp).2⟩
  inside hp := by
    obtain ⟨hlast, hread⟩ := h.inside hp
    refine ⟨hlast, fun u => ?_⟩
    have hcons := hread (c :: u)
    rw [respace_blank hc] at hcons
    simpa [hp] using hcons

theorem Rewrites.exists_written (h : Rewrites p read written last gap) (hp : p.Proper)
    (hq : q = if gap then p.idle else p) (hc : isBlank c = false) (x : Text) :
    ∃ w, stringsFrom written p ((if gap && last.any (always · c) then [' '] else []) ++ c :: x) =
        stringsFrom w q (c :: x) ∧ (q = .bare → read = [] ∧ w = []) ∧
      (q ≠ .bare → ∀ u, normalize (read.reverse ++ c :: u) =
        w.reverse ++ c :: respace always (some c) false u) := by
  have hwritten : ∀ u, p ≠ .bare → normalize (read.reverse ++ c :: u) = written.reverse ++
      ((if gap && last.any (always · c) then [' '] else []) ++
        c :: respace always (some c) false u) := by
    intro u hopen
    rw [(h.inside hopen).2, respace_ink hc]
  cases gap with
  | false =>
    obtain rfl : q = p := hq
    exact ⟨written, rfl, h.bare, fun hopen u => by simpa using hwritten u hopen⟩
  | true =>
    obtain rfl : q = p.idle := hq
    have hspace : p.next ' ' = p.idle := hp.next_plain (Quoting.isPlain_blank isBlank_space)
    by_cases hbare : p = .bare
    · subst hbare
      obtain ⟨rfl, rfl⟩ := h.bare rfl
      refine ⟨[], ?_, fun _ => ⟨rfl, rfl⟩, fun hopen => absurd rfl hopen⟩
      split
      · rfl
      · rfl
    · obtain ⟨hlast, _⟩ := h.inside hbare
      obtain ⟨d, rfl⟩ := Option.ne_none_iff_exists'.1 hlast
      refine ⟨' ' :: written, ?_, fun hidle => absurd (Quoting.idle_eq_bare.1 hidle) hbare,
        fun _ u => by simpa [always] using hwritten u hbare⟩
      simp [always, stringsFrom, hspace, hbare]

/--
The strings of a text that is rewritten evenly are its strings, normalized. `q` has read the blanks
that are not written yet, and `p` has not.
-/
theorem stringsFrom_respace (hp : p.Proper) (hq : q = if gap then p.idle else p)
    (h : Rewrites p read written last gap) (hclosed : q.after t = .bare) :
    stringsFrom written p (respace always last gap t) = (stringsFrom read q t).map normalize := by
  induction t generalizing q p read written last gap with
  | nil =>
    obtain rfl : q = .bare := hclosed
    obtain rfl : p = .bare := by
      cases gap with
      | false => exact hq.symm
      | true => exact Quoting.idle_eq_bare.1 hq.symm
    rfl
  | cons c r ih =>
    have hbare : q = .bare ↔ p = .bare := by
      rw [hq]
      split <;> simp
    have hqproper : q.Proper := by
      rw [hq]
      split
      · exact hp.idle
      · exact hp
    rw [Quoting.after_cons] at hclosed
    cases hc : isBlank c with
    | true =>
      have hnext : q.next c = p.idle := by
        rw [hqproper.next_plain (Quoting.isPlain_blank hc), hq]
        split <;> simp
      have hread : stringsFrom read q (c :: r) =
          stringsFrom (if p = .bare then [] else c :: read) (q.next c) r := by
        rw [stringsFrom, hnext]
        by_cases hopen : p = .bare
        · simp [hbare, hopen, Quoting.idle]
        · simp [hopen]
      rw [respace_blank hc, hread]
      exact ih hp hnext (h.blank hc) hclosed
    | false =>
      obtain ⟨w, hw, hnone, hsome⟩ := h.exists_written hp hq hc (respace always (some c) false r)
      rw [respace_ink hc, hw, stringsFrom, stringsFrom]
      by_cases hnext : q.next c = .bare
      · rw [hnext] at hclosed
        have hrest : stringsFrom [] .bare (respace always (some c) false r) =
            (stringsFrom [] .bare r).map normalize :=
          ih trivial rfl (rewrites_bare (some c) false) hclosed
        rw [if_pos hnext, if_pos hnext, List.map_append, hrest]
        by_cases hopen : q = .bare
        · simp [hopen]
        · have hstring := hsome hopen []
          simp only [respace] at hstring
          simp [hopen, hstring]
      · rw [if_neg hnext, if_neg hnext]
        refine ih (hqproper.next c) rfl ⟨fun h => absurd h hnext, fun _ => ?_⟩ hclosed
        refine ⟨by simp, fun u => ?_⟩
        by_cases hopen : q = .bare
        · obtain ⟨rfl, rfl⟩ := hnone hopen
          simp [normalize_eq_respace, respace_ink hc]
        · simpa using hsome hopen u

theorem strings_normalize {h : Text} (hclosed : Quoting.bare.after h = .bare) :
    strings (normalize h) = (strings h).map normalize := by
  rw [normalize_eq_respace]
  exact stringsFrom_respace trivial rfl (rewrites_bare none false) hclosed

end Header
end AtomicCss
