import AtomicCss.Proofs.Shorthand.Tokens
set_option autoImplicit false

/-!
How the value of `border-radius` falls into its axes.

The scanner of slashes does not know that a backslash takes the next character of a string along.
Where there is no backslash it agrees with the scanner of tokens, and then the tokens of an axis
have no slash of their own.
-/

namespace AtomicCss

def Quoting.quote? : Quoting → Option Char
  | .bare => none
  | .inside q | .escaped q => some q

namespace Shorthand

/-- The scanner of slashes: the quote of an open string, and how many parentheses are open. -/
def slashCutter : Cutter (Option Char × Nat) where
  rest := (none, 0)
  next s c :=
    match s.1 with
    | some q => (if c = q then none else some q, s.2)
    | none => (if isQuote c then some c else none, nesting s.2 c)
  separates c := c = '/'
  next_rest c hc := by
    obtain rfl : c = '/' := by simpa using hc
    decide

theorem slashPartsFrom_append {s : Option Char × Nat} {t : Text}
    (h : slashCutter.passes s t = true) (read r : Text) :
    slashPartsFrom s.1 s.2 read (t ++ r) = slashPartsFrom (slashCutter.after s t).1
      (slashCutter.after s t).2 (t.reverse ++ read) r := by
  induction t generalizing s read with
  | nil => rfl
  | cons c t ih =>
    obtain ⟨quote, depth⟩ := s
    rw [Cutter.passes_cons, Bool.and_eq_true, Bool.not_eq_true'] at h
    have hstep : slashPartsFrom quote depth read (c :: (t ++ r)) =
        slashPartsFrom (slashCutter.next (quote, depth) c).1
          (slashCutter.next (quote, depth) c).2 (c :: read) (t ++ r) := by
      cases quote with
      | some q => rfl
      | none =>
        rw [slashPartsFrom]
        by_cases hquote : isQuote c = true
        · have hdepth : nesting depth c = depth := by
            rcases (by simpa [isQuote] using hquote : c = '"' ∨ c = '\'') with rfl | rfl <;>
              exact nesting_of_ne (by decide) (by decide) depth
          simp [slashCutter, hquote, hdepth]
        · have hgo : (decide (c = '/') && decide (depth = 0)) = false := by
            rw [Bool.and_comm]
            simpa [slashCutter] using h.1
          simp [slashCutter, hquote, hgo]
    rw [List.cons_append, hstep]
    refine (ih h.2 (c :: read)).trans ?_
    rw [List.reverse_cons, List.append_assoc]
    rfl

theorem slashParts_of_isWhole {t : Text} (h : slashCutter.IsWhole t) : slashParts t = [t] := by
  have hread := slashPartsFrom_append (s := slashCutter.rest) h [] []
  rw [List.append_nil, List.append_nil] at hread
  exact hread.trans (by simp [slashPartsFrom])

theorem slashParts_append {t : Text} (h : slashCutter.IsWhole t) (hclosed : slashCutter.IsClosed t)
    (r : Text) : slashParts (t ++ '/' :: r) = t :: slashParts r := by
  have hread := slashPartsFrom_append (s := slashCutter.rest) h [] ('/' :: r)
  rw [hclosed] at hread
  exact hread.trans (by simp [slashPartsFrom, slashCutter, isQuote, slashParts])

theorem slashParts_ne_nil (value : Text) : slashParts value ≠ [] :=
  slashPartsFrom_ne_nil none 0 [] value

theorem slashParts_eq_singleton {value t : Text} :
    slashParts value = [t] ↔ value = t ∧ slashCutter.IsWhole t := by
  constructor
  · induction value using (slashCutter).cut_induction with
    | whole u hu =>
      rw [slashParts_of_isWhole hu]
      rintro ⟨⟩
      exact ⟨rfl, hu⟩
    | cut u c r hu hclosed hc _ =>
      obtain rfl : c = '/' := by simpa [slashCutter] using hc
      rw [slashParts_append hu hclosed]
      intro h
      exact absurd (List.cons.inj h).2 (slashParts_ne_nil r)
  · rintro ⟨rfl, h⟩
    exact slashParts_of_isWhole h

theorem slashParts_eq_pair {value t u : Text} : slashParts value = [t, u] ↔
    value = t ++ '/' :: u ∧ slashCutter.IsWhole t ∧ slashCutter.IsClosed t ∧
      slashCutter.IsWhole u := by
  constructor
  · induction value using (slashCutter).cut_induction with
    | whole v hv =>
      rw [slashParts_of_isWhole hv]
      rintro ⟨⟩
    | cut v c r hv hclosed hc _ =>
      obtain rfl : c = '/' := by simpa [slashCutter] using hc
      rw [slashParts_append hv hclosed]
      intro h
      obtain ⟨rfl, hr⟩ := List.cons.inj h
      obtain ⟨rfl, hu⟩ := slashParts_eq_singleton.1 hr
      exact ⟨rfl, hv, hclosed, hu⟩
  · rintro ⟨rfl, ht, hclosed, hu⟩
    rw [slashParts_append ht hclosed, slashParts_of_isWhole hu]

theorem closed_space : slashCutter.IsClosed [' '] := by decide

theorem isWhole_join_space {l : List Text} (h : ∀ t ∈ l, slashCutter.IsWhole t)
    (hclosed : ∀ t ∈ l.dropLast, slashCutter.IsClosed t) :
    slashCutter.IsWhole (Text.join [' '] l) := by
  induction l with
  | nil => rfl
  | cons t l ih =>
    cases l with
    | nil => simpa using h t List.mem_cons_self
    | cons u l =>
      have ht : slashCutter.IsClosed t := hclosed t (by simp)
      rw [Text.join_cons_cons, List.append_assoc, ht.isWhole_append, closed_space.isWhole_append]
      exact ⟨h t List.mem_cons_self, by decide, ih (fun v hv => h v (List.mem_cons_of_mem _ hv))
        fun v hv => hclosed v (List.mem_cons_of_mem _ hv)⟩

theorem isClosed_join_space {l : List Text} (h : ∀ t ∈ l, slashCutter.IsClosed t) :
    slashCutter.IsClosed (Text.join [' '] l) := by
  induction l with
  | nil => rfl
  | cons t l ih =>
    have ht := h t List.mem_cons_self
    cases l with
    | nil => simpa using ht
    | cons u l =>
      rw [Text.join_cons_cons, List.append_assoc, ht.append, closed_space.append]
      exact ih fun v hv => h v (List.mem_cons_of_mem _ hv)

theorem isQuote_of_after {s : Option Char × Nat} (hs : ∀ q, s.1 = some q → isQuote q = true)
    {t : Text} {q : Char} (h : (slashCutter.after s t).1 = some q) : isQuote q = true := by
  induction t generalizing s with
  | nil => exact hs q h
  | cons c t ih =>
    refine ih (fun p hp => ?_) h
    obtain ⟨_ | o, depth⟩ := s
    · simp only [slashCutter, Option.ite_none_right_eq_some, Option.some.injEq] at hp
      exact hp.2 ▸ hp.1
    · simp only [slashCutter, Option.ite_none_left_eq_some, Option.some.injEq] at hp
      exact hs p (congrArg some hp.2)

theorem isClosed_append_space {t : Text} :
    slashCutter.IsClosed (t ++ [' ']) ↔ slashCutter.IsClosed t := by
  have hquote := fun q => isQuote_of_after (s := slashCutter.rest) (by simp [slashCutter])
    (t := t) (q := q)
  rw [Cutter.IsClosed, Cutter.IsClosed, Cutter.after_append]
  generalize slashCutter.after slashCutter.rest t = s at hquote
  obtain ⟨_ | q, depth⟩ := s
  · simp [slashCutter, isQuote, nesting]
  · have hne : ' ' ≠ q := by
      rintro rfl
      exact absurd (hquote ' ' rfl) (by decide)
    simp [slashCutter, hne]

theorem next_slashCutter {q : Quoting} (hq : ∀ d, q ≠ .escaped d) {c : Char} (hc : c ≠ '\\')
    (depth : Nat) : slashCutter.next (q.quote?, depth) c =
      ((tokenCutter.next (q, depth) c).1.quote?, (tokenCutter.next (q, depth) c).2) ∧
      ∀ d, q.next c ≠ .escaped d := by
  cases q with
  | bare =>
    by_cases hquote : isQuote c = true <;>
      simp [slashCutter, tokenCutter, Quoting.next, Quoting.quote?, hquote]
  | inside p =>
    have hnext : (Quoting.inside p).next c = if c = p then .bare else .inside p := if_neg hc
    simp only [slashCutter, tokenCutter, hnext, Quoting.quote?]
    by_cases hp : c = p <;> simp [hp]
  | escaped p => exact absurd rfl (hq p)

theorem after_slashCutter {t : Text} (h : '\\' ∉ t) {q : Quoting} (hq : ∀ d, q ≠ .escaped d)
    (depth : Nat) : slashCutter.after (q.quote?, depth) t =
      ((tokenCutter.after (q, depth) t).1.quote?, (tokenCutter.after (q, depth) t).2) ∧
      ∀ d, (tokenCutter.after (q, depth) t).1 ≠ .escaped d := by
  induction t generalizing q depth with
  | nil => exact ⟨rfl, hq⟩
  | cons c t ih =>
    obtain ⟨hstep, hnext⟩ := next_slashCutter hq (List.ne_of_not_mem_cons h).symm depth
    rw [Cutter.after_cons, hstep]
    exact ih (List.not_mem_of_not_mem_cons h) hnext _

theorem isClosed_slashCutter {t : Text} (h : '\\' ∉ t) :
    slashCutter.IsClosed t ↔ tokenCutter.IsClosed t := by
  obtain ⟨hafter, hescaped⟩ := after_slashCutter h (q := .bare) (by simp) 0
  have hslash : slashCutter.after slashCutter.rest t =
      ((tokenCutter.after tokenCutter.rest t).1.quote?,
        (tokenCutter.after tokenCutter.rest t).2) := hafter
  rw [Cutter.IsClosed, Cutter.IsClosed, hslash]
  generalize hs : tokenCutter.after tokenCutter.rest t = s
  obtain ⟨q, depth⟩ := s
  have hq : ∀ c, q ≠ .escaped c := by
    have hrest : tokenCutter.after (.bare, 0) t = (q, depth) := hs
    rw [hrest] at hescaped
    exact hescaped
  cases q with
  | bare => simp [slashCutter, tokenCutter, Quoting.quote?]
  | inside p => simp [slashCutter, tokenCutter, Quoting.quote?]
  | escaped p => exact absurd rfl (hq p)

theorem isWhole_of_mem_tokens {value : Text} (hvalue : '\\' ∉ value)
    (h : slashCutter.IsWhole value) {t : Text} (ht : t ∈ tokens value) :
    slashCutter.IsWhole t := by
  induction value using token_induction with
  | nil => cases ht
  | blank c r hc ih =>
    rw [tokens_blank hc] at ht
    have hclosed : slashCutter.IsClosed [c] := by
      rw [isClosed_slashCutter]
      · exact (Cutter.isClosed_separator (k := tokenCutter) hc []).2 rfl
      · rintro hmem
        obtain rfl : '\\' = c := by simpa using hmem
        exact absurd hc (by decide)
    exact ih (fun hr => hvalue (List.mem_cons_of_mem _ hr)) ((hclosed.isWhole_append r).1 h).2 ht
  | last u hu =>
    rw [tokens_of_isToken hu, List.mem_singleton] at ht
    exact ht ▸ h
  | token u c r hu hclosed hc ih =>
    rw [tokens_append hu hclosed hc] at ht
    rcases List.mem_cons.1 ht with rfl | ht
    · exact Cutter.isWhole_of_append h
    · have hsplit : u ++ c :: r = (u ++ [c]) ++ r := by simp
      have hback : '\\' ∉ u ++ [c] := fun hmem => hvalue (hsplit ▸ List.mem_append_left r hmem)
      have hstart : slashCutter.IsClosed (u ++ [c]) := by
        rw [isClosed_slashCutter hback, hclosed.append]
        exact (Cutter.isClosed_separator (k := tokenCutter) hc []).2 rfl
      rw [hsplit] at h
      exact ih (fun hr => hvalue (hsplit ▸ List.mem_append_right _ hr))
        ((hstart.isWhole_append r).1 h).2 ht

end Shorthand
end AtomicCss
