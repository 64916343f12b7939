import AtomicCss.Proofs.Text.Cutter
import AtomicCss.Proofs.Text.Trim
import AtomicCss.Shorthand.Value
set_option autoImplicit false

namespace AtomicCss.Shorthand

theorem nesting_of_ne {c : Char} (h₁ : c ≠ '(') (h₂ : c ≠ ')') (depth : Nat) :
    nesting depth c = depth := by
  rw [nesting, if_neg h₁, if_neg h₂]

theorem nesting_of_isBlank {c : Char} (hc : isBlank c = true) (depth : Nat) :
    nesting depth c = depth :=
  nesting_of_ne (ne_of_isBlank hc (by decide)) (ne_of_isBlank hc (by decide)) depth

/-- The scanner of tokens: where it stands with strings, and how many parentheses are open. -/
def tokenCutter : Cutter (Quoting × Nat) where
  rest := (.bare, 0)
  next s c := (s.1.next c, if s.1 = .bare then nesting s.2 c else s.2)
  separates := isBlank
  next_rest c hc := by simp [Quoting.next, isQuote_of_isBlank hc, nesting_of_isBlank hc]

/-- The tokens of a value, whether or not there are variables among them. -/
def tokens (value : Text) : List Text := tokensFrom .bare 0 [] value

def IsToken (t : Text) : Prop := t ≠ [] ∧ tokenCutter.IsWhole t

instance (t : Text) : Decidable (IsToken t) := inferInstanceAs (Decidable (_ ∧ _))

theorem tokensFrom_append {s : Quoting × Nat} {t : Text} (h : tokenCutter.passes s t = true)
    (read r : Text) : tokensFrom s.1 s.2 read (t ++ r) =
      tokensFrom (tokenCutter.after s t).1 (tokenCutter.after s t).2 (t.reverse ++ read) r := by
  induction t generalizing s read with
  | nil => rfl
  | cons c t ih =>
    obtain ⟨q, depth⟩ := s
    rw [Cutter.passes_cons, Bool.and_eq_true, Bool.not_eq_true'] at h
    have hstep : tokensFrom q depth read (c :: (t ++ r)) =
        tokensFrom (q.next c) (if q = .bare then nesting depth c else depth) (c :: read)
          (t ++ r) := by
      rw [tokensFrom]
      by_cases hq : q = .bare
      · subst hq
        have hgo : (isBlank c && decide (depth = 0)) = false := by
          rw [Bool.and_comm]
          simpa [tokenCutter] using h.1
        simp [hgo]
      · rw [if_neg hq, if_neg hq]
    rw [List.cons_append, hstep]
    refine (ih h.2 (c :: read)).trans ?_
    rw [List.reverse_cons, List.append_assoc]
    rfl

@[simp] theorem tokens_nil : tokens [] = [] := rfl

theorem tokens_of_isToken {t : Text} (h : IsToken t) : tokens t = [t] := by
  have hread := tokensFrom_append (s := tokenCutter.rest) h.2 [] []
  rw [List.append_nil, List.append_nil] at hread
  exact hread.trans (by simp [tokensFrom, finishToken, h.1])

theorem tokens_blank {c : Char} (hc : isBlank c = true) (r : Text) :
    tokens (c :: r) = tokens r := by
  simp [tokens, tokensFrom, hc, finishToken]

theorem tokens_append {t : Text} (h : IsToken t) (hclosed : tokenCutter.IsClosed t) {c : Char}
    (hc : isBlank c = true) (r : Text) : tokens (t ++ c :: r) = t :: tokens r := by
  have hread := tokensFrom_append (s := tokenCutter.rest) h.2 [] (c :: r)
  rw [hclosed] at hread
  exact hread.trans (by simp [tokensFrom, finishToken, tokenCutter, hc, h.1, tokens])

@[elab_as_elim]
theorem token_induction {P : Text → Prop} (nil : P [])
    (blank : ∀ c r, isBlank c = true → P r → P (c :: r)) (last : ∀ t, IsToken t → P t)
    (token : ∀ t c r, IsToken t → tokenCutter.IsClosed t → isBlank c = true → P r →
      P (t ++ c :: r)) (value : Text) : P value := by
  refine Cutter.cut_induction (k := tokenCutter) (fun t ht => ?_)
    (fun t c r ht hclosed hc hr => ?_) value
  · by_cases hnil : t = []
    · exact hnil ▸ nil
    · exact last t ⟨hnil, ht⟩
  · by_cases hnil : t = []
    · exact hnil ▸ blank c r hc hr
    · exact token t c r ⟨hnil, ht⟩ hclosed hc hr

/-- What lists of tokens have to be like to be told apart where spaces stand between. -/
structure KeepApart (l : List Text) : Prop where
  isToken : ∀ t ∈ l, IsToken t
  isClosed : ∀ t ∈ l.dropLast, tokenCutter.IsClosed t

theorem keepApart_nil : KeepApart [] := ⟨by simp, by simp⟩

theorem keepApart_singleton {t : Text} : KeepApart [t] ↔ IsToken t :=
  ⟨fun h => h.isToken t (by simp), fun h => ⟨by simpa using h, by simp⟩⟩

theorem keepApart_cons {t : Text} {l : List Text} (h : IsToken t)
    (hclosed : tokenCutter.IsClosed t) (hl : KeepApart l) : KeepApart (t :: l) := by
  refine ⟨fun u hu => ?_, fun u hu => ?_⟩
  · rcases List.mem_cons.1 hu with rfl | hu
    · exact h
    · exact hl.isToken u hu
  · cases l with
    | nil => simp at hu
    | cons v l =>
      rcases List.mem_cons.1 hu with rfl | hu
      · exact hclosed
      · exact hl.isClosed u hu

theorem KeepApart.tail {t : Text} {l : List Text} (h : KeepApart (t :: l)) : KeepApart l := by
  cases l with
  | nil => exact keepApart_nil
  | cons v l =>
    exact ⟨fun u hu => h.isToken u (List.mem_cons_of_mem _ hu),
      fun u hu => h.isClosed u (List.mem_cons_of_mem _ hu)⟩

theorem keepApart_tokens (value : Text) : KeepApart (tokens value) := by
  induction value using token_induction with
  | nil => exact keepApart_nil
  | blank c r hc ih => rwa [tokens_blank hc]
  | last t ht => rwa [tokens_of_isToken ht, keepApart_singleton]
  | token t c r ht hclosed hc ih =>
    rw [tokens_append ht hclosed hc]
    exact keepApart_cons ht hclosed ih

theorem KeepApart.tokens_join {l : List Text} (h : KeepApart l) :
    tokens (Text.join [' '] l) = l := by
  induction l with
  | nil => rfl
  | cons t l ih =>
    have ht := h.isToken t List.mem_cons_self
    cases l with
    | nil => rw [Text.join_singleton, tokens_of_isToken ht]
    | cons u l =>
      rw [Text.join_cons_cons, List.append_assoc, List.singleton_append,
        tokens_append ht (h.isClosed t (by simp)) (by decide), ih h.tail]

/-- Tokens are read back from their text just if they keep apart. -/
theorem tokens_join_iff {l : List Text} : tokens (Text.join [' '] l) = l ↔ KeepApart l :=
  ⟨fun h => h ▸ keepApart_tokens _, KeepApart.tokens_join⟩

theorem length_join_tokens_le (value : Text) :
    (Text.join [' '] (tokens value)).length ≤ value.length := by
  induction value using token_induction with
  | nil => exact Nat.le_refl 0
  | blank c r hc ih =>
    rw [tokens_blank hc, List.length_cons]
    exact Nat.le_succ_of_le ih
  | last t ht => simp [tokens_of_isToken ht]
  | token t c r ht hclosed hc ih =>
    rw [tokens_append ht hclosed hc, List.length_append, List.length_cons]
    cases htokens : tokens r with
    | nil =>
      rw [Text.join_singleton]
      omega
    | cons u l =>
      rw [htokens] at ih
      simp only [Text.join_cons_cons, List.length_append, List.length_singleton]
      omega

theorem mem_iff_mem_tokens {value : Text} {c : Char} (hc : isBlank c = false) :
    c ∈ value ↔ ∃ t ∈ tokens value, c ∈ t := by
  induction value using token_induction with
  | nil => simp
  | blank d r hd ih =>
    rw [tokens_blank hd, ← ih, List.mem_cons]
    exact or_iff_right fun h => ne_of_isBlank hd hc h.symm
  | last t ht => simp [tokens_of_isToken ht]
  | token t d r ht hclosed hd ih =>
    have hne : c ≠ d := fun h => ne_of_isBlank hd hc h.symm
    simp [tokens_append ht hclosed hd, ← ih, hne]

theorem isClosed_iff_tokens {value : Text} :
    tokenCutter.IsClosed value ↔ ∀ t ∈ tokens value, tokenCutter.IsClosed t := by
  induction value using token_induction with
  | nil => simp
  | blank c r hc ih => rw [tokens_blank hc, ← ih, Cutter.isClosed_separator hc]
  | last t ht => simp [tokens_of_isToken ht]
  | token t c r ht hclosed hc ih =>
    rw [tokens_append ht hclosed hc, hclosed.append, Cutter.isClosed_separator hc, ih]
    simp [hclosed]

theorem tokens_append_blank {value : Text} (h : tokenCutter.IsClosed value) {c : Char}
    (hc : isBlank c = true) (r : Text) : tokens (value ++ c :: r) = tokens value ++ tokens r := by
  induction value using token_induction with
  | nil => exact tokens_blank hc r
  | blank d s hd ih =>
    rw [List.cons_append, tokens_blank hd, tokens_blank hd,
      ih ((Cutter.isClosed_separator hd s).1 h)]
  | last t ht => rw [tokens_append ht h hc, tokens_of_isToken ht, List.singleton_append]
  | token t d s ht hclosed hd ih =>
    rw [List.append_assoc, List.cons_append, tokens_append ht hclosed hd,
      tokens_append ht hclosed hd, List.cons_append,
      ih ((Cutter.isClosed_separator hd s).1 ((hclosed.append _).1 h))]

theorem exists_tokens_append {t : Text} (h : IsToken t) (r : Text) :
    ∃ z l, tokens (t ++ r) = (t ++ z) :: l := by
  have hne : ∀ z, t ++ z ≠ [] := fun z hnil => h.1 (List.append_eq_nil_iff.1 hnil).1
  rcases tokenCutter.passes_or_cuts tokenCutter.rest (t ++ r) with
    hwhole | ⟨u, c, s, hsplit, hu, hclosed, hc⟩
  · exact ⟨r, [], tokens_of_isToken ⟨hne r, hwhole⟩⟩
  · obtain ⟨z, rfl⟩ : ∃ z, u = t ++ z := by
      rcases List.append_eq_append_iff.1 hsplit with ⟨z, rfl, _⟩ | ⟨z, rfl, hz⟩
      · exact ⟨z, rfl⟩
      · cases z with
        | nil => exact ⟨[], by simp⟩
        | cons d z =>
          obtain ⟨rfl, _⟩ := List.cons.inj hz
          have hrest := (Cutter.IsClosed.isWhole_append (k := tokenCutter) hclosed _).1 h.2
          exact absurd hrest.2 (Cutter.not_isWhole_separator hc z)
    exact ⟨z, tokens s, hsplit ▸ tokens_append ⟨hne z, hu⟩ hclosed hc s⟩

theorem isToken_append_of_open {t : Text} (h : IsToken t) (hopen : ¬tokenCutter.IsClosed t)
    (c : Char) : IsToken (t ++ [c]) := by
  refine ⟨by simp, ?_⟩
  rw [Cutter.IsWhole, Cutter.passes_append, h.2, Cutter.passes_cons]
  have hstay : ¬tokenCutter.after tokenCutter.rest t = tokenCutter.rest := hopen
  simp [hstay]

theorem tokens?_eq (value : Text) : tokens? value =
    if (tokens value).isEmpty || (tokens value).any mentionsVariable then none
    else some (tokens value) := rfl

theorem tokens?_congr {value other : Text} (h : tokens value = tokens other) :
    tokens? value = tokens? other := by
  rw [tokens?_eq, h, tokens?_eq]

theorem tokens?_eq_some {value : Text} {l : List Text} : tokens? value = some l ↔
    tokens value = l ∧ l ≠ [] ∧ ∀ t ∈ l, mentionsVariable t = false := by
  rw [tokens?_eq]
  split
  next h =>
    simp only [Bool.or_eq_true, List.isEmpty_iff, List.any_eq_true] at h
    constructor
    · rintro ⟨⟩
    · rintro ⟨rfl, hne, hvar⟩
      rcases h with h | ⟨t, ht, h⟩
      · exact absurd h hne
      · rw [hvar t ht] at h
        cases h
  next h =>
    simp only [Bool.or_eq_true, List.isEmpty_iff, List.any_eq_true, not_or, not_exists, not_and,
      Bool.not_eq_true] at h
    constructor
    · rintro ⟨⟩
      exact ⟨rfl, h⟩
    · rintro ⟨rfl, _⟩
      rfl

theorem tokens?_eq_self {t : Text} :
    tokens? t = some [t] ↔ IsToken t ∧ mentionsVariable t = false := by
  rw [tokens?_eq_some]
  constructor
  · rintro ⟨h, _, hvar⟩
    exact ⟨(keepApart_tokens t).isToken t (h ▸ by simp), hvar t (by simp)⟩
  · rintro ⟨h, hvar⟩
    exact ⟨tokens_of_isToken h, by simp, by simpa using hvar⟩

/-- Each text is one known token, and only the last may be open. -/
structure Legible (l : List Text) : Prop where
  tokens? : ∀ t ∈ l, tokens? t = some [t]
  isClosed : ∀ t ∈ l.dropLast, tokenCutter.IsClosed t

instance (l : List Text) : Decidable (Legible l) :=
  decidable_of_iff ((∀ t ∈ l, Shorthand.tokens? t = some [t]) ∧
    ∀ t ∈ l.dropLast, tokenCutter.IsClosed t) ⟨fun h => ⟨h.1, h.2⟩, fun h => ⟨h.1, h.2⟩⟩

theorem Legible.keepApart {l : List Text} (h : Legible l) : KeepApart l :=
  ⟨fun t ht => (tokens?_eq_self.1 (h.tokens? t ht)).1, h.isClosed⟩

theorem legible_iff {l : List Text} (hl : l ≠ []) :
    Legible l ↔ Shorthand.tokens? (Text.join [' '] l) = some l := by
  rw [tokens?_eq_some, tokens_join_iff]
  constructor
  · exact fun h => ⟨h.keepApart, hl, fun t ht => (tokens?_eq_self.1 (h.tokens? t ht)).2⟩
  · rintro ⟨h, -, hvar⟩
    exact ⟨fun t ht => tokens?_eq_self.2 ⟨h.isToken t ht, hvar t ht⟩, h.isClosed⟩

end AtomicCss.Shorthand
