import AtomicCss.Proofs.Text.Words
set_option autoImplicit false

/-!
Headers read from left to right: what becomes of the blanks between two characters.

Both forms of a header are written this way. The stored form has one space wherever blanks stand
between two characters, and the key of a header without strings has one if neither of the two is
punctuation that swallows it (`normalize_eq_respace`, `key_eq_respace`). With strings or without, a
key is its own key (`key_key`).
-/

namespace AtomicCss.Header

/--
The text with its blanks left out, and a space for them between two characters that `part`.

`last` is the character before the text, and `gap` whether blanks stand behind it.
-/
def respace (part : Char → Char → Bool) (last : Option Char) (gap : Bool) : Text → Text
  | [] => []
  | c :: r =>
    if isBlank c then respace part last true r
    else if gap && last.any (part · c) then ' ' :: c :: respace part (some c) false r
    else c :: respace part (some c) false r

def always (_ _ : Char) : Bool := true

/-- Neither of two neighbours swallows a space between them. -/
def apart (c d : Char) : Bool := !swallowsAfter c && !swallowsBefore d

/-- The string in which the key takes the text behind `c` to be. -/
def keyQuote (quote previous : Option Char) (c : Char) : Option Char :=
  match quote with
  | some q => if c = q && previous != some '\\' then none else some q
  | none => if isQuote c then some c else none

/-- Outside what the key takes for strings, punctuation swallows the space `c` before `r`. -/
def drops (quote previous : Option Char) (c : Char) (r : Text) : Bool :=
  quote.isNone && c = ' ' && (previous.any swallowsAfter || r.head?.any swallowsBefore)

/--
`last` is what the key has before a text behind `previous`: the same, unless that is a space that
has been dropped.
-/
def Follows (quote previous last : Option Char) : Prop :=
  last = previous ∨ previous = some ' ' ∧ quote = none

/-- Blanks stand behind `last` as single spaces, with another character on either side. -/
def isEven (last : Option Char) : Text → Bool
  | [] => last != some ' '
  | c :: r => (!isBlank c || c = ' ' && last.any (!isBlank ·)) && isEven (some c) r

section

variable {part : Char → Char → Bool} {last : Option Char} {gap : Bool} {c : Char} {r t : Text}

theorem respace_blank (hc : isBlank c = true) :
    respace part last gap (c :: r) = respace part last true r := by
  rw [respace, if_pos hc]

theorem respace_ink (hc : isBlank c = false) :
    respace part last gap (c :: r) =
      (if gap && last.any (part · c) then [' '] else []) ++ c :: respace part (some c) false r := by
  rw [respace, if_neg (by simp [hc])]
  split <;> rfl

theorem respace_gap (gap : Bool) (h : ∀ c, last.any (part · c) = false) :
    respace part last gap t = respace part last false t := by
  induction t generalizing gap with
  | nil => rfl
  | cons c r ih =>
    cases hc : isBlank c with
    | true => rw [respace_blank hc, respace_blank hc]
    | false => simp [respace_ink hc, h]

theorem mem_respace {d : Char} (h : d ∈ respace part last gap t) : d = ' ' ∨ d ∈ t := by
  induction t generalizing last gap with
  | nil => cases h
  | cons c r ih =>
    cases hc : isBlank c with
    | true =>
      rw [respace_blank hc] at h
      exact (ih h).imp_right (List.mem_cons_of_mem _)
    | false =>
      rw [respace_ink hc, List.mem_append, List.mem_cons] at h
      rcases h with h | rfl | h
      · split at h
        · exact Or.inl (List.mem_singleton.1 h)
        · cases h
      · exact Or.inr List.mem_cons_self
      · exact (ih h).imp_right (List.mem_cons_of_mem _)

end

theorem join_wordsFrom (read t : Text) :
    (read ≠ [] → ∀ d, Text.join [' '] (Text.wordsFrom isBlank read t) =
      read.reverse ++ respace always (some d) false t) ∧
    (∀ d, (Text.words t).flatMap (' ' :: ·) = respace always (some d) true t) ∧
    Text.join [' '] (Text.words t) = respace always none false t := by
  induction t generalizing read with
  | nil =>
    refine ⟨fun hread d => ?_, fun _ => rfl, rfl⟩
    simp [Text.wordsFrom, hread, respace]
  | cons c r ih =>
    cases hc : isBlank c with
    | true =>
      obtain ⟨_, hgap, hstart⟩ := ih []
      have hwords : Text.words (c :: r) = Text.words r := by
        rw [Text.words, Text.wordsBy, Text.wordsFrom, if_pos hc]
        rfl
      refine ⟨fun hread d => ?_, fun d => ?_, ?_⟩
      · rw [Text.wordsFrom, if_pos hc, if_neg (by simpa using hread), Text.join_space_cons,
          respace_blank hc, ← hgap d]
        rfl
      · rw [hwords, respace_blank hc, hgap d]
      · rw [hwords, respace_blank hc, hstart, respace_gap true fun _ => rfl]
    | false =>
      have hword := (ih [c]).1 (List.cons_ne_nil c []) c
      have hwords : Text.words (c :: r) = Text.wordsFrom isBlank [c] r := by
        rw [Text.words, Text.wordsBy, Text.wordsFrom, if_neg (by simp [hc])]
      refine ⟨fun hread d => ?_, fun d => ?_, ?_⟩
      · rw [Text.wordsFrom, if_neg (by simp [hc]), (ih (c :: read)).1 (List.cons_ne_nil c read) c,
          respace_ink hc]
        simp
      · obtain ⟨w, l, hl⟩ := Text.wordsFrom_cons (List.cons_ne_nil c []) r
        rw [hl, Text.join_space_cons] at hword
        rw [hwords, hl, List.flatMap_cons, List.cons_append, hword, respace_ink hc]
        rfl
      · rw [hwords, hword, respace_ink hc]
        rfl

theorem respace_append_congr {part : Char → Char → Bool} {x y : Text}
    (h : ∀ last gap, respace part last gap x = respace part last gap y) (s : Text)
    (last : Option Char) (gap : Bool) :
    respace part last gap (s ++ x) = respace part last gap (s ++ y) := by
  induction s generalizing last gap with
  | nil => exact h last gap
  | cons c s ih =>
    cases hc : isBlank c with
    | true => rw [List.cons_append, List.cons_append, respace_blank hc, respace_blank hc, ih]
    | false => rw [List.cons_append, List.cons_append, respace_ink hc, respace_ink hc, ih]

theorem normalize_eq_respace (h : Text) : normalize h = respace always none false h :=
  (join_wordsFrom [] h).2.2

section

variable {part : Char → Char → Bool} {last : Option Char} {t : Text}

theorem isEven_ink {c : Char} {r : Text} (hc : isBlank c = false) :
    isEven last (c :: r) = isEven (some c) r := by
  simp [isEven, hc]

theorem isEven_respace {gap : Bool} (hlast : last.any isBlank = false) :
    isEven last (respace part last gap t) = true := by
  induction t generalizing last gap with
  | nil =>
    cases last with
    | none => rfl
    | some d =>
      have hd : d ≠ ' ' := by
        rintro rfl
        cases hlast
      simpa [respace, isEven] using hd
  | cons c r ih =>
    cases hc : isBlank c with
    | true =>
      rw [respace_blank hc]
      exact ih hlast
    | false =>
      have hrest : isEven (some c) (respace part (some c) false r) = true := ih hc
      rw [respace_ink hc]
      split
      next hgap =>
        cases last with
        | none => simp at hgap
        | some d =>
          have hd : isBlank d = false := hlast
          simp [isEven, hd, hc, hrest]
      next => simpa [isEven_ink hc] using hrest

theorem respace_of_isEven (h : isEven last t = true) :
    respace always last false t = t ∧
      (last = some ' ' → ∀ d, respace always (some d) true t = ' ' :: t) := by
  induction t generalizing last with
  | nil =>
    refine ⟨rfl, fun hlast => ?_⟩
    rw [hlast] at h
    cases h
  | cons c r ih =>
    rw [isEven, Bool.and_eq_true] at h
    obtain ⟨hrest, hspace⟩ := ih h.2
    cases hc : isBlank c with
    | true =>
      simp only [hc, Bool.not_true, Bool.false_or, Bool.and_eq_true, decide_eq_true_eq] at h
      obtain ⟨⟨rfl, hlast⟩, _⟩ := h
      cases last with
      | none => cases hlast
      | some d =>
        rw [respace_blank hc]
        refine ⟨hspace rfl d, ?_⟩
        rintro ⟨⟩
        cases hlast
    | false => simp [respace_ink hc, always, hrest]

theorem normalize_eq_self (h : isEven none t = true) : normalize t = t := by
  rw [normalize_eq_respace]
  exact (respace_of_isEven h).1

theorem isEven_normalize (h : Text) : isEven none (normalize h) = true := by
  rw [normalize_eq_respace]
  exact isEven_respace rfl

theorem normalize_blank_append {u : Text} (hu : ∀ c ∈ u, isBlank c = true) (t : Text) :
    normalize (u ++ t) = normalize t := by
  induction u with
  | nil => rfl
  | cons c u ih =>
    rw [List.forall_mem_cons] at hu
    rw [← ih hu.2, normalize_eq_respace, normalize_eq_respace, List.cons_append,
      respace_blank hu.1, respace_gap true fun _ => rfl]

theorem normalize_append_blank {u : Text} (hu : ∀ c ∈ u, isBlank c = true) (t : Text) :
    normalize (t ++ u) = normalize t := by
  have hend : ∀ last gap, respace always last gap u = respace always last gap [] := by
    intro last gap
    induction u generalizing gap with
    | nil => rfl
    | cons c u ih =>
      rw [List.forall_mem_cons] at hu
      rw [respace_blank hu.1]
      exact ih hu.2 true
  simpa [normalize_eq_respace] using respace_append_congr hend t none false

theorem normalize_trim (h : Text) : normalize (Text.trim h) = normalize h := by
  obtain ⟨u, v, hu, hv, hsplit⟩ := Text.exists_append_trim h
  conv => rhs; rw [hsplit]
  rw [normalize_blank_append hu, normalize_append_blank hv]

theorem respace_respace {gap : Bool} (hlast : last.any isBlank = false) :
    respace part last false (respace always last gap t) = respace part last gap t := by
  induction t generalizing last gap with
  | nil => rfl
  | cons c r ih =>
    cases hc : isBlank c with
    | true =>
      rw [respace_blank hc, respace_blank hc]
      exact ih hlast
    | false =>
      have hrest : respace part (some c) false (respace always (some c) false r) =
          respace part (some c) false r := ih hc
      have hspace : isBlank ' ' = true := by decide
      rw [respace_ink hc, respace_ink hc]
      cases last with
      | none => simp [respace_ink hc, hrest]
      | some d => cases gap <;> simp [always, respace_blank hspace, respace_ink hc, hrest]

end

section

variable {quote previous last : Option Char} {c : Char} {r t : Text}

theorem isBlank_space : isBlank ' ' = true := by decide

theorem ne_space (hc : isBlank c = false) : c ≠ ' ' := by
  rintro rfl
  cases hc

theorem isEven_space (h : isEven (some ' ') t = true) :
    ∃ c r, t = c :: r ∧ isBlank c = false ∧ isEven (some c) r = true := by
  cases t with
  | nil => cases h
  | cons c r =>
    rw [isEven, Bool.and_eq_true] at h
    cases hc : isBlank c with
    | true => simp [hc, isBlank_space] at h
    | false => exact ⟨c, r, rfl, hc, h.2⟩

theorem keyFrom_cons (h : isEven previous (c :: r) = true)
    (hlast : Follows quote previous last) :
    keyFrom quote previous last (c :: r) =
      if drops quote previous c r then keyFrom none (some ' ') last r
      else c :: keyFrom (keyQuote quote previous c) (some c) (some c) r := by
  cases quote with
  | some q => simp [keyFrom, keyQuote, drops]
  | none =>
    by_cases hc : c = ' '
    · obtain rfl : last = previous := by
        rcases hlast with hlast | ⟨rfl, _⟩
        · exact hlast
        · simp [isEven, hc, isBlank_space] at h
      simp [keyFrom, keyQuote, drops, hc, isQuote]
    · cases hquote : isQuote c <;> simp [keyFrom, keyQuote, drops, hc, hquote]

theorem drops_iff : drops quote previous c r = true ↔ quote = none ∧ c = ' ' ∧
    (previous.any swallowsAfter = true ∨ r.head?.any swallowsBefore = true) := by
  simp [drops, and_assoc]

theorem drops_ink (hc : c ≠ ' ') : drops quote previous c r = false := by simp [drops, hc]

theorem head?_keyFrom (h : isEven (some ' ') t = true)
    (hlast : Follows quote (some ' ') last) :
    (keyFrom quote (some ' ') last t).head? = t.head? := by
  obtain ⟨c, r, rfl, hc, _⟩ := isEven_space h
  rw [keyFrom_cons h hlast, drops_ink (ne_space hc)]
  rfl

theorem isEven_keyFrom (h : isEven previous t = true)
    (hlast : Follows quote previous last) :
    isEven last (keyFrom quote previous last t) = true ∧
      keyFrom quote last last (keyFrom quote previous last t) =
        keyFrom quote previous last t := by
  induction t generalizing quote previous last with
  | nil =>
    rcases hlast with rfl | ⟨rfl, _⟩
    · exact ⟨h, rfl⟩
    · cases h
  | cons c r ih =>
    obtain ⟨hhead, hrest⟩ := Bool.and_eq_true_iff.1 h
    rw [keyFrom_cons h hlast]
    by_cases hdrops : drops quote previous c r = true
    · obtain ⟨rfl, rfl, _⟩ := drops_iff.1 hdrops
      rw [if_pos hdrops]
      exact ih hrest (Or.inr ⟨rfl, rfl⟩)
    · rw [if_neg hdrops]
      have hlater : Follows (keyQuote quote previous c) (some c) (some c) := Or.inl rfl
      obtain ⟨heven, hagain⟩ := ih hrest hlater
      rcases hlast with rfl | ⟨rfl, rfl⟩
      · have hcons : isEven last (c :: keyFrom (keyQuote quote last c) (some c) (some c) r) =
            true := Bool.and_eq_true_iff.2 ⟨hhead, heven⟩
        refine ⟨hcons, ?_⟩
        rw [keyFrom_cons hcons (Or.inl rfl), hagain, if_neg]
        rw [drops_iff] at hdrops ⊢
        rintro ⟨rfl, rfl, hswallow⟩
        rw [head?_keyFrom hrest (Or.inl rfl)] at hswallow
        exact hdrops ⟨rfl, rfl, hswallow⟩
      · obtain ⟨_, _, heq, hc, _⟩ := isEven_space h
        obtain ⟨rfl, rfl⟩ := List.cons.inj heq
        have hcons : isEven last (c :: keyFrom (keyQuote none (some ' ') c) (some c) (some c) r) =
            true := by
          rwa [isEven_ink hc]
        refine ⟨hcons, ?_⟩
        rw [keyFrom_cons hcons (Or.inl rfl), drops_ink (ne_space hc)]
        exact congrArg (c :: ·) hagain

theorem keyFrom_eq_respace (h : isEven previous t = true)
    (hlast : Follows none previous last)
    (hquote : ∀ c ∈ t, isQuote c = false) :
    keyFrom none previous last t = respace apart last false t := by
  induction t generalizing previous last with
  | nil => rfl
  | cons c r ih =>
    obtain ⟨hhead, hrest⟩ := Bool.and_eq_true_iff.1 h
    have hnone : ∀ d ∈ r, isQuote d = false := fun d hd => hquote d (List.mem_cons_of_mem _ hd)
    rw [keyFrom_cons h hlast, keyQuote, hquote c List.mem_cons_self, if_neg Bool.false_ne_true,
      ih hrest (Or.inl rfl) hnone]
    cases hc : isBlank c with
    | true =>
      simp only [hc, Bool.not_true, Bool.false_or, Bool.and_eq_true, decide_eq_true_eq] at hhead
      obtain ⟨rfl, hprevious⟩ := hhead
      obtain rfl : last = previous := by
        rcases hlast with hlast | ⟨rfl, _⟩
        · exact hlast
        · simp [isBlank_space] at hprevious
      cases last with
      | none => cases hprevious
      | some l =>
        obtain ⟨d, u, rfl, hd, _⟩ := isEven_space hrest
        rw [ih hrest (Or.inr ⟨rfl, rfl⟩) hnone, respace_blank isBlank_space, respace_ink hd,
          respace_ink hd, respace_ink hd]
        cases ha : swallowsAfter l <;> cases hb : swallowsBefore d <;> simp [drops, apart, ha, hb]
    | false =>
      rw [drops_ink (ne_space hc), respace_ink hc]
      rfl

end

theorem isEven_key (h : Text) : isEven none (key h) = true :=
  (isEven_keyFrom (isEven_normalize h) (Or.inl rfl)).1

theorem key_normalize (h : Text) : key (normalize h) = key h := by
  rw [key, normalize_normalize, key]

theorem key_key (h : Text) : key (key h) = key h := by
  rw [key, normalize_eq_self (isEven_key h)]
  exact (isEven_keyFrom (isEven_normalize h) (Or.inl rfl)).2

theorem key_eq_respace {h : Text} (hquote : ∀ c ∈ h, isQuote c = false) :
    key h = respace apart none false h := by
  have hnormal : ∀ c ∈ normalize h, isQuote c = false := by
    intro c hc
    rw [normalize_eq_respace] at hc
    rcases mem_respace hc with rfl | hc
    · rfl
    · exact hquote c hc
  rw [key, keyFrom_eq_respace (isEven_normalize h) (Or.inl rfl) hnormal, normalize_eq_respace]
  exact respace_respace rfl

end AtomicCss.Header
