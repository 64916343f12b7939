import AtomicCss.Proofs.Header.Strings
set_option autoImplicit false

namespace AtomicCss.Header

open Text (strings stringsFrom)

/-- In no string does the key drop a space. -/
def spares (q : Quoting) (quote previous : Option Char) : Text → Bool
  | [] => true
  | c :: r =>
    (q = .bare || !drops quote previous c r) &&
      spares (q.next c) (keyQuote quote previous c) (some c) r

/-- How many characters of a text stand in its strings, quotes included. -/
def quotedLength (q : Quoting) : Text → Nat
  | [] => 0
  | c :: r => (if q = .bare ∧ q.next c = .bare then 0 else 1) + quotedLength (q.next c) r

section

variable {q p : Quoting} {quote previous last : Option Char} {read t : Text}

theorem length_stringsFrom (hread : q = .bare → read = []) :
    (stringsFrom read q t).flatten.length = read.length + quotedLength q t := by
  induction t generalizing q read with
  | nil =>
    by_cases hq : q = .bare
    · simp [stringsFrom, quotedLength, hq, hread hq]
    · simp [stringsFrom, quotedLength, hq]
  | cons c r ih =>
    rw [stringsFrom, quotedLength]
    by_cases hnext : q.next c = .bare
    · have hrest : (stringsFrom [] .bare r).flatten.length = quotedLength .bare r :=
        (ih fun _ => rfl).trans (Nat.zero_add _)
      rw [if_pos hnext, List.flatten_append, List.length_append, hrest, hnext]
      by_cases hq : q = .bare
      · simp [hq, hread hq]
      · simp [hq]
        omega
    · rw [if_neg hnext, ih fun h => absurd h hnext, if_neg fun h => hnext h.2, List.length_cons]
      omega

theorem stringsFrom_keyFrom (h : isEven previous t = true) (hlast : Follows quote previous last)
    (hread : q = .bare → read = []) (hspares : spares q quote previous t = true) :
    stringsFrom read q (keyFrom quote previous last t) = stringsFrom read q t := by
  induction t generalizing q quote previous last read with
  | nil => rfl
  | cons c r ih =>
    have hrest : isEven (some c) r = true := (Bool.and_eq_true_iff.1 h).2
    rw [spares, Bool.and_eq_true] at hspares
    rw [keyFrom_cons h hlast]
    by_cases hdrops : drops quote previous c r = true
    · obtain ⟨rfl, rfl, _⟩ := drops_iff.1 hdrops
      obtain rfl : q = .bare := by simpa [hdrops] using hspares.1
      obtain rfl := hread rfl
      rw [if_pos hdrops]
      exact ih hrest (Or.inr ⟨rfl, rfl⟩) (fun _ => rfl) hspares.2
    · rw [if_neg hdrops, stringsFrom, stringsFrom]
      split
      next hnext =>
        rw [hnext] at hspares
        rw [ih hrest (Or.inl rfl) (fun _ => rfl) hspares.2]
      next hnext => exact ih hrest (Or.inl rfl) (fun h => absurd h hnext) hspares.2

/-- `q` has read the key, and `p` the header, perhaps with one space more. -/
def Behind (q p : Quoting) (t : Text) : Prop :=
  p = q ∨ p = q.idle ∧ t.head?.any swallowsBefore = true

theorem isPlain_swallowsBefore {c : Char} (h : swallowsBefore c = true) : Quoting.IsPlain c := by
  simp only [swallowsBefore, Bool.or_eq_true, decide_eq_true_eq] at h
  rcases h with (rfl | rfl) | rfl <;> exact ⟨rfl, by decide⟩

theorem next_space (hq : q.Proper) : q.next ' ' = q.idle :=
  hq.next_plain (Quoting.isPlain_blank isBlank_space)

theorem previous_of_escaped {c x : Char} (h : q.next c = .escaped x) : some c = some '\\' := by
  cases q with
  | bare =>
    rw [Quoting.next] at h
    split at h <;> cases h
  | inside y =>
    rw [Quoting.next] at h
    split at h
    next hc => rw [hc]
    next => split at h <;> cases h
  | escaped y => cases h

theorem behind_idle {c : Char} {r : Text} (hq : ∀ x, q = .escaped x → previous = some '\\')
    (hdrops : drops quote previous c r = true) : Behind q q.idle r := by
  cases q with
  | bare | inside x => exact Or.inl rfl
  | escaped x =>
    obtain ⟨_, _, hswallow⟩ := drops_iff.1 hdrops
    rw [hq x rfl] at hswallow
    exact Or.inr ⟨rfl, hswallow.resolve_left (by decide)⟩

theorem quotedLength_keyFrom_le (h : isEven previous t = true) (hlast : Follows quote previous last)
    (hq : q.Proper) (hp : ∀ x, p = .escaped x → previous = some '\\') (hbehind : Behind q p t) :
    quotedLength q (keyFrom quote previous last t) ≤ quotedLength p t := by
  induction t generalizing q p quote previous last with
  | nil => exact Nat.zero_le _
  | cons c r ih =>
    have hrest : isEven (some c) r = true := (Bool.and_eq_true_iff.1 h).2
    rw [keyFrom_cons h hlast]
    by_cases hdrops : drops quote previous c r = true
    · obtain ⟨rfl, rfl, _⟩ := drops_iff.1 hdrops
      obtain rfl : p = q := hbehind.resolve_right fun hswallow => by cases hswallow.2
      -- The space is missing in the key, so only the header's reader moves on.
      rw [if_pos hdrops, quotedLength, next_space hq]
      refine Nat.le_trans (ih hrest (Or.inr ⟨rfl, rfl⟩) hq (fun x hx => ?_)
        (behind_idle hp hdrops)) (Nat.le_add_left _ _)
      cases p <;> cases hx
    · rw [if_neg hdrops, quotedLength, quotedLength]
      -- Both read `c`. If they were apart, `c` is punctuation, which brings them together.
      have hsame : p.next c = q.next c ∧ (p = .bare ↔ q = .bare) := by
        rcases hbehind with rfl | ⟨rfl, hswallow⟩
        · exact ⟨rfl, Iff.rfl⟩
        · have hc : Quoting.IsPlain c := isPlain_swallowsBefore hswallow
          exact ⟨by rw [hq.next_plain hc, hq.idle.next_plain hc, Quoting.idle_idle],
            Quoting.idle_eq_bare⟩
      simp only [hsame.1, hsame.2]
      exact Nat.add_le_add_left (ih hrest (Or.inl rfl) (hq.next c)
        (fun x hx => previous_of_escaped hx) (Or.inl rfl)) _

/-- A space that is dropped in a string makes the strings shorter. -/
theorem quotedLength_keyFrom_lt (h : isEven previous t = true) (hlast : Follows quote previous last)
    (hq : q.Proper) (hescaped : ∀ x, q = .escaped x → previous = some '\\')
    (hspares : spares q quote previous t = false) :
    quotedLength q (keyFrom quote previous last t) < quotedLength q t := by
  induction t generalizing q quote previous last with
  | nil => cases hspares
  | cons c r ih =>
    have hrest : isEven (some c) r = true := (Bool.and_eq_true_iff.1 h).2
    rw [keyFrom_cons h hlast]
    rw [spares] at hspares
    by_cases hdrops : drops quote previous c r = true
    · obtain ⟨rfl, rfl, _⟩ := drops_iff.1 hdrops
      have hskipped : Follows none (some ' ') last := Or.inr ⟨rfl, rfl⟩
      rw [if_pos hdrops, quotedLength]
      by_cases hbare : q = .bare
      · subst hbare
        have hlater : spares .bare none (some ' ') r = false := by
          simpa [Quoting.next, keyQuote, isQuote] using hspares
        have hlt := ih hrest hskipped hq (fun x hx => by cases hx) hlater
        exact Nat.lt_of_lt_of_le hlt (Nat.le_add_left _ _)
      · have hle := quotedLength_keyFrom_le hrest hskipped hq
          (fun x hx => by cases q <;> cases hx) (behind_idle hescaped hdrops)
        rw [if_neg fun hboth => hbare hboth.1, next_space hq]
        omega
    · have hlater : spares (q.next c) (keyQuote quote previous c) (some c) r = false := by
        simpa [hdrops] using hspares
      rw [if_neg hdrops, quotedLength, quotedLength]
      exact Nat.add_lt_add_left (ih hrest (Or.inl rfl) (hq.next c)
        (fun x hx => previous_of_escaped hx) hlater) _

end

/-- The key and the reader agree on whether a string is open. -/
def Agrees : Quoting → Option Char → Option Char → Prop
  | .bare, quote, _ => quote = none
  | .inside x, quote, _ => quote = some x
  | .escaped x, quote, previous => quote = some x ∧ previous = some '\\'

theorem Agrees.next {q : Quoting} {quote previous : Option Char} {c : Char}
    (h : Agrees q quote previous) (hq : q.Proper)
    (hend : q ≠ .bare → q.next c = .bare → previous ≠ some '\\') :
    Agrees (q.next c) (keyQuote quote previous c) (some c) := by
  cases q with
  | bare =>
    obtain rfl : quote = none := h
    cases hc : isQuote c <;> simp [Quoting.next, keyQuote, hc, Agrees]
  | inside x =>
    obtain rfl : quote = some x := h
    have hx : x ≠ '\\' := by
      rintro rfl
      cases hq
    by_cases hslash : c = '\\'
    · simp [Quoting.next, keyQuote, hslash, hx.symm, Agrees]
    by_cases hclose : c = x
    · have hprevious := hend (by simp) (by simp [Quoting.next, hclose, hx])
      simp [Quoting.next, keyQuote, hclose, hx, hprevious, Agrees]
    · simp [Quoting.next, keyQuote, hslash, hclose, Agrees]
  | escaped x =>
    obtain ⟨rfl, rfl⟩ := h
    simp [Quoting.next, keyQuote, Agrees]

theorem spares_of_strings {q : Quoting} {quote previous : Option Char} {read t : Text}
    (h : ∀ w ∈ stringsFrom read q t, w.dropLast.getLast? ≠ some '\\') (hq : q.Proper)
    (hagrees : Agrees q quote previous) (hread : q ≠ .bare → read.head? = previous) :
    spares q quote previous t = true := by
  induction t generalizing q quote previous read with
  | nil => rfl
  | cons c r ih =>
    have hkept : q = .bare ∨ drops quote previous c r = false := by
      cases q with
      | bare => exact Or.inl rfl
      | inside x => exact Or.inr (by simp [drops, show quote = some x from hagrees])
      | escaped x => exact Or.inr (by simp [drops, hagrees.1])
    rw [stringsFrom] at h
    have hend : q ≠ .bare → q.next c = .bare → previous ≠ some '\\' := by
      intro hopen hnext
      rw [if_pos hnext, if_neg hopen] at h
      have hlast := h _ (List.mem_append_left _ (List.mem_singleton.2 rfl))
      simpa [hread hopen] using hlast
    have hnext := hagrees.next hq hend
    rw [spares, Bool.and_eq_true]
    refine ⟨by simpa using hkept, ?_⟩
    by_cases hbare : q.next c = .bare
    · rw [if_pos hbare, List.forall_mem_append] at h
      rw [← hbare] at h
      exact ih h.2 (hq.next c) hnext fun hopen => absurd hbare hopen
    · rw [if_neg hbare] at h
      exact ih h (hq.next c) hnext fun _ => rfl

/-- The header that is stored and the key have the strings of the header. -/
def KeepsStrings (h : Text) : Prop :=
  strings (normalize h) = strings h ∧ strings (key h) = strings h

theorem KeepsStrings.normalize {h : Text} (hkept : KeepsStrings h) :
    KeepsStrings (normalize h) := by
  constructor
  · rw [normalize_normalize]
  · rw [key_normalize, hkept.1, hkept.2]

theorem strings_key_iff (h : Text) :
    strings (key h) = strings (normalize h) ↔ spares .bare none none (normalize h) = true := by
  constructor
  · intro hkey
    rw [← Bool.not_eq_false]
    intro hspares
    have hlt := quotedLength_keyFrom_lt (isEven_normalize h) (Or.inl rfl) (q := .bare) trivial
      (fun x hx => by cases hx) hspares
    have hlength := congrArg (fun l => (List.flatten l).length) hkey
    simp only [strings, key, length_stringsFrom fun _ => rfl] at hlength
    omega
  · exact stringsFrom_keyFrom (isEven_normalize h) (Or.inl rfl) fun _ => rfl

section

variable {h : Text} (hclosed : Quoting.bare.after h = .bare)
include hclosed

theorem strings_normalize_iff :
    strings (normalize h) = strings h ↔ ∀ w ∈ strings h, normalize w = w := by
  rw [strings_normalize hclosed]
  constructor
  · intro heq
    exact List.map_eq_map_iff.1 (heq.trans (List.map_id _).symm)
  · intro heq
    exact (List.map_eq_map_iff.2 heq).trans (List.map_id _)

theorem keepsStrings_iff : KeepsStrings h ↔
    (∀ w ∈ strings h, normalize w = w) ∧ spares .bare none none (normalize h) = true := by
  have hnormal := strings_normalize_iff hclosed
  rw [KeepsStrings, ← strings_key_iff, hnormal]
  exact and_congr_right fun heq => by rw [hnormal.2 heq]

theorem keepsStrings_of_forall
    (hstrings : ∀ w ∈ strings h, normalize w = w ∧ w.dropLast.getLast? ≠ some '\\') :
    KeepsStrings h := by
  have heven : ∀ w ∈ strings h, normalize w = w := fun w hw => (hstrings w hw).1
  have hsame : strings (normalize h) = strings h := (strings_normalize_iff hclosed).2 heven
  have hends : ∀ w ∈ stringsFrom [] .bare (normalize h), w.dropLast.getLast? ≠ some '\\' :=
    fun w hw => (hstrings w (hsame ▸ hw)).2
  exact (keepsStrings_iff hclosed).2
    ⟨heven, spares_of_strings hends trivial rfl fun hopen => absurd rfl hopen⟩

end

end AtomicCss.Header
