import AtomicCss.Proofs.Identifier.Fresh
import Mathlib.Data.List.Induction
import Mathlib.Data.List.Lex
import Mathlib.Data.Set.Function
import Mathlib.Order.Monotone.Basic
set_option autoImplicit false

namespace AtomicCss

namespace Word

def IsLetters (w : Text) : Prop := w ≠ [] ∧ ∀ c ∈ w, c ∈ alphabet

def LetterLt (c d : Char) : Prop := alphabet.idxOf c < alphabet.idxOf d

instance asymm_letterLt : Std.Asymm LetterLt := ⟨fun _ _ h => Nat.not_lt.2 (Nat.le_of_lt h)⟩

/-- Shorter words come first, and words of one length as in a dictionary. -/
def Precedes (s t : Text) : Prop :=
  s.length < t.length ∨ s.length = t.length ∧ List.Lex LetterLt s t

theorem not_precedes_of_precedes {s t : Text} (h : Precedes s t) : ¬Precedes t s := by
  rintro (hlt | ⟨heq, hlex⟩)
  · rcases h with hst | ⟨hst, _⟩ <;> omega
  · rcases h with hst | ⟨_, hst⟩
    · omega
    · exact Std.Asymm.asymm _ _ hlex hst

theorem idxOf_letter {d : Nat} (h : d < 52) : alphabet.idxOf (letter d) = d := by
  have hd : d < alphabet.length := h
  rw [letter, List.getD_eq_getElem?_getD, List.getElem?_eq_getElem hd, Option.getD_some,
    nodup_alphabet.idxOf_getElem]

theorem letter_idxOf {c : Char} (h : c ∈ alphabet) : letter (alphabet.idxOf c) = c := by
  have hc := List.idxOf_lt_length_iff.2 h
  rw [letter, List.getD_eq_getElem?_getD, List.getElem?_eq_getElem hc, Option.getD_some,
    List.getElem_idxOf]

theorem lex_append {s t : Text} (h : List.Lex LetterLt s t) (hlength : s.length = t.length)
    (u v : Text) : List.Lex LetterLt (s ++ u) (t ++ v) := by
  induction h with
  | nil => cases hlength
  | cons _ ih => exact .cons (ih (Nat.succ.inj hlength))
  | rel hlt => exact .rel hlt

theorem Precedes.append_letter {s t : Text} (h : Precedes s t) (c d : Char) :
    Precedes (s ++ [c]) (t ++ [d]) := by
  rcases h with h | ⟨hlength, h⟩
  · exact Or.inl (by simpa using h)
  · exact Or.inr ⟨by simpa using hlength, lex_append h hlength [c] [d]⟩

theorem precedes_append_letter (s : Text) {c d : Char} (h : LetterLt c d) :
    Precedes (s ++ [c]) (s ++ [d]) :=
  Or.inr ⟨by simp, List.Lex.append_left LetterLt (.rel h) s⟩

theorem precedes_ofNumber {m n : Nat} (h : m < n) : Precedes (ofNumber m) (ofNumber n) := by
  induction n using Nat.strongRecOn generalizing m with
  | ind n ih =>
    obtain ⟨n, rfl⟩ : ∃ k, n = k + 1 := ⟨n - 1, by omega⟩
    cases m with
    | zero =>
      rw [ofNumber_zero]
      exact Or.inl (List.length_pos_iff.2 (ofNumber_ne_nil (Nat.succ_ne_zero n)))
    | succ m =>
      rw [ofNumber_succ, ofNumber_succ]
      by_cases hq : m / 52 = n / 52
      · have hlt : LetterLt (letter (m % 52)) (letter (n % 52)) := by
          rw [LetterLt, idxOf_letter (Nat.mod_lt m (by omega)),
            idxOf_letter (Nat.mod_lt n (by omega))]
          omega
        rw [hq]
        exact precedes_append_letter _ hlt
      · exact (ih (n / 52) (by omega) (by omega)).append_letter _ _

theorem precedes_ofNumber_iff {m n : Nat} : Precedes (ofNumber m) (ofNumber n) ↔ m < n := by
  refine ⟨fun h => ?_, precedes_ofNumber⟩
  rcases Nat.lt_trichotomy m n with hlt | rfl | hlt
  · exact hlt
  · exact absurd h (not_precedes_of_precedes h)
  · exact absurd h (not_precedes_of_precedes (precedes_ofNumber hlt))

theorem exists_ofNumber {w : Text} (h : ∀ c ∈ w, c ∈ alphabet) : ∃ n, ofNumber n = w := by
  induction w using List.reverseRecOn with
  | nil => exact ⟨0, ofNumber_zero⟩
  | append_singleton w c ih =>
    obtain ⟨n, rfl⟩ := ih fun d hd => h d (List.mem_append_left _ hd)
    have hc : c ∈ alphabet := h c (List.mem_append_right _ List.mem_cons_self)
    have hlt : alphabet.idxOf c < 52 := List.idxOf_lt_length_iff.2 hc
    refine ⟨52 * n + alphabet.idxOf c + 1, ?_⟩
    rw [ofNumber_succ, show (52 * n + alphabet.idxOf c) / 52 = n by omega,
      show (52 * n + alphabet.idxOf c) % 52 = alphabet.idxOf c by omega, letter_idxOf hc]

theorem isLetters_ofNumber {n : Nat} (h : 0 < n) : IsLetters (ofNumber n) :=
  ⟨ofNumber_ne_nil (Nat.ne_of_gt h), fun _ => mem_alphabet_of_mem_ofNumber⟩

theorem IsLetters.exists_ofNumber {w : Text} (h : IsLetters w) : ∃ n, 0 < n ∧ ofNumber n = w := by
  obtain ⟨n, rfl⟩ := Word.exists_ofNumber h.2
  refine ⟨n, Nat.pos_of_ne_zero ?_, rfl⟩
  rintro rfl
  exact h.1 ofNumber_zero

theorem bijOn_ofNumber : Set.BijOn ofNumber {n | 0 < n} {w | IsLetters w} :=
  ⟨fun _ => isLetters_ofNumber, fun _ _ _ _ => ofNumber_injective,
    fun _ => IsLetters.exists_ofNumber⟩

end Word

namespace Allocator

/-- The search for a free name, one word after the other, ends with this name. -/
inductive Draws : Allocator → Text → Allocator → Prop where
  | free {a : Allocator} : a.candidate (a.counter + 1) ∉ a.reserved →
      Draws a (a.candidate (a.counter + 1)) { a with counter := a.counter + 1 }
  | skip {a b : Allocator} {ident : Text} : a.candidate (a.counter + 1) ∈ a.reserved →
      Draws { a with counter := a.counter + 1 } ident b → Draws a ident b

theorem Draws.unique {a b c : Allocator} {s t : Text} (h : a.Draws s b) (g : a.Draws t c) :
    s = t ∧ b = c := by
  induction h with
  | free hfree =>
    cases g with
    | free => exact ⟨rfl, rfl⟩
    | skip hmem => exact absurd hmem hfree
  | skip hmem _ ih =>
    cases g with
    | free hfree => exact absurd hmem hfree
    | skip _ g => exact ih g

theorem draws_of_reserved (k : Nat) {a : Allocator}
    (hskip : ∀ n, a.counter < n → n < a.counter + 1 + k → a.candidate n ∈ a.reserved)
    (hfree : a.candidate (a.counter + 1 + k) ∉ a.reserved) :
    a.Draws (a.candidate (a.counter + 1 + k)) { a with counter := a.counter + 1 + k } := by
  induction k generalizing a with
  | zero => exact .free hfree
  | succ k ih =>
    have hshift : a.counter + 1 + (k + 1) = a.counter + 1 + 1 + k := by omega
    rw [hshift] at hfree hskip ⊢
    refine .skip (hskip _ (by omega) (by omega)) ?_
    exact ih (a := { a with counter := a.counter + 1 })
      (fun n hlow hhigh => hskip n (Nat.lt_of_succ_lt hlow) hhigh) hfree

/-- The search ends, for some of the following names is free. -/
theorem draws_next (a : Allocator) : a.Draws a.next.1 a.next.2 := by
  have hlt : a.counter < a.nextNumber := a.counter_lt_next
  obtain ⟨k, hk⟩ : ∃ k, a.nextNumber = a.counter + 1 + k := ⟨a.nextNumber - a.counter - 1, by omega⟩
  rw [next, hk]
  refine draws_of_reserved k (fun n hlow hhigh => ?_) (hk ▸ a.candidate_nextNumber)
  exact candidate_mem_reserved hlow (hk ▸ hhigh)

theorem draws_iff {a b : Allocator} {ident : Text} : a.Draws ident b ↔ (ident, b) = a.next := by
  constructor
  · intro h
    obtain ⟨rfl, rfl⟩ := h.unique a.draws_next
    rfl
  · intro h
    obtain ⟨rfl, rfl⟩ := Prod.mk.inj h
    exact a.draws_next

/-- The number of the word that the draw after `i` others takes. -/
def drawnNumber (a : Allocator) (i : Nat) : Nat := (a.take i).2.nextNumber

theorem stem_take (a : Allocator) (k : Nat) : (a.take k).2.stem = a.stem := by
  induction k generalizing a with
  | zero => rfl
  | succ k ih => exact ih a.next.2

theorem reserved_take (a : Allocator) (k : Nat) : (a.take k).2.reserved = a.reserved := by
  induction k generalizing a with
  | zero => rfl
  | succ k ih => exact ih a.next.2

theorem counter_take_succ (a : Allocator) (i : Nat) :
    (a.take (i + 1)).2.counter = a.drawnNumber i := by
  rw [take_succ]
  rfl

theorem take_eq_map (a : Allocator) (k : Nat) :
    (a.take k).1 = (List.range k).map fun i => a.candidate (a.drawnNumber i) := by
  induction k with
  | zero => rfl
  | succ k ih =>
    have hlast : (a.take k).2.next.1 = a.candidate (a.drawnNumber k) := by
      rw [next, candidate, candidate, stem_take]
      rfl
    rw [take_succ, List.range_succ, List.map_append, ih, hlast]
    rfl

theorem drawnNumber_lt (a : Allocator) {i j : Nat} (h : i < j) :
    a.drawnNumber i < a.drawnNumber j :=
  strictMono_nat_of_lt_succ (fun i => by
    rw [← a.counter_take_succ i]
    exact (a.take (i + 1)).2.counter_lt_next) h

theorem lt_drawnNumber (a : Allocator) (i : Nat) : i < a.drawnNumber i := by
  induction i with
  | zero => exact Nat.lt_of_le_of_lt (Nat.zero_le _) a.counter_lt_next
  | succ i ih => exact Nat.lt_of_le_of_lt ih (a.drawnNumber_lt (Nat.lt_succ_self i))

/-- Every free name behind the counter comes, for the numbers grow without a bound. -/
theorem exists_drawnNumber_iff {a : Allocator} {n : Nat} (hn : a.counter < n) :
    (∃ i, a.drawnNumber i = n) ↔ a.candidate n ∉ a.reserved := by
  constructor
  · rintro ⟨i, rfl⟩
    have hfree := (a.take i).2.candidate_nextNumber
    rwa [reserved_take, candidate, stem_take] at hfree
  · intro hfree
    have hreach : n ≤ (a.take (n + 1)).2.counter := by
      rw [counter_take_succ]
      exact Nat.le_of_lt (a.lt_drawnNumber n)
    have hmem : a.candidate n ∈ (a.take (n + 1)).1 := mem_take.2 ⟨hfree, n, hn, hreach, rfl⟩
    rw [take_eq_map, List.mem_map] at hmem
    obtain ⟨i, _, hi⟩ := hmem
    exact ⟨i, a.candidate_injective hi⟩

/--
Every search for a name ends. The names that come one after the other are, with the stem in front,
the words that make no reserved name: all of them, each once, in the order of words, in which the
words are counted without gaps.
-/
theorem take_enumerates {stem : Text} {reserved : List Text} {a : Allocator}
    (h : ofStem? stem reserved = some a) :
    Set.BijOn Word.ofNumber {n | 0 < n} {w | Word.IsLetters w} ∧
    (∀ m n, 0 < m → 0 < n → (Word.Precedes (Word.ofNumber m) (Word.ofNumber n) ↔ m < n)) ∧
    (∀ k ident b, (a.take k).2.Draws ident b ↔ (ident, b) = (a.take k).2.next) ∧
    ∃ words : Nat → Text,
      (∀ k, (a.take k).1 = (List.range k).map fun i => stem ++ words i) ∧
      (∀ i j, i < j → Word.Precedes (words i) (words j)) ∧
      ∀ w, (∃ i, words i = w) ↔ Word.IsLetters w ∧ stem ++ w ∉ reserved := by
  obtain ⟨_, ha⟩ := Option.ite_some_none_eq_some.1 h
  have hcounter : a.counter = 0 := by rw [← ha]
  have hcandidate : ∀ n, a.candidate n = stem ++ Word.ofNumber n := fun n => by rw [← ha, candidate]
  have hreserved : a.reserved = reserved := by rw [← ha]
  refine ⟨Word.bijOn_ofNumber, fun _ _ _ _ => Word.precedes_ofNumber_iff, fun _ _ _ => draws_iff,
    fun i => Word.ofNumber (a.drawnNumber i), fun k => ?_,
    fun i j hij => Word.precedes_ofNumber (a.drawnNumber_lt hij), fun w => ⟨?_, ?_⟩⟩
  · simp only [take_eq_map, hcandidate]
  · rintro ⟨i, rfl⟩
    have hpos : 0 < a.drawnNumber i := Nat.lt_of_le_of_lt (Nat.zero_le i) (a.lt_drawnNumber i)
    have hfree := (exists_drawnNumber_iff (hcounter ▸ hpos)).1 ⟨i, rfl⟩
    rw [hcandidate, hreserved] at hfree
    exact ⟨Word.isLetters_ofNumber hpos, hfree⟩
  · rintro ⟨hw, hfree⟩
    obtain ⟨n, hn, rfl⟩ := hw.exists_ofNumber
    rw [← hcandidate, ← hreserved] at hfree
    obtain ⟨i, hi⟩ := (exists_drawnNumber_iff (hcounter ▸ hn)).2 hfree
    exact ⟨i, congrArg Word.ofNumber hi⟩

/-- With the first word reserved the second comes first, and no word is lost behind it. -/
theorem take_enumerates_reserved :
    ofStem? "p_".toList ["p_a".toList, "b".toList] =
      some ⟨"p_".toList, ["p_a".toList, "b".toList], 0⟩ ∧
    ∃ words : Nat → Text,
      (∀ k, (take ⟨"p_".toList, ["p_a".toList, "b".toList], 0⟩ k).1 =
        (List.range k).map fun i => "p_".toList ++ words i) ∧
      (∀ i j, i < j → Word.Precedes (words i) (words j)) ∧
      ∀ w, (∃ i, words i = w) ↔
        Word.IsLetters w ∧ "p_".toList ++ w ∉ ["p_a".toList, "b".toList] := by
  have h : ofStem? "p_".toList ["p_a".toList, "b".toList] =
      some ⟨"p_".toList, ["p_a".toList, "b".toList], 0⟩ := by decide
  exact ⟨h, (take_enumerates h).2.2.2⟩

example : (take ⟨"p_".toList, ["p_a".toList, "b".toList], 0⟩ 2).1 =
    ["p_b".toList, "p_c".toList] := by cbv

end Allocator
end AtomicCss
