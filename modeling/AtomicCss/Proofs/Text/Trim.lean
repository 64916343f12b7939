import AtomicCss.Style.Header
set_option autoImplicit false

namespace AtomicCss

theorem ne_of_isBlank {c d : Char} (hc : isBlank c = true) (hd : isBlank d = false) : c ≠ d := by
  rintro rfl
  simp [hc] at hd

theorem isQuote_of_isBlank {c : Char} (hc : isBlank c = true) : isQuote c = false := by
  simp [isQuote, ne_of_isBlank hc (d := '"') (by decide),
    ne_of_isBlank hc (d := '\'') (by decide)]

namespace Text

def ink (t : Text) : Nat := (t.filter fun c => !isBlank c).length

@[simp] theorem ink_nil : ink [] = 0 := rfl

@[simp] theorem ink_append (s t : Text) : ink (s ++ t) = ink s + ink t := by
  simp [ink]

theorem ink_cons (c : Char) (t : Text) : ink (c :: t) = (if isBlank c then 0 else 1) + ink t := by
  cases h : isBlank c <;> simp [ink, h, Nat.add_comm]

@[simp] theorem ink_reverse (t : Text) : ink t.reverse = ink t := by
  simp [ink, List.filter_reverse]

theorem ink_eq_zero {t : Text} : ink t = 0 ↔ ∀ c ∈ t, isBlank c = true := by
  simp [ink, List.filter_eq_nil_iff]

theorem ink_dropWhile (t : Text) : ink (t.dropWhile isBlank) = ink t := by
  induction t with
  | nil => rfl
  | cons c t ih =>
    cases h : isBlank c <;> simp [h, ink_cons, ih]

@[simp] theorem ink_trim (t : Text) : ink (trim t) = ink t := by
  rw [trim, trimEnd, ink_reverse, ink_dropWhile, ink_reverse, trimStart, ink_dropWhile]

theorem trim_of_blank {t : Text} (h : ∀ c ∈ t, isBlank c = true) : trim t = [] := by
  have hstart : trimStart t = [] := by
    induction t with
    | nil => rfl
    | cons c t ih =>
      have hc := h c List.mem_cons_self
      rw [trimStart, List.dropWhile_cons_of_pos hc]
      exact ih fun d hd => h d (List.mem_cons_of_mem _ hd)
  rw [trim, hstart]
  rfl

theorem trim_blank_append {s : Text} (h : ∀ c ∈ s, isBlank c = true) (t : Text) :
    trim (s ++ t) = trim t := by
  rw [trim, trimStart, List.dropWhile_append_of_pos h]
  rfl

theorem trimEnd_prefix (t : Text) : trimEnd t <+: t := by
  rw [← List.reverse_suffix, trimEnd, List.reverse_reverse]
  exact List.dropWhile_suffix _

theorem isBlank_head?_trim (t : Text) : (trim t).head?.any isBlank = false := by
  have hstart := isBlank_head?_trimStart t
  obtain ⟨s, hs⟩ := trimEnd_prefix (trimStart t)
  rw [trim]
  cases h : trimEnd (trimStart t) with
  | nil => rfl
  | cons c r =>
    rw [h] at hs
    rw [← hs] at hstart
    exact hstart

theorem isBlank_getLast?_trim (t : Text) : (trim t).getLast?.any isBlank = false := by
  rw [trim, trimEnd, List.getLast?_reverse]
  exact isBlank_head?_trimStart _

theorem trim_eq_self {t : Text} :
    trim t = t ↔ t.head?.any isBlank = false ∧ t.getLast?.any isBlank = false := by
  constructor
  · intro h
    have hhead := isBlank_head?_trim t
    have hlast := isBlank_getLast?_trim t
    rw [h] at hhead hlast
    exact ⟨hhead, hlast⟩
  · rintro ⟨hhead, hlast⟩
    have hstart : trimStart t = t := by
      cases t with
      | nil => rfl
      | cons c r => exact List.dropWhile_cons_of_neg (by simpa using hhead)
    rw [trim, hstart, trimEnd]
    rw [← List.head?_reverse] at hlast
    cases hr : t.reverse with
    | nil => simpa using hr.symm
    | cons c r =>
      rw [hr] at hlast
      rw [List.dropWhile_cons_of_neg (by simpa using hlast), ← hr, List.reverse_reverse]

@[simp] theorem trim_trim (t : Text) : trim (trim t) = trim t :=
  trim_eq_self.2 ⟨isBlank_head?_trim t, isBlank_getLast?_trim t⟩

theorem exists_append_trim (t : Text) : ∃ u v, (∀ c ∈ u, isBlank c = true) ∧
    (∀ c ∈ v, isBlank c = true) ∧ t = u ++ (trim t ++ v) := by
  have hblank : ∀ s : Text, ∀ c ∈ s.takeWhile isBlank, isBlank c = true := fun s c hc =>
    List.all_eq_true.1 List.all_takeWhile c hc
  refine ⟨t.takeWhile isBlank, ((trimStart t).reverse.takeWhile isBlank).reverse, hblank t,
    fun c hc => hblank _ c (List.mem_reverse.1 hc), ?_⟩
  rw [trim, trimEnd, ← List.reverse_append, List.takeWhile_append_dropWhile, List.reverse_reverse,
    trimStart, List.takeWhile_append_dropWhile]

theorem ink_flatten_wordsFrom (read t : Text) :
    ink (wordsFrom isBlank read t).flatten = ink read + ink t := by
  induction t generalizing read with
  | nil =>
    cases read with
    | nil => rfl
    | cons d s =>
      rw [wordsFrom, if_neg (by simp), List.flatten_singleton, ink_reverse, ink_nil, Nat.add_zero]
  | cons c t ih =>
    cases hc : isBlank c with
    | true =>
      have hnext := ih []
      cases read with
      | nil => simp [wordsFrom, hc, hnext, ink_cons]
      | cons d s =>
        rw [wordsFrom, if_pos hc, if_neg (by simp), List.flatten_cons, ink_append, ink_reverse,
          hnext, ink_cons c, hc]
        simp
    | false =>
      rw [wordsFrom, if_neg (by simp [hc]), ih, ink_cons, ink_cons]
      omega

theorem ink_flatten_words (t : Text) : ink (words t).flatten = ink t := by
  rw [words, wordsBy, ink_flatten_wordsFrom, ink_nil, Nat.zero_add]

theorem ink_join_space (l : List Text) : ink (join [' '] l) = ink l.flatten := by
  induction l with
  | nil => rfl
  | cons t l ih =>
    cases l with
    | nil => simp
    | cons u l =>
      have hspace : ink [' '] = 0 := by decide
      rw [join_cons_cons, ink_append, ink_append, ih, hspace, Nat.add_zero, ← ink_append]
      rfl

@[simp] theorem ink_normalize (h : Text) : ink (Header.normalize h) = ink h := by
  rw [Header.normalize, ink_join_space, ink_flatten_words]

end Text
end AtomicCss
