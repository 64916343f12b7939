import AtomicCss.Proofs.Text.Trim
set_option autoImplicit false

namespace AtomicCss.Text

def IsWord (w : Text) : Prop := w ≠ [] ∧ ∀ c ∈ w, isBlank c = false

theorem isWord_of_mem_words {t w : Text} (h : w ∈ words t) : IsWord w := mem_wordsBy h

theorem wordsFrom_append {w : Text} (h : ∀ c ∈ w, isBlank c = false) (read t : Text) :
    wordsFrom isBlank read (w ++ t) = wordsFrom isBlank (w.reverse ++ read) t := by
  induction w generalizing read with
  | nil => rfl
  | cons c w ih =>
    have hc := h c List.mem_cons_self
    rw [List.cons_append, wordsFrom, if_neg (by simp [hc]),
      ih fun d hd => h d (List.mem_cons_of_mem _ hd)]
    simp

theorem wordsFrom_cons {read : Text} (h : read ≠ []) (t : Text) :
    ∃ w l, wordsFrom isBlank read t = (read.reverse ++ w) :: l := by
  induction t generalizing read with
  | nil => exact ⟨[], [], by rw [wordsFrom, if_neg (by simpa using h), List.append_nil]⟩
  | cons c t ih =>
    cases hc : isBlank c with
    | true =>
      refine ⟨[], wordsFrom isBlank [] t, ?_⟩
      rw [wordsFrom, if_pos hc, if_neg (by simpa using h), List.append_nil]
    | false =>
      obtain ⟨w, l, hw⟩ := ih (List.cons_ne_nil c read)
      refine ⟨c :: w, l, ?_⟩
      rw [wordsFrom, if_neg (by simp [hc]), hw, List.reverse_cons, List.append_assoc]
      rfl

theorem words_of_isWord {w : Text} (h : IsWord w) : words w = [w] := by
  have hread := wordsFrom_append h.2 [] []
  rw [List.append_nil, List.append_nil] at hread
  rw [words, wordsBy, hread, wordsFrom, if_neg (by simpa using h.1), List.reverse_reverse]

theorem words_append_space {w : Text} (h : IsWord w) (t : Text) :
    words (w ++ ' ' :: t) = w :: words t := by
  have hspace : isBlank ' ' = true := by decide
  rw [words, wordsBy, wordsFrom_append h.2, wordsFrom, if_pos hspace, List.append_nil,
    if_neg (by simpa using h.1), List.reverse_reverse]
  rfl

theorem words_join_space {l : List Text} (h : ∀ w ∈ l, IsWord w) :
    words (join [' '] l) = l := by
  induction l with
  | nil => rfl
  | cons w l ih =>
    have hw := h w List.mem_cons_self
    cases l with
    | nil => rw [join_singleton, words_of_isWord hw]
    | cons u l =>
      rw [join_cons_cons, List.append_assoc, List.singleton_append, words_append_space hw,
        ih fun v hv => h v (List.mem_cons_of_mem _ hv)]

theorem join_space_cons (w : Text) (l : List Text) :
    join [' '] (w :: l) = w ++ l.flatMap (' ' :: ·) := by
  induction l generalizing w with
  | nil => simp
  | cons x l ih => rw [join_cons_cons, ih, List.flatMap_cons, List.append_assoc]; rfl

theorem join_eq_nil {separator : Text} {l : List Text} (h : ∀ x ∈ l, x ≠ []) :
    join separator l = [] ↔ l = [] := by
  cases l with
  | nil => simp
  | cons x l =>
    have hx := h x List.mem_cons_self
    cases l <;> simp [hx]

theorem join_append {separator : Text} {l r : List Text} (hl : l ≠ []) (hr : r ≠ []) :
    join separator (l ++ r) = join separator l ++ separator ++ join separator r := by
  induction l with
  | nil => contradiction
  | cons x l ih =>
    cases l with
    | nil => rw [List.singleton_append, join_cons _ _ hr, join_singleton]
    | cons y l =>
      rw [List.cons_append, join_cons _ _ (by simp), ih (by simp), join_cons_cons]
      simp

theorem mem_of_mem_join {separator : Text} {l : List Text} {c : Char} (h : c ∈ join separator l) :
    c ∈ separator ∨ ∃ x ∈ l, c ∈ x := by
  induction l with
  | nil => cases h
  | cons x l ih =>
    cases l with
    | nil => exact Or.inr ⟨x, by simp, by simpa using h⟩
    | cons y l =>
      rw [join_cons_cons, List.mem_append, List.mem_append] at h
      rcases h with (h | h) | h
      · exact Or.inr ⟨x, List.mem_cons_self, h⟩
      · exact Or.inl h
      · exact (ih h).imp_right fun ⟨z, hz, hc⟩ => ⟨z, List.mem_cons_of_mem _ hz, hc⟩

theorem head?_join {separator x : Text} (hx : x ≠ []) (l : List Text) :
    (join separator (x :: l)).head? = x.head? := by
  cases x with
  | nil => contradiction
  | cons c x => cases l <;> simp

theorem exists_getLast?_join (separator : Text) {l : List Text} (h : ∀ x ∈ l, x ≠ [])
    (hne : l ≠ []) : ∃ x ∈ l, (join separator l).getLast? = x.getLast? := by
  induction l with
  | nil => contradiction
  | cons x l ih =>
    cases l with
    | nil => exact ⟨x, List.mem_cons_self, by rw [join_singleton]⟩
    | cons y l =>
      have hrest := fun z hz => h z (List.mem_cons_of_mem _ hz)
      obtain ⟨z, hz, hlast⟩ := ih hrest (by simp)
      have hjoin : join separator (y :: l) ≠ [] := fun hnil =>
        absurd ((join_eq_nil hrest).1 hnil) (by simp)
      refine ⟨z, List.mem_cons_of_mem _ hz, ?_⟩
      rw [join_cons_cons, List.getLast?_append, ← hlast,
        List.getLast?_eq_some_getLast hjoin]
      rfl

theorem isBlank_head?_join_words {l : List Text} (h : ∀ w ∈ l, IsWord w) :
    (join [' '] l).head?.any isBlank = false := by
  cases l with
  | nil => rfl
  | cons w l =>
    obtain ⟨hne, hw⟩ := h w List.mem_cons_self
    rw [head?_join hne]
    cases w with
    | nil => contradiction
    | cons c w => exact hw c List.mem_cons_self

theorem isBlank_getLast?_join_words {l : List Text} (h : ∀ w ∈ l, IsWord w) :
    (join [' '] l).getLast?.any isBlank = false := by
  by_cases hl : l = []
  · rw [hl]
    rfl
  · obtain ⟨w, hw, hlast⟩ := exists_getLast?_join [' '] (fun w hw => (h w hw).1) hl
    rw [hlast, List.getLast?_eq_some_getLast (h w hw).1]
    exact (h w hw).2 _ (List.getLast_mem _)

theorem trim_append_blank {s : Text} (h : ∀ c ∈ s, isBlank c = true) (t : Text) :
    trim (t ++ s) = trim t := by
  by_cases ht : ∀ c ∈ t, isBlank c = true
  · rw [trim_of_blank ht, trim_of_blank]
    intro c hc
    exact (List.mem_append.1 hc).elim (ht c) (h c)
  · have hne : (t.dropWhile isBlank).isEmpty = false := by
      cases hd : t.dropWhile isBlank with
      | nil =>
        have hink := ink_dropWhile t
        rw [hd, ink_nil] at hink
        exact absurd (ink_eq_zero.1 hink.symm) ht
      | cons c r => rfl
    have hreverse : ∀ c ∈ s.reverse, isBlank c = true := fun c hc => h c (List.mem_reverse.1 hc)
    rw [trim, trimStart, List.dropWhile_append, hne, if_neg (by simp), trimEnd,
      List.reverse_append, List.dropWhile_append_of_pos hreverse]
    rfl

theorem trim_trimEnd (t : Text) : trim (trimEnd t) = trim t := by
  have hsplit := congrArg List.reverse (List.takeWhile_append_dropWhile (p := isBlank)
    (l := t.reverse))
  rw [List.reverse_append, List.reverse_reverse] at hsplit
  conv => rhs; rw [← hsplit]
  refine (trim_append_blank (fun c hc => ?_) _).symm
  exact List.all_eq_true.1 List.all_takeWhile c (List.mem_reverse.1 hc)

theorem trimEnd_append_cons {c : Char} (hc : isBlank c = false) (s t : Text) :
    trimEnd (s ++ c :: t) = s ++ c :: trimEnd t := by
  have hreverse : (s ++ c :: t).reverse = t.reverse ++ c :: s.reverse := by simp
  rw [trimEnd, trimEnd, hreverse, List.dropWhile_append]
  cases hd : (t.reverse.dropWhile isBlank) with
  | nil => simp [hc]
  | cons d r => simp

end AtomicCss.Text

namespace AtomicCss.Header

theorem normalize_normalize (h : Text) : normalize (normalize h) = normalize h :=
  congrArg (Text.join [' ']) (Text.words_join_space fun _ hw => Text.isWord_of_mem_words hw)

theorem trim_normalize (h : Text) : Text.trim (normalize h) = normalize h :=
  Text.trim_eq_self.2 ⟨Text.isBlank_head?_join_words fun _ hw => Text.isWord_of_mem_words hw,
    Text.isBlank_getLast?_join_words fun _ hw => Text.isWord_of_mem_words hw⟩

end AtomicCss.Header
