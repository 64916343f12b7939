import AtomicCss.Model.Ingest
import AtomicCss.Proofs.Selector.Grammar
import AtomicCss.Proofs.Text.Cutter
import AtomicCss.Proofs.Text.Words
import Mathlib.Data.List.Induction
set_option autoImplicit false

namespace AtomicCss

namespace Selector

/-- What may stand before a place outside strings where `depth` parentheses and brackets are open. A
surplus closer changes nothing. -/
inductive Outside : Nat → Text → Prop where
  | nil : Outside 0 []
  | plain {depth : Nat} {u : Text} {c : Char} : Outside depth u → isQuote c = false →
      c ∉ "()[]".toList → Outside depth (u ++ [c])
  | opening {depth : Nat} {u : Text} {c : Char} : Outside depth u → c = '(' ∨ c = '[' →
      Outside (depth + 1) (u ++ [c])
  | closing {depth : Nat} {u : Text} {c : Char} : Outside depth u → c = ')' ∨ c = ']' →
      Outside (depth - 1) (u ++ [c])
  | quoted {depth : Nat} {u s : Text} {q : Char} : Outside depth u → isQuote q = true →
      IsQuoted q s → Outside depth (u ++ q :: (s ++ [q]))

/-- The scanner of `entriesFrom`, which cuts at commas. -/
def listCutter : Cutter (Quoting × Nat) where
  rest := (.bare, 0)
  next s c := (s.1.next c, if s.1 = .bare then nesting s.2 c else s.2)
  separates c := c = ','
  next_rest c hc := by
    rw [of_decide_eq_true hc]
    rfl

theorem entriesFrom_append {s : Quoting × Nat} {t : Text} (h : listCutter.passes s t = true)
    (read r : Text) : entriesFrom s.1 s.2 read (t ++ r) =
      entriesFrom (listCutter.after s t).1 (listCutter.after s t).2 (t.reverse ++ read) r := by
  induction t generalizing s read with
  | nil => rfl
  | cons c t ih =>
    obtain ⟨q, depth⟩ := s
    rw [Cutter.passes_cons, Bool.and_eq_true, Bool.not_eq_true'] at h
    have hstep : entriesFrom q depth read (c :: (t ++ r)) =
        entriesFrom (q.next c) (if q = .bare then nesting depth c else depth) (c :: read)
          (t ++ r) := by
      rw [entriesFrom]
      by_cases hq : q = .bare
      · subst hq
        have hgo : (decide (c = ',') && decide (depth = 0)) = false := by
          rw [Bool.and_comm]
          simpa [listCutter] using h.1
        simp [hgo]
      · rw [if_neg hq, if_neg hq]
    rw [List.cons_append, hstep]
    refine (ih h.2 (c :: read)).trans ?_
    rw [List.reverse_cons, List.append_assoc]
    rfl

theorem pieces_of_isWhole {t : Text} (h : listCutter.IsWhole t) : pieces t = [t] := by
  have hread := entriesFrom_append (s := listCutter.rest) h [] []
  rw [List.append_nil, List.append_nil] at hread
  exact hread.trans (by simp [entriesFrom])

theorem pieces_append {t : Text} (h : listCutter.IsWhole t) (hclosed : listCutter.IsClosed t)
    (r : Text) : pieces (t ++ ',' :: r) = t :: pieces r := by
  have hread := entriesFrom_append (s := listCutter.rest) h [] (',' :: r)
  rw [hclosed] at hread
  exact hread.trans (by simp [entriesFrom, listCutter, pieces])

theorem entries_of_isWhole {t : Text} (h : listCutter.IsWhole t) : entries t = [Text.trim t] := by
  rw [entries, pieces_of_isWhole h, List.map_singleton]

theorem entries_append {t : Text} (h : listCutter.IsWhole t) (hclosed : listCutter.IsClosed t)
    (r : Text) : entries (t ++ ',' :: r) = Text.trim t :: entries r := by
  rw [entries, pieces_append h hclosed, List.map_cons, entries]

@[elab_as_elim]
theorem list_induction {P : Text → Prop} (whole : ∀ t, listCutter.IsWhole t → P t)
    (cut : ∀ t r, listCutter.IsWhole t → listCutter.IsClosed t → P r → P (t ++ ',' :: r))
    (s : Text) : P s := by
  refine Cutter.cut_induction (k := listCutter) whole (fun t c r ht hclosed hc hr => ?_) s
  rw [of_decide_eq_true hc]
  exact cut t r ht hclosed hr

theorem not_isWhole_comma {u v : Text} (h : listCutter.IsClosed u) :
    ¬listCutter.IsWhole (u ++ ',' :: v) := by
  rw [h.isWhole_append]
  exact fun hwhole => Cutter.not_isWhole_separator rfl v hwhole.2

theorem isClosed_comma {t : Text} (h : listCutter.IsClosed t) (w : Text) :
    listCutter.IsClosed (t ++ ',' :: w) ↔ listCutter.IsClosed w := by
  rw [h.append, Cutter.isClosed_separator rfl]

/-- What the scanner's state says about the text before. -/
inductive Standing : Quoting × Nat → Text → Prop where
  | bare {depth : Nat} {u : Text} : Outside depth u → Standing (.bare, depth) u
  | inside {depth : Nat} {u s : Text} {q : Char} : Outside depth u → isQuote q = true →
      IsQuoted q s → Standing (.inside q, depth) (u ++ q :: s)
  | escaped {depth : Nat} {u s : Text} {q : Char} : Outside depth u → isQuote q = true →
      IsQuoted q s → Standing (.escaped q, depth) (u ++ q :: (s ++ ['\\']))

theorem IsQuoted.append {q : Char} {s t : Text} (hs : IsQuoted q s) (ht : IsQuoted q t) :
    IsQuoted q (s ++ t) := by
  induction hs with
  | nil => exact ht
  | plain hne hback _ ih => exact .plain hne hback ih
  | escaped _ ih => exact .escaped ih

theorem nesting_of_isQuote {c : Char} (hc : isQuote c = true) (depth : Nat) :
    nesting depth c = depth := by
  simp only [isQuote, Bool.or_eq_true, decide_eq_true_eq] at hc
  rcases hc with rfl | rfl <;> rfl

theorem next_quote {q : Char} (hq : isQuote q = true) (depth : Nat) :
    listCutter.next (.bare, depth) q = (.inside q, depth) := by
  simp [listCutter, Quoting.next, hq, nesting_of_isQuote hq]

theorem next_inside (q : Char) (depth : Nat) (c : Char) :
    listCutter.next (.inside q, depth) c =
      (if c = '\\' then .escaped q else if c = q then .bare else .inside q, depth) := rfl

theorem Outside.step {depth : Nat} {u : Text} (h : Outside depth u) {c : Char}
    (hc : isQuote c = false) : Outside (nesting depth c) (u ++ [c]) := by
  unfold nesting
  split
  next hopen => exact .opening h (by simpa using hopen)
  split
  next hclose => exact .closing h (by simpa using hclose)
  next hopen hclose => exact .plain h hc (by simp_all)

theorem Standing.step {s : Quoting × Nat} {u : Text} (h : Standing s u) (c : Char) :
    Standing (listCutter.next s c) (u ++ [c]) := by
  cases h with
  | @bare depth u hu =>
    by_cases hc : isQuote c = true
    · rw [next_quote hc]
      exact .inside hu hc .nil
    · have hnext : listCutter.next (.bare, depth) c = (.bare, nesting depth c) := by
        simp [listCutter, Quoting.next, hc]
      rw [hnext]
      exact .bare (hu.step (Bool.eq_false_iff.2 hc))
  | @inside depth u s q hu hq hs =>
    have hshift : u ++ q :: s ++ [c] = u ++ q :: (s ++ [c]) := by simp
    rw [hshift, next_inside]
    by_cases hback : c = '\\'
    · subst hback
      exact .escaped hu hq hs
    rw [if_neg hback]
    by_cases hclose : c = q
    · subst hclose
      rw [if_pos rfl]
      exact .bare (.quoted hu hq hs)
    · rw [if_neg hclose]
      exact .inside hu hq (hs.append (.plain hclose hback .nil))
  | @escaped depth u s q hu hq hs =>
    have hshift : u ++ q :: (s ++ ['\\']) ++ [c] = u ++ q :: (s ++ ['\\', c]) := by simp
    rw [hshift]
    exact .inside hu hq (hs.append (.escaped .nil))

theorem standing_after (u : Text) : Standing (listCutter.after listCutter.rest u) u := by
  induction u using List.reverseRecOn with
  | nil => exact .bare .nil
  | append_singleton u c ih =>
    rw [Cutter.after_append]
    exact ih.step c

theorem ne_backslash_of_isQuote {q : Char} (hq : isQuote q = true) : q ≠ '\\' := by
  rintro rfl
  cases hq

theorem after_isQuoted {q : Char} {s : Text} (hs : IsQuoted q s) {depth : Nat} :
    listCutter.after (.inside q, depth) s = (.inside q, depth) := by
  induction hs with
  | nil => rfl
  | plain hne hback _ ih => simpa [listCutter, Quoting.next, hne, hback] using ih
  | escaped _ ih => simpa [listCutter, Quoting.next] using ih

theorem Outside.after_eq {depth : Nat} {u : Text} (h : Outside depth u) :
    listCutter.after listCutter.rest u = (.bare, depth) := by
  induction h with
  | nil => rfl
  | plain _ hq hc ih =>
    rw [Cutter.after_append, ih]
    simp_all [listCutter, Quoting.next, nesting]
  | opening _ hc ih =>
    rw [Cutter.after_append, ih]
    rcases hc with rfl | rfl <;> rfl
  | closing _ hc ih =>
    rw [Cutter.after_append, ih]
    rcases hc with rfl | rfl <;> rfl
  | @quoted depth u s q _ hq hs ih =>
    rw [Cutter.after_append, ih, Cutter.after_cons, next_quote hq, Cutter.after_append,
      after_isQuoted hs]
    simp [listCutter, Quoting.next, ne_backslash_of_isQuote hq]

theorem outside_iff {depth : Nat} {u : Text} :
    Outside depth u ↔ listCutter.after listCutter.rest u = (.bare, depth) := by
  refine ⟨Outside.after_eq, fun h => ?_⟩
  have hstanding := standing_after u
  rw [h] at hstanding
  cases hstanding with
  | bare hu => exact hu

theorem next_blank {c : Char} (hc : isBlank c = true) (s : Quoting × Nat) :
    listCutter.next s c = (s.1.next c, s.2) := by
  have hne : ∀ d, isBlank d = false → c ≠ d := fun _ => ne_of_isBlank hc
  simp [listCutter, nesting, hne '(' (by decide), hne '[' (by decide), hne ')' (by decide),
    hne ']' (by decide)]

theorem Standing.after_blank {s : Quoting × Nat} {u v : Text} (h : Standing s u)
    (hv : ∀ c ∈ v, isBlank c = true) :
    listCutter.after s v = listCutter.rest ↔ s = listCutter.rest := by
  induction v generalizing s u with
  | nil => rfl
  | cons c v ih =>
    obtain ⟨hc, hv⟩ := List.forall_mem_cons.1 hv
    rw [Cutter.after_cons, ih (h.step c) hv, next_blank hc]
    cases h with
    | bare _ => simp [listCutter, Quoting.next, isQuote_of_isBlank hc]
    | escaped _ _ _ => simp [listCutter, Quoting.next]
    | @inside depth u s q _ hq _ =>
      have hne : c ≠ q := by
        rintro rfl
        rw [isQuote_of_isBlank hc] at hq
        cases hq
      simp [listCutter, Quoting.next, hne, ne_of_isBlank hc (d := '\\') (by decide)]

theorem isClosed_blank {v : Text} (hv : ∀ c ∈ v, isBlank c = true) : listCutter.IsClosed v :=
  ((Standing.bare .nil).after_blank hv).2 rfl

theorem isWhole_trim {t : Text} (h : listCutter.IsWhole t) : listCutter.IsWhole (Text.trim t) := by
  obtain ⟨u, v, hu, _, hsplit⟩ := Text.exists_append_trim t
  rw [hsplit, (isClosed_blank hu).isWhole_append] at h
  exact Cutter.isWhole_of_append h.2

theorem isClosed_trim {t : Text} (h : listCutter.IsClosed t) :
    listCutter.IsClosed (Text.trim t) := by
  obtain ⟨u, v, hu, hv, hsplit⟩ := Text.exists_append_trim t
  rw [hsplit, (isClosed_blank hu).append, Cutter.IsClosed, Cutter.after_append,
    (standing_after _).after_blank hv] at h
  exact h

theorem entries_space (s : Text) : entries (' ' :: s) = entries s := by
  have hclosed : listCutter.IsClosed [' '] := rfl
  have hwhole : ∀ {t : Text}, listCutter.IsWhole t → listCutter.IsWhole (' ' :: t) :=
    fun {t} ht => (hclosed.isWhole_append t).2 ⟨rfl, ht⟩
  have htrim : ∀ t : Text, Text.trim (' ' :: t) = Text.trim t :=
    Text.trim_blank_append (s := [' ']) (List.forall_mem_singleton.2 (by decide))
  induction s using list_induction with
  | whole t ht => rw [entries_of_isWhole (hwhole ht), entries_of_isWhole ht, htrim]
  | cut t r ht hend _ =>
    have hend' : listCutter.IsClosed (' ' :: t) := (hclosed.append t).2 hend
    rw [entries_append ht hend, ← List.cons_append, entries_append (hwhole ht) hend', htrim]

theorem entries_ne_nil (s : Text) : entries s ≠ [] := by
  simp [entries, pieces, entriesFrom_ne_nil]

theorem entries_of_mem_entries {s e : Text} (h : e ∈ entries s) : entries e = [e] := by
  have hone : ∀ {t : Text}, listCutter.IsWhole t → entries (Text.trim t) = [Text.trim t] :=
    fun ht => by rw [entries_of_isWhole (isWhole_trim ht), Text.trim_trim]
  induction s using list_induction with
  | whole t ht =>
    rw [entries_of_isWhole ht, List.mem_singleton] at h
    rw [h, hone ht]
  | cut t r ht hend ih =>
    rw [entries_append ht hend, List.mem_cons] at h
    rcases h with rfl | h
    · exact hone ht
    · exact ih h

theorem entries_join_entries (s : Text) :
    entries (Text.join [',', ' '] (entries s)) = entries s := by
  induction s using list_induction with
  | whole t ht =>
    rw [entries_of_isWhole ht, Text.join_singleton, entries_of_isWhole (isWhole_trim ht),
      Text.trim_trim]
  | cut t r ht hend ih =>
    rw [entries_append ht hend, Text.join_cons _ _ (entries_ne_nil r), List.append_assoc,
      List.cons_append, entries_append (isWhole_trim ht) (isClosed_trim hend),
      List.singleton_append, entries_space, ih, Text.trim_trim]

/-- Some comma between two of the pieces stands between `u` and `v`. -/
def PartsAt (pieces : List Text) (u v : Text) : Prop :=
  ∃ before behind, before ≠ [] ∧ behind ≠ [] ∧ pieces = before ++ behind ∧
    Text.join [','] before = u ∧ Text.join [','] behind = v

theorem not_partsAt_singleton (t u v : Text) : ¬PartsAt [t] u v := by
  rintro ⟨before, behind, hbefore, hbehind, hsplit, _⟩
  rcases List.append_eq_singleton_iff.1 hsplit.symm with ⟨hnil, _⟩ | ⟨_, hnil⟩
  · exact hbefore hnil
  · exact hbehind hnil

theorem partsAt_cons {t u v : Text} {l : List Text} (hl : l ≠ []) :
    PartsAt (t :: l) u v ↔
      u = t ∧ Text.join [','] l = v ∨ ∃ w, u = t ++ ',' :: w ∧ PartsAt l w v := by
  constructor
  · rintro ⟨before, behind, hbefore, hbehind, hsplit, rfl, rfl⟩
    obtain ⟨d, before, rfl⟩ := List.exists_cons_of_ne_nil hbefore
    obtain ⟨rfl, rfl⟩ := List.cons.inj hsplit
    by_cases hnil : before = []
    · subst hnil
      exact Or.inl ⟨Text.join_singleton _ _, rfl⟩
    · refine Or.inr ⟨Text.join [','] before, ?_, before, behind, hnil, hbehind, rfl, rfl, rfl⟩
      rw [Text.join_cons _ _ hnil, List.append_assoc, List.singleton_append]
  · rintro (⟨rfl, rfl⟩ | ⟨w, rfl, before, behind, hbefore, hbehind, rfl, rfl, rfl⟩)
    · exact ⟨[u], l, by simp, hl, rfl, Text.join_singleton _ _, rfl⟩
    · refine ⟨t :: before, behind, by simp, hbehind, rfl, ?_, rfl⟩
      rw [Text.join_cons _ _ hbefore, List.append_assoc, List.singleton_append]

theorem pieces_ne_nil (s : Text) : pieces s ≠ [] := entriesFrom_ne_nil _ _ _ _

/-- The pieces are parted by the commas outside strings, parentheses and brackets, and by no others.
-/
theorem outside_iff_partsAt {s u v : Text} (h : s = u ++ ',' :: v) :
    Outside 0 u ↔ PartsAt (pieces s) u v := by
  have hclosed : ∀ w : Text, Outside 0 w ↔ listCutter.IsClosed w := fun w => outside_iff
  rw [hclosed]
  induction s using list_induction generalizing u with
  | whole t ht =>
    subst h
    rw [pieces_of_isWhole ht]
    exact iff_of_false (fun hu => not_isWhole_comma hu ht) (not_partsAt_singleton _ _ _)
  | cut t r ht hend ih =>
    rw [pieces_append ht hend, partsAt_cons (pieces_ne_nil r), join_pieces]
    -- the comma stands behind `t`, further on, or inside `t`
    rcases List.append_eq_append_iff.1 h with ⟨w, rfl, hw⟩ | ⟨w, rfl, hw⟩
    · cases w with
      | nil => exact iff_of_true (by simpa using hend) (Or.inl ⟨by simp, (List.cons.inj hw).2⟩)
      | cons d w =>
        obtain ⟨rfl, hr⟩ := List.cons.inj hw
        refine (isClosed_comma hend w).trans ((ih hr).trans ?_)
        simp
    · cases w with
      | nil =>
        rw [List.append_nil] at hend ⊢
        exact iff_of_true hend (Or.inl ⟨rfl, (List.cons.inj hw).2.symm⟩)
      | cons d w =>
        obtain ⟨rfl, rfl⟩ := List.cons.inj hw
        refine iff_of_false (fun hu => not_isWhole_comma hu ht) ?_
        rintro (⟨hu, _⟩ | ⟨x, hu, _⟩)
        · simp at hu
        · have hlength := congrArg List.length hu
          simp only [List.length_append, List.length_cons] at hlength
          omega

end Selector

namespace Place

variable (p : Place) (children : List Node)

def enter (entry : Text) : Ingestion Unit :=
  match Selector.Pseudo.ofEntry? entry with
  | none => p.fail (.nonPseudoSelector entry)
  | some s => ingestAll (p.withPseudo s) children

theorem ingest_rule (selector : Text) : p.ingest (.rule selector children) =
    if p.site.suffix.isEmpty then (Selector.entries selector).forM (p.enter children)
    else p.fail (.nestedRule selector) := by
  rw [ingest]
  rfl

theorem ingestAll_rules (hp : p.site.suffix.isEmpty = true) {l : List Text}
    (hl : ∀ e ∈ l, Selector.entries e = [e]) :
    p.ingestAll (l.map (Node.rule · children)) = l.forM (p.enter children) := by
  induction l with
  | nil =>
    rw [List.map_nil, ingestAll]
    rfl
  | cons e l ih =>
    obtain ⟨he, hl⟩ := List.forall_mem_cons.1 hl
    have hone : p.ingest (.rule e children) = p.enter children e := by
      rw [ingest_rule, if_pos hp, he]
      exact bind_pure_unit
    rw [List.map_cons, ingestAll, ih hl, hone]
    rfl

theorem ingest_rule_iff (selector : Text) (m n : Model) :
    p.ingest (.rule selector children) m = .ok () n ↔
      p.ingestAll ((Selector.entries selector).map (Node.rule · children)) m = .ok () n := by
  by_cases hp : p.site.suffix.isEmpty = true
  · rw [p.ingestAll_rules children hp fun e => Selector.entries_of_mem_entries, ingest_rule,
      if_pos hp]
  · have hfail : ∀ s, p.ingest (.rule s children) = p.fail (.nestedRule s) := fun s => by
      rw [ingest_rule, if_neg hp]
    obtain ⟨e, l, hentries⟩ := List.exists_cons_of_ne_nil (Selector.entries_ne_nil selector)
    rw [hentries, List.map_cons, ingestAll, hfail, hfail]
    exact iff_of_false (fun h => by cases h) (fun h => by cases h)

end Place

open Selector (entries pieces) in
/--
An entry of a selector list stands on its own.

Entries are the trimmed pieces between the commas outside strings, parentheses and brackets. Joined
with commas they are the same entries again, and a rule leaves the model that one rule for each of
its entries leaves, with the same children.
-/
theorem Selector.entries_stand_alone (s : Text) :
    (∃ pieces : List Text, entries s = pieces.map Text.trim ∧ Text.join [','] pieces = s ∧
      ∀ u v, s = u ++ ',' :: v → (Outside 0 u ↔ PartsAt pieces u v)) ∧
    entries (Text.join [',', ' '] (entries s)) = entries s ∧
    ∀ (p : Place) (children : List Node) (m n : Model),
      p.ingest (.rule s children) m = .ok () n ↔
        p.ingestAll ((entries s).map (Node.rule · children)) m = .ok () n := by
  refine ⟨⟨pieces s, rfl, join_pieces s, fun u v h => outside_iff_partsAt h⟩,
    entries_join_entries s, fun p children m n => p.ingest_rule_iff children s m n⟩

open Selector (entries) in
example : entries ":is(a, \",\") , ::after,".toList =
    [":is(a, \",\")".toList, "::after".toList, []] := by decide

end AtomicCss
