import AtomicCss.Proofs.Style.Frame
set_option autoImplicit false

namespace AtomicCss

abbrev Text.Blank (t : Text) : Prop := ∀ c ∈ t, isBlank c = true

/-- A character that neither opens nor closes anything. -/
def isInert (c : Char) : Bool := !"/*\"'\\();\x7b\x7d".toList.contains c

theorem ne_of_isInert {c d : Char} (hc : isInert c = true) (hd : isInert d = false) : c ≠ d := by
  rintro rfl
  simp [hc] at hd

theorem isInert_of_isBlank {c : Char} (hc : isBlank c = true) : isInert c = true := by
  have hne : ∀ d, isBlank d = false → c ≠ d := fun _ => ne_of_isBlank hc
  simp [isInert, hne '/' (by decide), hne '*' (by decide), hne '"' (by decide),
    hne '\'' (by decide), hne '\\' (by decide), hne '(' (by decide), hne ')' (by decide),
    hne ';' (by decide), hne '{' (by decide), hne '}' (by decide)]

namespace Scan

variable {s e : Scan} {c : Char} {t u : Text}

def quoting (s : Scan) : Quoting :=
  match s.mode with
  | .quoted q => q
  | .code | .slash | .comment | .commentStar => .bare

def idle (s : Scan) : Scan :=
  match s.mode with
  | .quoted (.escaped quote) => ⟨.quoted (.inside quote), s.depth⟩
  | .quoted q => ⟨.quoted q, s.depth⟩
  | .code | .slash | .comment | .commentStar => ⟨.code, s.depth⟩

/-- A scan from the start of a statement is in no comment, and in a string only between quotes. -/
structure Reached (s : Scan) : Prop where
  live : s.Live
  quoted : ∀ q, s.mode = .quoted q → ∃ c, isQuote c = true ∧ (q = .inside c ∨ q = .escaped c)

theorem reached_start : start.Reached := ⟨by simp [Live, start], by simp [start]⟩

theorem Reached.step (hs : s.Reached) (h : s.step c = some e) : e.Reached where
  live := live_step h
  quoted q hq := by
    rcases (step_some h).2 q hq with ⟨hc, rfl⟩ | ⟨p, hp, rfl, hopen⟩
    · exact ⟨c, hc, Or.inl rfl⟩
    · obtain ⟨d, hd, rfl | rfl⟩ := hs.quoted p hp
      · exact ⟨d, hd, Quoting.next_inside hopen⟩
      · exact ⟨d, hd, Or.inl rfl⟩

theorem run_append (s : Scan) (t u : Text) : s.run (t ++ u) = (s.run t).bind (·.run u) :=
  List.foldlM_append

theorem Reached.run (hs : s.Reached) (h : s.run t = some e) : e.Reached := by
  induction t generalizing s with
  | nil =>
    cases h
    exact hs
  | cons c t ih =>
    rw [run_cons] at h
    obtain ⟨n, hn, h⟩ := Option.bind_eq_some_iff.1 h
    exact ih (hs.step hn) h

@[simp] theorem idle_idle (s : Scan) : s.idle.idle = s.idle := by
  obtain ⟨mode, depth⟩ := s
  cases mode with
  | quoted q => cases q <;> rfl
  | code | slash | comment | commentStar => rfl

theorem quoting_idle (h : s.quoting = .bare) : s.idle.quoting = .bare := by
  obtain ⟨mode, depth⟩ := s
  cases mode with
  | quoted q =>
    obtain rfl : q = .bare := h
    rfl
  | code | slash | comment | commentStar => rfl

theorem quoting_takeCode {depth : Nat} (h : takeCode depth c = some e) :
    e.quoting = Quoting.bare.next c ∧ (e.mode = .slash ↔ c = '/') := by
  unfold takeCode at h
  by_cases hslash : c = '/'
  · rw [if_pos hslash] at h
    cases h
    simp [quoting, Quoting.next, hslash, isQuote]
  rw [if_neg hslash] at h
  by_cases hquote : isQuote c = true
  · rw [if_pos hquote] at h
    cases h
    simp [quoting, Quoting.next, hquote, hslash]
  rw [if_neg hquote] at h
  have hmode : e.mode = .code := by
    split at h
    · cases h
      rfl
    split at h
    · cases h
      rfl
    split at h
    · cases h
    · cases h
      rfl
  simp [quoting, Quoting.next, hquote, hslash, hmode]

theorem Reached.quoting_step (hs : s.Reached) (h : s.step c = some e) :
    e.quoting = s.quoting.next c ∧ (e.mode = .slash ↔ s.quoting = .bare ∧ c = '/') := by
  obtain ⟨mode, depth⟩ := s
  cases mode with
  | code =>
    obtain ⟨hquoting, hmode⟩ := quoting_takeCode h
    exact ⟨hquoting, by simp [hmode, quoting]⟩
  | slash =>
    unfold Scan.step at h
    dsimp only at h
    split at h
    · cases h
    · obtain ⟨hquoting, hmode⟩ := quoting_takeCode h
      exact ⟨hquoting, by simp [hmode, quoting]⟩
  | comment => exact absurd rfl hs.live.1
  | commentStar => exact absurd rfl hs.live.2
  | quoted q =>
    have hopen : q ≠ .bare := by
      obtain ⟨d, _, rfl | rfl⟩ := hs.quoted q rfl
      · simp
      · simp
    unfold Scan.step at h
    dsimp only at h
    split at h
    · cases h
    · cases h
      by_cases hnext : q.next c = .bare
      · simp [quoting, hnext, hopen]
      · simp [quoting, hnext, hopen]

theorem Reached.quoting_run (hs : s.Reached) (h : s.run t = some e) :
    e.quoting = s.quoting.after t := by
  induction t generalizing s with
  | nil =>
    cases h
    rfl
  | cons c t ih =>
    rw [run_cons] at h
    obtain ⟨n, hn, h⟩ := Option.bind_eq_some_iff.1 h
    rw [ih (hs.step hn) h, (hs.quoting_step hn).1, Quoting.after_cons]

theorem takeCode_inert (hc : isInert c = true) (depth : Nat) :
    takeCode depth c = some ⟨.code, depth⟩ := by
  have hne : ∀ d, isInert d = false → c ≠ d := fun _ => ne_of_isInert hc
  simp [takeCode, isQuote, isTerminator, hne '/' (by decide), hne '"' (by decide),
    hne '\'' (by decide), hne '(' (by decide), hne ')' (by decide), hne ';' (by decide),
    hne '{' (by decide), hne '}' (by decide)]

theorem step_quoted {q : Quoting} {depth : Nat} (h : ∀ quote, q = .inside quote → c ≠ '\n') :
    step ⟨.quoted q, depth⟩ c =
      some ⟨if q.next c = .bare then .code else .quoted (q.next c), depth⟩ := by
  rw [step]
  dsimp only
  split
  · exact absurd rfl (h _ rfl)
  · rfl

theorem Reached.step_inert (hs : s.Reached) (hc : isInert c = true) :
    s.step c = some s.idle ∨ s.step c = none ∧ c = '\n' ∧ s.quoting ≠ .bare := by
  have hne : ∀ d, isInert d = false → c ≠ d := fun _ => ne_of_isInert hc
  obtain ⟨mode, depth⟩ := s
  cases mode with
  | code => exact Or.inl (takeCode_inert hc depth)
  | slash =>
    refine Or.inl ?_
    rw [Scan.step]
    simp [hne '*' (by decide), takeCode_inert hc, Scan.idle]
  | comment => exact absurd rfl hs.live.1
  | commentStar => exact absurd rfl hs.live.2
  | quoted q =>
    obtain ⟨d, hd, rfl | rfl⟩ := hs.quoted q rfl
    · have hquote : c ≠ d := by
        rintro rfl
        simp [isQuote, hne '"' (by decide), hne '\'' (by decide)] at hd
      by_cases hline : c = '\n'
      · subst hline
        exact Or.inr ⟨rfl, rfl, by simp [quoting]⟩
      · refine Or.inl ?_
        have hnext : (Quoting.inside d).next c = .inside d := by
          simp [Quoting.next, hquote, hne '\\' (by decide)]
        rw [step_quoted (by simp [hline]), hnext]
        rfl
    · exact Or.inl (step_quoted (by simp))

theorem Reached.idle (hs : s.Reached) : s.idle.Reached := by
  have hspace : s.step ' ' = some s.idle := (hs.step_inert rfl).resolve_right (by simp)
  exact hs.step hspace

theorem Reached.run_inert (hs : s.Reached) (ht : ∀ c ∈ t, isInert c = true) (hne : t ≠ []) :
    s.run t = some s.idle ∨ s.run t = none ∧ '\n' ∈ t ∧ s.quoting ≠ .bare := by
  induction t generalizing s with
  | nil => exact absurd rfl hne
  | cons c t ih =>
    rw [run_cons]
    rcases hs.step_inert (ht c List.mem_cons_self) with hstep | ⟨hstep, rfl, hopen⟩
    · rw [hstep]
      by_cases hnil : t = []
      · subst hnil
        exact Or.inl rfl
      · rcases ih hs.idle (fun d hd => ht d (List.mem_cons_of_mem _ hd)) hnil with
          hrun | ⟨hrun, hline, hopen⟩
        · refine Or.inl ?_
          rw [Option.bind_some, hrun, idle_idle]
        · refine Or.inr ⟨?_, List.mem_cons_of_mem _ hline, fun h => hopen (quoting_idle h)⟩
          rw [Option.bind_some, hrun]
    · refine Or.inr ⟨?_, List.mem_cons_self, hopen⟩
      rw [hstep]
      rfl

end Scan
end AtomicCss
