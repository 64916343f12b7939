import AtomicCss.Proofs.Text.Trim
import AtomicCss.Selector.Pseudo
set_option autoImplicit false

/-!
The grammar of the selectors that a nested rule may have: a head of ampersands and a tail of
pseudo-classes and pseudo-elements, whose arguments end at the matching parenthesis.

The reader accepts exactly this grammar. Each of its states stands for a part of the grammar: what
may follow there, up to the end of the tail.
-/

namespace AtomicCss.Selector

/-- What stands between two quotes `q`. -/
inductive IsQuoted (q : Char) : Text → Prop where
  | nil : IsQuoted q []
  | plain {c : Char} {r : Text} : c ≠ q → c ≠ '\\' → IsQuoted q r → IsQuoted q (c :: r)
  | escaped {c : Char} {r : Text} : IsQuoted q r → IsQuoted q ('\\' :: c :: r)

/-- What stands between two parentheses that match. -/
inductive IsArgument : Text → Prop where
  | nil : IsArgument []
  | plain {c : Char} {r : Text} : c ≠ '(' → c ≠ ')' → isQuote c = false → IsArgument r →
      IsArgument (c :: r)
  | quoted {q : Char} {s r : Text} : isQuote q = true → IsQuoted q s → IsArgument r →
      IsArgument (q :: (s ++ q :: r))
  | nested {s r : Text} : IsArgument s → IsArgument r → IsArgument ('(' :: (s ++ ')' :: r))

def IsIdent (t : Text) : Prop := t ≠ [] ∧ ∀ c ∈ t, isNameChar c = true

/-- One or two colons, a name, and perhaps an argument list. -/
inductive IsSegment : Text → Prop where
  | plain {colons name : Text} : colons = [':'] ∨ colons = [':', ':'] → IsIdent name →
      IsSegment (colons ++ name)
  | functional {colons name s : Text} : colons = [':'] ∨ colons = [':', ':'] → IsIdent name →
      IsArgument s → IsSegment (colons ++ (name ++ '(' :: (s ++ [')'])))

inductive IsTail : Text → Prop where
  | nil : IsTail []
  | cons {s r : Text} : IsSegment s → IsTail r → IsTail (s ++ r)

/-- No ampersand, or one and more of them with blanks between. -/
def IsHead (t : Text) : Prop :=
  t = [] ∨ ∃ gaps : List Text, (∀ g ∈ gaps, ∀ c ∈ g, isCssBlank c = true) ∧
    t = '&' :: gaps.flatMap (· ++ ['&'])

/-- What may follow inside a string. -/
def Unquotes (q : Char) (p : Text → Prop) (t : Text) : Prop :=
  ∃ s r, IsQuoted q s ∧ t = s ++ q :: r ∧ p r

/-- What may follow inside parentheses, `depth` of which are open. -/
def Closes : Nat → Text → Prop
  | 0, t => IsTail t
  | depth + 1, t => ∃ s r, IsArgument s ∧ t = s ++ ')' :: r ∧ Closes depth r

/-- What may follow in a name that need not be over. -/
def EndsName (t : Text) : Prop :=
  ∃ name r, (∀ c ∈ name, isNameChar c = true) ∧ t = name ++ r ∧
    (IsTail r ∨ ∃ u, r = '(' :: u ∧ Closes 1 u)

/-- What may follow before a name. -/
def BeginsName (t : Text) : Prop := ∃ c r, t = c :: r ∧ isNameChar c = true ∧ EndsName r

theorem unquotes_cons {q c : Char} {p : Text → Prop} {t : Text} (hq : q ≠ '\\') :
    Unquotes q p (c :: t) ↔
      if c = '\\' then ∃ e r, t = e :: r ∧ Unquotes q p r
      else if c = q then p t
      else Unquotes q p t := by
  constructor
  · rintro ⟨s, r, hs, heq, hr⟩
    cases hs with
    | nil =>
      obtain ⟨rfl, rfl⟩ := List.cons.inj heq
      rw [if_neg hq, if_pos rfl]
      exact hr
    | plain hne hback hs =>
      obtain ⟨rfl, rfl⟩ := List.cons.inj heq
      rw [if_neg hback, if_neg hne]
      exact ⟨_, r, hs, rfl, hr⟩
    | escaped hs =>
      obtain ⟨rfl, rfl⟩ := List.cons.inj heq
      rw [if_pos rfl]
      exact ⟨_, _, rfl, _, r, hs, rfl, hr⟩
  · intro h
    split at h
    next hback =>
      obtain ⟨e, r, rfl, s, u, hs, rfl, hu⟩ := h
      exact ⟨_, u, .escaped hs, by rw [hback]; rfl, hu⟩
    next hback =>
      split at h
      next hc => exact ⟨[], t, .nil, by rw [hc]; rfl, h⟩
      next hc =>
        obtain ⟨s, u, hs, rfl, hu⟩ := h
        exact ⟨_, u, .plain hc hback hs, rfl, hu⟩

theorem closes_close {depth : Nat} {t : Text} : Closes (depth + 1) (')' :: t) ↔ Closes depth t := by
  constructor
  · rintro ⟨s, r, hs, heq, hr⟩
    cases hs with
    | nil => exact (List.cons.inj heq).2 ▸ hr
    | plain _ hne _ _ => exact absurd (List.cons.inj heq).1.symm hne
    | quoted hq _ _ =>
      obtain ⟨rfl, _⟩ := List.cons.inj heq
      cases hq
    | nested _ _ => cases (List.cons.inj heq).1
  · intro h
    exact ⟨[], t, .nil, rfl, h⟩

theorem closes_open {depth : Nat} {t : Text} :
    Closes (depth + 1) ('(' :: t) ↔ Closes (depth + 2) t := by
  constructor
  · rintro ⟨s, r, hs, heq, hr⟩
    cases hs with
    | nil => cases (List.cons.inj heq).1
    | plain hne _ _ _ => exact absurd (List.cons.inj heq).1.symm hne
    | quoted hq _ _ =>
      obtain ⟨rfl, _⟩ := List.cons.inj heq
      cases hq
    | nested hs hrest =>
      obtain ⟨_, rfl⟩ := List.cons.inj heq
      exact ⟨_, _, hs, by simp, _, r, hrest, rfl, hr⟩
  · rintro ⟨s, _, hs, rfl, u, r, hu, rfl, hr⟩
    exact ⟨_, r, .nested hs hu, by simp, hr⟩

theorem closes_quote {depth : Nat} {q : Char} {t : Text} (hq : isQuote q = true) :
    Closes (depth + 1) (q :: t) ↔ Unquotes q (Closes (depth + 1)) t := by
  constructor
  · rintro ⟨s, r, hs, heq, hr⟩
    cases hs with
    | nil =>
      obtain ⟨rfl, _⟩ := List.cons.inj heq
      cases hq
    | plain _ _ hplain _ =>
      obtain ⟨rfl, _⟩ := List.cons.inj heq
      rw [hplain] at hq
      cases hq
    | quoted _ hs hrest =>
      obtain ⟨rfl, rfl⟩ := List.cons.inj heq
      exact ⟨_, _, hs, by simp, _, r, hrest, rfl, hr⟩
    | nested _ _ =>
      obtain ⟨rfl, _⟩ := List.cons.inj heq
      cases hq
  · rintro ⟨s, _, hs, rfl, u, r, hu, rfl, hr⟩
    exact ⟨_, r, .quoted hq hs hu, by simp, hr⟩

theorem closes_plain {depth : Nat} {c : Char} {t : Text} (hopen : c ≠ '(') (hclose : c ≠ ')')
    (hq : isQuote c = false) : Closes (depth + 1) (c :: t) ↔ Closes (depth + 1) t := by
  constructor
  · rintro ⟨s, r, hs, heq, hr⟩
    cases hs with
    | nil => exact absurd (List.cons.inj heq).1 hclose
    | plain _ _ _ hs =>
      obtain ⟨rfl, rfl⟩ := List.cons.inj heq
      exact ⟨_, r, hs, rfl, hr⟩
    | quoted hquote _ _ =>
      obtain ⟨rfl, _⟩ := List.cons.inj heq
      rw [hq] at hquote
      cases hquote
    | nested _ _ => exact absurd (List.cons.inj heq).1 hopen
  · rintro ⟨s, r, hs, rfl, hr⟩
    exact ⟨_, r, .plain hopen hclose hq hs, rfl, hr⟩

theorem not_closes_nil (depth : Nat) : ¬Closes (depth + 1) [] := by
  rintro ⟨s, r, _, heq, _⟩
  simp at heq

theorem beginsName_iff {t : Text} : BeginsName t ↔
    ∃ name r, IsIdent name ∧ t = name ++ r ∧ (IsTail r ∨ ∃ u, r = '(' :: u ∧ Closes 1 u) := by
  constructor
  · rintro ⟨c, _, rfl, hc, name, r, hname, rfl, hr⟩
    exact ⟨c :: name, r, ⟨by simp, List.forall_mem_cons.2 ⟨hc, hname⟩⟩, rfl, hr⟩
  · rintro ⟨name, r, ⟨hne, hname⟩, rfl, hr⟩
    obtain ⟨c, name, rfl⟩ := List.exists_cons_of_ne_nil hne
    obtain ⟨hc, hname⟩ := List.forall_mem_cons.1 hname
    exact ⟨c, name ++ r, rfl, hc, name, r, hname, rfl, hr⟩

theorem isTail_colons {colons t : Text} (hcolons : colons = [':'] ∨ colons = [':', ':'])
    (h : BeginsName t) : IsTail (colons ++ t) := by
  obtain ⟨name, r, hname, rfl, hr | ⟨_, rfl, s, u, hs, rfl, hu⟩⟩ := beginsName_iff.1 h
  · rw [← List.append_assoc]
    exact .cons (.plain hcolons hname) hr
  · have hsplit : colons ++ (name ++ '(' :: (s ++ ')' :: u)) =
        colons ++ (name ++ '(' :: (s ++ [')'])) ++ u := by simp
    rw [hsplit]
    exact .cons (.functional hcolons hname hs) hu

theorem IsSegment.exists_colons {s r : Text} (hs : IsSegment s) (hr : IsTail r) :
    ∃ colons t, (colons = [':'] ∨ colons = [':', ':']) ∧ s ++ r = colons ++ t ∧ BeginsName t := by
  cases hs with
  | @plain colons name hcolons hname =>
    exact ⟨colons, name ++ r, hcolons, by simp,
      beginsName_iff.2 ⟨name, r, hname, rfl, Or.inl hr⟩⟩
  | @functional colons name s hcolons hname hs =>
    exact ⟨colons, name ++ '(' :: (s ++ ')' :: r), hcolons, by simp,
      beginsName_iff.2 ⟨name, _, hname, rfl, Or.inr ⟨_, rfl, s, r, hs, rfl, hr⟩⟩⟩

theorem isTail_cons {c : Char} {t : Text} : IsTail (c :: t) ↔
    c = ':' ∧ (BeginsName t ∨ ∃ r, t = ':' :: r ∧ BeginsName r) := by
  constructor
  · intro h
    generalize heq : c :: t = u at h
    cases h with
    | nil => cases heq
    | cons hs hr =>
      obtain ⟨colons, v, hcolons, hsplit, hv⟩ := hs.exists_colons hr
      rw [hsplit] at heq
      rcases hcolons with rfl | rfl
      · obtain ⟨rfl, rfl⟩ := List.cons.inj heq
        exact ⟨rfl, Or.inl hv⟩
      · obtain ⟨rfl, rfl⟩ := List.cons.inj heq
        exact ⟨rfl, Or.inr ⟨v, rfl, hv⟩⟩
  · rintro ⟨rfl, h | ⟨r, rfl, h⟩⟩
    · exact isTail_colons (Or.inl rfl) h
    · exact isTail_colons (Or.inr rfl) h

theorem not_isTail_of_isNameChar {c : Char} {t : Text} (hc : isNameChar c = true) :
    ¬IsTail (c :: t) := by
  rw [isTail_cons]
  rintro ⟨rfl, _⟩
  cases hc

theorem endsName_cons {c : Char} {t : Text} : EndsName (c :: t) ↔
    if isNameChar c = true then EndsName t else IsTail (c :: t) ∨ c = '(' ∧ Closes 1 t := by
  constructor
  · rintro ⟨name, r, hname, heq, hr⟩
    cases name with
    | nil =>
      rw [List.nil_append] at heq
      subst heq
      have hc : isNameChar c = false := by
        rcases hr with hr | ⟨u, hu, _⟩
        · exact Bool.eq_false_iff.2 fun hc => not_isTail_of_isNameChar hc hr
        · rw [(List.cons.inj hu).1]
          decide
      rw [if_neg (by simp [hc])]
      exact hr.imp_right fun ⟨u, hu, hclose⟩ =>
        ⟨(List.cons.inj hu).1, (List.cons.inj hu).2 ▸ hclose⟩
    | cons d name =>
      obtain ⟨rfl, rfl⟩ := List.cons.inj heq
      obtain ⟨hc, hname⟩ := List.forall_mem_cons.1 hname
      rw [if_pos hc]
      exact ⟨name, r, hname, rfl, hr⟩
  · intro h
    split at h
    next hc =>
      obtain ⟨name, r, hname, rfl, hr⟩ := h
      exact ⟨c :: name, r, List.forall_mem_cons.2 ⟨hc, hname⟩, rfl, hr⟩
    next =>
      refine ⟨[], c :: t, by simp, rfl, h.imp_right fun ⟨hc, hclose⟩ => ⟨t, by rw [hc], hclose⟩⟩

namespace ChainState

/-- What may follow in a state of the reader. -/
def Completes : ChainState → Text → Prop
  | .boundary, t => IsTail t
  | .colon, t => BeginsName t ∨ ∃ r, t = ':' :: r ∧ BeginsName r
  | .doubleColon, t => BeginsName t
  | .name, t => EndsName t
  | .arguments depth .bare, t => Closes depth t
  | .arguments depth (.inside q), t => Unquotes q (Closes depth) t
  | .arguments depth (.escaped q), t => ∃ c r, t = c :: r ∧ Unquotes q (Closes depth) r

/-- States that the reader can be in. Some parenthesis is open, and strings are between quotes. -/
inductive Proper : ChainState → Prop where
  | boundary : Proper .boundary
  | colon : Proper .colon
  | doubleColon : Proper .doubleColon
  | name : Proper .name
  | bare {depth : Nat} : Proper (.arguments (depth + 1) .bare)
  | inside {depth : Nat} {q : Char} : isQuote q = true → Proper (.arguments (depth + 1) (.inside q))
  | escaped {depth : Nat} {q : Char} : isQuote q = true →
      Proper (.arguments (depth + 1) (.escaped q))

section

variable {st next : ChainState} {c : Char} {t : Text}

/-- Reading `c` leads from what may follow here to what may follow in the next state. -/
def Leads (st : ChainState) (c : Char) (t : Text) : Prop :=
  match st.step c with
  | none => ¬st.Completes (c :: t)
  | some next => next.Proper ∧ (st.Completes (c :: t) ↔ next.Completes t)

theorem leads_some (hs : st.step c = some next) (hn : next.Proper)
    (h : st.Completes (c :: t) ↔ next.Completes t) : st.Leads c t := by
  rw [Leads, hs]
  exact ⟨hn, h⟩

theorem leads_none (hs : st.step c = none) (h : ¬st.Completes (c :: t)) : st.Leads c t := by
  rw [Leads, hs]
  exact h

theorem beginsName_cons : BeginsName (c :: t) ↔ isNameChar c = true ∧ EndsName t := by
  constructor
  · rintro ⟨_, _, heq, h⟩
    obtain ⟨rfl, rfl⟩ := List.cons.inj heq
    exact h
  · exact fun h => ⟨c, t, rfl, h⟩

theorem leads_boundary : Leads .boundary c t := by
  by_cases hc : c = ':'
  · refine leads_some (by rw [step, if_pos hc]) .colon ?_
    exact isTail_cons.trans (and_iff_right hc)
  · exact leads_none (by rw [step, if_neg hc]) fun h => hc (isTail_cons.1 h).1

theorem leads_doubleColon : Leads .doubleColon c t := by
  by_cases hc : isNameChar c = true
  · refine leads_some (by rw [step, if_pos hc]) .name ?_
    exact beginsName_cons.trans (and_iff_right hc)
  · exact leads_none (by rw [step, if_neg hc]) fun h => hc (beginsName_cons.1 h).1

theorem leads_colon : Leads .colon c t := by
  by_cases hc : c = ':'
  · refine leads_some (by rw [step, if_pos hc]) .doubleColon ?_
    have hcolon : isNameChar ':' = false := by decide
    simp [Completes, beginsName_cons, hc, hcolon]
  · have hsame : Completes .colon (c :: t) ↔ BeginsName (c :: t) := by simp [Completes, hc]
    have hstep : step .colon c = step .doubleColon c := by rw [step, if_neg hc, step]
    have hlead := leads_doubleColon (c := c) (t := t)
    rw [Leads, ← hstep] at hlead
    rw [Leads]
    simp only [hsame]
    exact hlead

theorem leads_name : Leads .name c t := by
  by_cases hname : isNameChar c = true
  · refine leads_some (by rw [step, if_pos hname]) .name ?_
    rw [Completes, endsName_cons, if_pos hname, Completes]
  have hends : Completes .name (c :: t) ↔ IsTail (c :: t) ∨ c = '(' ∧ Closes 1 t := by
    rw [Completes, endsName_cons, if_neg hname]
  rw [isTail_cons] at hends
  by_cases hcolon : c = ':'
  · refine leads_some (by rw [step, if_neg hname, if_pos hcolon]) .colon (hends.trans ?_)
    simp [Completes, hcolon]
  by_cases hopen : c = '('
  · refine leads_some (by rw [step, if_neg hname, if_neg hcolon, if_pos hopen]) .bare
      (hends.trans ?_)
    simp [Completes, hopen]
  · exact leads_none (by rw [step, if_neg hname, if_neg hcolon, if_neg hopen])
      (by simp [hends, hcolon, hopen])

theorem leads_bare {depth : Nat} : Leads (.arguments (depth + 1) .bare) c t := by
  by_cases hclose : c = ')'
  · subst hclose
    cases depth with
    | zero => exact leads_some rfl .boundary closes_close
    | succ depth => exact leads_some rfl .bare closes_close
  by_cases hopen : c = '('
  · subst hopen
    exact leads_some rfl .bare closes_open
  have hstep : step (.arguments (depth + 1) .bare) c =
      some (.arguments (depth + 1) (Quoting.next .bare c)) := by
    rw [step, if_pos rfl, if_neg hclose, if_neg hopen]
  rw [Quoting.next] at hstep
  by_cases hq : isQuote c = true
  · rw [if_pos hq] at hstep
    exact leads_some hstep (.inside hq) (closes_quote hq)
  · rw [if_neg hq] at hstep
    exact leads_some hstep .bare (closes_plain hopen hclose (by simpa using hq))

theorem step_quoted (depth : Nat) {quoting : Quoting} (h : quoting ≠ .bare) (c : Char) :
    step (.arguments depth quoting) c = some (.arguments depth (quoting.next c)) := by
  rw [step, if_neg h]

theorem leads_inside {depth : Nat} {q : Char} (hq : isQuote q = true) :
    Leads (.arguments (depth + 1) (.inside q)) c t := by
  have hback : q ≠ '\\' := by
    rintro rfl
    cases hq
  have hstep := step_quoted (depth + 1) (show Quoting.inside q ≠ .bare by simp) c
  have hnext := unquotes_cons (c := c) (p := Closes (depth + 1)) (t := t) hback
  rw [Quoting.next] at hstep
  by_cases hc : c = '\\'
  · rw [if_pos hc] at hstep hnext
    exact leads_some hstep (.escaped hq) hnext
  rw [if_neg hc] at hstep hnext
  by_cases hclose : c = q
  · rw [if_pos hclose] at hstep hnext
    exact leads_some hstep .bare hnext
  · rw [if_neg hclose] at hstep hnext
    exact leads_some hstep (.inside hq) hnext

theorem leads_escaped {depth : Nat} {q : Char} (hq : isQuote q = true) :
    Leads (.arguments (depth + 1) (.escaped q)) c t := by
  refine leads_some (step_quoted _ (by simp) c) (.inside hq) ⟨?_, fun h => ⟨c, t, rfl, h⟩⟩
  rintro ⟨_, _, heq, h⟩
  obtain ⟨rfl, rfl⟩ := List.cons.inj heq
  exact h

theorem Proper.leads (h : st.Proper) (c : Char) (t : Text) : st.Leads c t := by
  cases h with
  | boundary => exact leads_boundary
  | colon => exact leads_colon
  | doubleColon => exact leads_doubleColon
  | name => exact leads_name
  | bare => exact leads_bare
  | inside hq => exact leads_inside hq
  | escaped hq => exact leads_escaped hq

theorem completes_nil (h : st.Proper) : st.Completes [] ↔ st.mayEnd = true := by
  have hbegin : ¬BeginsName [] := by
    rintro ⟨c, r, heq, _⟩
    cases heq
  have hquoted : ∀ q p, ¬Unquotes q p [] := by
    rintro q p ⟨s, r, _, heq, _⟩
    simp at heq
  cases h with
  | boundary => exact iff_of_true .nil rfl
  | name => exact iff_of_true ⟨[], [], by simp, rfl, Or.inl .nil⟩ rfl
  | colon => simp [Completes, mayEnd, hbegin]
  | doubleColon => simp [Completes, mayEnd, hbegin]
  | bare => simp [Completes, mayEnd, not_closes_nil]
  | inside _ => simp [Completes, mayEnd, hquoted]
  | escaped _ => simp [Completes, mayEnd]

/-- From a state the reader gets to an end exactly through what may follow there. -/
theorem completes_iff (h : st.Proper) :
    st.Completes t ↔ (t.foldlM step st).any mayEnd = true := by
  induction t generalizing st with
  | nil => exact completes_nil h
  | cons c t ih =>
    have hlead := h.leads c t
    rw [Leads] at hlead
    rw [List.foldlM_cons]
    cases hs : st.step c with
    | none =>
      rw [hs] at hlead
      exact iff_of_false hlead (by simp)
    | some next =>
      rw [hs] at hlead
      exact hlead.2.trans (ih hlead.1)

end

end ChainState

theorem isChain_iff {t : Text} : isChain t = true ↔ IsTail t :=
  (ChainState.completes_iff .boundary).symm

theorem exists_gaps_ampersands (count : Nat) (gap : Text) (hgap : ∀ c ∈ gap, isCssBlank c = true)
    (t : Text) : ∃ gaps : List Text, (∀ g ∈ gaps, ∀ c ∈ g, isCssBlank c = true) ∧
      (ampersands count gap t).1 = count + gaps.length ∧
      gap.reverse ++ t = gaps.flatMap (· ++ ['&']) ++ (ampersands count gap t).2 := by
  induction t generalizing count gap with
  | nil => exact ⟨[], by simp, rfl, by simp [ampersands]⟩
  | cons c t ih =>
    rw [ampersands]
    split
    next hc =>
      obtain ⟨gaps, hgaps, hcount, hsplit⟩ := ih (count + 1) [] (by simp)
      refine ⟨gap.reverse :: gaps, ?_, ?_, ?_⟩
      · exact List.forall_mem_cons.2 ⟨fun d hd => hgap d (List.mem_reverse.1 hd), hgaps⟩
      · rw [hcount, List.length_cons]
        omega
      · rw [List.flatMap_cons, List.append_assoc, ← hsplit, hc]
        simp
    next =>
      split
      next hblank =>
        obtain ⟨gaps, hgaps, hcount, hsplit⟩ := ih count (c :: gap)
          (List.forall_mem_cons.2 ⟨hblank, hgap⟩)
        exact ⟨gaps, hgaps, hcount, by simpa using hsplit⟩
      next => exact ⟨[], by simp, rfl, rfl⟩

theorem ne_ampersand_of_isCssBlank {c : Char} (h : isCssBlank c = true) : c ≠ '&' := by
  rintro rfl
  cases h

theorem ampersands_gap (count : Nat) {g : Text} (hg : ∀ c ∈ g, isCssBlank c = true)
    (gap r : Text) : ampersands count gap (g ++ '&' :: r) = ampersands (count + 1) [] r := by
  induction g generalizing gap with
  | nil => rw [List.nil_append, ampersands, if_pos rfl]
  | cons c g ih =>
    obtain ⟨hc, hg⟩ := List.forall_mem_cons.1 hg
    rw [List.cons_append, ampersands, if_neg (ne_ampersand_of_isCssBlank hc), if_pos hc, ih hg]

theorem ampersands_isTail (count : Nat) {t : Text} (h : IsTail t) :
    ampersands count [] t = (count, t) := by
  cases t with
  | nil => rfl
  | cons c t =>
    obtain ⟨rfl, _⟩ := isTail_cons.1 h
    rfl

theorem ampersands_gaps (count : Nat) {gaps : List Text}
    (h : ∀ g ∈ gaps, ∀ c ∈ g, isCssBlank c = true) {t : Text} (ht : IsTail t) :
    ampersands count [] (gaps.flatMap (· ++ ['&']) ++ t) = (count + gaps.length, t) := by
  induction gaps generalizing count with
  | nil => exact ampersands_isTail count ht
  | cons g gaps ih =>
    obtain ⟨hg, hgaps⟩ := List.forall_mem_cons.1 h
    have hsplit : (g :: gaps).flatMap (· ++ ['&']) ++ t =
        g ++ '&' :: (gaps.flatMap (· ++ ['&']) ++ t) := by simp
    rw [hsplit, ampersands_gap count hg, ih (count + 1) hgaps, List.length_cons]
    congr 1
    omega

theorem count_gaps {gaps : List Text} (h : ∀ g ∈ gaps, ∀ c ∈ g, isCssBlank c = true) :
    (gaps.flatMap (· ++ ['&'])).count '&' = gaps.length := by
  induction gaps with
  | nil => rfl
  | cons g gaps ih =>
    obtain ⟨hg, hgaps⟩ := List.forall_mem_cons.1 h
    have hnone : g.count '&' = 0 := List.count_eq_zero.2 fun hmem =>
      ne_ampersand_of_isCssBlank (hg _ hmem) rfl
    rw [List.flatMap_cons, List.count_append, List.count_append, hnone, ih hgaps]
    simp [Nat.add_comm]

theorem ampersands_head {head t : Text} (h : IsHead head) (ht : IsTail t) :
    ampersands 0 [] (head ++ t) = (head.count '&', t) := by
  rcases h with rfl | ⟨gaps, hgaps, rfl⟩
  · exact ampersands_isTail 0 ht
  · rw [List.cons_append, ampersands, if_pos rfl, ampersands_gaps _ hgaps ht, List.count_cons_self,
      count_gaps hgaps, Nat.add_comm]

theorem exists_head_ampersands {t : Text} (h : t.head?.any isBlank = false) :
    ∃ head, IsHead head ∧ t = head ++ (ampersands 0 [] t).2 ∧
      (ampersands 0 [] t).1 = head.count '&' := by
  obtain ⟨gaps, hgaps, hcount, hsplit⟩ := exists_gaps_ampersands 0 [] (by simp) t
  rw [List.reverse_nil, List.nil_append] at hsplit
  rw [Nat.zero_add] at hcount
  refine ⟨gaps.flatMap (· ++ ['&']), ?_, hsplit, hcount.trans (count_gaps hgaps).symm⟩
  cases gaps with
  | nil => exact Or.inl rfl
  | cons g gaps =>
    obtain ⟨hg, hrest⟩ := List.forall_mem_cons.1 hgaps
    cases g with
    | nil => exact Or.inr ⟨gaps, hrest, rfl⟩
    | cons c g =>
      have hblank := Text.isBlank_of_isCssBlank (hg c List.mem_cons_self)
      rw [hsplit] at h
      simp [hblank] at h

theorem count_eq_zero_iff_of_isHead {head : Text} (h : IsHead head) :
    head.count '&' = 0 ↔ head = [] := by
  rcases h with rfl | ⟨gaps, _, rfl⟩
  · simp
  · simp

theorem Pseudo.ofEntry?_eq_some {entry suffix : Text} {count : Nat} {s : Pseudo}
    (h : ampersands 0 [] (Text.trim entry) = (count, suffix)) :
    Pseudo.ofEntry? entry = some s ↔ (count ≠ 0 ∨ suffix ≠ []) ∧ IsTail suffix ∧
      s = ⟨if count = 0 then none else some count, suffix⟩ := by
  have hread : Pseudo.ofEntry? entry =
      if (count = 0 && suffix.isEmpty) || !isChain suffix then none
      else some ⟨if count = 0 then none else some count, suffix⟩ := by
    unfold ofEntry?
    rw [h]
  rw [hread, ← isChain_iff, Option.ite_none_left_eq_some, Option.some.injEq, ← and_assoc]
  refine and_congr ?_ eq_comm
  cases isChain suffix <;> simp [Decidable.imp_iff_not_or]

/--
An entry is accepted if and only if, without the blanks at its ends, it is a head followed by a
tail, not both empty; then the ampersands of the head are counted, if there is one, and the tail is
kept as it is written.
-/
theorem Pseudo.ofEntry?_eq_some_iff {entry : Text} {s : Pseudo} :
    Pseudo.ofEntry? entry = some s ↔
      ∃ head, IsHead head ∧ IsTail s.suffix ∧ Text.trim entry = head ++ s.suffix ∧
        (head ≠ [] ∨ s.suffix ≠ []) ∧
        s.repeats = if head = [] then none else some (head.count '&') := by
  constructor
  · intro h
    obtain ⟨head, hhead, hsplit, hcount⟩ :=
      exists_head_ampersands (Text.isBlank_head?_trim entry)
    obtain ⟨hsome, htail, rfl⟩ := (Pseudo.ofEntry?_eq_some rfl).1 h
    rw [hcount] at hsome ⊢
    simp only [ne_eq, count_eq_zero_iff_of_isHead hhead] at hsome ⊢
    exact ⟨head, hhead, htail, hsplit, hsome, rfl⟩
  · rintro ⟨head, hhead, htail, hsplit, hsome, hrepeats⟩
    refine (Pseudo.ofEntry?_eq_some (hsplit ▸ ampersands_head hhead htail)).2 ⟨?_, htail, ?_⟩
    · simpa only [ne_eq, count_eq_zero_iff_of_isHead hhead] using hsome
    · simp only [count_eq_zero_iff_of_isHead hhead, ← hrepeats]

example : Pseudo.ofEntry? " & &:not(\")\"):hover ".toList =
    some ⟨some 2, ":not(\")\"):hover".toList⟩ := by decide

end AtomicCss.Selector
