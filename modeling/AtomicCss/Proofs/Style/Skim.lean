import AtomicCss.Proofs.Style.Spacing
import AtomicCss.Proofs.Style.Spelling
set_option autoImplicit false

/-!
Skimming: a scan of a statement that forgets each slash, and so never meets a comment.

What the parser does to a statement leaves the skim of it as it is: dropping comments, trimming,
normalizing a header and lowering the case of a property. A scan gets as far as the skim if no slash
outside strings has an asterisk behind it.
-/

namespace AtomicCss

/-- Outside strings, a slash and an asterisk stand next to each other. -/
def opensCommentFrom (q : Quoting) : Text → Bool
  | [] => false
  | c :: r => q = .bare && c = '/' && r.head? == some '*' || opensCommentFrom (q.next c) r

def opensComment (t : Text) : Bool := opensCommentFrom .bare t

theorem isInert_of_toNat {c : Char} (h : 65 ≤ c.toNat) (hne : c.toNat ≠ 92) (hlt : c.toNat < 123) :
    isInert c = true ∧ c ≠ '\n' := by
  have hof : ∀ d : Char, c.toNat ≠ d.toNat → c ≠ d := fun d hd heq => hd (by rw [heq])
  refine ⟨?_, hof _ (by simp; omega)⟩
  simp only [isInert, Bool.not_eq_true']
  simp [hof '/' (by simp; omega), hof '*' (by simp; omega), hof '"' (by simp; omega),
    hof '\'' (by simp; omega), hof '\\' (by simpa using hne), hof '(' (by simp; omega),
    hof ')' (by simp; omega), hof ';' (by simp; omega), hof '{' (by simp; omega),
    hof '}' (by simp; omega)]

namespace Scan

variable {s e : Scan} {c : Char} {t u : Text}

/-- The scan without the memory of a slash or a comment. -/
def settled (s : Scan) : Scan :=
  match s.mode with
  | .quoted q => ⟨.quoted q, s.depth⟩
  | .code | .slash | .comment | .commentStar => ⟨.code, s.depth⟩

def skimStep (s : Scan) (c : Char) : Option Scan := (s.step c).map settled

def skim (s : Scan) (t : Text) : Option Scan := t.foldlM skimStep s

@[simp] theorem skim_nil (s : Scan) : s.skim [] = some s := rfl

theorem skim_cons (s : Scan) (c : Char) (t : Text) :
    s.skim (c :: t) = (s.skimStep c).bind (·.skim t) := rfl

theorem skim_append (s : Scan) (t u : Text) : s.skim (t ++ u) = (s.skim t).bind (·.skim u) :=
  List.foldlM_append

@[simp] theorem settled_settled (s : Scan) : s.settled.settled = s.settled := by
  obtain ⟨mode, depth⟩ := s
  cases mode <;> rfl

@[simp] theorem settled_idle (s : Scan) : s.idle.settled = s.idle := by
  obtain ⟨mode, depth⟩ := s
  cases mode with
  | quoted q => cases q <;> rfl
  | code | slash | comment | commentStar => rfl

@[simp] theorem depth_settled (s : Scan) : s.settled.depth = s.depth := by
  obtain ⟨mode, depth⟩ := s
  cases mode <;> rfl

theorem settled_of_mode (h : ∀ q, s.mode ≠ .quoted q) : s.settled = ⟨.code, s.depth⟩ := by
  obtain ⟨mode, depth⟩ := s
  cases mode with
  | quoted q => exact absurd rfl (h q)
  | code | slash | comment | commentStar => rfl

theorem mode_of_settled (hs : s.Live) (h : s.settled.mode = .code) :
    s.mode = .code ∨ s.mode = .slash := by
  obtain ⟨mode, depth⟩ := s
  cases mode with
  | code => exact Or.inl rfl
  | slash => exact Or.inr rfl
  | comment => exact absurd rfl hs.1
  | commentStar => exact absurd rfl hs.2
  | quoted q => cases h

theorem Reached.settled (hs : s.Reached) : s.settled.Reached := by
  obtain ⟨mode, depth⟩ := s
  cases mode with
  | quoted q => exact hs
  | code | slash | comment | commentStar =>
    exact ⟨by simp [Live, Scan.settled], by simp [Scan.settled]⟩

structure Skims (s : Scan) : Prop where
  reached : s.Reached
  settled : s.settled = s

theorem Reached.skims (hs : s.Reached) : s.settled.Skims := ⟨hs.settled, settled_settled s⟩

theorem skims_start : start.Skims := ⟨reached_start, rfl⟩

theorem Skims.step (hs : s.Skims) (h : s.skimStep c = some e) : e.Skims := by
  obtain ⟨n, hn, rfl⟩ := Option.map_eq_some_iff.1 h
  exact (hs.reached.step hn).skims

theorem Skims.skim (hs : s.Skims) (h : s.skim t = some e) : e.Skims := by
  induction t generalizing s with
  | nil =>
    cases h
    exact hs
  | cons c t ih =>
    obtain ⟨n, hn, h⟩ := Option.bind_eq_some_iff.1 h
    exact ih (hs.step hn) h

theorem Skims.idle (hs : s.Skims) : s.idle.Skims := ⟨hs.reached.idle, settled_idle s⟩

theorem skimStep_of_step (h : s.step c = some e) : s.settled.skimStep c = some e.settled := by
  obtain ⟨mode, depth⟩ := s
  cases mode with
  | code | quoted q => exact congrArg (Option.map settled) h
  | slash =>
    rw [step] at h
    dsimp only at h
    split at h
    · cases h
    · exact congrArg (Option.map settled) h
  | comment | commentStar => cases h

theorem skimStep_settled (hs : s.Live) (hc : s.mode = .slash → c ≠ '*') :
    s.settled.skimStep c = (s.step c).map settled := by
  obtain ⟨mode, depth⟩ := s
  cases mode with
  | code | quoted q => rfl
  | slash =>
    rw [skimStep, step, step]
    dsimp only [settled]
    rw [if_neg (hc rfl)]
  | comment => exact absurd rfl hs.1
  | commentStar => exact absurd rfl hs.2

theorem Reached.run_of_skim (hs : s.Reached) (h : s.settled.skim t = some e)
    (hslash : s.mode = .slash → t.head? ≠ some '*')
    (hopen : opensCommentFrom s.quoting t = false) : ∃ f, s.run t = some f ∧ f.settled = e := by
  induction t generalizing s with
  | nil =>
    cases h
    exact ⟨s, rfl, rfl⟩
  | cons c t ih =>
    rw [skim_cons, skimStep_settled hs.live (by simpa using hslash)] at h
    obtain ⟨n, hn, h⟩ := Option.bind_eq_some_iff.1 h
    obtain ⟨f, hf, rfl⟩ := Option.map_eq_some_iff.1 hn
    obtain ⟨hquoting, hmode⟩ := hs.quoting_step hf
    rw [opensCommentFrom, Bool.or_eq_false_iff, ← hquoting] at hopen
    have hnext : f.mode = .slash → t.head? ≠ some '*' := by
      intro hf hstar
      obtain ⟨hbare, rfl⟩ := hmode.1 hf
      simp [hbare, hstar] at hopen
    obtain ⟨g, hg, hsettled⟩ := ih (hs.step hf) h hnext hopen.2
    refine ⟨g, ?_, hsettled⟩
    rw [run_cons, hf]
    exact hg

theorem Reached.exists_slash_of_skim (hs : s.Reached) (h : s.settled.skim t = some e)
    (hopen : opensCommentFrom s.quoting t = true) :
    ∃ u v f, t = u ++ '*' :: v ∧ s.run u = some f ∧ f.mode = .slash := by
  induction t generalizing s with
  | nil => cases hopen
  | cons c t ih =>
    by_cases hjoin : s.mode = .slash ∧ c = '*'
    · obtain ⟨hmode, rfl⟩ := hjoin
      exact ⟨[], t, s, rfl, rfl, hmode⟩
    · rw [skim_cons, skimStep_settled hs.live fun hmode hc => hjoin ⟨hmode, hc⟩] at h
      obtain ⟨n, hn, h⟩ := Option.bind_eq_some_iff.1 h
      obtain ⟨f, hf, rfl⟩ := Option.map_eq_some_iff.1 hn
      obtain ⟨hquoting, hmode⟩ := hs.quoting_step hf
      rw [opensCommentFrom, Bool.or_eq_true, ← hquoting] at hopen
      rcases hopen with hhere | hlater
      · simp only [Bool.and_eq_true, decide_eq_true_eq, beq_iff_eq] at hhere
        obtain ⟨⟨hbare, rfl⟩, hstar⟩ := hhere
        obtain ⟨v, rfl⟩ := List.head?_eq_some_iff.1 hstar
        refine ⟨['/'], v, f, rfl, ?_, hmode.2 ⟨hbare, rfl⟩⟩
        rw [run_cons, hf]
        rfl
      · obtain ⟨u, v, g, rfl, hg, hslash⟩ := ih (hs.step hf) h hlater
        refine ⟨c :: u, v, g, rfl, ?_, hslash⟩
        rw [run_cons, hf]
        exact hg

theorem Skims.skimStep_inert (hs : s.Skims) (hc : isInert c = true) (hline : c ≠ '\n') :
    s.skimStep c = some s.idle := by
  rw [skimStep, (hs.reached.step_inert hc).resolve_right fun h => hline h.2.1, Option.map_some,
    settled_idle]

theorem Skims.skimStep_slash {depth : Nat} (hs : s.Skims) :
    s.skimStep '/' = some ⟨.code, depth⟩ ↔ s = ⟨.code, depth⟩ := by
  constructor
  · intro h
    obtain ⟨n, hn, hsettled⟩ := Option.map_eq_some_iff.1 h
    obtain ⟨mode, _⟩ := s
    cases mode with
    | code =>
      cases hn
      cases hsettled
      rfl
    | slash | comment | commentStar => cases hs.settled
    | quoted q =>
      have hopen : q.next '/' ≠ .bare := by
        obtain ⟨d, hd, rfl | rfl⟩ := hs.reached.quoted q rfl
        · have hquote : '/' ≠ d := by
            rintro rfl
            cases hd
          simp [Quoting.next, hquote]
        · simp [Quoting.next]
      rw [step_quoted (by simp), if_neg hopen] at hn
      cases hn
      cases hsettled
  · rintro rfl
    rfl

theorem Skims.eq_idle (hs : s.Skims) (ht : ∀ c ∈ t, isInert c = true) (hne : t ≠ [])
    (h : s.skim t = some e) : e = s.idle := by
  induction t generalizing s with
  | nil => exact absurd rfl hne
  | cons c t ih =>
    obtain ⟨n, hn, h⟩ := Option.bind_eq_some_iff.1 h
    obtain ⟨f, hf, rfl⟩ := Option.map_eq_some_iff.1 hn
    rcases hs.reached.step_inert (ht c List.mem_cons_self) with hidle | ⟨hnone, _⟩
    · rw [hidle] at hf
      cases hf
      rw [settled_idle] at h
      by_cases hnil : t = []
      · subst hnil
        cases h
        rfl
      · rw [ih hs.idle (fun d hd => ht d (List.mem_cons_of_mem _ hd)) hnil h, idle_idle]
    · rw [hnone] at hf
      cases hf

theorem Skims.eq_of_inert (hs : s.Skims) (ht : ∀ c ∈ t, isInert c = true)
    (h : s.skim t = some e) (he : e.mode = .code) : s = e := by
  by_cases hne : t = []
  · subst hne
    exact Option.some.inj h
  · obtain rfl := hs.eq_idle ht hne h
    rw [← hs.settled] at he ⊢
    obtain ⟨mode, depth⟩ := s
    cases mode with
    | quoted q => cases q <;> cases he
    | code | slash | comment | commentStar => rfl

theorem skim_blank (ht : Text.Blank t) (depth : Nat) :
    skim ⟨.code, depth⟩ t = some ⟨.code, depth⟩ := by
  induction t with
  | nil => rfl
  | cons c t ih =>
    rw [skim_cons, skimStep, step_blank (Or.inl rfl) (ht c List.mem_cons_self)]
    exact ih fun d hd => ht d (List.mem_cons_of_mem _ hd)

theorem skim_start_blank (ht : Text.Blank t) : start.skim t = some start := skim_blank ht 0

theorem skim_trim (h : start.skim t = some e) (he : e.mode = .code) :
    start.skim (Text.trim t) = some e := by
  obtain ⟨u, v, hu, hv, ht⟩ := Text.exists_append_trim t
  rw [ht, skim_append, skim_start_blank hu, Option.bind_some, skim_append] at h
  obtain ⟨f, hf, h⟩ := Option.bind_eq_some_iff.1 h
  rw [hf, (skims_start.skim hf).eq_of_inert (fun c hc => isInert_of_isBlank (hv c hc)) h he]

theorem skim_declaration {p v : Text} (h : start.skim (p ++ ':' :: v) = some e)
    (he : e.mode = .code) : start.skim (Text.trim p ++ ':' :: Text.trim v) = some e := by
  obtain ⟨a, b, ha, hb, hp⟩ := Text.exists_append_trim p
  obtain ⟨c, d, hc, hd, hv⟩ := Text.exists_append_trim v
  generalize Text.trim p = x, Text.trim v = y at hp hv ⊢
  subst hp hv
  have hsplit : a ++ (x ++ b) ++ ':' :: (c ++ (y ++ d)) =
      a ++ (x ++ (b ++ ':' :: c ++ (y ++ d))) := by simp
  rw [hsplit, skim_append, skim_start_blank ha, Option.bind_some, skim_append] at h
  obtain ⟨f, hf, h⟩ := Option.bind_eq_some_iff.1 h
  have hskims := skims_start.skim hf
  rw [skim_append] at h
  obtain ⟨g, hg, h⟩ := Option.bind_eq_some_iff.1 h
  have hinert : ∀ i ∈ b ++ ':' :: c, isInert i = true := by
    intro i hi
    rcases List.mem_append.1 hi with hi | hi
    · exact isInert_of_isBlank (hb i hi)
    · rcases List.mem_cons.1 hi with rfl | hi
      · rfl
      · exact isInert_of_isBlank (hc i hi)
  obtain rfl := hskims.eq_idle hinert (by simp) hg
  rw [skim_append] at h
  obtain ⟨k, hk, h⟩ := Option.bind_eq_some_iff.1 h
  obtain rfl := (hskims.idle.skim hk).eq_of_inert (fun i hi => isInert_of_isBlank (hd i hi)) h he
  rw [skim_append, hf, Option.bind_some, skim_cons, hskims.skimStep_inert rfl (by decide)]
  exact hk

/--
Where a skim has come to in a word, and where it has come to behind blanks, single spaces will do
between the words that are left.
-/
theorem Skims.skim_wordsFrom (read : Text) (hs : s.Skims) (he : e.mode = .code) :
    (read ≠ [] → s.skim t = some e → ∃ w l,
      Text.wordsFrom isBlank read t = (read.reverse ++ w) :: l ∧
        s.skim (w ++ l.flatMap (' ' :: ·)) = some e) ∧
    (s.idle.skim t = some e → s.skim ((Text.words t).flatMap (' ' :: ·)) = some e) := by
  have hspace : ∀ {s : Scan}, s.Skims → s.skimStep ' ' = some s.idle := fun hs =>
    hs.skimStep_inert rfl (by decide)
  induction t generalizing s read with
  | nil =>
    constructor
    · intro hread h
      exact ⟨[], [], by simp [Text.wordsFrom, hread], h⟩
    · intro h
      have hidle : s.skim [' '] = some e := by
        rw [skim_cons, hspace hs]
        exact h
      obtain rfl := hs.eq_of_inert (List.all_eq_true.1 rfl) hidle he
      rfl
  | cons c t ih =>
    cases hc : isBlank c with
    | true =>
      have hstep : ∀ {s n : Scan}, s.Skims → s.skimStep c = some n → n = s.idle := by
        intro s n hs hn
        refine hs.eq_idle (t := [c]) (by simpa using isInert_of_isBlank hc) (by simp) ?_
        rw [skim_cons, hn]
        rfl
      constructor
      · intro hread h
        obtain ⟨n, hn, h⟩ := Option.bind_eq_some_iff.1 h
        obtain rfl := hstep hs hn
        refine ⟨[], Text.words t, ?_, (ih read hs).2 h⟩
        rw [Text.wordsFrom, if_pos hc, if_neg (by simpa using hread), List.append_nil]
        rfl
      · intro h
        obtain ⟨n, hn, h⟩ := Option.bind_eq_some_iff.1 h
        obtain rfl := hstep hs.idle hn
        rw [idle_idle] at h
        rw [Text.words, Text.wordsBy, Text.wordsFrom, if_pos hc]
        exact (ih read hs).2 h
    | false =>
      constructor
      · intro hread h
        obtain ⟨n, hn, h⟩ := Option.bind_eq_some_iff.1 h
        obtain ⟨w, l, hwords, hskim⟩ := (ih (c :: read) (hs.step hn)).1 (List.cons_ne_nil c read) h
        refine ⟨c :: w, l, ?_, ?_⟩
        · rw [Text.wordsFrom, if_neg (by simp [hc]), hwords]
          simp
        · rw [List.cons_append, skim_cons, hn]
          exact hskim
      · intro h
        obtain ⟨n, hn, h⟩ := Option.bind_eq_some_iff.1 h
        obtain ⟨w, l, hwords, hskim⟩ := (ih [c] (hs.idle.step hn)).1 (List.cons_ne_nil c []) h
        rw [Text.words, Text.wordsBy, Text.wordsFrom, if_neg (by simp [hc]), hwords,
          List.flatMap_cons, List.cons_append, skim_cons, hspace hs, Option.bind_some]
        show s.idle.skim (c :: (w ++ l.flatMap _)) = _
        rw [skim_cons, hn]
        exact hskim

theorem skim_normalize (h : start.skim t = some e) (he : e.mode = .code) :
    start.skim (Header.normalize t) = some e := by
  have hwords := (Skims.skim_wordsFrom [] skims_start he).2 h
  rw [Header.normalize]
  cases hl : Text.words t with
  | nil =>
    rw [hl] at hwords
    exact hwords
  | cons w l =>
    rw [hl] at hwords
    rw [Text.join_space_cons]
    exact hwords

theorem Skims.skimStep_toLower (hs : s.Skims) (c : Char) :
    s.skimStep c.toLower = s.skimStep c := by
  rcases Text.toNat_toLower c with h | ⟨hle, hge, h⟩
  · rw [h]
  · obtain ⟨hlower, hlowerLine⟩ :=
      isInert_of_toNat (c := c.toLower) (by omega) (by omega) (by omega)
    obtain ⟨hupper, hupperLine⟩ := isInert_of_toNat (c := c) hle (by omega) (by omega)
    rw [hs.skimStep_inert hlower hlowerLine, hs.skimStep_inert hupper hupperLine]

theorem Skims.skim_lower (hs : s.Skims) (t : Text) : s.skim t.lower = s.skim t := by
  induction t generalizing s with
  | nil => rfl
  | cons c t ih =>
    rw [Text.lower_cons, skim_cons, skim_cons, hs.skimStep_toLower]
    cases hc : s.skimStep c with
    | none => rfl
    | some n => exact ih (hs.step hc)

theorem Skims.skim_propertyName (hs : s.Skims) (t : Text) :
    s.skim (propertyName t) = s.skim t := by
  unfold propertyName
  split
  · rfl
  · exact hs.skim_lower t

end Scan

/-- A text that is skimmed to rest is whole, unless it opens a comment. -/
theorem isWhole_of_skim {t : Text} (h : Scan.start.skim t = some .start)
    (hopen : opensComment t = false) : isWhole t = true := by
  obtain ⟨f, hf, hsettled⟩ := Scan.reached_start.run_of_skim h (by simp [Scan.start]) hopen
  refine (Option.any_eq_true _ _).2 ⟨f, hf, Scan.atRest_iff.2 ⟨?_, ?_⟩⟩
  · rw [← Scan.depth_settled, hsettled]
    rfl
  · exact Scan.mode_of_settled (Scan.reached_start.run hf).live (by rw [hsettled]; rfl)

end AtomicCss
