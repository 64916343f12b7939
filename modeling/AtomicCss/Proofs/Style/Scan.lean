import AtomicCss.Proofs.Data.Outcome
import AtomicCss.Proofs.Text.Trim
import AtomicCss.Style.Parser
set_option autoImplicit false

namespace AtomicCss

/-- The characters that end a statement outside strings, comments and parentheses. -/
def isTerminator (c : Char) : Bool := c = ';' || c = '{' || c = '}'

/-- What a scan of a statement has to remember. -/
structure Scan where
  mode : Mode
  depth : Nat
  deriving DecidableEq, Repr

namespace Scan

def start : Scan := ⟨.code, 0⟩

def takeCode (depth : Nat) (c : Char) : Option Scan :=
  if c = '/' then some ⟨.slash, depth⟩
  else if isQuote c then some ⟨.quoted (.inside c), depth⟩
  else if c = '(' then some ⟨.code, depth + 1⟩
  else if c = ')' then some ⟨.code, depth - 1⟩
  else if depth = 0 && isTerminator c then none
  else some ⟨.code, depth⟩

/-- The scan after `c`; none if the statement ends, a comment begins or a string breaks off. -/
def step (s : Scan) (c : Char) : Option Scan :=
  match s.mode with
  | .code => takeCode s.depth c
  | .slash => if c = '*' then none else takeCode s.depth c
  | .comment | .commentStar => none
  | .quoted q =>
    match q, c with
    | .inside _, '\n' => none
    | q, c => some ⟨if q.next c = .bare then .code else .quoted (q.next c), s.depth⟩

def run (s : Scan) (t : Text) : Option Scan := t.foldlM step s

def atRest (s : Scan) : Bool := s.depth = 0 && (s.mode = .code || s.mode = .slash)

theorem atRest_iff {s : Scan} :
    s.atRest = true ↔ s.depth = 0 ∧ (s.mode = .code ∨ s.mode = .slash) := by
  simp [atRest]

theorem run_cons (s : Scan) (c : Char) (t : Text) : s.run (c :: t) = (s.step c).bind (·.run t) :=
  rfl

theorem takeCode_some {depth : Nat} {c : Char} {e : Scan} (h : takeCode depth c = some e) :
    (e.depth ≠ 0 → depth ≠ 0 ∨ c = '(') ∧
      ∀ q, e.mode = .quoted q → isQuote c = true ∧ q = .inside c := by
  unfold takeCode at h
  split at h
  · cases h
    exact ⟨Or.inl, by simp⟩
  split at h
  next hquote =>
    cases h
    exact ⟨Or.inl, fun q hq => ⟨hquote, (Mode.quoted.inj hq).symm⟩⟩
  split at h
  next hopen =>
    cases h
    exact ⟨fun _ => Or.inr hopen, by simp⟩
  split at h
  · cases h
    exact ⟨fun hne => Or.inl fun hzero => hne (by rw [hzero]), by simp⟩
  split at h
  · cases h
  · cases h
    exact ⟨Or.inl, by simp⟩

theorem step_some {s e : Scan} {c : Char} (h : s.step c = some e) :
    (e.depth ≠ 0 → s.depth ≠ 0 ∨ c = '(') ∧ ∀ q, e.mode = .quoted q →
      isQuote c = true ∧ q = .inside c ∨ ∃ p, s.mode = .quoted p ∧ q = p.next c ∧ q ≠ .bare := by
  have hcode : takeCode s.depth c = some e → (e.depth ≠ 0 → s.depth ≠ 0 ∨ c = '(') ∧
      ∀ q, e.mode = .quoted q → isQuote c = true ∧ q = .inside c ∨
        ∃ p, s.mode = .quoted p ∧ q = p.next c ∧ q ≠ .bare := by
    intro he
    obtain ⟨hdepth, hquoted⟩ := takeCode_some he
    exact ⟨hdepth, fun q hq => Or.inl (hquoted q hq)⟩
  unfold step at h
  cases hmode : s.mode with
  | code =>
    rw [hmode] at h hcode
    exact hcode h
  | slash =>
    rw [hmode] at h hcode
    dsimp only at h
    split at h
    · cases h
    · exact hcode h
  | comment | commentStar =>
    rw [hmode] at h
    cases h
  | quoted p =>
    rw [hmode] at h
    dsimp only at h
    split at h
    · cases h
    · cases h
      refine ⟨Or.inl, fun q hq => Or.inr ⟨p, rfl, ?_⟩⟩
      dsimp only at hq
      split at hq
      · cases hq
      next hopen =>
        cases hq
        exact ⟨rfl, hopen⟩

theorem step_blank {s : Scan} {c : Char} (hmode : s.mode = .code ∨ s.mode = .slash)
    (hc : isBlank c = true) : s.step c = some ⟨.code, s.depth⟩ := by
  have hne : ∀ d, isBlank d = false → c ≠ d := fun _ => ne_of_isBlank hc
  have htake : takeCode s.depth c = some ⟨.code, s.depth⟩ := by
    simp [takeCode, isQuote, isTerminator, hne '/' (by decide), hne '"' (by decide),
      hne '\'' (by decide), hne '(' (by decide), hne ')' (by decide), hne ';' (by decide),
      hne '{' (by decide), hne '}' (by decide)]
  unfold step
  rcases hmode with hmode | hmode
  · rw [hmode]
    exact htake
  · rw [hmode]
    dsimp only
    rw [if_neg (hne '*' (by decide))]
    exact htake

theorem run_blank {t : Text} (ht : ∀ c ∈ t, isBlank c = true) (depth : Nat) :
    run ⟨.code, depth⟩ t = some ⟨.code, depth⟩ := by
  induction t with
  | nil => rfl
  | cons c t ih =>
    rw [run_cons, step_blank (Or.inl rfl) (ht c List.mem_cons_self)]
    exact ih fun d hd => ht d (List.mem_cons_of_mem _ hd)

theorem run_cases (s : Scan) (t : Text) :
    (∃ e, s.run t = some e) ∨
      ∃ u c r e, t = u ++ c :: r ∧ s.run u = some e ∧ e.step c = none := by
  induction t generalizing s with
  | nil => exact Or.inl ⟨s, rfl⟩
  | cons c t ih =>
    cases hs : s.step c with
    | none => exact Or.inr ⟨[], c, t, s, rfl, rfl, hs⟩
    | some n =>
      rcases ih n with ⟨e, he⟩ | ⟨u, d, r, e, rfl, hu, he⟩
      · exact Or.inl ⟨e, by rw [run_cons, hs]; exact he⟩
      · exact Or.inr ⟨c :: u, d, r, e, rfl, by rw [run_cons, hs]; exact hu, he⟩

end Scan

/-- Read from the start of a statement, the text goes on to its end and leaves nothing open. -/
def isWhole (t : Text) : Bool := (Scan.start.run t).any Scan.atRest

namespace Reader

/-- The statement so far, with a slash that may yet begin a comment. -/
def pending (r : Reader) : Text := if r.mode = .slash then '/' :: r.read else r.read

theorem pending_of_code {r : Reader} (h : r.mode = .code) : r.pending = r.read := by
  simp [pending, h]

def scan (r : Reader) : Scan := ⟨r.mode, r.depth⟩

/-- Two readers that differ in the statement that they are in only. -/
structure Continues (r s : Reader) (t : Text) : Prop where
  pending : s.pending = t.reverse ++ r.pending
  nodes : s.nodes = r.nodes
  outer : s.outer = r.outer

def settled (r : Reader) : Reader := { r with mode := .code, read := r.pending }

theorem takeCode_of_scan {r : Reader} {c : Char} {e : Scan}
    (h : Scan.takeCode r.depth c = some e) :
    ∃ s, r.settled.takeCode c = .ok s ∧ s.scan = e ∧ r.Continues s [c] := by
  unfold Scan.takeCode at h
  unfold takeCode
  by_cases hslash : c = '/'
  · subst hslash
    cases h
    exact ⟨_, rfl, rfl, rfl, rfl, rfl⟩
  rw [if_neg hslash] at h ⊢
  by_cases hquote : isQuote c = true
  · rw [if_pos hquote] at h ⊢
    cases h
    exact ⟨_, rfl, rfl, rfl, rfl, rfl⟩
  rw [if_neg hquote] at h ⊢
  by_cases hopen : c = '('
  · rw [if_pos hopen] at h ⊢
    cases h
    exact ⟨_, rfl, rfl, rfl, rfl, rfl⟩
  rw [if_neg hopen] at h ⊢
  by_cases hclose : c = ')'
  · rw [if_pos hclose] at h ⊢
    cases h
    exact ⟨_, rfl, rfl, rfl, rfl, rfl⟩
  rw [if_neg hclose] at h ⊢
  by_cases hdepth : r.depth = 0
  · by_cases hend : isTerminator c = true
    · simp [hdepth, hend] at h
    · simp only [hdepth, hend, Bool.false_eq_true, decide_true, Bool.and_false, if_false] at h
      simp only [isTerminator, Bool.or_eq_true, decide_eq_true_eq, not_or] at hend
      obtain ⟨⟨hsemicolon, hopening⟩, hclosing⟩ := hend
      cases h
      simp only [settled, hdepth, ne_eq, not_true_eq_false, if_false, hsemicolon, hopening,
        hclosing]
      exact ⟨_, rfl, by simp [scan, push], rfl, rfl, rfl⟩
  · simp only [hdepth, decide_false, Bool.false_and, Bool.false_eq_true, if_false] at h
    cases h
    rw [if_pos (show r.settled.depth ≠ 0 from hdepth)]
    exact ⟨_, rfl, rfl, rfl, rfl, rfl⟩

theorem settled_of_code {r : Reader} (h : r.mode = .code) : r.settled = r := by
  cases r
  cases h
  rfl

theorem take_eq_takeCode {r : Reader} {c : Char}
    (h : r.mode = .code ∨ r.mode = .slash ∧ c ≠ '*') : r.take c = r.settled.takeCode c := by
  rcases h with h | ⟨h, hc⟩
  · rw [settled_of_code h, take, h]
  · rw [take, h]
    simp [hc, settled, pending, h, push]

theorem step_ok {r s : Reader} {c : Char} (h : r.take c = .ok s) :
    r.step c = .ok { s with here := s.here.advance c } := by
  rw [step, h]
  rfl

theorem Continues.refl (r : Reader) : r.Continues r [] := ⟨rfl, rfl, rfl⟩

theorem Continues.trans {r s t : Reader} {a b : Text} (h : r.Continues s a)
    (g : s.Continues t b) : r.Continues t (a ++ b) where
  pending := by rw [g.pending, h.pending, List.reverse_append, List.append_assoc]
  nodes := g.nodes.trans h.nodes
  outer := g.outer.trans h.outer

theorem step_of_scan {r : Reader} {c : Char} {e : Scan} (h : r.scan.step c = some e) :
    ∃ s, r.step c = .ok s ∧ s.scan = e ∧ r.Continues s [c] := by
  have hcode : r.mode = .code ∨ r.mode = .slash ∧ c ≠ '*' →
      Scan.takeCode r.depth c = some e → ∃ s, r.step c = .ok s ∧ s.scan = e ∧
        r.Continues s [c] := by
    intro hmode he
    obtain ⟨s, hs, hscan, hcontinues⟩ := takeCode_of_scan he
    rw [← take_eq_takeCode hmode] at hs
    exact ⟨_, step_ok hs, hscan, hcontinues.pending, hcontinues.nodes, hcontinues.outer⟩
  unfold Scan.step at h
  cases hmode : r.mode with
  | code =>
    simp only [scan, hmode] at h
    exact hcode (Or.inl hmode) h
  | slash =>
    simp only [scan, hmode] at h
    split at h
    · cases h
    next hc => exact hcode (Or.inr ⟨hmode, hc⟩) h
  | comment =>
    simp only [scan, hmode] at h
    cases h
  | commentStar =>
    simp only [scan, hmode] at h
    cases h
  | quoted q =>
    simp only [scan, hmode] at h
    split at h
    · cases h
    next hnewline =>
      cases h
      have htake : r.take c = .ok { r.push c with
          mode := if q.next c = .bare then .code else .quoted (q.next c) } := by
        unfold take
        rw [hmode]
        dsimp only
        split
        · exact absurd rfl (hnewline _ rfl)
        · rfl
      refine ⟨_, step_ok htake, rfl, ?_, rfl, rfl⟩
      simp only [pending, push, hmode]
      split <;> simp_all

theorem readAll_of_scan {r : Reader} {t : Text} {e : Scan} (h : r.scan.run t = some e) :
    ∃ s, r.readAll t = .ok s ∧ s.scan = e ∧ r.Continues s t := by
  induction t generalizing r with
  | nil =>
    cases h
    exact ⟨r, rfl, rfl, .refl r⟩
  | cons c t ih =>
    rw [Scan.run_cons] at h
    obtain ⟨n, hn, h⟩ := Option.bind_eq_some_iff.1 h
    obtain ⟨s, hs, rfl, hone⟩ := step_of_scan hn
    obtain ⟨u, hu, hscan, hrest⟩ := ih h
    refine ⟨u, ?_, hscan, hone.trans hrest⟩
    rw [readAll_cons, hs]
    exact hu

end Reader
end AtomicCss
