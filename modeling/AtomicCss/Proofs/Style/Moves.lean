import AtomicCss.Proofs.Style.Comments
set_option autoImplicit false

/-!
Parts of a statement that a reader takes at one go: a character outside strings and comments, a
character of a string, and a comment.

What a reader makes of the rest of a text is its result, an error included; so a reader that has
moved on within its statement has the result of the one before (`Reader.Moves`).
-/

namespace AtomicCss.Reader

variable {r s : Reader} {c : Char} {v w x : Text}

def run (r : Reader) (v : Text) : Except SyntaxError (List Node) := (r.readAll v).bind finish

theorem run_cons_ok (h : r.step c = .ok s) (v : Text) : r.run (c :: v) = s.run v := by
  rw [run, readAll_cons, h]
  rfl

theorem run_cons_error {e : SyntaxError} (h : r.step c = .error e) (v : Text) :
    r.run (c :: v) = .error e := by
  rw [run, readAll_cons, h]
  rfl

theorem run_append (h : r.readAll x = .ok s) (v : Text) : r.run (x ++ v) = s.run v := by
  rw [run, readAll_append, h]
  rfl

/-- From before `v` the reader moves on to before `w`, in the same statement. -/
structure Moves (r : Reader) (v : Text) (s : Reader) (w : Text) : Prop where
  run : r.run v = s.run w
  nodes : s.nodes = r.nodes
  outer : s.outer = r.outer
  start : s.start = r.start

theorem Moves.refl (r : Reader) (v : Text) : r.Moves v r v := ⟨rfl, rfl, rfl, rfl⟩

theorem Moves.trans {q : Reader} (h : r.Moves v s w) (g : s.Moves w q x) : r.Moves v q x :=
  ⟨h.run.trans g.run, g.nodes.trans h.nodes, g.outer.trans h.outer, g.start.trans h.start⟩

def result (r : Reader) : Except SyntaxError (List Node) :=
  match r.outer with
  | [] => .ok r.nodes
  | b :: _ => .error ⟨.unclosedBlock, b.opened⟩

theorem run_nil (hmode : r.mode = .code) : r.run [] = r.endStatement.bind result := by
  rw [run, readAll_nil]
  show r.finish = _
  rw [finish, hmode]
  rfl

theorem finish_settled (h : r.mode = .slash) : r.settled.finish = r.finish := by
  have hread : r.settled = { r.push '/' with mode := .code } := by
    rw [settled, pending, if_pos h]
    rfl
  rw [hread, finish, finish, h]
  dsimp only
  rw [endStatement, endStatement,
    show statementText { r.push '/' with mode := .code } = (r.push '/').statementText from rfl]
  split
  · rfl
  · cases Node.ofStatement (r.push '/').statementText <;> rfl

theorem run_settled (h : r.mode = .code ∨ r.mode = .slash ∧ v.head? ≠ some '*') :
    r.settled.run v = r.run v := by
  cases v with
  | nil =>
    rcases h with h | ⟨h, _⟩
    · rw [settled_of_code h]
    · exact finish_settled h
  | cons c v =>
    have hc : r.mode = .code ∨ r.mode = .slash ∧ c ≠ '*' :=
      h.imp_right fun h => ⟨h.1, by simpa using h.2⟩
    rw [run, run, readAll_cons, readAll_cons, step_settled hc]

def parentheses (depth : Nat) (c : Char) : Nat :=
  if c = '(' then depth + 1 else if c = ')' then depth - 1 else depth

theorem takeCode_plain (hslash : c ≠ '/') (hquote : isQuote c = false) (hopen : c ≠ '(')
    (hclose : c ≠ ')') (hend : ¬(isTerminator c = true ∧ r.depth = 0)) :
    r.takeCode c = .ok (r.push c) := by
  simp only [isTerminator, Bool.or_eq_true, decide_eq_true_eq] at hend
  unfold takeCode
  simp only [hslash, hquote, hopen, hclose, if_false, Bool.false_eq_true]
  by_cases hdepth : r.depth = 0
  · obtain ⟨⟨hsemicolon, hopening⟩, hclosing⟩ : (c ≠ ';' ∧ c ≠ '{') ∧ c ≠ '}' := by
      simpa [hdepth] using hend
    simp [hdepth, hsemicolon, hopening, hclosing]
  · rw [if_pos hdepth]

theorem exists_moves_plain (hmode : r.mode = .code) (hquote : isQuote c = false)
    (hcomment : ¬(c = '/' ∧ v.head? = some '*')) (hend : ¬(isTerminator c = true ∧ r.depth = 0)) :
    ∃ s, r.Moves (c :: v) s v ∧ s.mode = .code ∧ s.depth = parentheses r.depth c ∧
      s.read = c :: r.read ∧ s.here = r.here.advance c := by
  have hstep : ∀ {s : Reader}, r.takeCode c = .ok s →
      r.step c = .ok { s with here := s.here.advance c } := by
    intro s hs
    refine step_ok ?_
    rw [take, hmode]
    exact hs
  unfold parentheses
  by_cases hslash : c = '/'
  · subst hslash
    have htake : r.takeCode '/' = .ok { r with mode := .slash, mark := r.here } := rfl
    have hrun := run_settled (v := v)
      (r := { r with mode := .slash, mark := r.here, here := r.here.advance '/' })
      (Or.inr ⟨rfl, fun h => hcomment ⟨rfl, h⟩⟩)
    exact ⟨_, ⟨(run_cons_ok (hstep htake) v).trans hrun.symm, rfl, rfl, rfl⟩, rfl, rfl, rfl, rfl⟩
  by_cases hopen : c = '('
  · subst hopen
    have htake : r.takeCode '(' = .ok { r.push '(' with depth := r.depth + 1 } := rfl
    exact ⟨_, ⟨run_cons_ok (hstep htake) v, rfl, rfl, rfl⟩, hmode, rfl, rfl, rfl⟩
  by_cases hclose : c = ')'
  · subst hclose
    have htake : r.takeCode ')' = .ok { r.push ')' with depth := r.depth - 1 } := rfl
    exact ⟨_, ⟨run_cons_ok (hstep htake) v, rfl, rfl, rfl⟩, hmode, rfl, rfl, rfl⟩
  have htake := takeCode_plain hslash hquote hopen hclose hend
  rw [if_neg hopen, if_neg hclose]
  exact ⟨_, ⟨run_cons_ok (hstep htake) v, rfl, rfl, rfl⟩, hmode, rfl, rfl, rfl⟩

structure InComment (r : Reader) (x : Text) : Prop where
  mode : r.mode = .comment ∨ r.mode = .commentStar ∧ x.head? ≠ some '/'
  rest : ¬['*', '/'] <:+: x

theorem InComment.step (h : r.InComment (c :: x)) :
    ∃ m, r.step c = .ok { r with mode := m, here := r.here.advance c } ∧
      InComment { r with mode := m, here := r.here.advance c } x := by
  obtain ⟨hhere, hrest⟩ := not_or.1 (mt List.infix_cons_iff.2 h.rest)
  refine ⟨if c = '*' then .commentStar else .comment, ?_, ?_, hrest⟩
  · rcases h.mode with hmode | ⟨hmode, hc⟩
    · simp [Reader.step, take, hmode, Except.map]
    · have hslash : c ≠ '/' := by simpa using hc
      simp [Reader.step, take, hmode, hslash, Except.map]
  · by_cases hstar : c = '*'
    · -- an asterisk before a slash would end the comment here
      refine Or.inr ⟨if_pos hstar, fun hslash => hhere ?_⟩
      obtain ⟨y, rfl⟩ := List.head?_eq_some_iff.1 hslash
      exact ⟨y, by rw [hstar]; rfl⟩
    · exact Or.inl (if_neg hstar)

theorem InComment.run_unclosed (h : r.InComment x) :
    r.run x = .error ⟨.unclosedComment, r.mark⟩ := by
  induction x generalizing r with
  | nil =>
    rcases h.mode with hmode | ⟨hmode, _⟩
    · simp [run, finish, hmode, Except.bind, bind]
    · simp [run, finish, hmode, Except.bind, bind]
  | cons c x ih =>
    obtain ⟨m, hs, hnext⟩ := h.step
    rw [run_cons_ok hs, ih hnext]

theorem InComment.readAll_end (h : r.InComment x) :
    r.readAll (x ++ ['*', '/']) =
      .ok { r with mode := .code, here := (x ++ ['*', '/']).foldl Position.advance r.here } := by
  induction x generalizing r with
  | nil =>
    rcases h.mode with hmode | ⟨hmode, _⟩
    · simp [Reader.step, take, hmode, Except.bind, Except.map]
    · simp [Reader.step, take, hmode, Except.bind, Except.map]
  | cons c x ih =>
    obtain ⟨m, hs, hnext⟩ := h.step
    rw [List.cons_append, readAll_cons, hs]
    exact ih hnext

def enterComment (r : Reader) : Reader :=
  { r with mode := .comment, mark := r.here, here := (r.here.advance '/').advance '*' }

theorem readAll_enterComment (h : r.mode = .code) : r.readAll ['/', '*'] = .ok r.enterComment := by
  simp [Reader.step, take, takeCode, h, Except.map, Except.bind, enterComment]

theorem take_string {q : Quoting} (hmode : r.mode = .quoted q)
    (hc : ∀ d, q = .inside d → c ≠ '\n') :
    r.take c = .ok { r.push c with
      mode := if q.next c = .bare then .code else .quoted (q.next c) } := by
  rw [take, hmode]
  dsimp only
  split
  next d => exact absurd rfl (hc d rfl)
  next => rfl

theorem step_string {q : Quoting} (hmode : r.mode = .quoted q)
    (hc : ∀ d, q = .inside d → c ≠ '\n') :
    r.step c = .ok { r.push c with
      mode := if q.next c = .bare then .code else .quoted (q.next c)
      here := r.here.advance c } := step_ok (take_string hmode hc)

theorem step_string_end {d : Char} (hmode : r.mode = .quoted (.inside d)) :
    r.step '\n' = .error ⟨.unclosedString, r.mark⟩ := by
  rw [Reader.step, take, hmode]
  rfl

theorem run_string_nil {q : Quoting} (hmode : r.mode = .quoted q) :
    r.run [] = .error ⟨.unclosedString, r.mark⟩ := by
  rw [run, readAll_nil]
  show r.finish = _
  rw [finish, hmode]
  rfl

end AtomicCss.Reader
