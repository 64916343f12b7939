import AtomicCss.Proofs.Style.Marks
set_option autoImplicit false

namespace AtomicCss.Reader

variable {r : Reader} {x : Text}

/-- The reader has read just `x` when its scan is at rest behind it. -/
structure Holds (r s : Reader) (x : Text) : Prop where
  rest : s.scan.atRest = true
  statement : s.statement = Text.trim x
  nodes : s.nodes = r.nodes
  outer : s.outer = r.outer

theorem Ready.scan_eq (hr : r.Ready) : r.scan = .start := by
  rw [scan, hr.mode, hr.depth]
  rfl

theorem Ready.pending_eq (hr : r.Ready) : r.pending = r.read := pending_of_code hr.mode

theorem Ready.statement_of_continues {s : Reader} {t : Text} (hr : r.Ready)
    (h : r.Continues s t) : s.statement = Text.trim t := by
  rw [statement, h.pending, hr.pending_eq, List.reverse_append, List.reverse_reverse]
  exact Text.trim_blank_append (fun c hc => hr.blank c (List.mem_reverse.1 hc)) t

theorem Ready.readAll_whole (hr : r.Ready) (hx : isWhole x = true) :
    ∃ s, r.readAll x = .ok s ∧ r.Holds s x := by
  obtain ⟨e, he, hrest⟩ := (Option.any_eq_true _ _).1 hx
  rw [← hr.scan_eq] at he
  obtain ⟨s, hs, rfl, hcontinues⟩ := readAll_of_scan he
  exact ⟨s, hs, hrest, hr.statement_of_continues hcontinues, hcontinues.nodes, hcontinues.outer⟩

theorem Holds.step_eq {s : Reader} {c : Char} (h : r.Holds s x) (hc : isTerminator c = true) :
    s.step c = (s.settled.takeCode c).map fun u => { u with here := u.here.advance c } := by
  rw [step, take_terminator h.rest hc]

theorem Holds.depth {s : Reader} (h : r.Holds s x) : s.settled.depth = 0 :=
  (Scan.atRest_iff.1 h.rest).1

theorem Holds.statementText {s : Reader} (h : r.Holds s x) :
    s.settled.statementText = Text.trim x :=
  h.statement

theorem readAll_trans {s u : Reader} {t : Text} (h : r.readAll x = .ok s)
    (g : s.readAll t = .ok u) : r.readAll (x ++ t) = .ok u := by
  rw [readAll_append, h]
  exact g

theorem readAll_snoc {s u : Reader} {c : Char} (h : r.readAll x = .ok s) (hc : s.step c = .ok u) :
    r.readAll (x ++ [c]) = .ok u :=
  readAll_trans h ((readAll_singleton s c).trans hc)

theorem Ready.readAll_open (hr : r.Ready) (hx : isWhole x = true) (hne : Text.trim x ≠ []) :
    ∃ s p, r.readAll (x ++ ['{']) = .ok s ∧ s.Ready ∧ s.nodes = [] ∧
      s.outer = ⟨Text.trim x, r.nodes, p⟩ :: r.outer := by
  obtain ⟨s, hs, hholds⟩ := hr.readAll_whole hx
  have hopen : s.settled.openBlock = .ok { s.settled with
      nodes := [], outer := ⟨Text.trim x, s.nodes, s.here⟩ :: s.outer } := by
    rw [openBlock, hholds.statementText, if_neg (by simpa using hne)]
    rfl
  have hstep := hholds.step_eq (c := '{') rfl
  rw [takeCode_open hholds.depth, hopen] at hstep
  refine ⟨_, s.here, readAll_snoc hs hstep, ⟨rfl, hholds.depth, by simp [restart]⟩, rfl, ?_⟩
  simp [restart, hholds.nodes, hholds.outer]

theorem Ready.readAll_statement (hr : r.Ready) (hx : isWhole x = true) {n : Node}
    (hn : Node.ofStatement (Text.trim x) = .ok n) (hne : Text.trim x ≠ []) :
    ∃ s, r.readAll (x ++ [';']) = .ok s ∧ s.Ready ∧ s.nodes = r.nodes ++ [n] ∧
      s.outer = r.outer := by
  obtain ⟨s, hs, hholds⟩ := hr.readAll_whole hx
  rw [← hholds.statementText] at hn hne
  have hstep := hholds.step_eq (c := ';') rfl
  rw [takeCode_semicolon hholds.depth, endStatement_node hn hne] at hstep
  refine ⟨_, readAll_snoc hs hstep, ⟨rfl, hholds.depth, by simp [restart]⟩, ?_, hholds.outer⟩
  simp [restart, settled, hholds.nodes]

theorem Ready.readAll_last (hr : r.Ready) (hx : isWhole x = true) {n : Node}
    (hn : Node.ofStatement (Text.trim x) = .ok n) (hne : Text.trim x ≠ []) {b : OpenBlock}
    {outer : List OpenBlock} (hb : r.outer = b :: outer) :
    ∃ s, r.readAll (x ++ ['}']) = .ok s ∧ s.Ready ∧
      s.nodes = b.before ++ [b.close (r.nodes ++ [n])] ∧ s.outer = outer := by
  obtain ⟨s, hs, hholds⟩ := hr.readAll_whole hx
  rw [← hholds.statementText] at hn hne
  have houter : s.settled.outer = b :: outer := hholds.outer.trans hb
  have hstep := hholds.step_eq (c := '}') rfl
  rw [takeCode_close hholds.depth, endStatement_node hn hne] at hstep
  simp only [Except.bind, closeBlock, houter, Except.map] at hstep
  refine ⟨_, readAll_snoc hs hstep, ⟨rfl, hholds.depth, by simp [restart]⟩, ?_, rfl⟩
  simp [restart, settled, hholds.nodes]

theorem Ready.readAll_close (hr : r.Ready) {b : OpenBlock} {outer : List OpenBlock}
    (hb : r.outer = b :: outer) :
    ∃ s, r.readAll ['}'] = .ok s ∧ s.Ready ∧ s.nodes = b.before ++ [b.close r.nodes] ∧
      s.outer = outer := by
  obtain ⟨s, hs, hholds⟩ := hr.readAll_whole (x := []) rfl
  have houter : s.settled.outer = b :: outer := hholds.outer.trans hb
  have hstep := hholds.step_eq (c := '}') rfl
  rw [takeCode_close hholds.depth, endStatement_nil hholds.statementText] at hstep
  simp only [Except.bind, closeBlock, houter, Except.map] at hstep
  refine ⟨_, readAll_snoc hs hstep, ⟨rfl, hholds.depth, by simp [restart]⟩, ?_, rfl⟩
  simp [restart, settled, hholds.nodes]

theorem Ready.readAll_blank (hr : r.Ready) (hx : ∀ c ∈ x, isBlank c = true) :
    ∃ s, r.readAll x = .ok s ∧ s.Ready ∧ s.nodes = r.nodes ∧ s.outer = r.outer := by
  have hscan : r.scan.run x = some .start := by
    rw [hr.scan_eq]
    exact Scan.run_blank hx 0
  obtain ⟨s, hs, hstart, hcontinues⟩ := readAll_of_scan hscan
  have hmode : s.mode = .code := congrArg Scan.mode hstart
  refine ⟨s, hs, ⟨hmode, congrArg Scan.depth hstart, ?_⟩, hcontinues.nodes, hcontinues.outer⟩
  rw [← pending_of_code hmode, hcontinues.pending, hr.pending_eq]
  simp only [List.mem_append, List.mem_reverse]
  exact fun c hc => hc.elim (hx c) (hr.blank c)

theorem Ready.readAll_newline (hr : r.Ready) :
    ∃ s, r.readAll ['\n'] = .ok s ∧ s.Ready ∧ s.nodes = r.nodes ∧ s.outer = r.outer :=
  hr.readAll_blank (List.forall_mem_singleton.2 (by decide))

end AtomicCss.Reader
