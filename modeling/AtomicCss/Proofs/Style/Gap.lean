import AtomicCss.Proofs.Style.Faithful
import AtomicCss.Proofs.Style.Frame
set_option autoImplicit false

/-!
Gaps of blanks and comments, and what they lead to.

A statement that a text has not ended goes on in the text behind it, unless a gap leads to a
semicolon outside parentheses or to the end. Then it becomes a node of its own
(`Reader.reads_of_firstInk`), and else it does not (`Reader.Completes.firstInk`).
-/

namespace AtomicCss

/-- How far a comment has come between blanks. -/
inductive Gap where
  | blank
  | slash
  | comment
  | star
  deriving DecidableEq, Repr

namespace Gap

def mode : Gap → Mode
  | .blank => .code
  | .slash => .slash
  | .comment => .comment
  | .star => .commentStar

/-- The gap after `c`; none if the gap has ended. -/
def next : Gap → Char → Option Gap
  | .blank, c => if c = '/' then some .slash else if isBlank c then some .blank else none
  | .slash, c => if c = '*' then some .comment else none
  | .comment, c => some (if c = '*' then .star else .comment)
  | .star, c => some (if c = '/' then .blank else if c = '*' then .star else .comment)

/-- The first character behind the gap. A slash that begins no comment is one. -/
def firstInk : Gap → Text → Option Char
  | g, [] => if g = .slash then some '/' else none
  | g, c :: t =>
    match g.next c with
    | some k => k.firstInk t
    | none => some (if g = .slash then '/' else c)

end Gap

namespace Reader

variable {r s : Reader} {t : Text} {c : Char} {nodes : List Node}

theorem Idles.trans {u : Reader} (h : r.Idles s) (g : s.Idles u) : r.Idles u where
  depth := g.depth.trans h.depth
  read := by
    obtain ⟨w, hw, hread⟩ := h.read
    obtain ⟨v, hv, hread'⟩ := g.read
    refine ⟨v ++ w, fun c hc => (List.mem_append.1 hc).elim (hv c) (hw c), ?_⟩
    rw [hread', hread, List.append_assoc]
  nodes := g.nodes.trans h.nodes
  outer := g.outer.trans h.outer

theorem Idles.ink (h : r.Idles s) : Text.ink s.read = Text.ink r.read := by
  obtain ⟨w, hw, hread⟩ := h.read
  rw [hread, Text.ink_append, Text.ink_eq_zero.2 hw, Nat.zero_add]

theorem Idles.statementText (h : r.Idles s) : s.statementText = r.statementText := by
  obtain ⟨w, hw, hread⟩ := h.read
  rw [Reader.statementText, hread, List.reverse_append]
  exact Text.trim_append_blank (fun c hc => hw c (List.mem_reverse.1 hc)) _

theorem step_gap {g k : Gap} (hr : r.mode = g.mode) (h : g.next c = some k) :
    ∃ s, r.step c = .ok s ∧ s.mode = k.mode ∧ r.Idles s := by
  cases g with
  | blank =>
    unfold Gap.next at h
    dsimp only at h
    split at h
    next hslash =>
      cases h
      subst hslash
      have htake : r.take '/' = .ok { r with mode := .slash, mark := r.here } := by
        rw [take, hr]
        rfl
      exact ⟨_, step_ok htake, rfl, .of_eq rfl rfl rfl rfl⟩
    next =>
      split at h
      next hblank =>
        cases h
        obtain ⟨s, hs, hscan, hcontinues⟩ :=
          step_of_scan (Scan.step_blank (s := r.scan) (Or.inl hr) hblank)
        have hmode : s.mode = .code := congrArg Scan.mode hscan
        refine ⟨s, hs, hmode, congrArg Scan.depth hscan, ⟨[c], by simpa using hblank, ?_⟩,
          hcontinues.nodes, hcontinues.outer⟩
        rw [← pending_of_code hmode, hcontinues.pending, pending_of_code hr]
        rfl
      next => cases h
  | slash =>
    unfold Gap.next at h
    dsimp only at h
    split at h
    next hstar =>
      cases h
      have htake : r.take c = .ok { r with mode := .comment } := by
        rw [take, hr]
        exact if_pos hstar
      exact ⟨_, step_ok htake, rfl, .of_eq rfl rfl rfl rfl⟩
    next => cases h
  | comment =>
    cases h
    have htake : r.take c = .ok { r with mode := if c = '*' then .commentStar else .comment } := by
      rw [take, hr]
      rfl
    refine ⟨_, step_ok htake, ?_, .of_eq rfl rfl rfl rfl⟩
    dsimp only
    split <;> rfl
  | star =>
    cases h
    have htake : r.take c = .ok { r with
        mode := if c = '/' then .code else if c = '*' then .commentStar else .comment } := by
      rw [take, hr]
      rfl
    refine ⟨_, step_ok htake, ?_, .of_eq rfl rfl rfl rfl⟩
    dsimp only
    split
    · rfl
    · split <;> rfl

theorem step_semicolon {e : Reader} (hmode : r.mode = .code) (hdepth : r.depth = 0)
    (he : r.endStatement = .ok e) :
    ∃ s, r.step ';' = .ok s ∧ s.Ready ∧ s.nodes = e.nodes ∧ s.outer = e.outer := by
  have htake : r.take ';' = .ok (e.restart ';') := by
    rw [take, hmode]
    dsimp only
    rw [takeCode_semicolon hdepth, he]
    rfl
  have hscan := (leaves_of_endStatement he).1
  exact ⟨_, step_ok htake, ready_restart ((congrArg Scan.mode hscan).trans hmode)
    ((congrArg Scan.depth hscan).trans hdepth) _ _, rfl, rfl⟩

theorem reads_of_firstInk {g : Gap} {a b : Reader} {n : Node}
    (hn : Node.ofStatement r.statementText = .ok n) (hne : r.statementText ≠ [])
    (houter : r.outer = []) (ha : r.Idles a) (hb : initial.Idles b) (hamode : a.mode = g.mode)
    (hbmode : b.mode = g.mode)
    (hfirst : g.firstInk t = none ∨ r.depth = 0 ∧ g.firstInk t = some ';') :
    Agree (fun nodes rest => nodes = r.nodes ++ n :: rest) ((a.readAll t).bind finish)
      ((b.readAll t).bind finish) := by
  induction t generalizing g a b with
  | nil =>
    rw [readAll_nil, readAll_nil]
    cases g with
    | blank =>
      have hafinish : a.finish = .ok (r.nodes ++ [n]) := by
        refine finish_eq_ok.2 ⟨Or.inl hamode, ha.outer.trans houter, Or.inr ?_⟩
        rw [statement_of_code hamode, ha.statementText, ha.nodes]
        exact ⟨hne, n, hn, rfl⟩
      have hbfinish : b.finish = .ok [] := by
        refine finish_eq_ok.2 ⟨Or.inl hbmode, hb.outer, Or.inl ?_⟩
        rw [statement_of_code hbmode, hb.nodes]
        exact ⟨hb.statementText, rfl⟩
      show Agree _ a.finish b.finish
      rw [hafinish, hbfinish]
      exact .ok rfl
    | slash => simp [Gap.firstInk] at hfirst
    | comment | star =>
      show Agree _ a.finish b.finish
      unfold finish
      rw [hamode, hbmode]
      exact .error
  | cons c t ih =>
    cases hnext : g.next c with
    | some k =>
      obtain ⟨a', ha', hamode', haidles⟩ := step_gap hamode hnext
      obtain ⟨b', hb', hbmode', hbidles⟩ := step_gap hbmode hnext
      rw [readAll_cons, readAll_cons, ha', hb']
      simp only [Gap.firstInk, hnext] at hfirst
      exact ih (ha.trans haidles) (hb.trans hbidles) hamode' hbmode' hfirst
    | none =>
      simp only [Gap.firstInk, hnext, reduceCtorEq, false_or, Option.some.injEq] at hfirst
      obtain ⟨hdepth, hc⟩ := hfirst
      cases g with
      | blank =>
        simp only [reduceCtorEq, if_false] at hc
        subst hc
        have haend := endStatement_node (r := a) (n := n) (by rw [ha.statementText, hn])
          (by rw [ha.statementText]; exact hne)
        obtain ⟨a', ha', haready, hanodes, haouter⟩ :=
          step_semicolon hamode (ha.depth.trans hdepth) haend
        obtain ⟨b', hb', hbready, hbnodes, hbouter⟩ :=
          step_semicolon hbmode hb.depth (endStatement_nil hb.statementText)
        have hframes := haready.frames hbready (haouter.trans (ha.outer.trans houter))
          (hbouter.trans hb.outer) (hbnodes.trans hb.nodes)
        rw [readAll_cons, readAll_cons, ha', hb']
        have hreads := hframes.reads t
        rw [hanodes, ha.nodes] at hreads
        simpa [Except.bind] using hreads
      | slash => cases hc
      | comment | star => cases hnext

theorem readAll_cons_reads (h : (r.readAll (c :: t)).bind finish = .ok nodes) :
    ∃ s, r.step c = .ok s ∧ (s.readAll t).bind finish = .ok nodes := by
  obtain ⟨u, hu, hfinish⟩ := bind_ok h
  obtain ⟨s, hs, hu⟩ := readAll_cons_ok hu
  refine ⟨s, hs, ?_⟩
  rw [hu]
  exact hfinish

theorem marks_of_reads (h : (r.readAll t).bind finish = .ok nodes) :
    ∃ ms, Node.marksAll nodes = r.marks ++ ms := by
  obtain ⟨s, hs, hfinish⟩ := bind_ok h
  obtain ⟨ms, hms, _⟩ := readAll_marks hs
  rcases finish_ok hfinish with ⟨_, hmarks⟩ | ⟨n, _, hmarks⟩
  · exact ⟨ms, hmarks.trans hms⟩
  · exact ⟨ms ++ [.leaf n], by rw [hmarks, hms, List.append_assoc]⟩

theorem ink_pending_le (h : r.Continues s [c]) : Text.ink r.pending ≤ Text.ink s.read := by
  have hpending := h.pending
  rw [pending] at hpending
  split at hpending
  · rw [(List.cons_eq_cons.1 hpending).2]
    exact Nat.le_refl _
  · rw [hpending, Text.ink_append]
    exact Nat.le_add_left _ _

theorem ink_read_le_statement (r : Reader) : Text.ink r.read ≤ Text.ink r.statement := by
  rw [ink_statement, pending]
  split
  · rw [Text.ink_cons]
    exact Nat.le_add_left _ _
  · exact Nat.le_refl _

theorem mark_of_leaves {k m : Mark} {ks ms : List Mark}
    (h : (s.readAll t).bind finish = .ok nodes) (hs : s.marks = r.marks ++ k :: ks)
    (hmarks : Node.marksAll nodes = r.marks ++ m :: ms) : m = k := by
  obtain ⟨js, hjs⟩ := marks_of_reads h
  rw [hmarks, hs, List.append_assoc, List.append_cancel_left_eq] at hjs
  exact (List.cons_eq_cons.1 hjs).1

theorem ink_read_le_size {m : Mark} {ms : List Mark}
    (h : (r.readAll t).bind finish = .ok nodes)
    (hmarks : Node.marksAll nodes = r.marks ++ m :: ms) : Text.ink r.read ≤ m.size := by
  induction t generalizing r with
  | nil =>
    rcases finish_ok h with ⟨_, hnone⟩ | ⟨n, hn, hleaf⟩
    · rw [hnone] at hmarks
      simp at hmarks
    · rw [hleaf, List.append_cancel_left_eq] at hmarks
      rw [← (List.cons_eq_cons.1 hmarks).1, Mark.size, (Node.ofStatement_ok hn).2]
      exact r.ink_read_le_statement
  | cons c t ih =>
    have hstatement := r.ink_read_le_statement
    obtain ⟨s, hs, hrest⟩ := readAll_cons_reads h
    rcases step_cases hs with ⟨_, hcontinues⟩ | ⟨_, _, _, ks, hleaves, hks⟩ | ⟨_, hidles, _⟩
    · rw [← hcontinues.marks] at hmarks
      rw [ink_statement] at hstatement
      exact Nat.le_trans hstatement (Nat.le_trans (ink_pending_le hcontinues) (ih hrest hmarks))
    · cases ks with
      | nil =>
        -- an empty statement leaves nothing behind
        generalize r.statement = statement at hstatement hleaves
        cases hleaves
        exact Nat.le_trans hstatement (Nat.zero_le _)
      | cons k ks =>
        rw [mark_of_leaves hrest hks hmarks, hleaves.size_eq]
        exact hstatement
    · rw [← hidles.marks] at hmarks
      rw [← hidles.ink]
      exact ih hrest hmarks

theorem step_close_ne_ok (hrest : r.scan.atRest = true) (houter : r.outer = []) :
    r.step '}' ≠ .ok s := by
  intro h
  obtain ⟨u, hu, _⟩ := take_of_step h
  have hdepth : r.settled.depth = 0 := (Scan.atRest_iff.1 hrest).1
  rw [take_terminator hrest rfl, takeCode_close hdepth] at hu
  obtain ⟨e, he, hu⟩ := bind_ok hu
  obtain ⟨d, hd, _⟩ := map_ok hu
  have heouter : e.outer = [] := (leaves_of_endStatement he).2.1.trans houter
  rw [closeBlock, heouter] at hd
  cases hd

theorem ink_pending_gap {g : Gap} (hmode : r.mode = g.mode) :
    Text.ink r.pending = (if g = .slash then 1 else 0) + Text.ink r.read := by
  have hslash : isBlank '/' = false := by decide
  cases g <;> simp [pending, hmode, Gap.mode, Text.ink_cons, hslash]

theorem ink_lt_of_continues {g : Gap} (hmode : r.mode = g.mode) (hnext : g.next c = none)
    (h : r.Continues s [c]) : Text.ink r.read < Text.ink s.read := by
  have hpending := ink_pending_gap hmode
  cases g with
  | blank =>
    have hs := h.pending
    rw [pending_of_code hmode, pending] at hs
    simp only [Gap.next] at hnext
    split at hnext
    · cases hnext
    next hslash =>
      split at hnext
      · cases hnext
      next hblank =>
        split at hs
        · exact absurd (List.cons_eq_cons.1 hs).1.symm hslash
        · have hink : Text.ink (c :: r.read) = 1 + Text.ink r.read := by
            rw [Text.ink_cons, if_neg hblank]
          rw [show s.read = c :: r.read from hs, hink]
          omega
  | slash =>
    have hle := ink_pending_le h
    rw [hpending] at hle
    simp only [if_true] at hle
    omega
  | comment | star => cases hnext

/-- Reading `t` makes a node of just the ink that has been read of the statement. -/
structure Completes (r : Reader) (t : Text) (nodes : List Node) : Prop where
  outer : r.outer = []
  reads : (r.readAll t).bind finish = .ok nodes
  node : ∃ m ms, Node.marksAll nodes = r.marks ++ m :: ms ∧ m.isLeaf = true ∧
    m.size = Text.ink r.read
  ink : Text.ink r.read ≠ 0

theorem Completes.semicolon {g : Gap} (h : r.Completes (c :: t) nodes) (hmode : r.mode = g.mode)
    (hnext : g.next c = none) : r.depth = 0 ∧ g = .blank ∧ c = ';' := by
  obtain ⟨m, ms, hmarks, hleaf, hsize⟩ := h.node
  obtain ⟨s, hs, hrest⟩ := readAll_cons_reads h.reads
  rcases step_cases hs with ⟨_, hcontinues⟩ | ⟨hat, _, _, ks, hleaves, hks⟩ | ⟨hcomment, _⟩
  · rw [← hcontinues.marks] at hmarks
    have hle := ink_read_le_size hrest hmarks
    have hlt := ink_lt_of_continues hmode hnext hcontinues
    omega
  · have hstatement : Text.ink r.statement = (if g = .slash then 1 else 0) + Text.ink r.read := by
      rw [ink_statement, ink_pending_gap hmode]
    cases ks with
    | nil =>
      generalize r.statement = statement at hstatement hleaves
      cases hleaves
      rw [Text.ink_nil] at hstatement
      exact absurd (Nat.eq_zero_of_add_eq_zero_left hstatement.symm) h.ink
    | cons k ks =>
      obtain rfl := mark_of_leaves hrest hks hmarks
      have hblank : g = .blank := by
        rw [hleaves.size_eq] at hsize
        cases g with
        | blank => rfl
        | slash =>
          rw [if_pos rfl] at hstatement
          omega
        | comment | star => cases hnext
      refine ⟨(Scan.atRest_iff.1 hat).1, hblank, ?_⟩
      generalize r.statement = statement at hleaves
      cases hleaves with
      | head =>
        rw [Mark.ofHead] at hleaf
        split at hleaf <;> cases hleaf
      | statement => rfl
      | close => exact absurd hs (step_close_ne_ok hat h.outer)
      | last => exact absurd hs (step_close_ne_ok hat h.outer)
  · -- the character would go on with a comment, and so with the gap
    cases g with
    | blank =>
      rcases hcomment with hlive | ⟨hslash, _⟩
      · simp [Scan.Live, scan, hmode, Gap.mode] at hlive
      · cases hmode.symm.trans hslash
    | slash =>
      rcases hcomment with hlive | ⟨_, rfl⟩
      · simp [Scan.Live, scan, hmode, Gap.mode] at hlive
      · cases hnext
    | comment | star => cases hnext

theorem Completes.idles (h : r.Completes (c :: t) nodes) (hs : r.step c = .ok s)
    (hidles : r.Idles s) : s.Completes t nodes := by
  obtain ⟨u, hu, hrest⟩ := readAll_cons_reads h.reads
  cases hu.symm.trans hs
  refine ⟨hidles.outer.trans h.outer, hrest, ?_, ?_⟩
  · rw [hidles.marks, hidles.ink]
    exact h.node
  · rw [hidles.ink]
    exact h.ink

theorem Completes.firstInk {g : Gap} (h : r.Completes t nodes) (hmode : r.mode = g.mode) :
    g.firstInk t = none ∨ r.depth = 0 ∧ g.firstInk t = some ';' := by
  induction t generalizing r g with
  | nil =>
    cases g with
    | slash =>
      obtain ⟨m, ms, hmarks, _, hsize⟩ := h.node
      rcases finish_ok h.reads with ⟨_, hnone⟩ | ⟨n, hn, hlast⟩
      · rw [hnone] at hmarks
        simp at hmarks
      · rw [hlast, List.append_cancel_left_eq] at hmarks
        rw [← (List.cons_eq_cons.1 hmarks).1, Mark.size, (Node.ofStatement_ok hn).2,
          ink_statement, ink_pending_gap hmode] at hsize
        simp at hsize
    | blank | comment | star => exact Or.inl rfl
  | cons c t ih =>
    cases hnext : g.next c with
    | some k =>
      obtain ⟨s, hs, hsmode, hidles⟩ := step_gap hmode hnext
      simp only [Gap.firstInk, hnext]
      rw [← hidles.depth]
      exact ih (h.idles hs hidles) hsmode
    | none =>
      obtain ⟨hdepth, rfl, rfl⟩ := h.semicolon hmode hnext
      exact Or.inr ⟨hdepth, rfl⟩

end Reader
end AtomicCss
