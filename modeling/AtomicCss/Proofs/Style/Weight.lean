import AtomicCss.Proofs.Style.Marks
set_option autoImplicit false

namespace AtomicCss

namespace Mark

def isLeaf : Mark → Bool
  | .leaf _ => true
  | .opening _ _ | .closing => false

def size : Mark → Nat
  | .leaf n => Text.ink n.render
  | .opening _ head => Text.ink head
  | .closing => 0

/-- The ink of a mark with the character that ends it. A brace may end the last statement too. -/
def cost (afterLeaf : Bool) : Mark → Nat
  | .leaf n => Text.ink n.render + 1
  | .opening _ head => Text.ink head + 1
  | .closing => if afterLeaf then 0 else 1

def costAll (afterLeaf : Bool) : List Mark → Nat
  | [] => 0
  | m :: r => m.cost afterLeaf + costAll m.isLeaf r

def endsWithLeaf (afterLeaf : Bool) (l : List Mark) : Bool :=
  (l.getLast?.map isLeaf).getD afterLeaf

theorem endsWithLeaf_cons (b : Bool) (m : Mark) (l : List Mark) :
    endsWithLeaf b (m :: l) = endsWithLeaf m.isLeaf l := by
  rw [endsWithLeaf, endsWithLeaf, List.getLast?_cons]
  cases l.getLast? <;> rfl

theorem endsWithLeaf_append (b : Bool) (l k : List Mark) :
    endsWithLeaf b (l ++ k) = endsWithLeaf (endsWithLeaf b l) k := by
  induction l generalizing b with
  | nil => rfl
  | cons m l ih => rw [List.cons_append, endsWithLeaf_cons, endsWithLeaf_cons, ih]

theorem costAll_append (b : Bool) (l k : List Mark) :
    costAll b (l ++ k) = costAll b l + costAll (endsWithLeaf b l) k := by
  induction l generalizing b with
  | nil => simp [costAll, endsWithLeaf]
  | cons m l ih => rw [List.cons_append, costAll, costAll, ih, endsWithLeaf_cons, Nat.add_assoc]

end Mark

theorem Leaves.costAll_le {t : Text} {c : Char} {ms : List Mark} (h : Leaves t c ms) (b : Bool) :
    Mark.costAll b ms ≤ Text.ink t + 1 ∧ (ms = [] → Mark.costAll b ms < Text.ink t + 1) := by
  cases h with
  | head hne =>
    rw [Mark.ofHead]
    split <;> simp [Mark.costAll, Mark.cost]
  | nothing => simp [Mark.costAll]
  | statement hne hn => simp [Mark.costAll, Mark.cost, (Node.ofStatement_ok hn).2]
  | close => cases b <;> simp [Mark.costAll, Mark.cost]
  | last hne hn => simp [Mark.costAll, Mark.cost, Mark.isLeaf, (Node.ofStatement_ok hn).2]

theorem isBlank_terminator {c : Char} (h : isTerminator c = true) : isBlank c = false := by
  simp only [isTerminator, Bool.or_eq_true, decide_eq_true_eq] at h
  rcases h with (rfl | rfl) | rfl <;> decide

theorem ink_terminator {c : Char} (h : isTerminator c = true) : Text.ink [c] = 1 := by
  simp [Text.ink, isBlank_terminator h]

def Scan.Live (s : Scan) : Prop := s.mode ≠ .comment ∧ s.mode ≠ .commentStar

theorem Scan.live_step {s e : Scan} {c : Char} (h : s.step c = some e) : e.Live := by
  have hcode : ∀ depth, takeCode depth c = some e → e.Live := by
    intro depth he
    unfold takeCode at he
    repeat' split at he
    all_goals cases he
    all_goals exact ⟨by simp, by simp⟩
  unfold step at h
  split at h
  · exact hcode _ h
  · split at h
    · cases h
    · exact hcode _ h
  · cases h
  · cases h
  · split at h
    · cases h
    · cases h
      constructor <;> dsimp only <;> split <;> simp

theorem Scan.live_run {s e : Scan} {t : Text} (hs : s.Live) (h : s.run t = some e) : e.Live := by
  induction t generalizing s with
  | nil =>
    cases h
    exact hs
  | cons c t ih =>
    rw [run_cons] at h
    obtain ⟨n, hn, h⟩ := Option.bind_eq_some_iff.1 h
    exact ih (live_step hn) h

namespace Reader

def weight (r : Reader) : Nat := Mark.costAll false r.marks + Text.ink r.pending

theorem Continues.weight {r s : Reader} {t : Text} (h : r.Continues s t) :
    s.weight = r.weight + Text.ink t := by
  rw [Reader.weight, Reader.weight, h.marks, h.pending, Text.ink_append, Text.ink_reverse]
  omega

theorem weight_terminator {r s : Reader} {c : Char} {ms : List Mark}
    (hc : isTerminator c = true) (hs : s.Ready) (hleaves : Leaves r.statement c ms)
    (hmarks : s.marks = r.marks ++ ms) :
    s.weight ≤ r.weight + Text.ink [c] ∧ (ms = [] → s.weight < r.weight + Text.ink [c]) := by
  have hpending : Text.ink s.pending = 0 := by
    rw [pending, if_neg (by simp [hs.mode])]
    exact Text.ink_eq_zero.2 hs.blank
  have hcost := hleaves.costAll_le (Mark.endsWithLeaf false r.marks)
  have hstatement : Text.ink r.statement = Text.ink r.pending := by
    rw [statement, Text.ink_trim, Text.ink_reverse]
  rw [weight, weight, hmarks, Mark.costAll_append, hpending, ink_terminator hc]
  constructor
  · omega
  · intro hms
    have := hcost.2 hms
    omega

theorem stop_cases {r s : Reader} {c : Char} (hlive : r.scan.Live)
    (hstop : r.scan.step c = none) (h : r.step c = .ok s) :
    r.scan.atRest = true ∧ isTerminator c = true ∨
      (r.mode = .slash ∧ c = '*') ∧ r.Idles s ∧ s.mode = .comment ∧
        s.weight < r.weight + Text.ink [c] := by
  have hcode : r.mode = .code ∨ r.mode = .slash → Scan.takeCode r.depth c = none →
      r.scan.atRest = true ∧ isTerminator c = true := by
    intro hmode hnone
    unfold Scan.takeCode at hnone
    repeat' split at hnone
    all_goals try cases hnone
    next hend =>
      simp only [Bool.and_eq_true, decide_eq_true_eq] at hend
      exact ⟨Scan.atRest_iff.2 ⟨hend.1, hmode⟩, hend.2⟩
  unfold Scan.step at hstop
  cases hmode : r.mode with
  | code =>
    simp only [scan, hmode] at hstop
    exact Or.inl (hcode (Or.inl hmode) hstop)
  | slash =>
    simp only [scan, hmode] at hstop
    split at hstop
    next hstar =>
      subst hstar
      obtain ⟨t, ht, rfl⟩ := take_of_step h
      simp only [take, hmode, if_true, Except.ok.injEq] at ht
      subst ht
      refine Or.inr ⟨⟨rfl, rfl⟩, .of_eq rfl rfl rfl rfl, rfl, ?_⟩
      have hslash : isBlank '/' = false := by decide
      have hstar : Text.ink ['*'] = 1 := by decide
      simp only [weight, marks, pending, hmode, if_true, reduceCtorEq, if_false, Text.ink_cons,
        hslash, Bool.false_eq_true, hstar]
      omega
    next => exact Or.inl (hcode (Or.inr hmode) hstop)
  | comment => exact absurd hmode hlive.1
  | commentStar => exact absurd hmode hlive.2
  | quoted q =>
    simp only [scan, hmode] at hstop
    split at hstop
    next q' quote =>
      obtain ⟨t, ht, rfl⟩ := take_of_step h
      simp [take, hmode] at ht
    next => cases hstop

theorem step_comment {r s : Reader} {c : Char} (hlive : ¬r.scan.Live) (h : r.step c = .ok s) :
    r.Idles s ∧ (∀ q, s.mode ≠ .quoted q) ∧ s.weight = r.weight := by
  obtain ⟨t, ht, rfl⟩ := take_of_step h
  unfold take at ht
  cases hmode : r.mode with
  | code | slash | quoted q =>
    exact absurd (show r.scan.Live by simp [Scan.Live, scan, hmode]) hlive
  | comment =>
    rw [hmode] at ht
    cases ht
    have hslash : (if c = '*' then Mode.commentStar else .comment) ≠ .slash := by
      split <;> simp
    refine ⟨.of_eq rfl rfl rfl rfl, fun q => ?_, ?_⟩
    · dsimp only
      split <;> simp
    · simp [weight, marks, pending, hmode, hslash]
  | commentStar =>
    rw [hmode] at ht
    cases ht
    have hslash : (if c = '/' then Mode.code else if c = '*' then .commentStar else .comment) ≠
        .slash := by
      split
      · simp
      · split <;> simp
    refine ⟨.of_eq rfl rfl rfl rfl, fun q => ?_, ?_⟩
    · dsimp only
      repeat' split
      all_goals simp
    · simp [weight, marks, pending, hmode, hslash]

theorem step_cases {r s : Reader} {c : Char} (h : r.step c = .ok s) :
    (r.scan.step c = some s.scan ∧ r.Continues s [c]) ∨
      (r.scan.atRest = true ∧ isTerminator c = true ∧ s.Ready ∧
        ∃ ms, Leaves r.statement c ms ∧ s.marks = r.marks ++ ms) ∨
      ((¬r.scan.Live ∨ r.mode = .slash ∧ c = '*') ∧ r.Idles s ∧ (∀ q, s.mode ≠ .quoted q) ∧
        s.weight ≤ r.weight + Text.ink [c]) := by
  by_cases hlive : r.scan.Live
  · cases hscan : r.scan.step c with
    | some e =>
      obtain ⟨u, hu, rfl, hcontinues⟩ := step_of_scan hscan
      cases hu.symm.trans h
      exact Or.inl ⟨rfl, hcontinues⟩
    | none =>
      rcases stop_cases hlive hscan h with ⟨hrest, hc⟩ | ⟨hstar, hidles, hmode, hweight⟩
      · exact Or.inr (Or.inl ⟨hrest, hc, step_terminator hrest hc h⟩)
      · exact Or.inr (Or.inr ⟨Or.inr hstar, hidles, by simp [hmode], Nat.le_of_lt hweight⟩)
  · obtain ⟨hidles, hmode, hweight⟩ := step_comment hlive h
    exact Or.inr (Or.inr ⟨Or.inl hlive, hidles, hmode, by omega⟩)

/-- A character leaves the marks of the statement that it ends, and adds no more than its ink. -/
theorem step_marks {r s : Reader} {c : Char} (h : r.step c = .ok s) :
    ∃ ms, s.marks = r.marks ++ ms ∧ (ms = [] ∨ Leaves r.statement c ms) ∧
      s.weight ≤ r.weight + Text.ink [c] := by
  rcases step_cases h with ⟨_, hcontinues⟩ | ⟨_, hc, hready, ms, hleaves, hmarks⟩ |
    ⟨_, hidles, _, hweight⟩
  · have hmarks : s.marks = r.marks ++ [] := by rw [hcontinues.marks, List.append_nil]
    exact ⟨[], hmarks, Or.inl rfl, Nat.le_of_eq hcontinues.weight⟩
  · exact ⟨ms, hmarks, Or.inr hleaves, (weight_terminator hc hready hleaves hmarks).1⟩
  · exact ⟨[], by rw [hidles.marks, List.append_nil], Or.inl rfl, hweight⟩

theorem readAll_cons_ok {r s : Reader} {c : Char} {t : Text} (h : r.readAll (c :: t) = .ok s) :
    ∃ u, r.step c = .ok u ∧ u.readAll t = .ok s := by
  rw [readAll_cons] at h
  exact bind_ok h

theorem readAll_marks {r s : Reader} {t : Text} (h : r.readAll t = .ok s) :
    ∃ ms, s.marks = r.marks ++ ms ∧ s.weight ≤ r.weight + Text.ink t := by
  induction t generalizing r with
  | nil =>
    cases h
    exact ⟨[], (List.append_nil _).symm, Nat.le_refl _⟩
  | cons c t ih =>
    obtain ⟨u, hu, h⟩ := readAll_cons_ok h
    obtain ⟨ms, hmarks, _, hweight⟩ := step_marks hu
    obtain ⟨ks, hrest, hle⟩ := ih h
    refine ⟨ms ++ ks, by rw [hrest, hmarks, List.append_assoc], ?_⟩
    have hink : Text.ink (c :: t) = Text.ink [c] + Text.ink t := Text.ink_append [c] t
    omega

theorem statement_of_code {r : Reader} (h : r.mode = .code) : r.statement = r.statementText := by
  rw [statement, statementText, pending_of_code h]

theorem ink_statement (r : Reader) : Text.ink r.statement = Text.ink r.pending := by
  rw [statement, Text.ink_trim, Text.ink_reverse]

theorem ended_eq_ok {r : Reader} {nodes : List Node} :
    (r.endStatement.bind fun s => match s.outer with
      | [] => .ok s.nodes
      | b :: _ => .error ⟨.unclosedBlock, b.opened⟩) = .ok nodes ↔
    r.outer = [] ∧ (r.statementText = [] ∧ nodes = r.nodes ∨ r.statementText ≠ [] ∧ ∃ n,
      Node.ofStatement r.statementText = .ok n ∧ nodes = r.nodes ++ [n]) := by
  constructor
  · intro h
    obtain ⟨s, hs, h⟩ := bind_ok h
    have houter := (leaves_of_endStatement hs).2.1
    split at h
    next hnil =>
      cases h
      refine ⟨houter ▸ hnil, ?_⟩
      rcases endStatement_ok hs with ⟨hempty, rfl⟩ | ⟨hne, n, hn, rfl⟩
      · exact Or.inl ⟨hempty, rfl⟩
      · exact Or.inr ⟨hne, n, hn, rfl⟩
    next => cases h
  · rintro ⟨houter, ⟨hempty, rfl⟩ | ⟨hne, n, hn, rfl⟩⟩
    · rw [endStatement_nil hempty]
      simp [Except.bind, houter]
    · rw [endStatement_node hn hne]
      simp [Except.bind, houter]

theorem finish_eq_ok {r : Reader} {nodes : List Node} :
    r.finish = .ok nodes ↔ (r.mode = .code ∨ r.mode = .slash) ∧ r.outer = [] ∧
      (r.statement = [] ∧ nodes = r.nodes ∨ r.statement ≠ [] ∧ ∃ n,
        Node.ofStatement r.statement = .ok n ∧ nodes = r.nodes ++ [n]) := by
  unfold finish
  cases hmode : r.mode with
  | code =>
    rw [statement_of_code hmode]
    exact ended_eq_ok.trans (by simp)
  | slash =>
    have hstatement : r.statement = (r.push '/').statementText := by
      simp [statement, statementText, pending, push, hmode]
    rw [hstatement]
    exact ended_eq_ok.trans (by simp [push])
  | comment | commentStar | quoted q => simp [bind, Except.bind]

theorem finish_ok {r : Reader} {nodes : List Node} (h : r.finish = .ok nodes) :
    r.statement = [] ∧ Node.marksAll nodes = r.marks ∨
      ∃ n, Node.ofStatement r.statement = .ok n ∧
        Node.marksAll nodes = r.marks ++ [.leaf n] := by
  obtain ⟨_, houter, hnodes⟩ := finish_eq_ok.1 h
  rcases hnodes with ⟨hempty, rfl⟩ | ⟨_, n, hn, rfl⟩
  · exact Or.inl ⟨hempty, by simp [marks, houter]⟩
  · refine Or.inr ⟨n, hn, ?_⟩
    simp [marks, houter, Node.marksAll, (Node.ofStatement_ok hn).1]

end Reader
end AtomicCss
