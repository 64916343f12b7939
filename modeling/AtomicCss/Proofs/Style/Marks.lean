import AtomicCss.Proofs.Style.Scan
set_option autoImplicit false

/-!
The marks of a tree: its statements and the openings and closings of its blocks, in document order.

A reader adds marks at the end and never takes one back, and the marks with the statement that is
being read have no more ink than the text that has been taken.
-/

namespace AtomicCss

inductive Mark where
  | leaf (n : Node)
  | opening (atRule : Bool) (head : Text)
  | closing
  deriving Repr

namespace Node

mutual

def marks : Node → List Mark
  | .declaration property value => [.leaf (.declaration property value)]
  | .statement header => [.leaf (.statement header)]
  | .rule selector children => .opening false selector :: (marksAll children ++ [.closing])
  | .atRule header children => .opening true header :: (marksAll children ++ [.closing])

def marksAll : List Node → List Mark
  | [] => []
  | n :: r => n.marks ++ marksAll r

end

@[simp] theorem marksAll_append (l k : List Node) :
    marksAll (l ++ k) = marksAll l ++ marksAll k := by
  induction l with
  | nil => rfl
  | cons n l ih => simp [marksAll, ih]

end Node

/-- The mark of a block with this text before its brace. -/
def Mark.ofHead (t : Text) : Mark :=
  if isAtHeader t then .opening true (Header.normalize t) else .opening false t

theorem OpenBlock.marks_close (b : OpenBlock) (children : List Node) :
    (b.close children).marks = .ofHead b.head :: (Node.marksAll children ++ [.closing]) := by
  rw [close, Mark.ofHead]
  split <;> rfl

/-- What a statement leaves behind when `c` ends it. -/
inductive Leaves : Text → Char → List Mark → Prop where
  | head {t : Text} : t ≠ [] → Leaves t '{' [.ofHead t]
  | nothing : Leaves [] ';' []
  | statement {t : Text} {n : Node} : t ≠ [] → Node.ofStatement t = .ok n → Leaves t ';' [.leaf n]
  | close : Leaves [] '}' [.closing]
  | last {t : Text} {n : Node} : t ≠ [] → Node.ofStatement t = .ok n →
      Leaves t '}' [.leaf n, .closing]

namespace Node

theorem ofStatement_ok {t : Text} {n : Node} (h : ofStatement t = .ok n) :
    n.marks = [.leaf n] ∧ Text.ink n.render = Text.ink t := by
  unfold ofStatement at h
  split at h
  · cases h
    exact ⟨rfl, Text.ink_normalize t⟩
  · split at h
    · cases h
    next c value hvalue =>
      dsimp only at h
      split at h
      · cases h
      · cases h
        refine ⟨rfl, ?_⟩
        have hsplit := List.takeWhile_append_dropWhile (p := (· != ':')) (l := t)
        have hhead := List.head?_dropWhile_not (· != ':') t
        rw [hvalue] at hsplit hhead
        have hc : c = ':' := by simpa using hhead
        subst hc
        rw [render, Text.ink_append, Text.ink_cons, Text.ink_trim, Text.ink_trim, ← Text.ink_cons,
          ← Text.ink_append, hsplit]

end Node

namespace Reader

/-- The marks of everything that has been read, but for the statement that is being read. -/
def marks (r : Reader) : List Mark :=
  (r.outer.reverse.flatMap fun b => Node.marksAll b.before ++ [.ofHead b.head])
    ++ Node.marksAll r.nodes

def statement (r : Reader) : Text := Text.trim r.pending.reverse

/-- Two readers between which there are blanks and comments only. -/
structure Idles (r s : Reader) : Prop where
  depth : s.depth = r.depth
  read : ∃ w, (∀ c ∈ w, isBlank c = true) ∧ s.read = w ++ r.read
  nodes : s.nodes = r.nodes
  outer : s.outer = r.outer

/-- A reader at the start of a statement. -/
structure Ready (r : Reader) : Prop where
  mode : r.mode = .code
  depth : r.depth = 0
  blank : ∀ c ∈ r.read, isBlank c = true

theorem Continues.marks {r s : Reader} {t : Text} (h : r.Continues s t) : s.marks = r.marks := by
  rw [Reader.marks, Reader.marks, h.nodes, h.outer]

theorem Idles.of_eq {r s : Reader} (hdepth : s.depth = r.depth) (hread : s.read = r.read)
    (hnodes : s.nodes = r.nodes) (houter : s.outer = r.outer) : r.Idles s :=
  ⟨hdepth, ⟨[], by simp, hread⟩, hnodes, houter⟩

theorem Idles.marks {r s : Reader} (h : r.Idles s) : s.marks = r.marks := by
  rw [Reader.marks, Reader.marks, h.nodes, h.outer]

theorem endStatement_ok {r s : Reader} (h : r.endStatement = .ok s) :
    r.statementText = [] ∧ s = r ∨ r.statementText ≠ [] ∧ ∃ n,
      Node.ofStatement r.statementText = .ok n ∧ s = { r with nodes := r.nodes ++ [n] } := by
  unfold endStatement at h
  split at h
  next hempty =>
    cases h
    exact Or.inl ⟨List.isEmpty_iff.1 hempty, rfl⟩
  next hempty =>
    split at h
    next n hn =>
      cases h
      exact Or.inr ⟨fun hnil => hempty (List.isEmpty_iff.2 hnil), n, hn, rfl⟩
    next => cases h

theorem endStatement_node {r : Reader} {n : Node}
    (hn : Node.ofStatement r.statementText = .ok n) (hne : r.statementText ≠ []) :
    r.endStatement = .ok { r with nodes := r.nodes ++ [n] } := by
  rw [endStatement, if_neg (by simpa using hne), hn]

theorem endStatement_nil {r : Reader} (h : r.statementText = []) : r.endStatement = .ok r := by
  rw [endStatement, if_pos (by simpa using h)]

theorem marks_push_node (r : Reader) (n : Node) :
    { r with nodes := r.nodes ++ [n] }.marks = r.marks ++ n.marks := by
  simp [Reader.marks, Node.marksAll]

theorem marks_closeBlock {r s : Reader} (h : r.closeBlock = .ok s) :
    s.marks = r.marks ++ [.closing] := by
  unfold closeBlock at h
  split at h
  · cases h
  next b outer houter =>
    cases h
    simp [Reader.marks, houter, Node.marksAll, OpenBlock.marks_close]

theorem scan_closeBlock {r s : Reader} (h : r.closeBlock = .ok s) : s.scan = r.scan := by
  unfold closeBlock at h
  split at h <;> cases h
  rfl

theorem ready_restart {r : Reader} (hmode : r.mode = .code) (hdepth : r.depth = 0) (c d : Char) :
    Ready { r.restart c with here := (r.restart c).here.advance d } :=
  ⟨hmode, hdepth, by simp [restart]⟩

theorem leaves_of_endStatement {r s : Reader} (h : r.endStatement = .ok s) :
    s.scan = r.scan ∧ s.outer = r.outer ∧
      (r.statementText = [] ∧ s.marks = r.marks ∨ r.statementText ≠ [] ∧ ∃ n,
        Node.ofStatement r.statementText = .ok n ∧ s.marks = r.marks ++ [.leaf n]) := by
  rcases endStatement_ok h with ⟨hempty, rfl⟩ | ⟨hne, n, hn, rfl⟩
  · exact ⟨rfl, rfl, Or.inl ⟨hempty, rfl⟩⟩
  · refine ⟨rfl, rfl, Or.inr ⟨hne, n, hn, ?_⟩⟩
    rw [marks_push_node, (Node.ofStatement_ok hn).1]

theorem statementText_settled (r : Reader) : r.settled.statementText = r.statement := rfl

section

variable {r : Reader} (h : r.depth = 0)
include h

theorem takeCode_semicolon : r.takeCode ';' = r.endStatement.map (·.restart ';') := by
  simp [takeCode, isQuote, h]

theorem takeCode_open : r.takeCode '{' = r.openBlock.map (·.restart '{') := by
  simp [takeCode, isQuote, h]

theorem takeCode_close :
    r.takeCode '}' = r.endStatement.bind fun s => s.closeBlock.map (·.restart '}') := by
  simp only [takeCode, isQuote, h, if_false, ne_eq, not_true_eq_false, Char.reduceEq,
    decide_false, Bool.or_self, Bool.false_eq_true, if_true]
  rfl

end

theorem take_terminator {r : Reader} {c : Char} (hrest : r.scan.atRest = true)
    (hc : isTerminator c = true) : r.take c = r.settled.takeCode c := by
  obtain ⟨_, hmode⟩ := Scan.atRest_iff.1 hrest
  refine take_eq_takeCode (hmode.imp_right fun hslash => ⟨hslash, ?_⟩)
  rintro rfl
  cases hc

theorem take_of_step {r s : Reader} {c : Char} (h : r.step c = .ok s) :
    ∃ t, r.take c = .ok t ∧ s = { t with here := t.here.advance c } := by
  unfold step at h
  cases ht : r.take c with
  | error e => rw [ht] at h; cases h
  | ok t => rw [ht] at h; cases h; exact ⟨t, rfl, rfl⟩

theorem readAll_singleton (r : Reader) (c : Char) : r.readAll [c] = r.step c := by
  rw [readAll_cons]
  cases r.step c <;> rfl

theorem step_terminator {r s : Reader} {c : Char} (hrest : r.scan.atRest = true)
    (hc : isTerminator c = true) (h : r.step c = .ok s) :
    s.Ready ∧ ∃ ms, Leaves r.statement c ms ∧ s.marks = r.marks ++ ms := by
  obtain ⟨t, ht, rfl⟩ := take_of_step h
  rw [take_terminator hrest hc] at ht
  have hdepth : r.settled.depth = 0 := (Scan.atRest_iff.1 hrest).1
  simp only [isTerminator, Bool.or_eq_true, decide_eq_true_eq] at hc
  rcases hc with (rfl | rfl) | rfl
  · rw [takeCode_semicolon hdepth] at ht
    obtain ⟨u, hu, rfl⟩ := map_ok ht
    obtain ⟨hscan, _, hleaves⟩ := leaves_of_endStatement hu
    refine ⟨ready_restart (congrArg Scan.mode hscan)
      ((congrArg Scan.depth hscan).trans hdepth) _ _, ?_⟩
    rcases hleaves with ⟨hempty, hmarks⟩ | ⟨hne, n, hn, hmarks⟩
    · rw [statementText_settled] at hempty
      exact ⟨[], hempty ▸ .nothing, hmarks.trans (List.append_nil _).symm⟩
    · exact ⟨[.leaf n], .statement hne hn, hmarks⟩
  · rw [takeCode_open hdepth] at ht
    obtain ⟨u, hu, rfl⟩ := map_ok ht
    unfold openBlock at hu
    split at hu
    · cases hu
    next hne =>
      cases hu
      refine ⟨⟨rfl, hdepth, by simp [restart]⟩, [.ofHead r.statement], .head ?_, ?_⟩
      · exact fun hnil => hne (List.isEmpty_iff.2 hnil)
      · simp [Reader.marks, restart, settled, Node.marksAll, statement, statementText]
  · rw [takeCode_close hdepth] at ht
    obtain ⟨u, hu, ht⟩ := bind_ok ht
    obtain ⟨v, hv, rfl⟩ := map_ok ht
    obtain ⟨hscan, _, hleaves⟩ := leaves_of_endStatement hu
    have hclosed := (scan_closeBlock hv).trans hscan
    have hmarks := marks_closeBlock hv
    refine ⟨ready_restart (congrArg Scan.mode hclosed)
      ((congrArg Scan.depth hclosed).trans hdepth) _ _, ?_⟩
    rcases hleaves with ⟨hempty, hu⟩ | ⟨hne, n, hn, hu⟩
    · rw [statementText_settled] at hempty
      rw [hu] at hmarks
      exact ⟨[.closing], hempty ▸ .close, hmarks⟩
    · rw [hu, List.append_assoc] at hmarks
      exact ⟨[.leaf n, .closing], .last hne hn, hmarks⟩

end Reader
end AtomicCss
