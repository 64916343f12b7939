import AtomicCss.Proofs.Style.Spacing
import AtomicCss.Proofs.Style.Spelling
set_option autoImplicit false

namespace AtomicCss

/-- What can stand before the braces of a rule. -/
structure IsSelector (t : Text) : Prop where
  ne_nil : t ≠ []
  trim : Text.trim t = t
  atHeader : isAtHeader t = false

namespace Mark

/-- The text before the character that ends the mark. -/
def piece : Mark → Text
  | .leaf n => n.render
  | .opening _ head => head
  | .closing => []

/-- Spelled the way the parser spells it. -/
def Normal : Mark → Prop
  | .leaf (.declaration property value) => IsProperty property ∧ Text.trim value = value
  | .leaf (.statement header) => IsHeader header
  | .leaf (.rule _ _) | .leaf (.atRule _ _) => False
  | .opening true head => IsHeader head
  | .opening false head => IsSelector head
  | .closing => True

end Mark

/--
A text of a declaration or a statement, with blanks around the colon that parts a property from its
value. Where the colon is in a string, so are these blanks, and a line feed would break it off.
-/
inductive Spaced : Node → Text → Prop where
  | declaration {property value v w : Text} : Text.Blank v → Text.Blank w →
      (Quoting.bare.after property = .bare ∨ '\n' ∉ v ++ w) →
      Spaced (.declaration property value) (property ++ (v ++ ':' :: (w ++ value)))
  | statement {header : Text} : Spaced (.statement header) header

/--
A text of a list of nodes, with blanks around every piece. The semicolon behind the last statement
of a list may be missing.
-/
inductive Layout : List Node → Text → Prop where
  | nil {v : Text} : Text.Blank v → Layout [] v
  | last {n : Node} {v x w : Text} : Text.Blank v → Spaced n x → Text.Blank w →
      Layout [n] (v ++ (x ++ w))
  | leaf {n : Node} {nodes : List Node} {v x w t : Text} : Text.Blank v → Spaced n x →
      Text.Blank w → Layout nodes t → Layout (n :: nodes) (v ++ (x ++ w) ++ ';' :: t)
  | rule {selector : Text} {children nodes : List Node} {v w s t : Text} : Text.Blank v →
      Text.Blank w → Layout children s → Layout nodes t →
      Layout (.rule selector children :: nodes) (v ++ (selector ++ w) ++ '{' :: (s ++ '}' :: t))
  | atRule {header : Text} {children nodes : List Node} {v w s t : Text} : Text.Blank v →
      Text.Blank w → Layout children s → Layout nodes t →
      Layout (.atRule header children :: nodes) (v ++ (header ++ w) ++ '{' :: (s ++ '}' :: t))

instance IsSelector.decidable (t : Text) : Decidable (IsSelector t) :=
  decidable_of_iff (t ≠ [] ∧ Text.trim t = t ∧ isAtHeader t = false)
    ⟨fun h => ⟨h.1, h.2.1, h.2.2⟩, fun h => ⟨h.ne_nil, h.trim, h.atHeader⟩⟩

instance IsHeader.decidable (t : Text) : Decidable (IsHeader t) :=
  decidable_of_iff (isAtHeader t = true ∧ Header.normalize t = t)
    ⟨fun h => ⟨h.1, h.2⟩, fun h => ⟨h.atHeader, h.normalize⟩⟩

instance Mark.Normal.decidable : (m : Mark) → Decidable m.Normal
  | .leaf (.declaration property value) =>
    inferInstanceAs (Decidable (IsProperty property ∧ Text.trim value = value))
  | .leaf (.statement header) => inferInstanceAs (Decidable (IsHeader header))
  | .leaf (.rule _ _) | .leaf (.atRule _ _) => inferInstanceAs (Decidable False)
  | .opening true head => inferInstanceAs (Decidable (IsHeader head))
  | .opening false head => inferInstanceAs (Decidable (IsSelector head))
  | .closing => inferInstanceAs (Decidable True)

theorem isWhole_blanks {v x w : Text} (hv : Text.Blank v) (hx : isWhole x = true)
    (hw : Text.Blank w) : isWhole (v ++ (x ++ w)) = true := by
  obtain ⟨e, he, hrest⟩ := (Option.any_eq_true _ _).1 hx
  have hstart : Scan.start.run v = some .start := Scan.run_blank hv 0
  by_cases hnil : w = []
  · simp [isWhole, Scan.run_append, hstart, he, hnil, hrest]
  · obtain ⟨hdepth, hmode⟩ := Scan.atRest_iff.1 hrest
    have hquoting : e.quoting = .bare := by
      rcases hmode with h | h <;> simp [Scan.quoting, h]
    have hinert : ∀ c ∈ w, isInert c = true := fun c hc => isInert_of_isBlank (hw c hc)
    have hidle := ((Scan.reached_start.run he).run_inert hinert hnil).resolve_right
      fun h => h.2.2 hquoting
    have hrest' : e.idle.atRest = true := by
      rcases hmode with h | h <;> simp [Scan.idle, h, Scan.atRest, hdepth]
    simp [isWhole, Scan.run_append, hstart, he, hidle, hrest']

theorem isWhole_colon {property value v w : Text} (hv : Text.Blank v) (hw : Text.Blank w)
    (hline : Quoting.bare.after property = .bare ∨ '\n' ∉ v ++ w)
    (h : isWhole (property ++ ':' :: value) = true) :
    isWhole (property ++ (v ++ ':' :: (w ++ value))) = true := by
  obtain ⟨f, hf, hrest⟩ := (Option.any_eq_true _ _).1 h
  rw [Scan.run_append] at hf
  obtain ⟨e, he, hf⟩ := Option.bind_eq_some_iff.1 hf
  have hreached := Scan.reached_start.run he
  have hquoting : e.quoting = Quoting.bare.after property := Scan.reached_start.quoting_run he
  have hcolon : e.step ':' = some e.idle := (hreached.step_inert rfl).resolve_right (by simp)
  have hinert : ∀ c ∈ v ++ ':' :: w, isInert c = true := by
    intro c hc
    rcases List.mem_append.1 hc with hc | hc
    · exact isInert_of_isBlank (hv c hc)
    · rcases List.mem_cons.1 hc with rfl | hc
      · rfl
      · exact isInert_of_isBlank (hw c hc)
  have hidle : e.run (v ++ ':' :: w) = some e.idle := by
    refine (hreached.run_inert hinert (by simp)).resolve_right fun ⟨_, hmem, hopen⟩ => ?_
    rcases hline with hbare | hnone
    · exact hopen (hquoting.trans hbare)
    · exact hnone (by simpa using hmem)
  have hsplit : property ++ (v ++ ':' :: (w ++ value)) = property ++ (v ++ ':' :: w) ++ value := by
    simp
  rw [Scan.run_cons, hcolon, Option.bind_some] at hf
  rw [isWhole, hsplit, Scan.run_append, Scan.run_append, he, Option.bind_some, hidle,
    Option.bind_some, hf]
  exact hrest

theorem IsProperty.ofStatement_spaced {p v : Text} (h : IsProperty p) (hv : Text.Blank v)
    (u : Text) : Node.ofStatement (Text.trim (p ++ (v ++ ':' :: u))) =
      .ok (.declaration p (Text.trim u)) := by
  have hcolon : isBlank ':' = false := by decide
  have hstart : Text.trimStart (p ++ v ++ ':' :: u) = p ++ v ++ ':' :: u := by
    have hhead := (Text.trim_eq_self.1 h.trim).1
    cases hp : p with
    | nil => exact absurd hp h.ne_nil
    | cons c r =>
      rw [hp] at hhead
      exact List.dropWhile_cons_of_neg (by simpa using hhead)
  have hne : ∀ c ∈ p ++ v, (c != ':') = true := by
    intro c hc
    rw [bne_iff_ne]
    rintro rfl
    rcases List.mem_append.1 hc with hc | hc
    · exact h.colon hc
    · rw [hv _ hc] at hcolon
      cases hcolon
  have hat : isAtHeader (p ++ v ++ ':' :: Text.trimEnd u) = false := by
    have hp := h.atHeader
    cases p with
    | nil => exact absurd rfl h.ne_nil
    | cons c r => exact hp
  rw [← List.append_assoc, Text.trim, hstart, Text.trimEnd_append_cons hcolon, Node.ofStatement,
    hat, if_neg (by simp), List.dropWhile_append_of_pos hne, List.takeWhile_append_of_pos hne,
    List.dropWhile_cons_of_neg (by simp), List.takeWhile_cons_of_neg (by simp)]
  simp [Text.trim_append_blank hv, h.trim, h.ne_nil, Text.trim_trimEnd]

namespace Spaced

variable {n : Node} {x : Text}

theorem isWhole (h : Spaced n x) (hn : isWhole n.render = true) : isWhole x = true := by
  cases h with
  | declaration hv hw hline => exact isWhole_colon hv hw hline hn
  | statement => exact hn

theorem ofStatement (h : Spaced n x) (hn : (Mark.leaf n).Normal) :
    Node.ofStatement (Text.trim x) = .ok n := by
  cases h with
  | @declaration property value v w hv hw _ =>
    obtain ⟨hproperty, hvalue⟩ := hn
    rw [hproperty.ofStatement_spaced hv, Text.trim_blank_append hw, hvalue]
  | statement =>
    have hheader : IsHeader x := hn
    rw [hheader.trim, Node.ofStatement, if_pos hheader.atHeader, hheader.normalize]

theorem marks (h : Spaced n x) : n.marks = [.leaf n] := by
  cases h <;> rfl

theorem closed {v w : Text} (h : Spaced n x)
    (hn : (Mark.leaf n).Normal ∧ AtomicCss.isWhole n.render = true) (hv : Text.Blank v)
    (hw : Text.Blank w) : AtomicCss.isWhole (v ++ (x ++ w)) = true ∧
      Node.ofStatement (Text.trim (v ++ (x ++ w))) = .ok n := by
  refine ⟨isWhole_blanks hv (h.isWhole hn.2) hw, ?_⟩
  rw [Text.trim_blank_append hv, Text.trim_append_blank hw, h.ofStatement hn.1]

end Spaced

theorem Node.ofStatement_ne_nil {t : Text} {n : Node} (h : ofStatement t = .ok n) : t ≠ [] := by
  rintro rfl
  cases h

mutual

theorem Node.renameProperties_of_normal (n : Node) (h : ∀ m ∈ n.marks, m.Normal) :
    n.renameProperties propertyName = n := by
  match n with
  | .declaration property value =>
    obtain ⟨hproperty, _⟩ := h _ (List.mem_singleton.2 rfl)
    rw [renameProperties, hproperty.name]
  | .statement header => rfl
  | .rule selector children =>
    rw [renameProperties, Node.renamePropertiesAll_of_normal children fun m hm => h m (by
      simp [marks, hm])]
  | .atRule header children =>
    rw [renameProperties, Node.renamePropertiesAll_of_normal children fun m hm => h m (by
      simp [marks, hm])]

theorem Node.renamePropertiesAll_of_normal (nodes : List Node)
    (h : ∀ m ∈ marksAll nodes, m.Normal) : renamePropertiesAll propertyName nodes = nodes := by
  match nodes with
  | [] => rfl
  | n :: r =>
    rw [renamePropertiesAll, Node.renameProperties_of_normal n fun m hm => h m (by
        simp [marksAll, hm]), Node.renamePropertiesAll_of_normal r fun m hm => h m (by
        simp [marksAll, hm])]

end

namespace Reader

/-- A reader that has come to the start of a statement, with these nodes more. -/
structure Adds (r s : Reader) (nodes : List Node) : Prop where
  ready : s.Ready
  nodes : s.nodes = r.nodes ++ nodes
  outer : s.outer = r.outer

theorem Adds.trans {r s u : Reader} {l k : List Node} (h : r.Adds s l) (g : s.Adds u k) :
    r.Adds u (l ++ k) :=
  ⟨g.ready, by rw [g.nodes, h.nodes, List.append_assoc], g.outer.trans h.outer⟩

/-- A reader that has these nodes more once the statement that it is in has ended. -/
structure Reaches (r s : Reader) (nodes : List Node) : Prop where
  rest : s.scan.atRest = true
  ended : ∃ e, s.settled.endStatement = .ok e ∧ e.nodes = r.nodes ++ nodes ∧ e.outer = r.outer

variable {r s : Reader} {nodes : List Node}

theorem Adds.reaches (h : r.Adds s nodes) : r.Reaches s nodes := by
  have hempty : s.statementText = [] :=
    Text.trim_of_blank fun c hc => h.ready.blank c (List.mem_reverse.1 hc)
  refine ⟨?_, s, ?_, h.nodes, h.outer⟩
  · rw [h.ready.scan_eq]
    rfl
  · rw [settled_of_code h.ready.mode, endStatement_nil hempty]

theorem Adds.append {u : Reader} {rest : List Node} (h : r.Adds s nodes) (g : s.Reaches u rest) :
    r.Reaches u (nodes ++ rest) := by
  obtain ⟨e, he, hnodes, houter⟩ := g.ended
  exact ⟨g.rest, e, he, by rw [hnodes, h.nodes, List.append_assoc], houter.trans h.outer⟩

theorem Reaches.finish_eq (h : r.Reaches s nodes) (houter : r.outer = []) :
    s.finish = .ok (r.nodes ++ nodes) := by
  obtain ⟨e, he, hnodes, heouter⟩ := h.ended
  refine finish_eq_ok.2 ⟨(Scan.atRest_iff.1 h.rest).2, ?_, ?_⟩
  · exact (leaves_of_endStatement he).2.1.symm.trans (heouter.trans houter)
  · rw [← hnodes, ← statementText_settled]
    rcases endStatement_ok he with ⟨hempty, rfl⟩ | ⟨hne, n, hn, rfl⟩
    · exact Or.inl ⟨hempty, rfl⟩
    · exact Or.inr ⟨hne, n, hn, rfl⟩

theorem Reaches.step_close (h : r.Reaches s nodes) {b : OpenBlock} {outer : List OpenBlock}
    (hb : r.outer = b :: outer) :
    ∃ u, s.step '}' = .ok u ∧ u.Ready ∧ u.nodes = b.before ++ [b.close (r.nodes ++ nodes)] ∧
      u.outer = outer := by
  obtain ⟨e, he, hnodes, houter⟩ := h.ended
  have hscan := (leaves_of_endStatement he).1
  have hdepth : s.settled.depth = 0 := (Scan.atRest_iff.1 h.rest).1
  have htake := take_terminator h.rest (c := '}') rfl
  rw [takeCode_close hdepth, he] at htake
  simp only [Except.bind, closeBlock, houter, hb, Except.map] at htake
  refine ⟨_, step_ok htake, ⟨congrArg Scan.mode hscan, (congrArg Scan.depth hscan).trans hdepth,
    by simp [restart]⟩, ?_, rfl⟩
  rw [← hnodes]
  rfl

end Reader

/-- Wherever a statement can begin, the text is read as these nodes. -/
def ReadsAs (t : Text) (nodes : List Node) : Prop :=
  ∀ r : Reader, r.Ready → ∃ s, r.readAll t = .ok s ∧ r.Adds s nodes

/-- The text is read as these nodes if its last statement ends with it. -/
def EndsAs (t : Text) (nodes : List Node) : Prop :=
  ∀ r : Reader, r.Ready → ∃ s, r.readAll t = .ok s ∧ r.Reaches s nodes

namespace ReadsAs

variable {x y t : Text} {nodes rest : List Node}

theorem append (hx : ReadsAs x nodes) (hy : ReadsAs y rest) : ReadsAs (x ++ y) (nodes ++ rest) := by
  intro r hr
  obtain ⟨s, hs, hadds⟩ := hx r hr
  obtain ⟨u, hu, hrest⟩ := hy s hadds.ready
  exact ⟨u, Reader.readAll_trans hs hu, hadds.trans hrest⟩

theorem blank (hx : Text.Blank x) : ReadsAs x [] := by
  intro r hr
  obtain ⟨s, hs, hready, hnodes, houter⟩ := hr.readAll_blank hx
  exact ⟨s, hs, hready, by simp [hnodes], houter⟩

theorem statement {n : Node} (hx : isWhole x = true)
    (hn : Node.ofStatement (Text.trim x) = .ok n) : ReadsAs (x ++ [';']) [n] := by
  intro r hr
  obtain ⟨s, hs, hready, hnodes, houter⟩ := hr.readAll_statement hx hn (Node.ofStatement_ne_nil hn)
  exact ⟨s, hs, hready, hnodes, houter⟩

theorem endsAs (h : ReadsAs t nodes) : EndsAs t nodes := by
  intro r hr
  obtain ⟨s, hs, hadds⟩ := h r hr
  exact ⟨s, hs, hadds.reaches⟩

theorem append_endsAs (hx : ReadsAs x nodes) (hy : EndsAs y rest) :
    EndsAs (x ++ y) (nodes ++ rest) := by
  intro r hr
  obtain ⟨s, hs, hadds⟩ := hx r hr
  obtain ⟨u, hu, hreaches⟩ := hy s hadds.ready
  exact ⟨u, Reader.readAll_trans hs hu, hadds.append hreaches⟩

theorem block {n : Node} (hx : isWhole x = true) (hne : Text.trim x ≠ [])
    (hn : ∀ before p, OpenBlock.close ⟨Text.trim x, before, p⟩ nodes = n)
    (hy : EndsAs y nodes) : ReadsAs (x ++ '{' :: (y ++ ['}'])) [n] := by
  intro r hr
  obtain ⟨s, p, hs, hready, hsnodes, hsouter⟩ := hr.readAll_open hx hne
  obtain ⟨u, hu, hreaches⟩ := hy s hready
  obtain ⟨v, hv, hvready, hvnodes, hvouter⟩ := hreaches.step_close hsouter
  rw [hsnodes, List.nil_append, hn] at hvnodes
  have hsplit : x ++ '{' :: (y ++ ['}']) = x ++ ['{'] ++ (y ++ ['}']) := by simp
  exact ⟨v, hsplit ▸ Reader.readAll_trans hs (Reader.readAll_snoc hu hv), hvready, hvnodes,
    hvouter⟩

end ReadsAs

namespace EndsAs

variable {x t : Text} {nodes : List Node}

theorem statement {n : Node} (hx : isWhole x = true)
    (hn : Node.ofStatement (Text.trim x) = .ok n) : EndsAs x [n] := by
  intro r hr
  obtain ⟨s, hs, hholds⟩ := hr.readAll_whole hx
  rw [← hholds.statementText] at hn
  exact ⟨s, hs, hholds.rest, _, Reader.endStatement_node hn (Node.ofStatement_ne_nil hn),
    congrArg (· ++ [n]) hholds.nodes, hholds.outer⟩

theorem parseAsWritten_eq (h : EndsAs t nodes) : parseAsWritten t = .ok nodes := by
  obtain ⟨s, hs, hreaches⟩ := h _ Reader.ready_initial
  rw [parseAsWritten, hs]
  exact hreaches.finish_eq rfl

end EndsAs

/-- Names in normal form are not renamed. -/
theorem parse_eq_of_normal {t : Text} {nodes : List Node} (h : parseAsWritten t = .ok nodes)
    (hnormal : ∀ m ∈ Node.marksAll nodes, m.Normal) : parse t = .ok nodes := by
  rw [parse, h, Except.map, Node.renamePropertiesAll_of_normal nodes hnormal]

def Node.ofBlock (isAtRule : Bool) (head : Text) (children : List Node) : Node :=
  if isAtRule then .atRule head children else .rule head children

@[simp] theorem Node.ofBlock_true (head : Text) (children : List Node) :
    ofBlock true head children = .atRule head children := rfl

@[simp] theorem Node.ofBlock_false (head : Text) (children : List Node) :
    ofBlock false head children = .rule head children := rfl

theorem Mark.Normal.trim_head {b : Bool} {head : Text} (h : (Mark.opening b head).Normal) :
    Text.trim head = head ∧ head ≠ [] := by
  cases b with
  | true =>
    have hheader : IsHeader head := h
    exact ⟨hheader.trim, isAtHeader_ne_nil hheader.atHeader⟩
  | false =>
    have hselector : IsSelector head := h
    exact ⟨hselector.trim, hselector.ne_nil⟩

theorem Mark.Normal.close {b : Bool} {head : Text} (h : (Mark.opening b head).Normal)
    (children before : List Node) (p : Position) :
    OpenBlock.close ⟨head, before, p⟩ children = .ofBlock b head children := by
  cases b with
  | true =>
    have hheader : IsHeader head := h
    rw [OpenBlock.close, if_pos hheader.atHeader, hheader.normalize]
    rfl
  | false =>
    have hselector : IsSelector head := h
    rw [OpenBlock.close, if_neg (by simp [hselector.atHeader])]
    rfl

theorem ReadsAs.headed {b : Bool} {head v w s : Text} {children : List Node}
    (hhead : (Mark.opening b head).Normal) (hwhole : isWhole head = true) (hv : Text.Blank v)
    (hw : Text.Blank w) (hs : EndsAs s children) :
    ReadsAs (v ++ (head ++ w) ++ '{' :: (s ++ ['}'])) [.ofBlock b head children] := by
  obtain ⟨htrim, hne⟩ := hhead.trim_head
  have hspaced : Text.trim (v ++ (head ++ w)) = head := by
    rw [Text.trim_blank_append hv, Text.trim_append_blank hw, htrim]
  refine .block (isWhole_blanks hv hwhole hw) (by rwa [hspaced]) (fun before p => ?_) hs
  rw [hspaced, hhead.close]

theorem Layout.endsAs {nodes : List Node} {t : Text} (h : Layout nodes t)
    (hnodes : ∀ m ∈ Node.marksAll nodes, m.Normal ∧ isWhole m.piece = true) : EndsAs t nodes := by
  induction h with
  | nil hv => exact (ReadsAs.blank hv).endsAs
  | @last n v x w hv hx hw =>
    obtain ⟨hwhole, hn⟩ :=
      hx.closed (hnodes (.leaf n) (by simp [Node.marksAll, hx.marks])) hv hw
    exact .statement hwhole hn
  | @leaf n nodes v x w t hv hx hw _ ih =>
    obtain ⟨hwhole, hn⟩ :=
      hx.closed (hnodes (.leaf n) (by simp [Node.marksAll, hx.marks])) hv hw
    have hrest := ih fun m hm => hnodes m (by simp [Node.marksAll, hm])
    simpa using (ReadsAs.statement hwhole hn).append_endsAs hrest
  | @rule selector children nodes v w s t hv hw _ _ hs ht =>
    obtain ⟨hnormal, hwhole⟩ :=
      hnodes (.opening false selector) (by simp [Node.marksAll, Node.marks])
    have hchildren := hs fun m hm => hnodes m (by simp [Node.marksAll, Node.marks, hm])
    have hrest := ht fun m hm => hnodes m (by simp [Node.marksAll, hm])
    simpa using (ReadsAs.headed hnormal hwhole hv hw hchildren).append_endsAs hrest
  | @atRule header children nodes v w s t hv hw _ _ hs ht =>
    obtain ⟨hnormal, hwhole⟩ := hnodes (.opening true header) (by simp [Node.marksAll, Node.marks])
    have hchildren := hs fun m hm => hnodes m (by simp [Node.marksAll, Node.marks, hm])
    have hrest := ht fun m hm => hnodes m (by simp [Node.marksAll, hm])
    simpa using (ReadsAs.headed hnormal hwhole hv hw hchildren).append_endsAs hrest

/--
Parsing undoes printing: nodes whose pieces are in normal form and closed come back from each of
their layouts.
-/
theorem parse_layout {nodes : List Node} {t : Text} (h : Layout nodes t)
    (hnodes : ∀ m ∈ Node.marksAll nodes, m.Normal ∧ isWhole m.piece = true) :
    parse t = .ok nodes :=
  parse_eq_of_normal (h.endsAs hnodes).parseAsWritten_eq fun m hm => (hnodes m hm).1

/-- A string may begin in a property and end in its value, and hold blanks around the colon. -/
theorem parse_layout_quoted_colon :
    let nodes : List Node := [
      .statement "@import url(a;b)".toList,
      .rule "a:hover".toList [
        .declaration "\"p".toList "q\\\"\"".toList,
        .atRule "@media x".toList [.declaration ['c'] []]]]
    let text := "@import url(a;b) ;\n a:hover\t\x7b \"p : q\\\"\"; @media x\x7bc :\x7d \x7d".toList
    Layout nodes text ∧ (∀ m ∈ Node.marksAll nodes, m.Normal ∧ isWhole m.piece = true) ∧
      parse text = .ok nodes := by
  intro nodes text
  have hspace : Text.Blank [' '] := List.all_eq_true.1 rfl
  have hline : Text.Blank ['\n', ' '] := List.all_eq_true.1 rfl
  have htab : Text.Blank ['\t'] := List.all_eq_true.1 rfl
  have hnone : Text.Blank [] := List.forall_mem_nil _
  have hlayout : Layout nodes text := by
    have hinner : Layout [.declaration ['c'] []] "c :".toList :=
      .last hnone (.declaration hspace hnone (Or.inl rfl)) hnone
    have hhover : Layout _ _ := .leaf hspace
      (@Spaced.declaration "\"p".toList "q\\\"\"".toList _ _ hspace hspace (Or.inr (by decide)))
      hnone
      (@Layout.atRule "@media x".toList _ _ _ _ _ _ hspace hnone hinner (.nil hspace))
    exact .leaf hnone .statement hspace (.rule hline htab hhover (.nil hnone))
  have hnodes : ∀ m ∈ Node.marksAll nodes, m.Normal ∧ isWhole m.piece = true := by
    decide +kernel
  exact ⟨hlayout, hnodes, parse_layout hlayout hnodes⟩

end AtomicCss
