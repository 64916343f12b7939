import AtomicCss.Proofs.Style.NormalForm
set_option autoImplicit false

namespace AtomicCss

theorem Mark.Tidy.isWhole {m : Mark} (h : m.Tidy) (hfree : opensComment m.piece = false) :
    AtomicCss.isWhole m.piece = true :=
  isWhole_of_skim h.skim hfree

namespace Node

/-- The text of a node with what has to stand before a following sibling. -/
def ended (n : Node) : Text := n.render ++ if n.hasBlock then [] else [';']

theorem renderAll_cons_cons (n m : Node) (nodes : List Node) :
    renderAll (n :: m :: nodes) = n.ended ++ renderAll (m :: nodes) := by
  rw [renderAll, ended, List.append_assoc]

theorem renderAll_append_singleton (nodes : List Node) (n : Node) :
    renderAll (nodes ++ [n]) = nodes.flatMap ended ++ n.render := by
  induction nodes with
  | nil => simp
  | cons m nodes ih =>
    have hcons : renderAll (m :: nodes ++ [n]) = m.ended ++ renderAll (nodes ++ [n]) := by
      cases nodes with
      | nil => exact renderAll_cons_cons m n []
      | cons k nodes => exact renderAll_cons_cons m k (nodes ++ [n])
    rw [hcons, ih, List.flatMap_cons, List.append_assoc]

theorem renderAll_isPrefix (nodes : List Node) : renderAll nodes <+: nodes.flatMap ended := by
  rcases List.eq_nil_or_concat nodes with rfl | ⟨front, n, rfl⟩
  · exact List.prefix_refl _
  · rw [List.concat_eq_append, renderAll_append_singleton, List.flatMap_append,
      List.flatMap_singleton, List.prefix_append_right_inj]
    exact List.prefix_append _ _

end Node

open Node (marksAll renderAll)

theorem Text.blank_nil : Blank [] := fun _ hc => absurd hc List.not_mem_nil

theorem spaced_render {n : Node} (h : n.hasBlock = false) : Spaced n n.render := by
  cases n with
  | declaration property value =>
    exact .declaration Text.blank_nil Text.blank_nil (Or.inr List.not_mem_nil)
  | statement header => exact .statement
  | rule selector children => cases h
  | atRule header children => cases h

mutual

theorem Layout.ended (n : Node) {nodes : List Node} {t : Text} (h : Layout nodes t) :
    Layout (n :: nodes) (n.ended ++ t) := by
  match n with
  | .declaration property value =>
    have hlayout := Layout.leaf Text.blank_nil
      (spaced_render (n := .declaration property value) rfl) Text.blank_nil h
    simpa [Node.ended, Node.hasBlock] using hlayout
  | .statement header =>
    have hlayout := Layout.leaf Text.blank_nil (spaced_render (n := .statement header) rfl)
      Text.blank_nil h
    simpa [Node.ended, Node.hasBlock] using hlayout
  | .rule selector children =>
    have hlayout : Layout (.rule selector children :: nodes) _ :=
      .rule Text.blank_nil Text.blank_nil (layout_renderAll children) h
    simpa [Node.ended, Node.hasBlock, Node.render] using hlayout
  | .atRule header children =>
    have hlayout : Layout (.atRule header children :: nodes) _ :=
      .atRule Text.blank_nil Text.blank_nil (layout_renderAll children) h
    simpa [Node.ended, Node.hasBlock, Node.render] using hlayout

theorem layout_renderAll (nodes : List Node) : Layout nodes (renderAll nodes) := by
  match nodes with
  | [] => exact .nil Text.blank_nil
  | [n] =>
    cases hblock : n.hasBlock with
    | true =>
      have hlayout := Layout.ended n (.nil Text.blank_nil)
      simpa [Node.ended, hblock] using hlayout
    | false =>
      have hlayout := Layout.last Text.blank_nil (spaced_render hblock) Text.blank_nil
      simpa using hlayout
  | n :: m :: r =>
    rw [Node.renderAll_cons_cons]
    exact Layout.ended n (layout_renderAll (m :: r))

end

theorem closed_of_tidy {ms : List Mark} (htidy : ∀ m ∈ ms, m.Tidy)
    (hfree : ∀ m ∈ ms, opensComment m.piece = false) :
    ∀ m ∈ ms, m.Normal ∧ isWhole m.piece = true := fun m hm =>
  ⟨(htidy m hm).normal, (htidy m hm).isWhole (hfree m hm)⟩

theorem readsAs_block {b : Bool} {head : Text} (children : List Node)
    (hhead : (Mark.opening b head).Normal ∧ isWhole head = true)
    (hchildren : ∀ m ∈ marksAll children, m.Normal ∧ isWhole m.piece = true) :
    ReadsAs (head ++ '{' :: (renderAll children ++ ['}'])) [.ofBlock b head children] := by
  simpa using ReadsAs.headed hhead.1 hhead.2 Text.blank_nil Text.blank_nil
    ((layout_renderAll children).endsAs hchildren)

theorem readsAs_ended {n : Node} (hn : ∀ m ∈ n.marks, m.Normal ∧ isWhole m.piece = true) :
    ReadsAs n.ended [n] := by
  cases n with
  | declaration property value =>
    obtain ⟨hnormal, hwhole⟩ := hn _ (List.mem_singleton.2 rfl)
    exact .statement hwhole ((spaced_render rfl).ofStatement hnormal)
  | statement header =>
    obtain ⟨hnormal, hwhole⟩ := hn _ (List.mem_singleton.2 rfl)
    exact .statement hwhole ((spaced_render rfl).ofStatement hnormal)
  | rule selector children =>
    have hblock := readsAs_block children (hn _ List.mem_cons_self)
      fun m hm => hn m (by simp [Node.marks, hm])
    simpa [Node.ended, Node.hasBlock, Node.render] using hblock
  | atRule header children =>
    have hblock := readsAs_block children (hn _ List.mem_cons_self)
      fun m hm => hn m (by simp [Node.marks, hm])
    simpa [Node.ended, Node.hasBlock, Node.render] using hblock

theorem readsAs_flatMap_ended {nodes : List Node}
    (hnodes : ∀ m ∈ marksAll nodes, m.Normal ∧ isWhole m.piece = true) :
    ReadsAs (nodes.flatMap Node.ended) nodes := by
  induction nodes with
  | nil => exact .blank Text.blank_nil
  | cons n nodes ih =>
    have hn := readsAs_ended (n := n) fun m hm => hnodes m (by simp [marksAll, hm])
    exact hn.append (ih fun m hm => hnodes m (by simp [marksAll, hm]))

namespace Reader

variable {r s : Reader} {x t : Text}

/-- Reading the text, the reader loses some of its ink to a comment. -/
def Loses (r : Reader) (t : Text) : Prop :=
  ∃ x y s, t = x ++ y ∧ r.readAll x = .ok s ∧ s.weight < r.weight + Text.ink x

theorem Loses.append (h : r.Loses t) (u : Text) : r.Loses (t ++ u) := by
  obtain ⟨x, y, s, rfl, hs, hlt⟩ := h
  exact ⟨x, y ++ u, s, List.append_assoc x y u, hs, hlt⟩

theorem Loses.of_isPrefix {u : Text} (h : r.Loses t) (hu : t <+: u) : r.Loses u := by
  obtain ⟨v, rfl⟩ := hu
  exact h.append v

theorem Loses.after (hs : r.readAll x = .ok s) (h : s.Loses t) : r.Loses (x ++ t) := by
  obtain ⟨y, z, u, rfl, hu, hlt⟩ := h
  obtain ⟨_, _, hle⟩ := readAll_marks hs
  refine ⟨x ++ y, z, u, (List.append_assoc x y z).symm, readAll_trans hs hu, ?_⟩
  rw [Text.ink_append]
  omega

theorem Loses.weight_lt (h : r.Loses t) (hs : r.readAll t = .ok s) :
    s.weight < r.weight + Text.ink t := by
  obtain ⟨x, y, u, rfl, hu, hlt⟩ := h
  rw [readAll_append, hu] at hs
  obtain ⟨_, _, hle⟩ := readAll_marks hs
  rw [Text.ink_append]
  omega

theorem Ready.loses (hr : r.Ready) {e : Scan} (hskim : Scan.start.skim t = some e)
    (hopen : opensComment t = true) : r.Loses t := by
  obtain ⟨u, v, f, rfl, hf, hslash⟩ := Scan.reached_start.exists_slash_of_skim hskim hopen
  rw [← hr.scan_eq] at hf
  obtain ⟨s, hs, rfl, hcontinues⟩ := readAll_of_scan hf
  have hmode : s.mode = .slash := hslash
  have htake : s.take '*' = .ok { s with mode := .comment } := by
    rw [take, hmode]
    rfl
  have hstep := step_ok htake
  have hstop : s.scan.step '*' = none := by
    rw [Scan.step, hslash]
    rfl
  rcases stop_cases (by simp [Scan.Live, hslash]) hstop hstep with ⟨_, hc⟩ | ⟨_, _, _, hlt⟩
  · cases hc
  · refine ⟨u ++ ['*'], v, _, by simp, readAll_snoc hs hstep, ?_⟩
    rw [hcontinues.weight] at hlt
    rw [Text.ink_append]
    omega

end Reader

theorem loses_block {b : Bool} {head : Text} {children : List Node}
    (htidy : ∀ m ∈ Mark.opening b head :: (marksAll children ++ [.closing]), m.Tidy)
    (hopen : ∃ m ∈ Mark.opening b head :: (marksAll children ++ [.closing]),
      opensComment m.piece = true)
    (hchildren : (∀ m ∈ marksAll children, m.Tidy) →
      (∃ m ∈ marksAll children, opensComment m.piece = true) →
      ∀ r : Reader, r.Ready → r.Loses (renderAll children))
    {r : Reader} (hr : r.Ready) : r.Loses (head ++ '{' :: (renderAll children ++ ['}'])) := by
  have hhead := htidy _ List.mem_cons_self
  cases hfree : opensComment head with
  | true => exact (hr.loses hhead.skim hfree).append _
  | false =>
    have hinner : ∃ m ∈ marksAll children, opensComment m.piece = true := by
      obtain ⟨m, hm, hopen⟩ := hopen
      rcases List.mem_cons.1 hm with rfl | hm
      · cases hfree.symm.trans hopen
      rcases List.mem_append.1 hm with hm | hm
      · exact ⟨m, hm, hopen⟩
      · rw [List.mem_singleton.1 hm] at hopen
        cases hopen
    obtain ⟨htrim, hne⟩ := hhead.normal.trim_head
    obtain ⟨s, _, hs, hready, _⟩ :=
      hr.readAll_open (x := head) (hhead.isWhole hfree) (by rwa [htrim])
    have hloses := hchildren (fun m hm => htidy m (by simp [hm])) hinner s hready
    simpa using (hloses.append ['}']).after hs

mutual

theorem loses_render (n : Node) (hn : ∀ m ∈ n.marks, m.Tidy)
    (hopen : ∃ m ∈ n.marks, opensComment m.piece = true) {r : Reader} (hr : r.Ready) :
    r.Loses n.render := by
  match n, hn, hopen with
  | .declaration property value, hn, hopen =>
    obtain ⟨m, hm, hopen⟩ := hopen
    obtain rfl := List.mem_singleton.1 hm
    exact hr.loses (hn _ hm).skim hopen
  | .statement header, hn, hopen =>
    obtain ⟨m, hm, hopen⟩ := hopen
    obtain rfl := List.mem_singleton.1 hm
    exact hr.loses (hn _ hm).skim hopen
  | .rule selector children, hn, hopen =>
    exact loses_block hn hopen (fun htidy hinner _ => loses_renderAll children htidy hinner) hr
  | .atRule header children, hn, hopen =>
    exact loses_block hn hopen (fun htidy hinner _ => loses_renderAll children htidy hinner) hr

theorem loses_renderAll (nodes : List Node) (hnodes : ∀ m ∈ marksAll nodes, m.Tidy)
    (hopen : ∃ m ∈ marksAll nodes, opensComment m.piece = true) {r : Reader} (hr : r.Ready) :
    r.Loses (renderAll nodes) := by
  match nodes, hnodes, hopen with
  | [], _, hopen =>
    obtain ⟨m, hm, _⟩ := hopen
    cases hm
  | [n], hnodes, hopen =>
    rw [marksAll, marksAll, List.append_nil] at hnodes hopen
    rw [Node.renderAll_singleton]
    exact loses_render n hnodes hopen hr
  | n :: m :: rest, hnodes, hopen =>
    rw [marksAll] at hnodes hopen
    rw [List.forall_mem_append] at hnodes
    rw [Node.renderAll_cons_cons]
    by_cases hn : ∃ k ∈ n.marks, opensComment k.piece = true
    · rw [Node.ended, List.append_assoc]
      exact (loses_render n hnodes.1 hn hr).append _
    · simp only [not_exists, not_and, Bool.not_eq_true] at hn
      obtain ⟨s, hs, hadds⟩ := readsAs_ended (closed_of_tidy hnodes.1 hn) r hr
      have hrest : ∃ k ∈ marksAll (m :: rest), opensComment k.piece = true := by
        obtain ⟨k, hk, hopen⟩ := hopen
        rcases List.mem_append.1 hk with hk | hk
        · cases (hn k hk).symm.trans hopen
        · exact ⟨k, hk, hopen⟩
      exact (loses_renderAll (m :: rest) hnodes.2 hrest hadds.ready).after hs

end

theorem Node.Trails.marksAll {n : Node} (hn : n.Trails) (front : List Node) :
    Node.marksAll (front ++ [n]) = Node.marksAll front ++ [.leaf n] := by
  rw [Node.marksAll_append, Node.marksAll, Node.marksAll, (spaced_render hn.leaf).marks,
    List.append_nil]

theorem Node.IsTidy.loses {nodes : List Node} (h : Node.IsTidy nodes)
    (hopen : ∃ m ∈ marksAll nodes, opensComment m.piece = true) :
    Reader.initial.Loses (renderAll nodes) := by
  cases h with
  | closed htidy => exact loses_renderAll nodes htidy hopen Reader.ready_initial
  | @trails front n htidy hn =>
    obtain ⟨depth, hskim⟩ := hn.skim
    rw [Node.renderAll_append_singleton]
    by_cases hfront : ∃ m ∈ marksAll front, opensComment m.piece = true
    · have hloses := loses_renderAll front htidy hfront Reader.ready_initial
      exact (hloses.of_isPrefix (Node.renderAll_isPrefix front)).append _
    · simp only [not_exists, not_and, Bool.not_eq_true] at hfront
      obtain ⟨s, hs, hadds⟩ :=
        readsAs_flatMap_ended (closed_of_tidy htidy hfront) _ Reader.ready_initial
      have hrender : opensComment n.render = true := by
        obtain ⟨m, hm, hopen⟩ := hopen
        rw [hn.marksAll] at hm
        rcases List.mem_append.1 hm with hm | hm
        · cases (hfront m hm).symm.trans hopen
        · obtain rfl := List.mem_singleton.1 hm
          exact hopen
      exact (hadds.ready.loses hskim hrender).after hs

theorem Node.IsTidy.parse_renderAll {nodes : List Node} (h : Node.IsTidy nodes)
    (hfree : ∀ m ∈ marksAll nodes, opensComment m.piece = false) :
    parse (renderAll nodes) = .ok nodes := by
  cases h with
  | closed htidy => exact parse_layout (layout_renderAll nodes) (closed_of_tidy htidy hfree)
  | @trails front n htidy hn =>
    rw [hn.marksAll, List.forall_mem_append] at hfree
    obtain ⟨depth, hskim⟩ := hn.skim
    obtain ⟨s, hs, hready, hnodes, houter⟩ :=
      readsAs_flatMap_ended (closed_of_tidy htidy hfree.1) _ Reader.ready_initial
    obtain ⟨f, hf, hsettled⟩ := Scan.reached_start.run_of_skim hskim (by simp [Scan.start])
      (hfree.2 _ (List.mem_singleton.2 rfl))
    have hmode := Scan.mode_of_settled (Scan.reached_start.run hf).live (by rw [hsettled])
    rw [← hready.scan_eq] at hf
    obtain ⟨u, hu, rfl, hcontinues⟩ := Reader.readAll_of_scan hf
    have hstatement := hready.statement_of_continues hcontinues
    have hnode := (spaced_render hn.leaf).ofStatement hn.normal
    have hwritten : parseAsWritten (renderAll (front ++ [n])) = .ok (front ++ [n]) := by
      rw [parseAsWritten, Node.renderAll_append_singleton, Reader.readAll_trans hs hu]
      refine Reader.finish_eq_ok.2 ⟨hmode, hcontinues.outer.trans houter, Or.inr ?_⟩
      rw [hstatement, hcontinues.nodes, hnodes]
      exact ⟨Node.ofStatement_ne_nil hnode, n, hnode, rfl⟩
    refine parse_eq_of_normal hwritten fun m hm => ?_
    rw [hn.marksAll] at hm
    rcases List.mem_append.1 hm with hm | hm
    · exact (htidy m hm).normal
    · rw [List.mem_singleton.1 hm]
      exact hn.normal

theorem costAll_block (b c : Bool) (head : Text) {children : List Node}
    (h : Mark.costAll false (marksAll children ++ [.closing]) =
      Text.ink (renderAll children) + 1) :
    Mark.costAll b (.opening c head :: (marksAll children ++ [.closing])) =
        Text.ink (head ++ '{' :: (renderAll children ++ ['}'])) ∧
      Mark.endsWithLeaf b (.opening c head :: (marksAll children ++ [.closing])) = false := by
  have hopen : isBlank '{' = false := by decide
  have hclose : Text.ink ['}'] = 1 := by decide
  constructor
  · rw [Mark.costAll, Mark.cost, Mark.isLeaf, h, Text.ink_append, Text.ink_cons, hopen,
      Text.ink_append, hclose]
    simp
    omega
  · rw [Mark.endsWithLeaf_cons, Mark.endsWithLeaf_append]
    rfl

mutual

theorem costAll_marks (b : Bool) (n : Node) : Mark.costAll b n.marks = Text.ink n.ended ∧
    Mark.endsWithLeaf b n.marks = !n.hasBlock := by
  match n with
  | .declaration property value =>
    refine ⟨?_, rfl⟩
    rw [Node.ended, Text.ink_append]
    rfl
  | .statement header =>
    refine ⟨?_, rfl⟩
    rw [Node.ended, Text.ink_append]
    rfl
  | .rule selector children =>
    have hblock := costAll_block b false selector (costAll_marksAll children fun _ => rfl)
    simpa [Node.ended, Node.hasBlock, Node.render, Node.marks] using hblock
  | .atRule header children =>
    have hblock := costAll_block b true header (costAll_marksAll children fun _ => rfl)
    simpa [Node.ended, Node.hasBlock, Node.render, Node.marks] using hblock

theorem costAll_marksAll {b : Bool} (nodes : List Node) (hb : nodes = [] → b = false) :
    Mark.costAll b (marksAll nodes ++ [.closing]) = Text.ink (renderAll nodes) + 1 := by
  match nodes with
  | [] =>
    rw [hb rfl]
    rfl
  | [n] =>
    obtain ⟨hcost, hends⟩ := costAll_marks b n
    rw [marksAll, marksAll, List.append_nil, Mark.costAll_append, hcost, hends,
      Node.renderAll_singleton, Node.ended, Text.ink_append]
    cases n.hasBlock <;> rfl
  | n :: m :: rest =>
    obtain ⟨hcost, hends⟩ := costAll_marks b n
    rw [marksAll, List.append_assoc, Mark.costAll_append, hcost,
      costAll_marksAll (m :: rest) fun h => absurd h (List.cons_ne_nil m rest),
      Node.renderAll_cons_cons, Text.ink_append, Nat.add_assoc]

end

theorem Reader.costAll_finish_le {r : Reader} {nodes : List Node} (h : r.finish = .ok nodes) :
    Mark.costAll false (marksAll nodes ++ [.closing]) ≤ r.weight + 1 := by
  rcases Reader.finish_ok h with ⟨_, hmarks⟩ | ⟨n, hn, hmarks⟩
  · rw [hmarks, Mark.costAll_append, weight]
    have hclosing : ∀ b, Mark.costAll b [.closing] ≤ 1 := by decide
    have := hclosing (Mark.endsWithLeaf false r.marks)
    omega
  · rw [hmarks, List.append_assoc, Mark.costAll_append, weight]
    have hink := (Node.ofStatement_ok hn).2.trans r.ink_statement
    simp [Mark.costAll, Mark.cost, Mark.isLeaf, hink]
    omega

/-- A parsed tree is parsed from its shortest text unless a piece of it opens a comment. -/
theorem parse_renderAll_iff {t : Text} {nodes : List Node} (h : parse t = .ok nodes) :
    parse (renderAll nodes) = .ok nodes ↔
      ∀ m ∈ marksAll nodes, opensComment m.piece = false := by
  have htidy := parse_isTidy h
  refine ⟨fun hparse m hm => ?_, htidy.parse_renderAll⟩
  refine Bool.eq_false_iff.2 fun hopen => ?_
  have hloses := htidy.loses ⟨m, hm, hopen⟩
  obtain ⟨written, hwritten, hrename⟩ := map_ok hparse
  obtain ⟨s, hs, hfinish⟩ := bind_ok hwritten
  have hlt := hloses.weight_lt hs
  have hle := Reader.costAll_finish_le hfinish
  have hcost := costAll_marksAll nodes (b := false) fun _ => rfl
  have hsame : Mark.costAll false (marksAll nodes ++ [.closing]) =
      Mark.costAll false (marksAll written ++ [.closing]) := by
    have hmarks : marksAll nodes ++ [.closing] =
        (marksAll written ++ [Mark.closing]).map (.rename propertyName) := by
      rw [← hrename, Node.marksAll_renameProperties, List.map_append]
      rfl
    rw [hmarks, Mark.costAll_rename]
  have hzero : Reader.initial.weight = 0 := rfl
  omega

/-- A comment in a value and a parenthesis that the text leaves open do no harm. -/
theorem parse_renderAll_comment :
    let t := "@media  (a:\n b)\x7b --A : x/* ; */y \x7d COLOR : a / (*".toList
    let printed := "@media (a: b)\x7b--A:xy\x7dcolor:a / (*".toList
    ∃ nodes, parse t = .ok nodes ∧ renderAll nodes = printed ∧ parse printed = .ok nodes := by
  intro t printed
  obtain ⟨nodes, hnodes, h⟩ := exists_ok (x := parse t) (p := fun nodes =>
    renderAll nodes == printed && (marksAll nodes).all fun m => !opensComment m.piece)
    (by decide +kernel)
  simp only [Bool.and_eq_true, beq_iff_eq, List.all_eq_true, Bool.not_eq_true'] at h
  refine ⟨nodes, hnodes, h.1, ?_⟩
  rw [← h.1]
  exact (parse_renderAll_iff hnodes).2 h.2

/-- Behind a slash and before an asterisk, a comment may stand in a text, but not be dropped. -/
theorem not_parse_renderAll_joined :
    ∃ nodes, parse "a:x//**/*y".toList = .ok nodes ∧ renderAll nodes = "a:x/*y".toList ∧
      ∀ again, parse (renderAll nodes) ≠ .ok again := by
  obtain ⟨nodes, hnodes, h⟩ := exists_ok (x := parse "a:x//**/*y".toList) (p := fun nodes =>
    renderAll nodes == "a:x/*y".toList && (parse (renderAll nodes)).toOption.isNone)
    (by decide +kernel)
  simp only [Bool.and_eq_true, beq_iff_eq, Option.isNone_iff_eq_none] at h
  refine ⟨nodes, hnodes, h.1, fun again hagain => ?_⟩
  have hnone := h.2
  rw [hagain] at hnone
  cases hnone

end AtomicCss
