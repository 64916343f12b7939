import AtomicCss.Proofs.Sheet.Nodes
set_option autoImplicit false

/-!
Reading back what has been written: the text of a tree of rules is parsed to its nodes if and only
if every piece of it is closed (`ScopeTree.parse_render_iff`).
-/

namespace AtomicCss

open Node (marksAll)

theorem ink_block (head body : Text) :
    Text.ink (head ++ '{' :: (body ++ ['}'])) = Text.ink head + Text.ink body + 2 := by
  have hopen : isBlank '{' = false := by decide
  have hclose : Text.ink ['}'] = 1 := by decide
  rw [Text.ink_append, Text.ink_cons, Text.ink_append, hopen, hclose]
  simp
  omega

/-- A text that a reader takes for these nodes exactly if `ok`, wherever statements begin. -/
structure Prints (x : Text) (ns : List Node) (ok : Bool) : Prop where
  reads : ok = true → ∀ r : Reader, r.Ready → ∃ s, r.readAll x = .ok s ∧ s.Ready ∧
    s.nodes = r.nodes ++ ns ∧ s.outer = r.outer
  closed : ∀ (r : Reader) (t : Text) (nodes : List Node) (ms : List Mark), r.Ready →
    r.Faithful (x ++ t) nodes (marksAll ns ++ ms) →
    ok = true ∧ ∃ s : Reader, s.Ready ∧ s.Faithful t nodes ms
  ink : ∀ b, Text.ink x = Mark.costAll b (marksAll ns)
  ends : Mark.endsWithLeaf false (marksAll ns) = false

namespace Prints

variable {x y : Text} {n : Node} {ns ms : List Node} {p q : Bool}

theorem nil : Prints [] [] true where
  reads _ r hr := ⟨r, rfl, hr, (List.append_nil _).symm, rfl⟩
  closed r _ _ _ hr h := ⟨rfl, r, hr, h⟩
  ink _ := rfl
  ends := rfl

theorem append (hx : Prints x ns p) (hy : Prints y ms q) :
    Prints (x ++ y) (ns ++ ms) (p && q) where
  reads hok r hr := by
    obtain ⟨hp, hq⟩ := Bool.and_eq_true_iff.1 hok
    obtain ⟨s, hs, hsready, hsnodes, hsouter⟩ := hx.reads hp r hr
    obtain ⟨u, hu, huready, hunodes, huouter⟩ := hy.reads hq s hsready
    refine ⟨u, Reader.readAll_trans hs hu, huready, ?_, huouter.trans hsouter⟩
    rw [hunodes, hsnodes, List.append_assoc]
  closed r t nodes ks hr h := by
    rw [List.append_assoc, Node.marksAll_append, List.append_assoc] at h
    obtain ⟨hp, s, hs, h⟩ := hx.closed r _ nodes _ hr h
    obtain ⟨hq, u, hu, h⟩ := hy.closed s t nodes ks hs h
    exact ⟨Bool.and_eq_true_iff.2 ⟨hp, hq⟩, u, hu, h⟩
  ink b := by
    rw [Text.ink_append, Node.marksAll_append, Mark.costAll_append, ← hx.ink, ← hy.ink]
  ends := by rw [Node.marksAll_append, Mark.endsWithLeaf_append, hx.ends, hy.ends]

theorem newline (hy : Prints y ns q) : Prints ('\n' :: y) ns q where
  reads hq r hr := by
    obtain ⟨s, hs, hsready, hsnodes, hsouter⟩ := hr.readAll_newline
    obtain ⟨u, hu, huready, hunodes, huouter⟩ := hy.reads hq s hsready
    exact ⟨u, Reader.readAll_trans hs hu, huready, by rw [hunodes, hsnodes],
      huouter.trans hsouter⟩
  closed r t nodes ks hr h := by
    obtain ⟨s, hs, h⟩ := Reader.Faithful.newline h hr
    exact hy.closed s t nodes ks hs h
  ink b := by
    have hnewline : Text.ink ['\n'] = 0 := by decide
    rw [← List.singleton_append, Text.ink_append, hnewline, Nat.zero_add, hy.ink b]
  ends := hy.ends

theorem lines {l : List Text} (hx : Prints x [n] p) (hl : Prints (Text.join ['\n'] l) ns q) :
    Prints (Text.join ['\n'] (x :: l)) (n :: ns) (p && q) := by
  cases l with
  | nil =>
    rw [Text.join_singleton, ← List.append_nil x]
    exact hx.append hl
  | cons y l =>
    rw [Text.join_cons_cons, List.append_assoc]
    exact hx.append hl.newline

theorem block {head : Text} (h : IsHeader head) (hx : Prints x ns p) :
    Prints (head ++ '{' :: (x ++ ['}'])) [.atRule head ns] (isWhole head && p) where
  reads hok r hr := by
    obtain ⟨hwhole, hp⟩ := Bool.and_eq_true_iff.1 hok
    have hne : Text.trim head ≠ [] := by
      rw [h.trim]
      exact isAtHeader_ne_nil h.atHeader
    obtain ⟨s, opened, hs, hsready, hsnodes, hsouter⟩ := hr.readAll_open hwhole hne
    obtain ⟨u, hu, huready, hunodes, huouter⟩ := hx.reads hp s hsready
    obtain ⟨v, hv, hvready, hvnodes, hvouter⟩ := huready.readAll_close (huouter.trans hsouter)
    have hclose : OpenBlock.close ⟨head, r.nodes, opened⟩ ns = .atRule head ns := by
      rw [OpenBlock.close, if_pos h.atHeader, h.normalize]
    rw [hunodes, hsnodes, h.trim, List.nil_append, hclose] at hvnodes
    have hsplit : head ++ '{' :: (x ++ ['}']) = head ++ ['{'] ++ (x ++ ['}']) := by simp
    exact ⟨v, hsplit ▸ Reader.readAll_trans hs (Reader.readAll_trans hu hv), hvready, hvnodes,
      hvouter⟩
  closed r t nodes ks hr hfaithful := by
    have hmarks : marksAll [.atRule head ns] ++ ks =
        .opening true head :: (marksAll ns ++ .closing :: ks) := by
      simp [marksAll, Node.marks]
    rw [hmarks, List.append_assoc, List.cons_append, List.append_assoc] at hfaithful
    obtain ⟨hwhole, _, s, hs, hfaithful⟩ := hfaithful.head hr rfl
    obtain ⟨hp, u, hu, hfaithful⟩ := hx.closed s _ nodes _ hs hfaithful
    exact ⟨Bool.and_eq_true_iff.2 ⟨hwhole, hp⟩, hfaithful.close hu⟩
  ink b := by
    have hmarks : marksAll [.atRule head ns] =
        .opening true head :: (marksAll ns ++ [.closing]) := by
      simp [marksAll, Node.marks]
    rw [hmarks, Mark.costAll, Mark.isLeaf, Mark.costAll_append, hx.ends, ← hx.ink, ink_block]
    simp [Mark.costAll, Mark.cost]
    omega
  ends := by
    rw [marksAll, Node.marks, List.cons_append, Mark.endsWithLeaf_cons, marksAll, List.append_nil,
      Mark.endsWithLeaf_append]
    rfl

end Prints

namespace Rule

abbrev declarationNode (d : Text × Text) : Node := .declaration d.1 d.2

theorem ink_declaration (d : Text × Text) :
    Text.ink (declarationNode d).render = Text.ink (d.1 ++ ':' :: d.2) := rfl

theorem isClosedDeclaration_iff {d : Text × Text} :
    isClosedDeclaration d = true ↔ isWhole (d.1 ++ ':' :: d.2) = true ∧ Text.trim d.2 = d.2 := by
  simp [isClosedDeclaration]

theorem ofStatement_closed {d : Text × Text} (hd : IsProperty d.1)
    (h : isClosedDeclaration d = true) :
    Node.ofStatement (Text.trim (d.1 ++ ':' :: d.2)) = .ok (declarationNode d) := by
  rw [hd.ofStatement, (isClosedDeclaration_iff.1 h).2]

theorem trim_declaration_ne_nil {d : Text × Text} (hd : IsProperty d.1) :
    Text.trim (d.1 ++ ':' :: d.2) ≠ [] := by
  rw [hd.trim_declaration]
  simp

theorem isClosedDeclaration_of_ofStatement {d : Text × Text} (hd : IsProperty d.1)
    (hwhole : isWhole (d.1 ++ ':' :: d.2) = true) {k : Node}
    (hk : Node.ofStatement (Text.trim (d.1 ++ ':' :: d.2)) = .ok k)
    (hrename : k.renameProperties propertyName = declarationNode d) :
    isClosedDeclaration d = true := by
  rw [hd.ofStatement] at hk
  cases hk
  exact isClosedDeclaration_iff.2 ⟨hwhole, (Node.declaration.inj hrename).2⟩

theorem renderBody_cons_cons (d e : Text × Text) (m : Declarations) :
    renderBody (d :: e :: m) = d.1 ++ ':' :: d.2 ++ ';' :: renderBody (e :: m) := by
  rw [renderBody, List.map_cons, List.map_cons, Text.join_cons_cons, List.append_assoc]
  rfl

theorem reads_body {m : Declarations} (hm : ∀ d ∈ m, IsProperty d.1)
    (hclosed : m.all isClosedDeclaration = true) {r : Reader} (hr : r.Ready) {b : OpenBlock}
    {outer : List OpenBlock} (hb : r.outer = b :: outer) :
    ∃ s, r.readAll (renderBody m ++ ['}']) = .ok s ∧ s.Ready ∧
      s.nodes = b.before ++ [b.close (r.nodes ++ m.map declarationNode)] ∧ s.outer = outer := by
  induction m generalizing r with
  | nil =>
    simp only [List.map_nil, List.append_nil]
    exact hr.readAll_close hb
  | cons d m ih =>
    have hd := hm d List.mem_cons_self
    rw [List.all_cons, Bool.and_eq_true] at hclosed
    have hwhole := (isClosedDeclaration_iff.1 hclosed.1).1
    have hnode := ofStatement_closed hd hclosed.1
    have hne := trim_declaration_ne_nil hd
    cases m with
    | nil =>
      rw [renderBody, List.map_singleton, Text.join_singleton]
      exact hr.readAll_last hwhole hnode hne hb
    | cons e m =>
      obtain ⟨s, hs, hready, hnodes, houter⟩ := hr.readAll_statement hwhole hnode hne
      obtain ⟨u, hu, hrest⟩ := ih (fun c hc => hm c (List.mem_cons_of_mem _ hc)) hclosed.2 hready
        (houter.trans hb)
      rw [hnodes, List.append_assoc] at hrest
      have hsplit : renderBody (d :: e :: m) ++ ['}'] =
          d.1 ++ ':' :: d.2 ++ [';'] ++ (renderBody (e :: m) ++ ['}']) := by
        simp [renderBody_cons_cons]
      exact ⟨u, hsplit ▸ Reader.readAll_trans hs hu, hrest⟩

theorem closed_body {m : Declarations} (hm : ∀ d ∈ m, IsProperty d.1) {r : Reader} (hr : r.Ready)
    {t : Text} {nodes : List Node} {ms : List Mark}
    (h : r.Faithful (renderBody m ++ '}' :: t) nodes
      (marksAll (m.map declarationNode) ++ .closing :: ms)) :
    m.all isClosedDeclaration = true ∧ ∃ s : Reader, s.Ready ∧ s.Faithful t nodes ms := by
  induction m generalizing r with
  | nil => exact ⟨rfl, Reader.Faithful.close h hr⟩
  | cons d m ih =>
    have hd := hm d List.mem_cons_self
    have hne := trim_declaration_ne_nil hd
    cases m with
    | nil =>
      rw [renderBody, List.map_singleton, Text.join_singleton] at h
      obtain ⟨hwhole, ⟨k, hk, hrename⟩, hrest⟩ := Reader.Faithful.last h hr (ink_declaration d)
      refine ⟨?_, hrest⟩
      rw [List.all_cons, isClosedDeclaration_of_ofStatement hd hwhole hk hrename]
      rfl
    | cons e m =>
      rw [renderBody_cons_cons, List.append_assoc, List.cons_append] at h
      obtain ⟨hwhole, ⟨k, hk, hrename⟩, s, hs, h⟩ :=
        Reader.Faithful.statement h hr (ink_declaration d) hne
      obtain ⟨hall, hrest⟩ := ih (fun c hc => hm c (List.mem_cons_of_mem _ hc)) hs h
      refine ⟨?_, hrest⟩
      rw [List.all_cons, isClosedDeclaration_of_ofStatement hd hwhole hk hrename, hall]
      rfl

theorem ink_body (m : Declarations) (b : Bool) :
    Text.ink (renderBody m) + 1 = Mark.costAll b (marksAll (m.map declarationNode) ++ [.closing])
      ∨ b = true ∧ m = [] := by
  induction m generalizing b with
  | nil => cases b <;> simp [renderBody, marksAll, Mark.costAll, Mark.cost]
  | cons d m ih =>
    refine Or.inl ?_
    cases m with
    | nil =>
      simp [renderBody, marksAll, Node.marks, Mark.costAll, Mark.cost, Mark.isLeaf, Node.render]
    | cons e m =>
      have hrest := (ih true).resolve_right (by simp)
      have hsemicolon : isBlank ';' = false := by decide
      rw [renderBody_cons_cons, Text.ink_append, Text.ink_cons, hsemicolon]
      simp [marksAll, Node.marks, Mark.costAll, Mark.cost, Mark.isLeaf, Node.render] at hrest ⊢
      omega

theorem render_eq (r : Rule) :
    r.render = r.selector ++ '{' :: (renderBody r.body ++ ['}']) := rfl

theorem marksAll_toNode (r : Rule) : marksAll [r.toNode] =
    .opening false r.selector :: (marksAll (r.body.map declarationNode) ++ [.closing]) := by
  simp [marksAll, toNode, Node.marks]

theorem Spelled.prints {r : Rule} (h : r.Spelled) : Prints r.render [r.toNode] r.isClosed where
  reads hok p hp := by
    obtain ⟨hselector, hbody⟩ := Bool.and_eq_true_iff.1 hok
    have hne : Text.trim r.selector ≠ [] := by
      rw [h.trim]
      exact h.ne_nil
    obtain ⟨s, opened, hs, hready, hnodes, houter⟩ := hp.readAll_open hselector hne
    obtain ⟨u, hu, hrest⟩ := reads_body h.properties hbody hready houter
    have hclose : OpenBlock.close ⟨r.selector, p.nodes, opened⟩ (r.body.map declarationNode) =
        r.toNode := by
      rw [OpenBlock.close, if_neg (by simp [h.atHeader])]
      rfl
    rw [hnodes, h.trim, List.nil_append] at hrest
    rw [hclose] at hrest
    have hsplit : r.render = r.selector ++ ['{'] ++ (renderBody r.body ++ ['}']) := by
      simp [render_eq]
    exact ⟨u, hsplit ▸ Reader.readAll_trans hs hu, hrest⟩
  closed p t nodes ms hp hfaithful := by
    rw [marksAll_toNode, render_eq, List.append_assoc, List.cons_append, List.cons_append,
      List.append_assoc, List.append_assoc] at hfaithful
    obtain ⟨hselector, _, s, hs, hfaithful⟩ := hfaithful.head hp rfl
    obtain ⟨hbody, hrest⟩ := closed_body h.properties hs hfaithful
    exact ⟨Bool.and_eq_true_iff.2 ⟨hselector, hbody⟩, hrest⟩
  ink b := by
    have hbody := (ink_body r.body false).resolve_right (by simp)
    rw [marksAll_toNode, Mark.costAll, Mark.isLeaf, ← hbody, render_eq, ink_block, Mark.cost]
    omega
  ends := by
    rw [marksAll_toNode, Mark.endsWithLeaf_cons, Mark.endsWithLeaf_append]
    rfl

end Rule

namespace ScopeTree

theorem ne_nil_of_mem_renderBlocks {l : List (ScopeTree Rule)} {x : Text}
    (h : x ∈ renderBlocks l) : x ≠ [] := by
  induction l with
  | nil => cases h
  | cons t l ih =>
    simp only [renderBlocks] at h
    split at h
    · exact ih h
    · rcases List.mem_cons.1 h with rfl | h
      · simp
      · exact ih h

mutual

theorem render_eq_nil (t : ScopeTree Rule) : t.render = [] ↔ t.toNodes = [] := by
  match t with
  | .node scope header rules children =>
    have hblocks := renderBlocks_eq_nil children
    have hne : ∀ x ∈ rules.map Rule.render ++ renderBlocks children, x ≠ [] := by
      intro x hx
      rcases List.mem_append.1 hx with hx | hx
      · obtain ⟨r, _, rfl⟩ := List.mem_map.1 hx
        simp [Rule.render]
      · exact ne_nil_of_mem_renderBlocks hx
    rw [render, toNodes, Text.join_eq_nil hne]
    simp [hblocks]

theorem renderBlocks_eq_nil (l : List (ScopeTree Rule)) :
    renderBlocks l = [] ↔ blockNodes l = [] := by
  match l with
  | [] => simp [renderBlocks, blockNodes]
  | t :: r =>
    have ht := render_eq_nil t
    have hr := renderBlocks_eq_nil r
    simp only [renderBlocks, blockNodes, List.isEmpty_iff, ht]
    split
    · exact hr
    · simp

end

mutual

theorem prints (t : ScopeTree Rule) (h : t.Spelled) : Prints t.render t.toNodes t.isClosed := by
  match t with
  | .node scope header rules children =>
    obtain ⟨hrules, hchildren⟩ := h
    have hblocks := prints_blocks children hchildren
    rw [render, toNodes, isClosed]
    induction rules with
    | nil => exact hblocks
    | cons r rules ih =>
      have hr := hrules r List.mem_cons_self
      rw [List.all_cons, Bool.and_assoc]
      exact hr.prints.lines (ih fun s hs => hrules s (List.mem_cons_of_mem _ hs))

theorem prints_blocks (l : List (ScopeTree Rule)) (h : EachAll IsHeader Rule.Spelled l) :
    Prints (Text.join ['\n'] (renderBlocks l)) (blockNodes l) (blocksClosed l) := by
  match l with
  | [] => exact .nil
  | t :: r =>
    obtain ⟨⟨hheader, ht⟩, hr⟩ := h
    have hinner := prints t ht
    have hrest := prints_blocks r hr
    have hempty : t.render.isEmpty = t.toNodes.isEmpty := by
      rw [Bool.eq_iff_iff, List.isEmpty_iff, List.isEmpty_iff, render_eq_nil t]
    simp only [renderBlocks, blockNodes, blocksClosed, hempty]
    cases t.toNodes.isEmpty with
    | true => exact hrest
    | false => exact (Prints.block hheader hinner).lines hrest

end

mutual

theorem renameProperties_toNodes (t : ScopeTree Rule) (h : t.Spelled) :
    Node.renamePropertiesAll propertyName t.toNodes = t.toNodes := by
  match t with
  | .node scope header rules children =>
    obtain ⟨hrules, hchildren⟩ := h
    have hblocks := renameProperties_blockNodes children hchildren
    have hbody : ∀ r ∈ rules,
        (Node.renameProperties propertyName ∘ Rule.toNode) r = r.toNode := by
      intro r hr
      rw [Function.comp_apply, Rule.toNode, Node.renameProperties,
        Node.renamePropertiesAll_eq_map, List.map_map]
      refine congrArg (Node.rule r.selector) (List.map_congr_left fun d hd => ?_)
      rw [Function.comp_apply, Node.renameProperties, ((hrules r hr).properties d hd).name]
    rw [Node.renamePropertiesAll_eq_map] at hblocks ⊢
    rw [toNodes, List.map_append, hblocks, List.map_map, List.map_congr_left hbody]

theorem renameProperties_blockNodes (l : List (ScopeTree Rule))
    (h : EachAll IsHeader Rule.Spelled l) :
    Node.renamePropertiesAll propertyName (blockNodes l) = blockNodes l := by
  match l with
  | [] => rfl
  | t :: r =>
    obtain ⟨⟨_, ht⟩, hr⟩ := h
    have hinner := renameProperties_toNodes t ht
    have hrest := renameProperties_blockNodes r hr
    simp only [blockNodes]
    split
    · exact hrest
    · rw [Node.renamePropertiesAll, Node.renameProperties, hinner, hrest]

end

theorem ready_initial : Reader.initial.Ready := ⟨rfl, rfl, by simp [Reader.initial]⟩

theorem Spelled.parse_render {t : ScopeTree Rule} (h : t.Spelled) :
    parse t.render = .ok t.toNodes ↔ t.isClosed = true := by
  have hprints := prints t h
  constructor
  · intro hparse
    obtain ⟨nodes, hnodes, hrename⟩ := map_ok hparse
    have hmarks : (marksAll nodes).map (.rename propertyName) = marksAll t.toNodes := by
      rw [← Node.marksAll_renameProperties, hrename]
    have hfaithful : Reader.initial.Faithful (t.render ++ []) nodes (marksAll t.toNodes ++ []) := by
      rw [List.append_nil, List.append_nil]
      refine ⟨hnodes, by simpa [Reader.initial, Reader.marks, marksAll] using hmarks, ?_, ?_⟩
      · -- the text has just the ink that its marks cost, so nothing of it may be lost
        have hweight : Reader.initial.weight = 0 := rfl
        refine Nat.le_of_eq ?_
        rw [hweight, Nat.zero_add, hprints.ink false, ← hmarks, Mark.costAll_rename]
      · rw [← Mark.endsWithLeaf_rename false propertyName, hmarks, hprints.ends]
    exact (hprints.closed _ _ _ _ ready_initial hfaithful).1
  · intro hclosed
    obtain ⟨s, hs, hready, hnodes, houter⟩ := hprints.reads hclosed _ ready_initial
    have hempty : s.statementText = [] :=
      Text.trim_of_blank fun c hc => hready.blank c (List.mem_reverse.1 hc)
    have hfinish : s.finish = .ok t.toNodes := by
      rw [Reader.finish, hready.mode]
      simp only [Reader.endStatement_nil hempty, bind, Except.bind, houter]
      exact congrArg Except.ok hnodes
    rw [parse, parseAsWritten, hs]
    simp only [Except.bind, hfinish, Except.map, renameProperties_toNodes t h]

end ScopeTree
end AtomicCss
