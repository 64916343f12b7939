import AtomicCss.Proofs.Bytes.Pseudo
import AtomicCss.Proofs.Bytes.Statements
import AtomicCss.Proofs.Style.Marks
set_option autoImplicit false

/-!
Style texts, read byte by byte.

Blocks are read by recursion where the reader keeps a list of open blocks (`blockFrom_ends`). No
access to the bytes fails, neither here nor in selectors, and what is read is what the scans of
characters read (`byte_scans_agree`).
-/

namespace AtomicCss

open Text (bytes leadByte isAscii)

/-- The node of a statement that is not empty; none if it has no first byte. -/
def statementBytes (t text : Text) (start : Nat) : Option (Except SyntaxError Node) :=
  (text.bytes[0]?).bind fun code =>
    if code = '@'.toUInt8 then some (.ok (.statement (Header.normalize text)))
    else
      match Node.ofStatement text with
      | .ok n => some (.ok (n.renameProperties propertyName))
      | .error fault => failAt t fault start

/-- The node of a block; none if its head has no first byte. -/
def blockBytes (head : Text) (children : List Node) : Option Node :=
  (head.bytes[0]?).map fun code =>
    if code = '@'.toUInt8 then .atRule (Header.normalize head) children else .rule head children

def statementNodes (t text : Text) (start : Nat) : Option (Except SyntaxError (List Node)) :=
  if text.isEmpty then some (.ok [])
  else onResult (statementBytes t text start) fun n => some (.ok [n])

/-- What is read from byte `start` on. -/
structure Block (start : Nat) where
  nodes : List Node
  /-- The byte behind the block. -/
  next : Nat
  le : start ≤ next

def Block.within {i j : Nat} (h : i ≤ j) (b : Block j) : Block i := ⟨b.nodes, b.next, h.trans b.le⟩

/-- The rest of a block of which `nodes` have been read, with its brace at byte `opened`. -/
def blockFrom (t : Text) (nested : Bool) (opened i : Nat) (nodes : List Node) :
    Option (Except SyntaxError (Block i)) :=
  match hs : readStatement t i i 0 [] with
  | none => none
  | some (.error e) => some (.error e)
  | some (.ok s) =>
    have hnext := lt_of_readStatement hs
    match hend : s.terminator with
    | .opening =>
      have hlt := hnext.2 (by rw [hend]; exact Terminator.noConfusion)
      if (Text.trim s.text).isEmpty then failAt t .missingSelector i
      else
        onResult (blockFrom t true (s.next - 1) s.next []) fun children =>
          (blockBytes (Text.trim s.text) children.nodes).bind fun n =>
            onResult (blockFrom t nested opened children.next (nodes ++ [n])) fun b =>
              some (.ok (b.within (hnext.1.trans children.le)))
    | .semicolon =>
      have hlt := hnext.2 (by rw [hend]; exact Terminator.noConfusion)
      onResult (statementNodes t (Text.trim s.text) i) fun ns =>
        onResult (blockFrom t nested opened s.next (nodes ++ ns)) fun b =>
          some (.ok (b.within hnext.1))
    | .closing =>
      onResult (statementNodes t (Text.trim s.text) i) fun ns =>
        if nested then some (.ok ⟨nodes ++ ns, s.next, hnext.1⟩)
        else
          match s.next with
          | 0 => none
          | j + 1 => failAt t .unexpectedClose j
    | .ending =>
      onResult (statementNodes t (Text.trim s.text) i) fun ns =>
        if nested then failAt t .unclosedBlock opened
        else some (.ok ⟨nodes ++ ns, s.next, hnext.1⟩)
termination_by t.bytes.length - i
decreasing_by
  · omega
  · have hle := children.le
    omega
  · omega

theorem blockFrom_eq {t : Text} {nested : Bool} {opened i : Nat} {nodes : List Node}
    {s : Statement} (h : readStatement t i i 0 [] = some (.ok s)) :
    blockFrom t nested opened i nodes =
      match s.terminator with
      | .opening =>
        if (Text.trim s.text).isEmpty then failAt t .missingSelector i
        else
          onResult (blockFrom t true (s.next - 1) s.next []) fun children =>
            (blockBytes (Text.trim s.text) children.nodes).bind fun n =>
              onResult (blockFrom t nested opened children.next (nodes ++ [n])) fun b =>
                some (.ok (b.within ((lt_of_readStatement h).1.trans children.le)))
      | .semicolon =>
        onResult (statementNodes t (Text.trim s.text) i) fun ns =>
          onResult (blockFrom t nested opened s.next (nodes ++ ns)) fun b =>
            some (.ok (b.within (lt_of_readStatement h).1))
      | .closing =>
        onResult (statementNodes t (Text.trim s.text) i) fun ns =>
          if nested then some (.ok ⟨nodes ++ ns, s.next, (lt_of_readStatement h).1⟩)
          else
            match s.next with
            | 0 => none
            | j + 1 => failAt t .unexpectedClose j
      | .ending =>
        onResult (statementNodes t (Text.trim s.text) i) fun ns =>
          if nested then failAt t .unclosedBlock opened
          else some (.ok ⟨nodes ++ ns, s.next, (lt_of_readStatement h).1⟩) := by
  rw [blockFrom]
  split
  next hnone =>
    rw [h] at hnone
    cases hnone
  next e herror =>
    rw [h] at herror
    cases herror
  next s' hs =>
    obtain rfl : s = s' := Except.ok.inj (Option.some.inj (h.symm.trans hs))
    dsimp only
    split <;> simp only [*]

theorem statementBytes_eq {t u v text : Text} (ht : t = u ++ v) (hne : text ≠ []) :
    statementBytes t text u.utf8Length =
      match Node.ofStatement text with
      | .ok n => some (.ok (n.renameProperties propertyName))
      | .error fault => some (.error ⟨fault, .after u⟩) := by
  obtain ⟨c, r, rfl⟩ := List.exists_cons_of_ne_nil hne
  have hbyte := Text.getElem?_bytes_cons [] c r
  rw [Text.utf8Length_nil, List.nil_append] at hbyte
  rw [statementBytes, hbyte, Option.bind_some, ht]
  by_cases hc : c = '@'
  · have hnode : Node.ofStatement (c :: r) = .ok (.statement (Header.normalize (c :: r))) := by
      rw [Node.ofStatement, if_pos (by rw [hc]; rfl)]
    rw [if_pos ((Text.leadByte_eq_iff (by decide)).2 hc), hnode]
    rfl
  · rw [if_neg (mt (Text.leadByte_eq_iff (by decide)).1 hc)]
    split <;> simp [failAt_eq, *]

theorem blockBytes_eq {b : OpenBlock} (hne : b.head ≠ []) (children : List Node) :
    blockBytes b.head (Node.renamePropertiesAll propertyName children) =
      some ((b.close children).renameProperties propertyName) := by
  obtain ⟨head, before, opened⟩ := b
  obtain ⟨c, r, rfl⟩ := List.exists_cons_of_ne_nil hne
  have hbyte := Text.getElem?_bytes_cons [] c r
  rw [Text.utf8Length_nil, List.nil_append] at hbyte
  rw [blockBytes, hbyte, Option.map_some, OpenBlock.close]
  by_cases hc : c = '@'
  · rw [if_pos ((Text.leadByte_eq_iff (by decide)).2 hc), if_pos (by rw [hc]; rfl)]
    rfl
  · rw [if_neg (mt (Text.leadByte_eq_iff (by decide)).1 hc),
      if_neg (by simpa [isAtHeader] using hc)]
    rfl

theorem Node.renamePropertiesAll_append (f : Text → Text) (ns ms : List Node) :
    Node.renamePropertiesAll f (ns ++ ms) =
      Node.renamePropertiesAll f ns ++ Node.renamePropertiesAll f ms := by
  simp [Node.renamePropertiesAll_eq_map]

/-- What the nodes of a statement, at most one, tell of a reader at its end. -/
inductive NodesEnd (s : Reader) : Option (Except SyntaxError (List Node)) → Prop
  | failed {e : SyntaxError} : s.endStatement = .error e → NodesEnd s (some (.error e))
  | done {ns : List Node} : s.endStatement = .ok { s with nodes := s.nodes ++ ns } →
      NodesEnd s (some (.ok (Node.renamePropertiesAll propertyName ns)))

theorem statementNodes_ends {t u v : Text} {s : Reader} (ht : t = u ++ v)
    (hstart : s.start = .after u) : NodesEnd s (statementNodes t s.statementText u.utf8Length) := by
  by_cases hempty : s.statementText.isEmpty = true
  · have hend : s.endStatement = .ok { s with nodes := s.nodes ++ [] } := by
      rw [Reader.endStatement, if_pos hempty, List.append_nil]
    rw [statementNodes, if_pos hempty]
    exact .done hend
  · have hne : s.statementText ≠ [] := by simpa using hempty
    rw [statementNodes, if_neg hempty, statementBytes_eq ht hne]
    cases hnode : Node.ofStatement s.statementText with
    | error fault =>
      refine .failed ?_
      rw [Reader.endStatement, if_neg hempty, hnode, ← hstart]
    | ok n =>
      have hend : s.endStatement = .ok { s with nodes := s.nodes ++ [n] } := by
        rw [Reader.endStatement, if_neg hempty, hnode]
      exact .done hend

/-- The reader has just begun the statement behind `u`. -/
structure Reader.Fresh (r : Reader) (u : Text) : Prop where
  mode : r.mode = .code
  depth : r.depth = 0
  read : r.read = []
  start : r.start = .after u
  here : r.here = .after u

/-- What a block tells of a reader in it, with `v` left of the text. -/
inductive BlockEnd {i : Nat} (t v : Text) (r : Reader) :
    Bool → Option (Except SyntaxError (Block i)) → Prop
  | failed {nested : Bool} {e : SyntaxError} : r.run v = .error e →
      BlockEnd t v r nested (some (.error e))
  | finished {b : Block i} {ns : List Node} : r.run v = .ok ns →
      b.nodes = Node.renamePropertiesAll propertyName ns → BlockEnd t v r false (some (.ok b))
  | closed {b : Block i} {block : OpenBlock} {outer : List OpenBlock} {u w : Text} {s : Reader}
      {ns : List Node} : r.outer = block :: outer → t = u ++ w → r.run v = s.run w → s.Fresh u →
      s.nodes = block.before ++ [block.close ns] → s.outer = outer → w.length < v.length →
      b.nodes = Node.renamePropertiesAll propertyName ns → b.next = u.utf8Length →
      BlockEnd t v r true (some (.ok b))

theorem BlockEnd.within {i j : Nat} {t v w : Text} {r s : Reader} {nested : Bool}
    {result : Option (Except SyntaxError (Block j))} (h : i ≤ j) (hrun : r.run v = s.run w)
    (houter : s.outer = r.outer) (hlength : w.length ≤ v.length)
    (hs : BlockEnd t w s nested result) :
    BlockEnd t v r nested (onResult result fun b => some (.ok (b.within h))) := by
  cases hs with
  | failed herror => exact .failed (hrun.trans herror)
  | finished hok hnodes => exact .finished (hrun.trans hok) hnodes
  | closed hblock ht hnext hfresh hclose hrest hlt hnodes hstop =>
    exact .closed (houter ▸ hblock) ht (hrun.trans hnext) hfresh hclose hrest
      (Nat.lt_of_lt_of_le hlt hlength) hnodes hstop

namespace Reader

variable {r s : Reader} {c : Char} {v : Text}

/-- Turned to the statement behind `c`. -/
def turned (r : Reader) (c : Char) : Reader :=
  { r.restart c with here := r.here.advance c }

theorem Fresh.turned {u : Text} (hmode : r.mode = .code) (hdepth : r.depth = 0)
    (hhere : r.here = .after u) : (r.turned c).Fresh (u ++ [c]) where
  mode := hmode
  depth := hdepth
  read := rfl
  start := by
    rw [Position.after_append_singleton, ← hhere]
    rfl
  here := by
    rw [Position.after_append_singleton, ← hhere]
    rfl

theorem run_turned (hmode : r.mode = .code) (h : r.takeCode c = .ok (s.restart c)) :
    r.run (c :: v) = (s.turned c).run v := by
  refine run_cons_ok (step_ok ?_) v
  rw [take, hmode]
  exact h

theorem run_refused {e : SyntaxError} (hmode : r.mode = .code) (h : r.takeCode c = .error e) :
    r.run (c :: v) = .error e := by
  refine run_cons_error ?_ v
  rw [step, take, hmode]
  show (r.takeCode c).map _ = _
  rw [h]
  rfl

end Reader

/-- Where the block at hand opened, if it is nested in another. -/
inductive Opened (t : Text) (opened : Nat) : Bool → List OpenBlock → Prop
  | top : Opened t opened false []
  | block {b : OpenBlock} {outer : List OpenBlock} :
      Position.ofByte? t opened = some b.opened → Opened t opened true (b :: outer)

theorem blockFrom_error {t : Text} {nested : Bool} {opened i : Nat} {nodes : List Node}
    {e : SyntaxError} (h : readStatement t i i 0 [] = some (.error e)) :
    blockFrom t nested opened i nodes = some (.error e) := by
  rw [blockFrom]
  split
  next hnone =>
    rw [h] at hnone
    cases hnone
  next e' herror =>
    rw [h] at herror
    cases herror
    rfl
  next s hs =>
    rw [h] at hs
    cases hs

section

variable {t u v w : Text} {r s : Reader} {nested : Bool} {opened i next : Nat}
  {statement : Option (Except SyntaxError (List Node))}

theorem BlockEnd.ending (hends : NodesEnd s statement) (hmoves : r.Moves v s [])
    (hmode : s.mode = .code) (hopened : Opened t opened nested r.outer) (hle : i ≤ next) :
    BlockEnd t v r nested (onResult statement fun ns =>
      if nested then failAt t .unclosedBlock opened
      else some (.ok
        (⟨Node.renamePropertiesAll propertyName r.nodes ++ ns, next, hle⟩ : Block i))) := by
  have hfinish := hmoves.run.trans (Reader.run_nil hmode)
  cases hends with
  | failed hend =>
    rw [hend] at hfinish
    exact .failed hfinish
  | @done ns hend =>
    rw [hend] at hfinish
    change r.run v = Reader.result { s with nodes := s.nodes ++ ns } at hfinish
    rw [Reader.result, hmoves.outer, hmoves.nodes] at hfinish
    generalize r.outer = outer at hopened hfinish
    cases hopened with
    | top => exact .finished hfinish (Node.renamePropertiesAll_append _ _ _).symm
    | block hplace =>
      show BlockEnd t v r true (failAt t .unclosedBlock opened)
      rw [failAt, hplace]
      exact .failed hfinish

theorem BlockEnd.semicolon (hends : NodesEnd s statement) (hmoves : r.Moves v s (';' :: w))
    (hmode : s.mode = .code) (hdepth : s.depth = 0) (hhere : s.here = .after u)
    (hlt : w.length < v.length) (hnext : next = (u ++ [';']).utf8Length) (hle : i ≤ next)
    (hrest : ∀ q : Reader, q.Fresh (u ++ [';']) → q.outer = r.outer →
      BlockEnd t w q nested (blockFrom t nested opened (u ++ [';']).utf8Length
        (Node.renamePropertiesAll propertyName q.nodes))) :
    BlockEnd t v r nested (onResult statement fun ns =>
      onResult (blockFrom t nested opened next
        (Node.renamePropertiesAll propertyName r.nodes ++ ns)) fun b =>
          some (.ok (b.within hle))) := by
  subst hnext
  have hcode := Reader.takeCode_semicolon hdepth
  cases hends with
  | failed hend =>
    rw [hend] at hcode
    exact .failed (hmoves.run.trans (Reader.run_refused hmode hcode))
  | @done ns hend =>
    rw [hend] at hcode
    have hrun := hmoves.run.trans (Reader.run_turned (v := w) hmode hcode)
    have hnodes : Node.renamePropertiesAll propertyName (s.nodes ++ ns) =
        Node.renamePropertiesAll propertyName r.nodes ++
          Node.renamePropertiesAll propertyName ns := by
      rw [hmoves.nodes, Node.renamePropertiesAll_append]
    show BlockEnd t v r nested (onResult (blockFrom t nested opened _ _) _)
    rw [← hnodes]
    exact .within hle hrun hmoves.outer (Nat.le_of_lt hlt)
      (hrest _ (.turned hmode hdepth hhere) hmoves.outer)

theorem BlockEnd.closing (hends : NodesEnd s statement) (ht : t = u ++ '}' :: w)
    (hmoves : r.Moves v s ('}' :: w)) (hmode : s.mode = .code) (hdepth : s.depth = 0)
    (hhere : s.here = .after u) (hlt : w.length < v.length)
    (hopened : Opened t opened nested r.outer) (hle : i ≤ u.utf8Length + 1) :
    BlockEnd t v r nested (onResult statement fun ns =>
      if nested then
        some (.ok (⟨Node.renamePropertiesAll propertyName r.nodes ++ ns, u.utf8Length + 1, hle⟩ :
          Block i))
      else failAt t .unexpectedClose u.utf8Length) := by
  have hcode := Reader.takeCode_close hdepth
  cases hends with
  | failed hend =>
    rw [hend] at hcode
    exact .failed (hmoves.run.trans (Reader.run_refused hmode hcode))
  | @done ns hend =>
    rw [hend] at hcode
    generalize houter : r.outer = outer at hopened
    have hsouter := hmoves.outer.trans houter
    cases hopened with
    | top =>
      have hclose : s.takeCode '}' = .error ⟨.unexpectedClose, s.here⟩ := by
        rw [hcode]
        simp [Except.bind, Reader.closeBlock, hsouter, Except.map]
      show BlockEnd t v r false (failAt t .unexpectedClose u.utf8Length)
      rw [ht, failAt_eq, ← hhere]
      exact .failed (hmoves.run.trans (Reader.run_refused hmode hclose))
    | @block b outer hplace =>
      have hclose : s.takeCode '}' = .ok (Reader.restart { s with
          nodes := b.before ++ [b.close (s.nodes ++ ns)], outer := outer } '}') := by
        rw [hcode]
        simp [Except.bind, Reader.closeBlock, hsouter, Except.map]
      have hrun := hmoves.run.trans (Reader.run_turned (v := w) hmode hclose)
      refine .closed houter (by simpa using ht) hrun (.turned hmode hdepth hhere) rfl rfl hlt ?_
        (Text.utf8Length_concat_ascii u (by decide)).symm
      rw [hmoves.nodes, Node.renamePropertiesAll_append]

theorem BlockEnd.opening {x : Text} (ht : t = x ++ v) (hstart : s.start = .after x)
    (hsplit : t = u ++ '{' :: w) (hmoves : r.Moves v s ('{' :: w)) (hmode : s.mode = .code)
    (hdepth : s.depth = 0) (hhere : s.here = .after u) (hlt : w.length < v.length)
    (hnext : next = (u ++ ['{']).utf8Length) (hle : i ≤ next)
    (hrest : ∀ (q : Reader) (y z : Text) (inner : Bool) (opened : Nat), t = y ++ z → q.Fresh y →
      Opened t opened inner q.outer → z.length < v.length →
      BlockEnd t z q inner (blockFrom t inner opened y.utf8Length
        (Node.renamePropertiesAll propertyName q.nodes)))
    (hopened : Opened t opened nested r.outer) :
    BlockEnd t v r nested (if s.statementText.isEmpty then failAt t .missingSelector x.utf8Length
      else
        onResult (blockFrom t true (next - 1) next []) fun children =>
          (blockBytes s.statementText children.nodes).bind fun n =>
            onResult (blockFrom t nested opened children.next
              (Node.renamePropertiesAll propertyName r.nodes ++ [n])) fun b =>
                some (.ok (b.within (hle.trans children.le)))) := by
  subst hnext
  have hcode := Reader.takeCode_open hdepth
  by_cases hempty : s.statementText.isEmpty = true
  · rw [Reader.openBlock, if_pos hempty] at hcode
    rw [if_pos hempty, ht, failAt_eq, ← hstart]
    exact .failed (hmoves.run.trans (Reader.run_refused hmode hcode))
  rw [Reader.openBlock, if_neg hempty] at hcode
  rw [if_neg hempty]
  have hrun := hmoves.run.trans (Reader.run_turned (v := w) hmode hcode)
  have hopen : (u ++ ['{']).utf8Length - 1 = u.utf8Length := by
    rw [Text.utf8Length_concat_ascii u (by decide), Nat.add_sub_cancel]
  have hplace : Position.ofByte? t u.utf8Length = some s.here := by
    rw [hsplit, Position.ofByte?_eq, hhere]
  have hinner := hrest (Reader.turned { s with
    nodes := [], outer := ⟨s.statementText, s.nodes, s.here⟩ :: s.outer } '{') (u ++ ['{']) w true
    u.utf8Length (by simpa using hsplit) (.turned hmode hdepth hhere) (.block hplace) hlt
  rw [hopen]
  change BlockEnd t w _ true (blockFrom t true u.utf8Length (u ++ ['{']).utf8Length []) at hinner
  generalize blockFrom t true u.utf8Length (u ++ ['{']).utf8Length [] = inner at hinner
  cases hinner with
  | failed herror => exact .failed (hrun.trans herror)
  | @closed b block outer y z q ns hblock hyz hnext hfresh hclose houter hshort hnodes hstop =>
    obtain ⟨children, stop, hle'⟩ := b
    obtain ⟨rfl, rfl⟩ := List.cons.inj hblock
    subst hnodes hstop
    have hne : s.statementText ≠ [] := by simpa using hempty
    have hnode := blockBytes_eq (b := ⟨s.statementText, s.nodes, s.here⟩) hne ns
    have hall : Node.renamePropertiesAll propertyName q.nodes =
        Node.renamePropertiesAll propertyName r.nodes ++
          [(OpenBlock.close ⟨s.statementText, s.nodes, s.here⟩ ns).renameProperties
            propertyName] := by
      rw [hclose, Node.renamePropertiesAll_append, hmoves.nodes, Node.renamePropertiesAll,
        Node.renamePropertiesAll]
    have hqouter : q.outer = r.outer := houter.trans hmoves.outer
    show BlockEnd t v r nested (Option.bind (blockBytes s.statementText _) _)
    rw [hnode, Option.bind_some, ← hall]
    exact .within _ (hrun.trans hnext) hqouter (by omega)
      (hrest q y z nested opened hyz hfresh (hqouter ▸ hopened) (by omega))

end

theorem blockFrom_ends {t u v : Text} {r : Reader} {nested : Bool} {opened : Nat}
    (ht : t = u ++ v) (hfresh : r.Fresh u) (hopened : Opened t opened nested r.outer) :
    BlockEnd t v r nested (blockFrom t nested opened u.utf8Length
      (Node.renamePropertiesAll propertyName r.nodes)) := by
  induction hn : v.length using Nat.strongRecOn generalizing u v r nested opened with
  | ind n ih =>
    have hstatement := readStatement_ends (y := []) [] ht hfresh.mode
      (by rw [hfresh.read]; rfl) (by rw [hfresh.here, List.append_nil])
    rw [List.append_nil, hfresh.depth] at hstatement
    generalize hread : readStatement t u.utf8Length u.utf8Length 0 [] = result at hstatement
    cases hstatement with
    | failed herror =>
      rw [blockFrom_error hread]
      exact .failed herror
    | @ended s hmoves hmode =>
      rw [blockFrom_eq hread]
      have hends := statementNodes_ends ht (hmoves.start.trans hfresh.start)
      exact .ending hends hmoves hmode hopened _
    | @stopped u' w c s hc hsplit hmoves hmode hdepth hhere hlt =>
      have hends := statementNodes_ends ht (hmoves.start.trans hfresh.start)
      have hrest : t = (u' ++ [c]) ++ w := by simpa using hsplit
      rw [blockFrom_eq hread]
      simp only [isTerminator, Bool.or_eq_true, decide_eq_true_eq] at hc
      rcases hc with (rfl | rfl) | rfl
      · refine .semicolon hends hmoves hmode hdepth hhere hlt
          (Text.utf8Length_concat_ascii _ (by decide)).symm _ fun q hq houter => ?_
        exact ih w.length (by omega) hrest hq (houter ▸ hopened) rfl
      · exact .opening ht (hmoves.start.trans hfresh.start) hsplit hmoves hmode hdepth hhere hlt
          (Text.utf8Length_concat_ascii _ (by decide)).symm (lt_of_readStatement hread).1
          (fun q y z inner opened hyz hq hinner hlength => ih z.length (by omega) hyz hq hinner rfl)
          hopened
      · exact .closing hends hsplit hmoves hmode hdepth hhere hlt hopened _

/-- A style text, read byte by byte. -/
def parseByByte? (t : Text) : Option (Except SyntaxError (List Node)) :=
  onResult (blockFrom t false 0 0 []) fun b => some (.ok b.nodes)

theorem parseByByte?_eq (t : Text) : parseByByte? t = some (parse t) := by
  have hfresh : Reader.initial.Fresh [] := ⟨rfl, rfl, rfl, rfl, rfl⟩
  have hends : BlockEnd t t .initial false (blockFrom t false 0 0 []) :=
    blockFrom_ends (u := []) rfl hfresh .top
  have hparse : parse t = (Reader.initial.run t).map (Node.renamePropertiesAll propertyName) := rfl
  rw [parseByByte?, hparse]
  generalize blockFrom t false 0 0 [] = result at hends
  cases hends with
  | failed herror =>
    rw [herror]
    rfl
  | finished hok hnodes =>
    rw [hok]
    exact congrArg (fun ns => some (Except.ok ns)) hnodes

/--
For every text the scans by bytes of a style text, of a selector list and of a nested selector find
each byte that they ask for, cut the text between characters only and never close a parenthesis that
is not open; and what they return is what the scans by characters return.
-/
theorem byte_scans_agree (t : Text) :
    parseByByte? t = some (parse t) ∧
      Selector.entriesByByte? t = some (Selector.entries t) ∧
      Selector.Pseudo.ofBytes? t = some (Selector.Pseudo.ofEntry? t) :=
  ⟨parseByByte?_eq t, Selector.entriesByByte?_eq t, Selector.Pseudo.ofBytes?_eq t⟩

end AtomicCss
