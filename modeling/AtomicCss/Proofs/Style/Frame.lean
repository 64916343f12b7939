import AtomicCss.Proofs.Style.Weight
import AtomicCss.Proofs.Style.Whole
import AtomicCss.Proofs.Text.Words
set_option autoImplicit false

/-!
What stands around a text: complete nodes before it, and blanks on both sides.

Two readers that differ in complete nodes at the bottom, in blanks before the statement that they
are in and in where they stand come to the same end: both fail, or one gets the nodes of the other
after the nodes that it had more (`Reader.Frames.reads`). Blanks after a text change nothing, for
they neither close a string nor a comment.
-/

namespace AtomicCss

theorem Quoting.next_inside {c d : Char} (h : (Quoting.inside d).next c ≠ .bare) :
    (Quoting.inside d).next c = .inside d ∨ (Quoting.inside d).next c = .escaped d := by
  by_cases hescape : c = '\\'
  · exact Or.inr (if_pos hescape)
  · by_cases hclose : c = d
    · exact absurd ((if_neg hescape).trans (if_pos hclose)) h
    · exact Or.inl ((if_neg hescape).trans (if_neg hclose))

/-- The same blocks are open around the same nodes, but for `front` at the bottom. -/
inductive Stacked (front : List Node) :
    List OpenBlock → List Node → List OpenBlock → List Node → Prop where
  | bottom {nodes : List Node} : Stacked front [] (front ++ nodes) [] nodes
  | block {head : Text} {p q : Position} {outer inner : List OpenBlock}
      {before above nodes : List Node} : Stacked front outer before inner above →
      Stacked front (⟨head, before, p⟩ :: outer) nodes (⟨head, above, q⟩ :: inner) nodes

theorem Stacked.append {front : List Node} {outer inner : List OpenBlock} {l k : List Node}
    (h : Stacked front outer l inner k) (nodes : List Node) :
    Stacked front outer (l ++ nodes) inner (k ++ nodes) := by
  cases h with
  | bottom =>
    rw [List.append_assoc]
    exact .bottom
  | block h => exact .block h

namespace Reader

/-- The first reader is the second one behind the nodes `front` and some blanks. -/
structure Frames (front : List Node) (a b : Reader) : Prop where
  mode : a.mode = b.mode
  depth : a.depth = b.depth
  statement : ∀ t, Text.trim (a.read.reverse ++ t) = Text.trim (b.read.reverse ++ t)
  stack : Stacked front a.outer a.nodes b.outer b.nodes

namespace Frames

variable {front : List Node} {a b : Reader}

theorem statementText (h : Frames front a b) : a.statementText = b.statementText := by
  simpa [Reader.statementText] using h.statement []

theorem push (h : Frames front a b) (c : Char) : Frames front (a.push c) (b.push c) where
  mode := h.mode
  depth := h.depth
  statement t := by simpa [Reader.push] using h.statement (c :: t)
  stack := h.stack

theorem restart (h : Frames front a b) (c : Char) : Frames front (a.restart c) (b.restart c) where
  mode := h.mode
  depth := h.depth
  statement _ := rfl
  stack := h.stack

theorem endStatement (h : Frames front a b) :
    Agree (Frames front) a.endStatement b.endStatement := by
  unfold Reader.endStatement
  rw [h.statementText]
  split
  · exact .ok h
  · cases Node.ofStatement b.statementText with
    | error fault => exact .error
    | ok n => exact .ok ⟨h.mode, h.depth, h.statement, h.stack.append [n]⟩

theorem openBlock (h : Frames front a b) : Agree (Frames front) a.openBlock b.openBlock := by
  unfold Reader.openBlock
  rw [h.statementText]
  split
  · exact .error
  · exact .ok ⟨h.mode, h.depth, h.statement, .block h.stack⟩

theorem closeBlock (h : Frames front a b) : Agree (Frames front) a.closeBlock b.closeBlock := by
  obtain ⟨mode, depth, read, start, mark, here, nodes, outer⟩ := a
  obtain ⟨mode', depth', read', start', mark', here', nodes', outer'⟩ := b
  have hstack : Stacked front outer nodes outer' nodes' := h.stack
  cases hstack with
  | bottom => exact .error
  | block hstack => exact .ok ⟨h.mode, h.depth, h.statement, hstack.append _⟩

theorem takeCode (h : Frames front a b) (c : Char) :
    Agree (Frames front) (a.takeCode c) (b.takeCode c) := by
  unfold Reader.takeCode
  rw [h.depth]
  split
  · exact .ok ⟨rfl, rfl, h.statement, h.stack⟩
  split
  · exact .ok ⟨rfl, h.depth, (h.push c).statement, h.stack⟩
  split
  · exact .ok ⟨h.mode, rfl, (h.push c).statement, h.stack⟩
  split
  · exact .ok ⟨h.mode, rfl, (h.push c).statement, h.stack⟩
  split
  · exact .ok (h.push c)
  split
  · exact h.endStatement.map fun _ _ hs => hs.restart c
  split
  · exact h.openBlock.map fun _ _ hs => hs.restart c
  split
  · refine h.endStatement.bind fun _ _ hs => ?_
    exact hs.closeBlock.map fun _ _ ht => ht.restart c
  · exact .ok (h.push c)

theorem take (h : Frames front a b) (c : Char) :
    Agree (Frames front) (a.take c) (b.take c) := by
  unfold Reader.take
  rw [h.mode]
  split
  · exact h.takeCode c
  · split
    · exact .ok ⟨rfl, h.depth, h.statement, h.stack⟩
    · have hcode : Frames front { a with mode := .code } { b with mode := .code } :=
        ⟨rfl, h.depth, h.statement, h.stack⟩
      exact (hcode.push '/').takeCode c
  · exact .ok ⟨rfl, h.depth, h.statement, h.stack⟩
  · exact .ok ⟨rfl, h.depth, h.statement, h.stack⟩
  · split
    · exact .error
    · exact .ok ⟨rfl, h.depth, (h.push c).statement, h.stack⟩

theorem readAll (h : Frames front a b) (t : Text) :
    Agree (Frames front) (a.readAll t) (b.readAll t) := by
  induction t generalizing a b with
  | nil => exact .ok h
  | cons c t ih =>
    have hstep : Agree (Frames front) (a.step c) (b.step c) :=
      (h.take c).map fun _ _ hs => ⟨hs.mode, hs.depth, hs.statement, hs.stack⟩
    exact hstep.bind fun _ _ hs => ih hs

theorem ended (h : Frames front a b) :
    Agree (fun nodes rest => nodes = front ++ rest)
      (match a.outer with
        | [] => .ok a.nodes
        | o :: _ => .error (⟨.unclosedBlock, o.opened⟩ : SyntaxError))
      (match b.outer with
        | [] => .ok b.nodes
        | o :: _ => .error ⟨.unclosedBlock, o.opened⟩) := by
  have hstack := h.stack
  generalize a.outer = outer, a.nodes = nodes, b.outer = inner, b.nodes = rest at hstack
  cases hstack with
  | bottom => exact .ok rfl
  | block => exact .error

theorem finish (h : Frames front a b) :
    Agree (fun nodes rest => nodes = front ++ rest) a.finish b.finish := by
  unfold Reader.finish
  rw [h.mode]
  cases b.mode with
  | code => exact h.endStatement.bind fun _ _ hs => hs.ended
  | slash => exact (h.push '/').endStatement.bind fun _ _ hs => hs.ended
  | comment | commentStar | quoted q => exact .error

theorem reads (h : Frames front a b) (t : Text) :
    Agree (fun nodes rest => nodes = front ++ rest) ((a.readAll t).bind Reader.finish)
      ((b.readAll t).bind Reader.finish) :=
  (h.readAll t).bind fun _ _ hs => hs.finish

end Frames

theorem Ready.frames {r s : Reader} (hr : r.Ready) (hs : s.Ready) (hrouter : r.outer = [])
    (hsouter : s.outer = []) (hnodes : s.nodes = []) : Frames r.nodes r s where
  mode := hr.mode.trans hs.mode.symm
  depth := hr.depth.trans hs.depth.symm
  statement t := by
    have htrim : ∀ u : Reader, u.Ready → Text.trim (u.read.reverse ++ t) = Text.trim t :=
      fun u hu => Text.trim_blank_append (fun c hc => hu.blank c (List.mem_reverse.1 hc)) t
    rw [htrim r hr, htrim s hs]
  stack := by
    have hstack := @Stacked.bottom r.nodes []
    rw [List.append_nil] at hstack
    rw [hrouter, hsouter, hnodes]
    exact hstack

theorem ready_initial : initial.Ready := ⟨rfl, rfl, by simp [initial]⟩

/-- An open parenthesis stands in the statement, and an open string waits for a quote. -/
structure Coherent (r : Reader) : Prop where
  depth : r.depth ≠ 0 → '(' ∈ r.read
  quoted : ∀ q, r.mode = .quoted q → ∃ c, isQuote c = true ∧ (q = .inside c ∨ q = .escaped c)

theorem mem_pending_paren {r : Reader} : '(' ∈ r.pending ↔ '(' ∈ r.read := by
  unfold pending
  split <;> simp

theorem Coherent.step {r s : Reader} {c : Char} (hr : r.Coherent) (h : r.step c = .ok s) :
    s.Coherent := by
  rcases step_cases h with ⟨hscan, hcontinues⟩ | ⟨_, _, hready, _⟩ | ⟨_, hidles, hmode, _⟩
  · obtain ⟨hdepth, hquoted⟩ := Scan.step_some hscan
    refine ⟨fun hs => ?_, fun q hq => ?_⟩
    · rw [← mem_pending_paren, hcontinues.pending]
      rcases hdepth hs with hr' | rfl
      · simp [mem_pending_paren, hr.depth hr']
      · simp
    · rcases hquoted q hq with ⟨hc, rfl⟩ | ⟨p, hp, rfl, hopen⟩
      · exact ⟨c, hc, Or.inl rfl⟩
      · obtain ⟨d, hd, rfl | rfl⟩ := hr.quoted p hp
        · exact ⟨d, hd, Quoting.next_inside hopen⟩
        · exact ⟨d, hd, Or.inl rfl⟩
  · exact ⟨fun hs => absurd hready.depth hs, fun q hq => by simp [hready.mode] at hq⟩
  · refine ⟨fun hs => ?_, fun q hq => absurd hq (hmode q)⟩
    obtain ⟨w, _, hw⟩ := hidles.read
    rw [hw]
    exact List.mem_append_right _ (hr.depth (hidles.depth ▸ hs))

theorem Coherent.readAll {r s : Reader} {t : Text} (hr : r.Coherent) (h : r.readAll t = .ok s) :
    s.Coherent := by
  induction t generalizing r with
  | nil =>
    cases h
    exact hr
  | cons c t ih =>
    obtain ⟨u, hu, h⟩ := readAll_cons_ok h
    exact ih (hr.step hu) h

theorem coherent_initial : initial.Coherent := ⟨fun h => absurd rfl h, fun q hq => by cases hq⟩

theorem blank_of_statement_nil {r : Reader} (h : r.statement = []) :
    ∀ c ∈ r.pending, isBlank c = true := by
  rw [← Text.ink_eq_zero, ← ink_statement, h]
  rfl

theorem Coherent.depth_eq_zero {r : Reader} (hr : r.Coherent) (h : r.statement = []) :
    r.depth = 0 := by
  -- an open parenthesis would be in the statement
  refine Decidable.byContradiction fun hopen => ?_
  have hparen := mem_pending_paren.2 (hr.depth hopen)
  exact absurd (blank_of_statement_nil h '(' hparen) (by decide)

theorem Coherent.mode_step_blank {r s : Reader} {c : Char} (hr : r.Coherent)
    (hc : isBlank c = true) (hmode : ¬(r.mode = .code ∨ r.mode = .slash)) (h : r.step c = .ok s) :
    ¬(s.mode = .code ∨ s.mode = .slash) := by
  have hne : ∀ d, isBlank d = false → c ≠ d := fun _ => ne_of_isBlank hc
  obtain ⟨t, ht, rfl⟩ := take_of_step h
  unfold take at ht
  cases hr' : r.mode with
  | code => exact absurd (Or.inl hr') hmode
  | slash => exact absurd (Or.inr hr') hmode
  | comment =>
    rw [hr'] at ht
    cases ht
    simp [hne '*' (by decide)]
  | commentStar =>
    rw [hr'] at ht
    cases ht
    simp [hne '*' (by decide), hne '/' (by decide)]
  | quoted q =>
    rw [hr'] at ht
    dsimp only at ht
    split at ht
    · cases ht
    · cases ht
      have hopen : q.next c ≠ .bare := by
        obtain ⟨d, hd, rfl | rfl⟩ := hr.quoted q hr'
        · have hquote : c ≠ d := by
            rintro rfl
            simp [isQuote, hne '"' (by decide), hne '\'' (by decide)] at hd
          simp only [Quoting.next, hquote, if_false]
          split <;> simp
        · simp [Quoting.next]
      simp [hopen]

theorem Coherent.finish_of_blank {r s : Reader} {c : Char} {nodes : List Node} (hr : r.Coherent)
    (hc : isBlank c = true) (h : r.step c = .ok s) (hs : s.finish = .ok nodes) :
    r.finish = .ok nodes := by
  obtain ⟨hmode, houter, hnodes⟩ := finish_eq_ok.1 hs
  by_cases hcode : r.mode = .code ∨ r.mode = .slash
  · obtain ⟨u, hu, _, hcontinues⟩ := step_of_scan (Scan.step_blank (s := r.scan) hcode hc)
    cases hu.symm.trans h
    have hstatement : s.statement = r.statement := by
      rw [statement, hcontinues.pending, List.reverse_append, List.reverse_reverse]
      exact Text.trim_append_blank (by simpa using hc) _
    rw [hstatement, hcontinues.nodes] at hnodes
    exact finish_eq_ok.2 ⟨hcode, hcontinues.outer ▸ houter, hnodes⟩
  · exact absurd hmode (hr.mode_step_blank hc hcode h)

theorem Coherent.finish_of_blanks {r : Reader} {t : Text} {nodes : List Node} (hr : r.Coherent)
    (ht : ∀ c ∈ t, isBlank c = true) (h : (r.readAll t).bind finish = .ok nodes) :
    r.finish = .ok nodes := by
  induction t generalizing r with
  | nil => exact h
  | cons c t ih =>
    obtain ⟨u, hu, hfinish⟩ := bind_ok h
    obtain ⟨s, hs, hu⟩ := readAll_cons_ok hu
    have hrest : (s.readAll t).bind finish = .ok nodes := by
      rw [hu]
      exact hfinish
    exact hr.finish_of_blank (ht c List.mem_cons_self) hs
      (ih (hr.step hs) (fun d hd => ht d (List.mem_cons_of_mem _ hd)) hrest)

end Reader

theorem parseAsWritten_trim {t : Text} {nodes : List Node} (h : parseAsWritten t = .ok nodes) :
    parseAsWritten (Text.trim t) = .ok nodes := by
  obtain ⟨u, v, hu, hv, heq⟩ := Text.exists_append_trim t
  obtain ⟨s, hs, hready, hnodes, houter⟩ := Reader.ready_initial.readAll_blank hu
  -- behind the blanks the rest is read as it is at the start
  have hstart : (s.readAll (Text.trim t ++ v)).bind Reader.finish = .ok nodes := by
    rw [parseAsWritten, heq, Reader.readAll_append, hs] at h
    exact h
  have hframes := hready.frames Reader.ready_initial houter rfl rfl
  obtain ⟨rest, hrest, rfl⟩ := (hframes.reads _).ok_left hstart
  rw [Reader.readAll_append] at hrest
  obtain ⟨r, hr, hfinish⟩ := bind_ok hrest
  obtain ⟨e, he, hr⟩ := bind_ok hr
  have hend : (e.readAll v).bind Reader.finish = .ok rest := by
    rw [hr]
    exact hfinish
  rw [parseAsWritten, he, hnodes]
  exact (Reader.coherent_initial.readAll he).finish_of_blanks hv hend

theorem parse_trim {t : Text} {nodes : List Node} (h : parse t = .ok nodes) :
    parse (Text.trim t) = .ok nodes := by
  obtain ⟨written, hwritten, rfl⟩ := map_ok h
  rw [parse, parseAsWritten_trim hwritten]
  rfl

end AtomicCss
