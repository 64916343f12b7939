import AtomicCss.Proofs.Style.Weight
import AtomicCss.Proofs.Style.Whole
set_option autoImplicit false

/-!
Readings that keep all ink of their text.

A text may come to the expected tree only if each of its statements is whole: a reader that runs
past the end of a statement makes a mark of more ink than expected, and one that meets a comment
loses ink, which no later character can bring back.
-/

namespace AtomicCss

def Mark.rename (f : Text → Text) : Mark → Mark
  | .leaf n => .leaf (n.renameProperties f)
  | .opening atRule head => .opening atRule head
  | .closing => .closing

namespace Text

theorem isBlank_toLower (c : Char) : isBlank c.toLower = isBlank c := by
  rcases toNat_toLower c with h | ⟨h₁, h₂, h⟩
  · rw [h]
  · have hupper : isBlank c = false := by
      simp only [isBlank]
      simp
      omega
    have hlower : isBlank c.toLower = false := by
      simp only [isBlank, h]
      simp
      omega
    rw [hupper, hlower]

@[simp] theorem ink_lower (t : Text) : ink t.lower = ink t := by
  induction t with
  | nil => rfl
  | cons c t ih => rw [lower_cons, ink_cons, ink_cons, isBlank_toLower, ih]

end Text

@[simp] theorem ink_propertyName (t : Text) : Text.ink (propertyName t) = Text.ink t := by
  unfold propertyName
  split
  · rfl
  · exact Text.ink_lower t

namespace Node

mutual

theorem marks_renameProperties (f : Text → Text) (n : Node) :
    (n.renameProperties f).marks = n.marks.map (Mark.rename f) := by
  match n with
  | .declaration property value => rfl
  | .statement header => rfl
  | .rule selector children =>
    simp [renameProperties, marks, Mark.rename, marksAll_renameProperties f children]
  | .atRule header children =>
    simp [renameProperties, marks, Mark.rename, marksAll_renameProperties f children]

theorem marksAll_renameProperties (f : Text → Text) (nodes : List Node) :
    marksAll (renamePropertiesAll f nodes) = (marksAll nodes).map (Mark.rename f) := by
  match nodes with
  | [] => rfl
  | n :: r =>
    simp [renamePropertiesAll, marksAll, marks_renameProperties f n,
      marksAll_renameProperties f r]

end

mutual

theorem ink_render_renameProperties {f : Text → Text} (hf : ∀ t, Text.ink (f t) = Text.ink t)
    (n : Node) : Text.ink (n.renameProperties f).render = Text.ink n.render := by
  match n with
  | .declaration property value => simp [renameProperties, render, hf]
  | .statement header => rfl
  | .rule selector children =>
    have hall := ink_renderAll_renameProperties hf children
    simp [renameProperties, render, Text.ink_cons, hall]
  | .atRule header children =>
    have hall := ink_renderAll_renameProperties hf children
    simp [renameProperties, render, Text.ink_cons, hall]

theorem ink_renderAll_renameProperties {f : Text → Text}
    (hf : ∀ t, Text.ink (f t) = Text.ink t) (nodes : List Node) :
    Text.ink (renderAll (renamePropertiesAll f nodes)) = Text.ink (renderAll nodes) := by
  match nodes with
  | [] => rfl
  | [n] => simp [renamePropertiesAll, ink_render_renameProperties hf n]
  | n :: m :: r =>
    have hrest := ink_renderAll_renameProperties hf (m :: r)
    rw [renamePropertiesAll] at hrest
    simp [renamePropertiesAll, renderAll, ink_render_renameProperties hf n, hrest]

end

end Node

namespace Mark

@[simp] theorem size_rename (m : Mark) : (m.rename propertyName).size = m.size := by
  cases m with
  | leaf n => exact Node.ink_render_renameProperties ink_propertyName n
  | opening atRule head => rfl
  | closing => rfl

@[simp] theorem isLeaf_rename (f : Text → Text) (m : Mark) : (m.rename f).isLeaf = m.isLeaf := by
  cases m <;> rfl

theorem eq_of_rename_eq {m k : Mark} (h : m.rename propertyName = k.rename propertyName) :
    m.size = k.size ∧ m.isLeaf = k.isLeaf := by
  constructor
  · rw [← size_rename, h, size_rename]
  · rw [← isLeaf_rename propertyName, h, isLeaf_rename]

theorem cost_rename (b : Bool) (m : Mark) : (m.rename propertyName).cost b = m.cost b := by
  cases m with
  | leaf n => exact congrArg (· + 1) (Node.ink_render_renameProperties ink_propertyName n)
  | opening atRule head => rfl
  | closing => rfl

theorem costAll_rename (b : Bool) (l : List Mark) :
    costAll b (l.map (rename propertyName)) = costAll b l := by
  induction l generalizing b with
  | nil => rfl
  | cons m l ih => rw [List.map_cons, costAll, costAll, cost_rename, isLeaf_rename, ih]

theorem endsWithLeaf_rename (b : Bool) (f : Text → Text) (l : List Mark) :
    endsWithLeaf b (l.map (rename f)) = endsWithLeaf b l := by
  induction l generalizing b with
  | nil => rfl
  | cons m l ih => rw [List.map_cons, endsWithLeaf_cons, endsWithLeaf_cons, isLeaf_rename, ih]

end Mark

/-- Two places before characters that are not blank are the same if as much ink stands before them.
-/
theorem Text.eq_of_ink_eq {x u t v : Text} {c d : Char} (h : x ++ c :: t = u ++ d :: v)
    (hc : isBlank c = false) (hd : isBlank d = false) (hink : ink x = ink u) : x = u := by
  rcases List.append_eq_append_iff.1 h with ⟨a, hu, ha⟩ | ⟨a, hx, ha⟩
  · cases a with
    | nil => exact (hu.trans (List.append_nil x)).symm
    | cons e a =>
      cases ha
      rw [hu, ink_append, ink_cons, hc] at hink
      simp at hink
  · cases a with
    | nil => exact hx.trans (List.append_nil u)
    | cons e a =>
      cases ha
      rw [hx, ink_append, ink_cons, hd] at hink
      simp at hink

theorem Leaves.size_eq {t : Text} {c : Char} {m : Mark} {ms : List Mark}
    (h : Leaves t c (m :: ms)) : m.size = Text.ink t := by
  cases h with
  | head hne =>
    rw [Mark.ofHead]
    split <;> simp [Mark.size]
  | statement hne hn => exact (Node.ofStatement_ok hn).2
  | close => rfl
  | last hne hn => exact (Node.ofStatement_ok hn).2

namespace Reader

/--
Reading `t` ends with these nodes and keeps all ink, `ms` being the marks still to come, with the
names of their properties in the case that the parser puts them in.
-/
structure Faithful (r : Reader) (t : Text) (nodes : List Node) (ms : List Mark) : Prop where
  reads : (r.readAll t).bind finish = .ok nodes
  marks : (Node.marksAll nodes).map (.rename propertyName)
    = r.marks.map (.rename propertyName) ++ ms
  keeps : r.weight + Text.ink t ≤ Mark.costAll false (Node.marksAll nodes)
  closed : Mark.endsWithLeaf false (Node.marksAll nodes) = false

variable {r s : Reader} {x t : Text} {nodes : List Node} {ms : List Mark}

theorem Faithful.finish_marks (h : r.Faithful t nodes ms) (hs : r.readAll t = .ok s) :
    Node.marksAll nodes = s.marks := by
  have hfinish := h.reads
  rw [hs] at hfinish
  rcases finish_ok hfinish with ⟨_, hmarks⟩ | ⟨n, _, hmarks⟩
  · exact hmarks
  · have hclosed := h.closed
    simp [hmarks, Mark.endsWithLeaf, Mark.isLeaf] at hclosed

theorem Faithful.readAll (h : r.Faithful (x ++ t) nodes ms) : ∃ s, r.readAll x = .ok s := by
  have hreads := h.reads
  rw [readAll_append] at hreads
  obtain ⟨u, hu, _⟩ := bind_ok hreads
  obtain ⟨s, hs, _⟩ := bind_ok hu
  exact ⟨s, hs⟩

theorem Faithful.of_readAll (h : r.Faithful (x ++ t) nodes ms) (hs : r.readAll x = .ok s) :
    r.weight + Text.ink x ≤ s.weight ∧ ∃ ks ls, ms = ks.map (.rename propertyName) ++ ls ∧
      s.marks = r.marks ++ ks ∧ s.Faithful t nodes ls := by
  have hreads := h.reads
  have hkeeps := h.keeps
  rw [readAll_append, hs] at hreads
  obtain ⟨u, hu, _⟩ := bind_ok hreads
  have hlast : Node.marksAll nodes = u.marks :=
    h.finish_marks (by rw [readAll_append, hs]; exact hu)
  obtain ⟨ks, hks, hsweight⟩ := readAll_marks hs
  obtain ⟨ls, hls, huweight⟩ := readAll_marks hu
  have hcost : Mark.costAll false u.marks ≤ u.weight := by
    rw [weight]
    omega
  have hms := h.marks
  rw [hlast, hls, hks, List.map_append, List.map_append, List.append_assoc,
    List.append_cancel_left_eq] at hms
  rw [Text.ink_append, hlast] at hkeeps
  refine ⟨by omega, ks, _, hms.symm, hks, hreads, ?_, ?_, h.closed⟩
  · rw [hlast, hls, List.map_append]
  · rw [hlast]
    omega

theorem Faithful.end_marks (h : r.Faithful t nodes ms) (hs : r.readAll t = .ok s)
    (hmarks : s.marks = r.marks) : ms = [] := by
  have hms := h.marks
  rw [h.finish_marks hs, hmarks] at hms
  simpa using hms

theorem Faithful.isWhole {c : Char} {m : Mark} (h : r.Faithful (x ++ c :: t) nodes (m :: ms))
    (hr : r.Ready) (hc : isTerminator c = true) (hm : m.size = Text.ink x) :
    isWhole x = true := by
  rcases Scan.run_cases .start (x ++ c :: t) with ⟨e, he⟩ | ⟨u, d, v, e, heq, hu, he⟩
  · -- a statement that never ends leaves no mark, and one is expected
    rw [← hr.scan_eq] at he
    obtain ⟨s, hs, _, hcontinues⟩ := readAll_of_scan he
    cases h.end_marks hs hcontinues.marks
  · -- the statement ends at `d`, which has to be the `c` after `x`
    rw [← hr.scan_eq] at hu
    obtain ⟨s, hs, rfl, hcontinues⟩ := readAll_of_scan hu
    have hlive : s.scan.Live := Scan.live_run (by simp [Scan.Live, scan, hr.mode]) hu
    rw [heq] at h
    obtain ⟨_, ks, ls, hms, hks, h⟩ := h.of_readAll hs
    rw [hcontinues.marks, List.self_eq_append_right] at hks
    subst hks
    obtain ⟨p, hp⟩ := Faithful.readAll (x := [d]) h
    have hstep : s.step d = .ok p := (readAll_singleton s d).symm.trans hp
    obtain ⟨hkeeps, ks, ls, hmarks, hks, _⟩ := Faithful.of_readAll (x := [d]) h hp
    rcases stop_cases hlive he hstep with ⟨hrest, hd⟩ | ⟨_, _, _, hloss⟩
    · obtain ⟨hready, js, hleaves, hjs⟩ := step_terminator hrest hd hstep
      have hloss := (weight_terminator hd hready hleaves hjs).2
      rw [hks, List.append_cancel_left_eq] at hjs
      subst hjs
      cases ks with
      | nil =>
        have := hloss rfl
        omega
      | cons k ks =>
        -- the mark made at `d` holds the ink before `d`, and the mark expected that of `x`
        have hink : Text.ink u = Text.ink x := by
          rw [← hm, List.head_eq_of_cons_eq (hms.trans hmarks), Mark.size_rename, hleaves.size_eq,
            hr.statement_of_continues hcontinues, Text.ink_trim]
        cases Text.eq_of_ink_eq heq (isBlank_terminator hc) (isBlank_terminator hd) hink.symm
        exact (Option.any_eq_true _ _).2 ⟨s.scan, hr.scan_eq ▸ hu, hrest⟩
    · omega

/-- A whole statement and the character that ends it account for the next marks. -/
theorem Faithful.next {c : Char} (h : r.Faithful (x ++ c :: t) nodes ms) (hr : r.Ready)
    (hc : isTerminator c = true) (hx : AtomicCss.isWhole x = true) :
    ∃ (s : Reader) (ks ls : List Mark), ms = ks.map (.rename propertyName) ++ ls ∧ s.Ready ∧
      Leaves (Text.trim x) c ks ∧ s.Faithful t nodes ls := by
  obtain ⟨u, hu, hholds⟩ := hr.readAll_whole hx
  have humarks : u.marks = r.marks := by rw [Reader.marks, Reader.marks, hholds.nodes, hholds.outer]
  rw [← List.singleton_append, ← List.append_assoc] at h
  obtain ⟨s, hs⟩ := h.readAll
  have hstep : u.step c = .ok s := by
    rw [readAll_append, hu] at hs
    exact (readAll_singleton u c).symm.trans hs
  obtain ⟨hready, js, hleaves, hjs⟩ := step_terminator hholds.rest hc hstep
  obtain ⟨_, ks, ls, hms, hks, hrest⟩ := h.of_readAll hs
  rw [hjs, humarks, List.append_cancel_left_eq] at hks
  subst hks
  rw [hholds.statement] at hleaves
  exact ⟨s, _, ls, hms, hready, hleaves, hrest⟩

theorem Faithful.head {b : Bool} {head : Text}
    (h : r.Faithful (x ++ '{' :: t) nodes (.opening b head :: ms)) (hr : r.Ready)
    (hink : Text.ink head = Text.ink x) :
    AtomicCss.isWhole x = true ∧ Mark.ofHead (Text.trim x) = .opening b head ∧
      ∃ s : Reader, s.Ready ∧ s.Faithful t nodes ms := by
  have hx := h.isWhole hr rfl hink
  obtain ⟨s, ks, ls, hms, hready, hleaves, hrest⟩ := h.next hr rfl hx
  generalize Text.trim x = y at hleaves
  cases hleaves with
  | head _ =>
    obtain ⟨hmark, rfl⟩ := List.cons_eq_cons.1 hms
    refine ⟨hx, ?_, s, hready, hrest⟩
    rw [hmark, Mark.ofHead]
    split <;> rfl

theorem Faithful.statement {n : Node} (h : r.Faithful (x ++ ';' :: t) nodes (.leaf n :: ms))
    (hr : r.Ready) (hink : Text.ink n.render = Text.ink x) (hne : Text.trim x ≠ []) :
    AtomicCss.isWhole x = true ∧
      (∃ k, Node.ofStatement (Text.trim x) = .ok k ∧ k.renameProperties propertyName = n) ∧
      ∃ s : Reader, s.Ready ∧ s.Faithful t nodes ms := by
  have hx := h.isWhole hr rfl hink
  obtain ⟨s, ks, ls, hms, hready, hleaves, hrest⟩ := h.next hr rfl hx
  generalize Text.trim x = y at hleaves hne
  cases hleaves with
  | nothing => contradiction
  | statement _ hk =>
    obtain ⟨hmark, rfl⟩ := List.cons_eq_cons.1 hms
    exact ⟨hx, ⟨_, hk, (Mark.leaf.inj hmark).symm⟩, s, hready, hrest⟩

theorem Faithful.last {n : Node} (h : r.Faithful (x ++ '}' :: t) nodes (.leaf n :: .closing :: ms))
    (hr : r.Ready) (hink : Text.ink n.render = Text.ink x) :
    AtomicCss.isWhole x = true ∧
      (∃ k, Node.ofStatement (Text.trim x) = .ok k ∧ k.renameProperties propertyName = n) ∧
      ∃ s : Reader, s.Ready ∧ s.Faithful t nodes ms := by
  have hx := h.isWhole hr rfl hink
  obtain ⟨s, ks, ls, hms, hready, hleaves, hrest⟩ := h.next hr rfl hx
  generalize Text.trim x = y at hleaves
  cases hleaves with
  | close => cases (List.cons_eq_cons.1 hms).1
  | last _ hk =>
    obtain ⟨hmark, htail⟩ := List.cons_eq_cons.1 hms
    obtain ⟨_, rfl⟩ := List.cons_eq_cons.1 htail
    exact ⟨hx, ⟨_, hk, (Mark.leaf.inj hmark).symm⟩, s, hready, hrest⟩

theorem Faithful.close (h : r.Faithful ('}' :: t) nodes (.closing :: ms)) (hr : r.Ready) :
    ∃ s : Reader, s.Ready ∧ s.Faithful t nodes ms := by
  obtain ⟨s, ks, ls, hms, hready, hleaves, hrest⟩ := Faithful.next (x := []) h hr rfl rfl
  generalize hy : Text.trim [] = y at hleaves
  cases hleaves with
  | close =>
    obtain ⟨_, rfl⟩ := List.cons_eq_cons.1 hms
    exact ⟨s, hready, hrest⟩
  | last hne _ => exact absurd hy.symm hne

theorem Faithful.newline (h : r.Faithful ('\n' :: t) nodes ms) (hr : r.Ready) :
    ∃ s : Reader, s.Ready ∧ s.Faithful t nodes ms := by
  obtain ⟨s, hs, hready, hnodes, houter⟩ := hr.readAll_newline
  obtain ⟨_, ks, ls, hms, hks, hrest⟩ := Faithful.of_readAll (x := ['\n']) h hs
  rw [Reader.marks, Reader.marks, hnodes, houter, List.self_eq_append_right] at hks
  subst hks
  exact ⟨s, hready, hms ▸ hrest⟩

end Reader

end AtomicCss
