import AtomicCss.Proofs.Compile.ClassNames
import AtomicCss.Proofs.Compile.Model
import AtomicCss.Proofs.Model.Alike
import AtomicCss.Proofs.Sheet.Unordered
import AtomicCss.Proofs.Style.Layout
set_option autoImplicit false

namespace AtomicCss

/-- Nodes in another order that is kept where it counts: among at-rules and among the writes to each
key. -/
structure Node.Reordered (l r : List Node) : Prop where
  nodes : RearrangedAll l r
  order : (Spot.root.walkAll l).stop = none →
    Step.KeepsOrder (Spot.root.walkAll l).steps (Spot.root.walkAll r).steps

/-- Two texts of one style. If one is no CSS, neither is the other. -/
structure Description.StyleReordered (a b : StyleName × Text) : Prop where
  name : a.1 = b.1
  text : Agree Node.Reordered (parse a.2) (parse b.2)

/-- Descriptions that differ in the order of the nodes in their styles only. -/
structure Description.Reordered (d e : Description) : Prop where
  prologue : d.prologue = e.prologue
  epilogue : d.epilogue = e.epilogue
  atRules : d.atRules = e.atRules
  spaces : d.namespaces.map (·.1) = e.namespaces.map (·.1)
  styles : List.Forall₂ StyleReordered d.styles e.styles

namespace Model

/-- Well-formed models that agree but for the order of their records. -/
structure Matches (m n : Model) : Prop where
  left : m.WellFormed
  right : n.WellFormed
  alike : m.Alike n

theorem addStyle_ingest {m : Model} {style : StyleName × Text} {nodes : List Node}
    (h : parse style.2 = .ok nodes) : m.addStyle style =
      match (Spot.root.walkAll nodes).stop with
      | none => .ok (m.ingest style.1 nodes).2
      | some fault => .error (.nesting ⟨fault, style.1⟩) := by
  have hanswer := congrArg Prod.fst (ingest_eq m style.1 nodes)
  rw [addStyle, h]
  dsimp only [Except.mapError, bind, Except.bind]
  generalize m.ingest style.1 nodes = run at hanswer ⊢
  obtain ⟨answer, n⟩ := run
  obtain rfl : answer = _ := hanswer
  cases (Spot.root.walkAll nodes).stop <;> rfl

theorem Matches.addStyle {m n : Model} (h : m.Matches n) {a b : StyleName × Text}
    (hab : Description.StyleReordered a b) : Agree Matches (m.addStyle a) (n.addStyle b) := by
  obtain ⟨hname, htext⟩ := hab
  generalize ha : parse a.2 = x at htext
  generalize hb : parse b.2 = y at htext
  cases htext with
  | error =>
    rw [Model.addStyle, Model.addStyle, ha, hb]
    exact .error
  | @ok l r hlr =>
    have hstop := Spot.stop_walkAll_rearranged .root hlr.nodes
    rw [addStyle_ingest ha, addStyle_ingest hb]
    cases hl : (Spot.root.walkAll l).stop with
    | none =>
      rw [hstop.1 hl, ← hname]
      exact .ok ⟨h.left.ingest _ _, h.right.ingest _ _,
        h.alike.ingest h.left h.right _ (hlr.order hl)⟩
    | some fault =>
      cases hr : (Spot.root.walkAll r).stop with
      | none => simp [hstop.2 hr] at hl
      | some other => exact .error

theorem Matches.foldlM_addStyle {l r : List (StyleName × Text)} {m n : Model} (h : m.Matches n)
    (hlr : List.Forall₂ Description.StyleReordered l r) :
    Agree Matches (l.foldlM Model.addStyle m) (r.foldlM Model.addStyle n) := by
  induction hlr generalizing m n with
  | nil => exact .ok h
  | cons hab _ ih =>
    rw [List.foldlM_cons, List.foldlM_cons]
    exact (h.addStyle hab).bind fun _ _ h => ih h

theorem Matches.emit_eq {m n : Model} (h : m.Matches n) (preferred : List Text) :
    m.emit preferred = n.emit preferred :=
  emit_congr (congrArg (·.1) h.alike.skeleton) (congrArg (·.2.2) h.alike.skeleton)
    (h.alike.mem_recordsInScope h.left h.right) preferred

end Model

/-- The same names with the same rules and class lists. -/
structure Compilation.Matches (c k : Compilation) : Prop where
  names : c.model.names = k.model.names
  rules : c.rules = k.rules
  allocation : c.allocation = k.allocation

namespace Description.Reordered

variable {d e : Description} (h : d.Reordered e)
include h

theorem model : Agree Model.Matches d.model e.model :=
  Model.Matches.foldlM_addStyle
    ⟨Model.wellFormed_empty, Model.wellFormed_empty, rfl, rfl, fun _ => rfl⟩ h.styles

theorem compilation (stem : Text) :
    Agree Compilation.Matches (d.compilation stem) (e.compilation stem) := by
  have hreserved : d.reserved = e.reserved := by
    rw [Description.reserved, Description.reserved, h.prologue, h.epilogue]
  unfold Description.compilation
  rw [hreserved, h.atRules]
  refine (Agree.refl e.reserved).bind fun reserved _ heq => ?_
  subst heq
  cases Allocator.ofStem? stem reserved with
  | none => exact .error
  | some allocator =>
    refine h.model.bind fun m n hmn => ?_
    have hnames := hmn.alike.names
    have hemit : m.emit e.atRules (.fresh allocator m.names.length) =
        n.emit e.atRules (.fresh allocator n.names.length) := by
      rw [hmn.emit_eq, hnames]
    exact .ok ⟨hnames, congrArg Prod.fst hemit, congrArg Prod.snd hemit⟩

end Description.Reordered

/-- The parts of an output that a stylesheet and its user see. -/
structure CompileOutput.Matches (a b : CompileOutput) : Prop where
  css : a.css = b.css
  classes : a.classes = b.classes
  module : a.module = b.module

/--
Generation sees the records of a scope as a set. So nodes may trade places within their blocks: as
long as at-rules and the writes to each key stay in order, the stylesheet and the class lists are
the same.
-/
theorem compile_forgets_order :
    (∀ m n : Model, m.scopes = n.scopes → m.children = n.children →
      (∀ s r, r ∈ m.recordsInScope s ↔ r ∈ n.recordsInScope s) →
        ∀ preferred a, m.generate preferred a = n.generate preferred a) ∧
    ∀ d e : Description, d.Reordered e → ∀ options,
      Agree CompileOutput.Matches (compile d options) (compile e options) := by
  refine ⟨fun m n hscopes hchildren hrecords preferred a => ?_, fun d e h options => ?_⟩
  · rw [Model.generate, Model.generate, Model.emit_congr hscopes hchildren hrecords]
  · refine (h.compilation options.stem).map fun c k hck => ?_
    have hclasses : c.classes d = k.classes e := by
      rw [Compilation.classes, Compilation.classes, h.spaces, hck.names, hck.allocation]
    refine ⟨?_, hclasses, ?_⟩
    · simp only [Compilation.output, h.prologue, h.epilogue, hck.rules]
    · simp only [Compilation.output, hclasses]

theorem compile_forgets_order_print :
    let m := (Model.empty.ingest ⟨[], ['a']⟩ [.declaration "top".toList ['0'],
      .declaration "left".toList ['0']]).2
    let n := (Model.empty.ingest ⟨[], ['a']⟩ [.declaration "left".toList ['0'],
      .declaration "top".toList ['0']]).2
    let styled (text : Text) : Description := ⟨none, none, [], [([], [(['a'], text)])]⟩
    let d := styled "color: red; @media print \x7b width: 0; height: 0 \x7d color: blue".toList
    let e := styled "@media print \x7b height: 0; width: 0 \x7d color: red; color: blue".toList
    m.generate [] (.fresh ⟨[], [], 0⟩ 1) = n.generate [] (.fresh ⟨[], [], 0⟩ 1) ∧
      ∃ out other, compile d ⟨[], .plain⟩ = .ok out ∧ compile e ⟨[], .plain⟩ = .ok other ∧
        out.css = ".a\x7bcolor:blue\x7d\n@media print\x7b.a\x7bheight:0;width:0\x7d\x7d".toList ∧
        out.Matches other := by
  intro m n styled d e
  obtain ⟨hmodels, hcompile⟩ := compile_forgets_order
  refine ⟨hmodels m n (by decide +kernel) (by decide +kernel) (fun s r => ?_) [] _, ?_⟩
  · have hm : m.WellFormed := Model.wellFormed_empty.ingest _ _
    have hn : n.WellFormed := Model.wellFormed_empty.ingest _ _
    have hperm : m.records.Perm n.records := by decide +kernel
    rw [hm.mem_recordsInScope, hn.mem_recordsInScope, hperm.mem_iff]
  · let width : Node := .declaration "width".toList ['0']
    let height : Node := .declaration "height".toList ['0']
    let red : Node := .declaration "color".toList "red".toList
    let blue : Node := .declaration "color".toList "blue".toList
    let print : List Node → Node := .atRule "@media print".toList
    have hd : parse "color: red; @media print \x7b width: 0; height: 0 \x7d color: blue".toList =
        .ok [red, print [width, height], blue] :=
      parse_eq_of_normal (by cbv) (by decide +kernel)
    have he : parse "@media print \x7b height: 0; width: 0 \x7d color: red; color: blue".toList =
        .ok [print [height, width], red, blue] :=
      parse_eq_of_normal (by cbv) (by decide +kernel)
    have hinner : (print [width, height]).Rearranged (print [height, width]) :=
      .atRule _ (Node.forall₂_rearranged_refl _) (.swap _ _ _)
    have hnodes : Node.Reordered [red, print [width, height], blue]
        [print [height, width], red, blue] :=
      ⟨⟨_, .cons (.refl red) (.cons hinner (.cons (.refl blue) .nil)), .swap _ _ _⟩,
        fun _ => by decide +kernel⟩
    have hstyled : ∀ s t, Agree Node.Reordered (parse s) (parse t) →
        (styled s).Reordered (styled t) :=
      fun _ _ h => ⟨rfl, rfl, rfl, rfl, .cons ⟨rfl, h⟩ .nil⟩
    have htext := hstyled
      "color: red; @media print \x7b width: 0; height: 0 \x7d color: blue".toList
      "@media print \x7b height: 0; width: 0 \x7d color: red; color: blue".toList
    rw [hd, he] at htext
    have hagree := hcompile d e (htext (.ok hnodes)) ⟨[], .plain⟩
    have hrun : (compile d ⟨[], .plain⟩).toOption.any (fun out => out.css ==
        ".a\x7bcolor:blue\x7d\n@media print\x7b.a\x7bheight:0;width:0\x7d\x7d".toList) = true := by
      decide +kernel
    obtain ⟨out, hout, hcss⟩ := exists_ok hrun
    obtain ⟨other, hother, hmatches⟩ := hagree.ok_left hout
    exact ⟨out, other, hout, hother, eq_of_beq hcss, hmatches⟩

end AtomicCss
