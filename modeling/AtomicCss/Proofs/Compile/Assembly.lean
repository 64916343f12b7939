import AtomicCss.Proofs.Compile.ClassNames
import AtomicCss.Proofs.Style.Lines
set_option autoImplicit false

namespace AtomicCss

/-- The parts that are put together, each on lines of its own. -/
def cssLines (parts : List (Option Text)) : List Text :=
  ((parts.filterMap id).map Text.trim).filter (!·.isEmpty)

theorem assembleCss_eq (prologue : Option Text) (body : Text) (epilogue : Option Text) :
    assembleCss prologue body epilogue =
      Text.join ['\n'] (cssLines [prologue, some body, epilogue]) :=
  rfl

theorem exists_parse_cssLines {parts : List (Option Text)} {nodes : List (List Node)}
    (h : List.Forall₂ (fun part n => parse (part.getD []) = .ok n) parts nodes) :
    ∃ kept, List.Forall₂ (fun t n => parse t = .ok n) (cssLines parts) kept ∧
      kept.flatten = nodes.flatten := by
  have hblank : ∀ n, parse [] = .ok n → n = [] := fun n hn => (Except.ok.inj hn).symm
  induction h with
  | nil => exact ⟨[], .nil, rfl⟩
  | @cons part n parts nodes hpart _ ih =>
    obtain ⟨kept, hkept, hflatten⟩ := ih
    cases part with
    | none =>
      rw [hblank n hpart]
      exact ⟨kept, hkept, hflatten⟩
    | some t =>
      have hline := parse_trim hpart
      cases htrim : (Text.trim t).isEmpty with
      | true =>
        have hlines : cssLines (some t :: parts) = cssLines parts := by simp [cssLines, htrim]
        rw [Option.getD_some, List.isEmpty_iff.1 htrim] at hline
        rw [hlines, hblank n hline]
        exact ⟨kept, hkept, hflatten⟩
      | false =>
        have hlines : cssLines (some t :: parts) = Text.trim t :: cssLines parts := by
          simp [cssLines, htrim]
        rw [hlines]
        exact ⟨n :: kept, .cons hline hkept, by rw [List.flatten_cons, hflatten, List.flatten_cons]⟩

/--
Assembling keeps the nodes of the parts if and only if the parts stand apart: where one ends within
a statement, blanks and comments lead to the end of all or, outside parentheses, to a semicolon.
-/
theorem parse_assembleCss {prologue epilogue : Option Text} {body : Text}
    {first middle last : List Node} (hfirst : parse (prologue.getD []) = .ok first)
    (hmiddle : parse body = .ok middle) (hlast : parse (epilogue.getD []) = .ok last) :
    parse (assembleCss prologue body epilogue) = .ok (first ++ middle ++ last) ↔
      linesApart (cssLines [prologue, some body, epilogue]) = true := by
  have hparts : List.Forall₂ (fun part n => parse (part.getD []) = .ok n)
      [prologue, some body, epilogue] [first, middle, last] :=
    .cons hfirst (.cons hmiddle (.cons hlast .nil))
  obtain ⟨kept, hkept, hflatten⟩ := exists_parse_cssLines hparts
  have hnodes : first ++ middle ++ last = kept.flatten := by simp [hflatten]
  rw [hnodes, assembleCss_eq]
  exact parse_lines hkept

theorem parse_assembleCss_import :
    let prologue := "@import \"x.css\";".toList
    let body := ".a{color:red}".toList
    let epilogue := "/**/ p{margin:0}\n".toList
    ∃ first middle last, parse prologue = .ok first ∧ parse body = .ok middle ∧
      parse epilogue = .ok last ∧ (first ++ middle ++ last).length = 3 ∧
      parse (assembleCss (some prologue) body (some epilogue)) = .ok (first ++ middle ++ last) := by
  intro prologue body epilogue
  obtain ⟨first, hfirst, hone⟩ := exists_ok (x := parse prologue) (p := fun n => n.length = 1)
    (by decide +kernel)
  obtain ⟨middle, hmiddle, htwo⟩ := exists_ok (x := parse body) (p := fun n => n.length = 1)
    (by decide +kernel)
  obtain ⟨last, hlast, hthree⟩ := exists_ok (x := parse epilogue) (p := fun n => n.length = 1)
    (by decide +kernel)
  rw [decide_eq_true_eq] at hone htwo hthree
  refine ⟨first, middle, last, hfirst, hmiddle, hlast, ?_, ?_⟩
  · simp [hone, htwo, hthree]
  · have hprologue : parse ((some prologue).getD []) = .ok first := hfirst
    have hepilogue : parse ((some epilogue).getD []) = .ok last := hlast
    exact (parse_assembleCss hprologue hmiddle hepilogue).2 (by decide +kernel)

/-- A statement without a semicolon at the end of the prologue takes the first rule along. -/
theorem compile_not_apart :
    let d : Description := {
      prologue := some "@import \"x.css\"".toList
      epilogue := none
      atRules := []
      namespaces := [([], [(['A'], "color: red".toList)])] }
    ∃ out c first middle, compile d ⟨[], .plain⟩ = .ok out ∧ d.compilation [] = .ok c ∧
      out.css = assembleCss d.prologue c.rules.render d.epilogue ∧
      parse (d.prologue.getD []) = .ok first ∧ parse c.rules.render = .ok middle ∧
      parse out.css ≠ .ok (first ++ middle ++ []) := by
  intro d
  obtain ⟨out, hout, _⟩ := exists_ok (x := compile d ⟨[], .plain⟩) (p := fun _ => true)
    (by decide +kernel)
  obtain ⟨c, hc, rfl⟩ := compile_ok hout
  obtain ⟨first, hfirst, hone⟩ := exists_ok (x := parse (d.prologue.getD []))
    (p := fun n => n.length = 1) (by decide +kernel)
  have hrun : (d.compilation []).toOption.all (fun c =>
      (parse c.rules.render).toOption.any (fun n => n.length = 1) &&
      (parse (c.output d .plain).css).toOption.any (fun n => n.length = 1)) = true := by
    decide +kernel
  rw [hc] at hrun
  simp only [Except.toOption, Option.all_some, Bool.and_eq_true] at hrun
  obtain ⟨middle, hmiddle, htwo⟩ := exists_ok hrun.1
  obtain ⟨nodes, hnodes, hall⟩ := exists_ok hrun.2
  rw [decide_eq_true_eq] at hone htwo hall
  refine ⟨_, c, first, middle, hout, hc, rfl, hfirst, hmiddle, fun heq => ?_⟩
  rw [hnodes] at heq
  have hlength := congrArg List.length (Except.ok.inj heq)
  simp [hone, htwo, hall] at hlength

end AtomicCss
