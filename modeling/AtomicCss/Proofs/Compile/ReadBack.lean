import AtomicCss.Proofs.Compile.ClassNames
import AtomicCss.Proofs.Compile.Model
import AtomicCss.Proofs.Sheet.ReadBack
import AtomicCss.Proofs.Sheet.Spelling
set_option autoImplicit false

namespace AtomicCss

namespace Model

theorem Spelled.foldlM_addStyle {l : List (StyleName × Text)} {m n : Model} (hm : m.Spelled)
    (h : l.foldlM addStyle m = .ok n) : n.Spelled := by
  refine foldlM_keeps hm (fun m style n hm hadd => ?_) h
  obtain ⟨nodes, hparse, rfl⟩ := addStyle_ok hadd
  exact hm.ingest style.1 hparse

theorem isBlank_getLast?_nameOf_sheet (m : Model) (preferred : List Text) (allocator : Allocator)
    (key : ClassKey) :
    ((m.sheet preferred allocator).2.nameOf key).getLast?.any isBlank = false := by
  rw [Allocation.nameOf]
  cases hget : (m.sheet preferred allocator).2.classes.get? key with
  | none => rfl
  | some ident =>
    obtain ⟨_, w, hne, halpha, hident⟩ := (m.sound_sheet preferred allocator).stem_append hget
    have hletter := halpha _ (List.getLast_mem hne)
    rw [Option.getD_some, hident, List.getLast?_append, List.getLast?_eq_some_getLast hne]
    exact isBlank_of_isNameChar (by simp [isNameChar, Char.isAlphanum, hletter])

theorem WellFormed.spelled_sheet {m : Model} (h : m.WellFormed) (hm : m.Spelled)
    (preferred : List Text) (allocator : Allocator) :
    (m.sheet preferred allocator).1.Spelled := by
  rw [sheet_rules]
  refine ScopeTree.Each.mapContent (fun l hl rule hrule => ?_) _ (h.spelled_plan hm preferred)
  obtain ⟨g, hg, rfl⟩ := List.mem_map.1 hrule
  exact (hl g hg).rule (m.isBlank_getLast?_nameOf_sheet preferred allocator)

end Model

theorem Description.spelled_rules {d : Description} {stem : Text} {c : Compilation}
    (h : d.compilation stem = .ok c) : c.rules.Spelled := by
  obtain ⟨reserved, m, _, _, hm, rfl⟩ := compilation_ok h
  exact (model_reachable hm).wellFormed.spelled_sheet
    (Model.spelled_empty.foldlM_addStyle hm) d.atRules _

/--
The body that a compilation generates is parsed to the nodes of its rules if and only if all pieces
of it are closed: no selector, header or declaration ends within a string or a parenthesis or
begins a comment, and no value has a blank at an end.
-/
theorem compile_readsBack {d : Description} {options : CompileOptions} {out : CompileOutput}
    (h : compile d options = .ok out) :
    ∃ c, d.compilation options.stem = .ok c ∧ out = c.output d options.mode ∧
      (parse c.rules.render = .ok c.rules.toNodes ↔ c.rules.isClosed = true) := by
  obtain ⟨c, hc, hout⟩ := compile_ok h
  exact ⟨c, hc, hout, (Description.spelled_rules hc).parse_render⟩

theorem compile_readsBack_print :
    let d : Description := {
      prologue := none
      epilogue := none
      atRules := []
      namespaces := [([], [(['A'], "color: red; @media print { &:hover { top: (;) } }".toList)])] }
    ∃ out c, compile d ⟨[], .plain⟩ = .ok out ∧ d.compilation [] = .ok c ∧
      c.rules.render = ".a{color:red}\n@media print\x7b.a:hover{top:(;)}\x7d".toList ∧
      parse c.rules.render = .ok c.rules.toNodes := by
  intro d
  have hok : (compile d ⟨[], .plain⟩).toOption.isSome = true := by decide +kernel
  have hrun : (d.compilation []).toOption.all (fun c => c.rules.isClosed &&
      c.rules.render == ".a{color:red}\n@media print\x7b.a:hover{top:(;)}\x7d".toList) = true := by
    decide +kernel
  cases hout : compile d ⟨[], .plain⟩ with
  | error e => simp [hout, Except.toOption] at hok
  | ok out =>
    obtain ⟨c, hc, _, hiff⟩ := compile_readsBack hout
    rw [hc] at hrun
    simp only [Except.toOption, Option.all_some, Bool.and_eq_true, beq_iff_eq] at hrun
    exact ⟨out, c, rfl, hc, hrun.2, hiff.2 hrun.1⟩

/-- A parenthesis that is open at the end of a style takes the end of its rule along. -/
theorem compile_not_readsBack :
    let d : Description := {
      prologue := none
      epilogue := none
      atRules := []
      namespaces := [([], [(['A'], "a:(".toList)])] }
    ∃ out c, compile d ⟨[], .plain⟩ = .ok out ∧ d.compilation [] = .ok c ∧
      c.rules.toNodes.length = 1 ∧ c.rules.isClosed = false ∧
      ∀ nodes, parse c.rules.render ≠ .ok nodes := by
  intro d
  have hok : (compile d ⟨[], .plain⟩).toOption.isSome = true := by decide +kernel
  have hrun : (d.compilation []).toOption.all (fun c => c.rules.toNodes.length == 1 &&
      !c.rules.isClosed && (parse c.rules.render).toOption.isNone) = true := by
    decide +kernel
  cases hout : compile d ⟨[], .plain⟩ with
  | error e => simp [hout, Except.toOption] at hok
  | ok out =>
    obtain ⟨c, hc, _⟩ := compile_ok hout
    rw [hc] at hrun
    simp only [Except.toOption, Option.all_some, Bool.and_eq_true, beq_iff_eq, Bool.not_eq_true',
      Option.isNone_iff_eq_none] at hrun
    refine ⟨out, c, rfl, hc, hrun.1.1, hrun.1.2, fun nodes hnodes => ?_⟩
    simp [hnodes] at hrun

end AtomicCss
