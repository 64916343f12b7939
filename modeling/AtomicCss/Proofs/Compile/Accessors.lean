import AtomicCss.Proofs.ClassMap.Properties
import AtomicCss.Proofs.ClassMap.Reader
import AtomicCss.Proofs.Compile.ClassMap
set_option autoImplicit false

namespace AtomicCss

namespace Description

theorem read?_compile {d : Description} (hd : d.Accepted) {options : CompileOptions}
    {out : CompileOutput} (hout : compile d options = .ok out) :
    ModuleReader.read? options.mode out.module =
      some (d.namespaces.map fun n => (n.1, out.classes.entries n.1)) := by
  obtain ⟨c, hc, rfl⟩ := compile_ok hout
  have hnames := isExportName_of_mem_keys hc hd.ordered hd.exportable
  refine (ModuleReader.read?_renderModule_keys hnames).trans ?_
  rw [keys_classes hc hd.ordered, List.map_map]
  rfl

end Description

/--
The module of a compilation has an object for each namespace, in order. The own properties of the
object are the styles of the namespace, with the class lists of the class map, unless one of them is
called `__proto__`, and then it is the only one that is missing.
-/
theorem compile_mirrored_iff {d : Description} (hd : d.Accepted) {options : CompileOptions}
    {out : CompileOutput} (hout : compile d options = .ok out) :
    ∃ exports, ModuleReader.read? options.mode out.module = some exports ∧
      exports.map (·.1) = d.namespaces.map (·.1) ∧
      ∀ e ∈ exports,
        (out.classes.Mirrored e.1 e.2 ↔ ⟨e.1, protoName⟩ ∉ d.styles.map (·.1)) ∧
        ∀ q, q ≠ protoName →
          (ownProperties e.2).get? q = (out.classes.get ⟨e.1, q⟩).toOption := by
  refine ⟨_, Description.read?_compile hd hout, ?_, ?_⟩
  · rw [List.map_map]
    rfl
  obtain ⟨c, hc, rfl⟩ := compile_ok hout
  have hdistinct : (c.classes d).StylesDistinct := ClassMap.stylesDistinct_build _ _ _
  refine List.forall_mem_map.2 fun n _ => ⟨?_, fun q hq => ?_⟩
  · exact (ClassMap.mirrored_entries_iff hdistinct n.1).trans
      (not_congr (Description.has_classes hc))
  · exact (ClassMap.get?_ownProperties_entries hdistinct n.1 q).trans (if_neg hq)

theorem compile_mirrored_constructor :
    let source := "\x7b\"s\": \x7b\"constructor\": \"color: red\", \"\\\"\": \"/**/\"\x7d\x7d".toList
    ∃ d out, Description.load .json source = .ok d ∧ compile d ⟨[], .dev⟩ = .ok out ∧
      ModuleReader.read? .dev out.module =
        some [(['s'], [(['"'], []), ("constructor".toList, ['a'])])] ∧
      out.classes.Mirrored ['s'] [(['"'], []), ("constructor".toList, ['a'])] := by
  intro source
  let d : Description := ⟨none, none, [],
    [(['s'], [(['"'], "/**/".toList), ("constructor".toList, "color: red".toList)])]⟩
  have hd : Description.load .json source = .ok d := by decide +kernel
  obtain ⟨out, hout, hentries⟩ := exists_ok (x := compile d ⟨[], .dev⟩)
    (p := fun out => decide (out.classes.entries ['s'] =
      [(['"'], []), ("constructor".toList, ['a'])])) (by decide +kernel)
  have haccepted := Description.accepted_load hd
  have hread := Description.read?_compile haccepted hout
  rw [List.map_singleton, of_decide_eq_true hentries] at hread
  obtain ⟨exports, hexports, _, hmirrored⟩ := compile_mirrored_iff haccepted hout
  obtain rfl := Option.some.inj (hread.symm.trans hexports)
  exact ⟨d, out, hd, hout, hread, (hmirrored _ List.mem_cons_self).1.2 (by decide +kernel)⟩

/-- A style may be called `__proto__`. Then the class map knows it, and the object does not. -/
theorem compile_not_mirrored :
    let source := "\x7b\"s\": \x7b\"__proto__\": \"color: red\"\x7d\x7d".toList
    ∃ d out, Description.load .json source = .ok d ∧ compile d ⟨[], .plain⟩ = .ok out ∧
      ModuleReader.read? .plain out.module = some [(['s'], [(protoName, ['a'])])] ∧
      out.classes.has ⟨['s'], protoName⟩ = true ∧
      (ownProperties [(protoName, ['a'])]).get? protoName = none := by
  intro source
  let d : Description := ⟨none, none, [], [(['s'], [(protoName, "color: red".toList)])]⟩
  have hd : Description.load .json source = .ok d := by decide +kernel
  obtain ⟨out, hout, hboth⟩ := exists_ok (x := compile d ⟨[], .plain⟩)
    (p := fun out => decide (ModuleReader.read? .plain out.module =
        some [(['s'], [(protoName, ['a'])])] ∧ out.classes.has ⟨['s'], protoName⟩ = true))
    (by decide +kernel)
  have hboth := of_decide_eq_true hboth
  exact ⟨d, out, hd, hout, hboth.1, hboth.2, by decide⟩

end AtomicCss
