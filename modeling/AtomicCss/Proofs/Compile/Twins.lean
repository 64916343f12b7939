import AtomicCss.Proofs.Compile.ClassNames
import AtomicCss.Proofs.Compile.Site
import AtomicCss.Proofs.Input.Ordered
import AtomicCss.Proofs.Sheet.Twins
set_option autoImplicit false

namespace AtomicCss

namespace ClassMap

theorem idents?_foldl_insert (l : List (StyleName × List Text)) (m : ClassMap)
    (style : StyleName) :
    (l.foldl (fun m e => m.insert e.1 e.2) m).idents? style =
      (OrderedMap.get? l.reverse style).or (m.idents? style) := by
  induction l generalizing m with
  | nil => rfl
  | cons e l ih =>
    rw [List.foldl_cons, ih, idents?_insert, List.reverse_cons, OrderedMap.get?, OrderedMap.get?,
      List.find?_append]
    cases l.reverse.find? (·.1 = style) with
    | some f => rfl
    | none => by_cases he : e.1 = style <;> simp [he]

theorem idents?_build {spaces : List Text} {names : List StyleName} {assignments : List (List Text)}
    (hnames : names.Nodup) (hlength : names.length = assignments.length) {e : StyleName × List Text}
    (he : e ∈ names.zip assignments) : (build spaces names assignments).idents? e.1 = some e.2 := by
  have hkeys : (OrderedMap.keys (names.zip assignments).reverse).Nodup := by
    rw [OrderedMap.keys, List.map_reverse, List.nodup_reverse]
    rw [List.map_fst_zip (Nat.le_of_eq hlength)]
    exact hnames
  rw [build, idents?_foldl_insert, OrderedMap.get?_of_mem hkeys (List.mem_reverse.2 he)]
  rfl

end ClassMap

theorem Compilation.idents?_classes {c : Compilation} (d : Description)
    (hnames : c.model.names.Nodup)
    (hlength : c.allocation.assignments.length = c.model.names.length) {i : NameId}
    {style : StyleName} (hi : c.model.names[i]? = some style) :
    (c.classes d).idents? style = some (c.allocation.classesOf i) := by
  have hlt : i < c.allocation.assignments.length :=
    hlength ▸ (List.getElem?_eq_some_iff.1 hi).1
  have hzip : (c.model.names.zip c.allocation.assignments)[i]? =
      some (style, c.allocation.classesOf i) := by
    simp [List.getElem?_zip_eq_some, hi, Allocation.classesOf, hlt]
  exact ClassMap.idents?_build hnames hlength.symm (List.mem_of_getElem? hzip)

def Record.withName (n : NameId) (r : Record) : Record :=
  { r with site := { r.site with name := n } }

theorem Step.map_withName_writes (m : Model) (i j : NameId) (step : Step) :
    (step.writes m i).map (Record.withName j) = step.writes m j := by
  cases step with
  | enter path header => rfl
  | declare spot property value =>
    rw [writes, writes, List.map_map]
    rfl

theorem Record.key_withName {i j : NameId} {r t : Record} (hr : r.site.name = i)
    (ht : t.site.name = i) (h : (t.withName j).key = (r.withName j).key) : t.key = r.key := by
  obtain ⟨⟨_, _, _⟩, _, _, _⟩ := r
  obtain ⟨⟨_, _, _⟩, _, _, _⟩ := t
  simp_all [key, withName]

namespace Description

theorem Holds.withName_mem {m before other : Model} {i j : NameId} {a b : StyleName × Text}
    {nodes : List Node} (hi : Holds m i a nodes before) (hj : Holds m j b nodes other) {r : Record}
    (hr : r ∈ m.recordsForName i) : r.withName j ∈ m.recordsForName j := by
  rw [hi.recordsForName_eq, Record.mem_foldl_write_nil] at hr
  obtain ⟨u, v, heq, hv⟩ := hr
  have hname : ∀ t ∈ u ++ r :: v, t.site.name = i := fun t ht =>
    Step.name_of_mem_writes (heq ▸ ht)
  have hwrites := congrArg (List.map (Record.withName j)) heq
  rw [List.map_flatMap] at hwrites
  simp only [Step.map_withName_writes, List.map_append, List.map_cons] at hwrites
  rw [hj.recordsForName_eq, Record.mem_foldl_write_nil]
  refine ⟨_, _, hwrites, List.forall_mem_map.2 fun t ht hkey => hv t ht ?_⟩
  exact Record.key_withName (hname r (by simp)) (hname t (by simp [ht])) hkey

theorem declareAlike_of_text_eq {d : Description} {m : Model} (h : d.model = .ok m) {i j : NameId}
    {a b : StyleName × Text} (hi : d.styles[i]? = some a) (hj : d.styles[j]? = some b)
    (htext : a.2 = b.2) : m.DeclareAlike i j := by
  obtain ⟨nodes, before, hi⟩ := model_holds h hi
  obtain ⟨others, other, hj⟩ := model_holds h hj
  have hsame : others = nodes := by
    have hparsed := hj.parsed
    rw [← htext, hi.parsed] at hparsed
    exact (Except.ok.inj hparsed).symm
  subst hsame
  exact fun _ _ _ _ _ => ⟨hi.withName_mem hj, hj.withName_mem hi⟩

theorem names_model {d : Description} {m : Model} (h : d.model = .ok m) :
    m.names = d.styles.map (·.1) :=
  (Model.Reachable.empty.foldlM_addStyle h).2.2

end Description

/-- Nobody else has a class name of the rule. -/
def Allocation.OnlyFor (a : Allocation) (rule : Rule) (n : NameId) : Prop :=
  ∀ e ∈ rule.entries, ∀ i, e.ident ∈ a.classesOf i → i = n

theorem Model.Reachable.not_onlyFor {m : Model} (hm : m.Reachable) {preferred : List Text}
    {allocator : Allocator} {i j : NameId} (hne : i ≠ j)
    (hclasses : (m.sheet preferred allocator).2.classesOf i =
      (m.sheet preferred allocator).2.classesOf j) {s : ScopeId} {rule : Rule}
    (hrule : (s, rule) ∈ (m.sheet preferred allocator).1.contents) :
    ¬(m.sheet preferred allocator).2.OnlyFor rule i := by
  intro honly
  obtain ⟨g, hg, rfl⟩ := (mem_contents_sheet allocator).1 hrule
  have hof := (hm.wellFormed.mem_contents_plan.1 hg).2
  obtain ⟨c, hc⟩ := Group.exists_contributor hof
  obtain ⟨k, hk⟩ := Group.exists_mem_entryKeys hc
  have hlt := hm.wellFormed.name_lt_of_mem_contents_plan preferred hg hc
  -- A contributor has a class name of the rule, so it is `i`, and what `i` has `j` has.
  have howned := (mem_classesOf_sheet allocator).2 ⟨hlt, s, g, hg, c, hc, rfl, k, hk, rfl⟩
  have hentry : ⟨(m.sheet preferred allocator).2.nameOf k, c.variant⟩ ∈
      (g.rule (m.sheet preferred allocator).2.nameOf).entries := List.mem_map.2 ⟨_, hk, rfl⟩
  have hname := honly _ hentry _ howned
  rw [hname, hclasses] at howned
  exact hne (honly _ hentry _ howned).symm

/--
Two styles that declare alike, as styles with the same text do, have the same class list. No class
name is drawn for one of them without the other, and no rule is there for one of them alone.
-/
theorem compile_shares_alike {d : Description} (hd : d.Ordered) {options : CompileOptions}
    {out : CompileOutput} (h : compile d options = .ok out) :
    ∃ c, d.compilation options.stem = .ok c ∧ out = c.output d options.mode ∧
      ∀ i j a b, d.styles[i]? = some a → d.styles[j]? = some b → i ≠ j →
        (a.2 = b.2 → c.model.DeclareAlike i j) ∧
        (c.model.DeclareAlike i j →
          (∃ idents, out.classes.idents? a.1 = some idents ∧
            out.classes.idents? b.1 = some idents) ∧
          (∀ x ∈ (c.model.plan d.atRules).handedOut c.rules, i ∈ x.1.names ↔ j ∈ x.1.names) ∧
          ∀ s rule, (s, rule) ∈ c.rules.contents →
            ¬c.allocation.OnlyFor rule i ∧ ¬c.allocation.OnlyFor rule j) := by
  obtain ⟨c, hc, rfl⟩ := compile_ok h
  obtain ⟨reserved, m, _, _, hm, rfl⟩ := Description.compilation_ok hc
  let allocator : Allocator := ⟨options.stem, reserved, 0⟩
  have hreachable := Description.model_reachable hm
  have hnames := Description.names_model hm
  refine ⟨_, hc, rfl, fun i j a b hi hj hne =>
    ⟨Description.declareAlike_of_text_eq hm hi hj, fun halike => ?_⟩⟩
  have hname : ∀ {n : NameId} {style : StyleName × Text}, d.styles[n]? = some style →
      m.names[n]? = some style.1 := by
    intro n style hn
    rw [hnames, List.getElem?_map, hn]
    rfl
  have hlookup : ∀ {n : NameId} {style : StyleName × Text}, d.styles[n]? = some style →
      (Compilation.classes ⟨m, (m.sheet d.atRules allocator).1, (m.sheet d.atRules allocator).2⟩
        d).idents? style.1 = some ((m.sheet d.atRules allocator).2.classesOf n) := fun hn =>
    Compilation.idents?_classes d (hnames ▸ hd.nodup_styles)
      (m.length_assignments_sheet d.atRules allocator) (hname hn)
  have hclasses : (m.sheet d.atRules allocator).2.classesOf i =
      (m.sheet d.atRules allocator).2.classesOf j :=
    hreachable.wellFormed.classesOf_eq_of_alike halike allocator
      (List.getElem?_eq_some_iff.1 (hname hi)).1 (List.getElem?_eq_some_iff.1 (hname hj)).1
  refine ⟨⟨_, hlookup hi, hclasses ▸ hlookup hj⟩, fun x hx => ?_, fun s rule hrule => ⟨?_, ?_⟩⟩
  · have hkey := (List.of_mem_zip hx).1
    exact hreachable.wellFormed.mem_names_iff_of_alike halike hne hkey
  · exact hreachable.not_onlyFor hne hclasses hrule
  · exact hreachable.not_onlyFor hne.symm hclasses.symm hrule

theorem compile_shares_alike_across :
    let source := ("\x7b\"n\": \x7b\"a\": \"color: red; top: 0\", \"b\": \"color: red\"\x7d, " ++
      "\"o\": \x7b\"c\": \"color: red; top: 0\"\x7d\x7d").toList
    ∃ d out, Description.load .json source = .ok d ∧ compile d ⟨[], .plain⟩ = .ok out ∧
      out.classes.idents? ⟨['n'], ['a']⟩ = some [['a'], ['b']] ∧
      out.classes.idents? ⟨['o'], ['c']⟩ = some [['a'], ['b']] := by
  intro source
  let a : StyleName × Text := (⟨['n'], ['a']⟩, "color: red; top: 0".toList)
  let c : StyleName × Text := (⟨['o'], ['c']⟩, "color: red; top: 0".toList)
  have hrun : (Description.load .json source).toOption.any (fun d =>
      decide (d.styles[0]? = some a ∧ d.styles[2]? = some c) &&
      (compile d ⟨[], .plain⟩).toOption.any fun out =>
        decide (out.classes.idents? a.1 = some [['a'], ['b']])) = true := by
    decide +kernel
  obtain ⟨d, hd, hrun⟩ := exists_ok hrun
  rw [Bool.and_eq_true] at hrun
  obtain ⟨ha, hc⟩ := of_decide_eq_true hrun.1
  obtain ⟨out, hout, hlist⟩ := exists_ok hrun.2
  have hlist := of_decide_eq_true hlist
  obtain ⟨_, _, _, htwins⟩ := compile_shares_alike (Description.ordered_load hd) hout
  obtain ⟨halike, hshare⟩ := htwins 0 2 a c ha hc (by decide)
  obtain ⟨⟨idents, hfirst, hsecond⟩, _⟩ := hshare (halike rfl)
  rw [hlist] at hfirst
  cases hfirst
  exact ⟨d, out, hd, hout, hlist, hsecond⟩

end AtomicCss
