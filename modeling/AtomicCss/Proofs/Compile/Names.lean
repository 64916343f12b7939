import AtomicCss.Proofs.Compile.ClassMap
import AtomicCss.Proofs.Compile.Rearranged
import AtomicCss.Proofs.Sheet.Renumbered
set_option autoImplicit false

namespace AtomicCss

/-- The place of the `k`-th member that is kept, among all of them; past the last kept one the
places go on. -/
def placeOf : List Bool → Nat → Nat
  | [], k => k
  | true :: _, 0 => 0
  | true :: kept, k + 1 => placeOf kept k + 1
  | false :: kept, k => placeOf kept k + 1

theorem strictMono_placeOf (kept : List Bool) : StrictMono (placeOf kept) := by
  refine strictMono_nat_of_lt_succ fun k => ?_
  induction kept generalizing k with
  | nil => exact Nat.lt_succ_self k
  | cons b kept ih =>
    cases b with
    | false => exact Nat.succ_lt_succ (ih k)
    | true =>
      cases k with
      | zero => exact Nat.succ_pos _
      | succ k => exact Nat.succ_lt_succ (ih k)

theorem getElem?_placeOf {α : Type} {f : α → Bool} {l : List α} {k : Nat} {a : α}
    (h : (l.filter f)[k]? = some a) : l[placeOf (l.map f) k]? = some a := by
  induction l generalizing k with
  | nil => cases h
  | cons b l ih =>
    cases hb : f b with
    | false =>
      rw [List.filter_cons_of_neg (by simp [hb])] at h
      rw [List.map_cons, hb]
      exact ih h
    | true =>
      rw [List.filter_cons_of_pos hb] at h
      rw [List.map_cons, hb]
      cases k with
      | zero => exact h
      | succ k => exact ih h

/-- Whether a text has no nodes, only blanks, comments and semicolons. -/
def isVoid (t : Text) : Bool := (parse t).toOption.any List.isEmpty

theorem isVoid_iff {t : Text} : isVoid t = true ↔ parse t = .ok [] := by
  rw [isVoid]
  cases parse t with
  | error e => simp [Except.toOption]
  | ok nodes => simp [Except.toOption]

/-- The styles that have nodes. -/
def Description.filled (d : Description) : List (StyleName × Text) :=
  d.styles.filter fun s => !isVoid s.2

def Description.place (d : Description) : Nat → NameId :=
  placeOf (d.styles.map fun s => !isVoid s.2)

theorem Description.getElem?_place {d : Description} {k : Nat} {a : StyleName × Text}
    (h : d.filled[k]? = some a) : d.styles[d.place k]? = some a :=
  getElem?_placeOf h

/-- Descriptions that differ in the names of their styles and in styles without nodes. -/
structure Description.DifferInNames (d e : Description) : Prop where
  prologue : d.prologue = e.prologue
  epilogue : d.epilogue = e.epilogue
  atRules : d.atRules = e.atRules
  texts : d.filled.map (·.2) = e.filled.map (·.2)

namespace Model

theorem addStyle_of_text_eq {c m n : Model} {a style : StyleName × Text} {nodes : List Node}
    (h : m.addStyle style = .ok n) (hparse : parse style.2 = .ok nodes) (ha : a.2 = style.2) :
    c.addStyle a = .ok (c.ingest a.1 nodes).2 := by
  rw [addStyle_ingest hparse] at h
  rw [addStyle_ingest (ha ▸ hparse)]
  cases hstop : (Spot.root.walkAll nodes).stop with
  | none => rfl
  | some fault => rw [hstop] at h; cases h

/-- The run over the styles with nodes, under whatever names, follows the run over all of them. -/
theorem Renumbers.foldlM_addStyle {p : NameId → NameId} (hp : StrictMono p)
    {l r : List (StyleName × Text)} {c m n : Model} (h : c.Renumbers p m)
    (hplace : ∀ k, p (c.names.length + k) =
      m.names.length + placeOf (r.map fun s => !isVoid s.2) k)
    (htexts : l.map (·.2) = (r.filter fun s => !isVoid s.2).map (·.2))
    (hrun : r.foldlM addStyle m = .ok n) :
    ∃ e, l.foldlM addStyle c = .ok e ∧ e.Renumbers p n := by
  induction r generalizing l c m with
  | nil =>
    cases hrun
    obtain rfl : l = [] := List.map_eq_nil_iff.1 htexts
    exact ⟨c, rfl, h⟩
  | cons style r ih =>
    rw [List.foldlM_cons] at hrun
    obtain ⟨o, ho, hrun⟩ := bind_ok hrun
    obtain ⟨nodes, hparse, rfl⟩ := addStyle_ok ho
    have hlength : (m.ingest style.1 nodes).2.names.length = m.names.length + 1 := by
      rw [names_ingest, List.length_append, List.length_singleton]
    cases hvoid : isVoid style.2 with
    | true =>
      rw [isVoid_iff.1 hvoid] at hparse
      cases hparse
      rw [List.filter_cons_of_neg (by simp [hvoid])] at htexts
      refine ih (h.addName style.1) (fun k => ?_) htexts hrun
      have hk := hplace k
      rw [List.map_cons, hvoid, Bool.not_true, placeOf] at hk
      rw [hk, show (m.addName style.1).names.length = _ from hlength, Nat.add_right_comm,
        Nat.add_assoc]
    | false =>
      rw [List.filter_cons_of_pos (by simp [hvoid]), List.map_cons] at htexts
      obtain ⟨a, l, rfl, ha, hl⟩ := List.map_eq_cons_iff.1 htexts
      rw [List.map_cons, hvoid, Bool.not_false] at hplace
      have hnext := h.ingest hp.injective (hplace 0) a.1 style.1 nodes
      have hplaceNext : ∀ k, p ((c.ingest a.1 nodes).2.names.length + k) =
          (m.ingest style.1 nodes).2.names.length + placeOf (r.map fun s => !isVoid s.2) k := by
        intro k
        have hk := hplace (k + 1)
        rw [placeOf] at hk
        rw [names_ingest, List.length_append, List.length_singleton, hlength, Nat.add_right_comm,
          Nat.add_assoc, hk, Nat.add_right_comm, Nat.add_assoc]
      obtain ⟨e, he, hrenumbers⟩ := ih hnext hplaceNext hl hrun
      refine ⟨e, ?_, hrenumbers⟩
      rw [List.foldlM_cons, addStyle_of_text_eq ho hparse ha]
      exact he

theorem WellFormed.classesOf_sheet_eq_nil {m : Model} (h : m.WellFormed) (preferred : List Text)
    (allocator : Allocator) {n : NameId} (hn : m.recordsForName n = []) :
    (m.sheet preferred allocator).2.classesOf n = [] := by
  refine List.eq_nil_iff_forall_not_mem.2 fun ident hident => ?_
  obtain ⟨_, s, g, hg, c, hc, rfl, _⟩ := (mem_classesOf_sheet allocator).1 hident
  have hof := (h.mem_contents_plan.1 hg).2
  obtain ⟨d, hd⟩ := Group.exists_declaration hof
  obtain ⟨r, hr, _, hrc⟩ := Group.declared_of_mem hof hd hc
  have hmem := h.mem_recordsForName.2 ⟨(h.mem_recordsInScope.1 hr).1, congrArg (·.name) hrc⟩
  rw [hn] at hmem
  cases hmem

end Model

namespace Description

variable {d : Description} {stem : Text} {c : Compilation}

theorem classesOf_eq_nil_of_isVoid (hc : d.compilation stem = .ok c) {i : NameId}
    {style : StyleName × Text} (hi : d.styles[i]? = some style) (hvoid : isVoid style.2 = true) :
    c.allocation.classesOf i = [] := by
  obtain ⟨reserved, m, _, _, hm, rfl⟩ := compilation_ok hc
  obtain ⟨nodes, before, holds⟩ := model_holds hm hi
  have hparse := holds.parsed
  rw [isVoid_iff.1 hvoid] at hparse
  cases hparse
  exact (model_reachable hm).wellFormed.classesOf_sheet_eq_nil _ _ holds.recordsForName_eq

theorem exists_core (hc : d.compilation stem = .ok c) {l : List (StyleName × Text)}
    (htexts : l.map (·.2) = d.filled.map (·.2)) :
    ∃ core reserved, l.foldlM Model.addStyle .empty = .ok core ∧ d.reserved = .ok reserved ∧
      c.rules = (core.sheet d.atRules ⟨stem, reserved, 0⟩).1 ∧
      ∀ k a, d.filled[k]? = some a → c.allocation.classesOf (d.place k) =
        (core.sheet d.atRules ⟨stem, reserved, 0⟩).2.classesOf k := by
  obtain ⟨reserved, m, hr, _, hm, rfl⟩ := compilation_ok hc
  have hplace : StrictMono d.place := strictMono_placeOf _
  obtain ⟨core, hcore, h⟩ := Model.Renumbers.foldlM_addStyle hplace
    ⟨Model.wellFormed_empty, Model.wellFormed_empty, rfl, rfl⟩
    (fun _ => by simp [Model.empty, place]) htexts hm
  refine ⟨core, reserved, hcore, hr, h.rules_sheet hplace _ _, fun k a hk => ?_⟩
  refine h.classesOf_sheet hplace _ _ ?_ ?_
  · have hnames := congrArg List.length (Model.Reachable.empty.foldlM_addStyle hcore).2.2
    have hcount := congrArg List.length htexts
    rw [List.length_map, List.length_map] at hcount
    rw [hnames, List.length_append, List.length_map, hcount]
    exact Nat.lt_add_left _ (List.getElem?_eq_some_iff.1 hk).1
  · rw [names_model hm, List.length_map]
    exact (List.getElem?_eq_some_iff.1 (getElem?_place hk)).1

end Description

/-- The class map has exactly the styles of the description, and those without nodes have no class
names. -/
structure CompileOutput.ListsStyles (out : CompileOutput) (d : Description) : Prop where
  has_iff : ∀ style, out.classes.has style = true ↔ style ∈ d.styles.map (·.1)
  void : ∀ s ∈ d.styles, parse s.2 = .ok [] → out.classes.idents? s.1 = some []

theorem Description.Ordered.listsStyles {d : Description} (hd : d.Ordered)
    {options : CompileOptions} {out : CompileOutput} (h : compile d options = .ok out) :
    out.ListsStyles d := by
  obtain ⟨c, hc, rfl⟩ := compile_ok h
  refine ⟨fun style => has_classes hc, fun s hs hparse => ?_⟩
  obtain ⟨i, hi⟩ := List.mem_iff_getElem?.1 hs
  have hidents := idents?_classes hc hd hi
  rw [classesOf_eq_nil_of_isVoid hc hi (isVoid_iff.2 hparse)] at hidents
  exact hidents

/--
Names do not leak: two descriptions with the same texts in the order of their names, apart from
texts without nodes, have the same stylesheet, and the styles with the same place among the others
have the same class list. The class maps have all names of their descriptions.
-/
theorem compile_hides_names {d e : Description} (hd : d.Ordered) (he : e.Ordered)
    (h : d.DifferInNames e) {options : CompileOptions} {out other : CompileOutput}
    (hout : compile d options = .ok out) (hother : compile e options = .ok other) :
    out.css = other.css ∧
      (∀ (k : Nat) (a b : StyleName × Text), d.filled[k]? = some a → e.filled[k]? = some b →
        ∃ idents, out.classes.idents? a.1 = some idents ∧
          other.classes.idents? b.1 = some idents) ∧
      out.ListsStyles d ∧ other.ListsStyles e := by
  have hlists := hd.listsStyles hout
  have hothers := he.listsStyles hother
  obtain ⟨c, hc, rfl⟩ := compile_ok hout
  obtain ⟨f, hf, rfl⟩ := compile_ok hother
  obtain ⟨core, reserved, hcore, hreserved, hrules, hclasses⟩ := Description.exists_core hc rfl
  obtain ⟨same, again, hsame, hagain, hotherRules, hotherClasses⟩ :=
    Description.exists_core hf h.texts
  rw [hcore] at hsame
  cases hsame
  rw [Description.reserved, h.prologue, h.epilogue] at hreserved
  rw [Description.reserved, hreserved] at hagain
  cases hagain
  rw [← h.atRules] at hotherRules hotherClasses
  refine ⟨?_, fun k a b ha hb => ?_, hlists, hothers⟩
  · simp only [Compilation.output, h.prologue, h.epilogue, hrules, hotherRules]
  · have hidents := Description.idents?_classes hf he (Description.getElem?_place hb)
    rw [hotherClasses k b hb, ← hclasses k a ha] at hidents
    exact ⟨_, Description.idents?_classes hc hd (Description.getElem?_place ha), hidents⟩

theorem compile_hides_names_renamed :
    let source := "\x7b\"n\": \x7b\"a\": \"color: red; top: 0\", \"b\": \"color: red\"\x7d\x7d".toList
    let renamed := ("\x7b\"m\": \x7b\"c\": \"color: red; top: 0\", \"d\": \"/* none */;\"\x7d, " ++
      "\"o\": \x7b\"a\": \"color: red\"\x7d\x7d").toList
    ∃ d e out other, Description.load .json source = .ok d ∧
      Description.load .json renamed = .ok e ∧
      compile d ⟨[], .plain⟩ = .ok out ∧ compile e ⟨[], .plain⟩ = .ok other ∧
      out.css = other.css ∧ out.classes.idents? ⟨['n'], ['b']⟩ = some [['b']] ∧
      other.classes.idents? ⟨['o'], ['a']⟩ = some [['b']] ∧
      other.classes.idents? ⟨['m'], ['d']⟩ = some [] := by
  intro source renamed
  let d : Description := ⟨none, none, [], [(['n'],
    [(['a'], "color: red; top: 0".toList), (['b'], "color: red".toList)])]⟩
  let e : Description := ⟨none, none, [], [(['m'],
    [(['c'], "color: red; top: 0".toList), (['d'], "/* none */;".toList)]),
    (['o'], [(['a'], "color: red".toList)])]⟩
  have hd : Description.load .json source = .ok d := by decide +kernel
  have he : Description.load .json renamed = .ok e := by decide +kernel
  obtain ⟨out, hout, hlist⟩ := exists_ok (x := compile d ⟨[], .plain⟩)
    (p := fun out => decide (out.classes.idents? ⟨['n'], ['b']⟩ = some [['b']])) (by decide +kernel)
  have hlist := of_decide_eq_true hlist
  obtain ⟨other, hother, _⟩ := exists_ok (x := compile e ⟨[], .plain⟩) (p := fun _ => true)
    (by decide +kernel)
  have hnames : d.DifferInNames e := ⟨rfl, rfl, rfl, by decide +kernel⟩
  obtain ⟨hcss, hplaces, _, hlists⟩ := compile_hides_names (Description.ordered_load hd)
    (Description.ordered_load he) hnames hout hother
  obtain ⟨idents, hfirst, hsecond⟩ := hplaces 1 (⟨['n'], ['b']⟩, "color: red".toList)
    (⟨['o'], ['a']⟩, "color: red".toList) (by decide +kernel) (by decide +kernel)
  rw [hlist] at hfirst
  cases hfirst
  exact ⟨d, e, out, other, hd, he, hout, hother, hcss, hlist, hsecond,
    hlists.void (⟨['m'], ['d']⟩, "/* none */;".toList) (by decide +kernel)
      (isVoid_iff.1 (by decide +kernel))⟩

end AtomicCss
