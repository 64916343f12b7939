import AtomicCss.Proofs.Compile.ClassMap
import AtomicCss.Proofs.Compile.ClassNames
import AtomicCss.Proofs.Identifier.Fresh
import AtomicCss.Proofs.Sheet.Labels
set_option autoImplicit false

namespace AtomicCss

namespace Model

variable {m : Model} (h : m.WellFormed) (preferred : List Text) (allocator : Allocator)
include h

theorem WellFormed.exists_classesOf_sheet_iff {ident : Text} :
    (∃ n, ident ∈ (m.sheet preferred allocator).2.classesOf n) ↔
      ident ∈ (allocator.take (m.plan preferred).keys.eraseDups.length).1 := by
  rw [← m.map_nameOf_sheet, List.mem_map]
  constructor
  · rintro ⟨n, hident⟩
    obtain ⟨_, s, g, hg, c, _, _, k, hk, hname⟩ := (mem_classesOf_sheet allocator).1 hident
    exact ⟨k, List.mem_eraseDups.2 (ScopeTree.mem_keys.2 ⟨s, g, _, hg, hk⟩), hname⟩
  · rintro ⟨k, hk, rfl⟩
    obtain ⟨s, g, v, hg, hk⟩ := ScopeTree.mem_keys.1 (List.mem_eraseDups.1 hk)
    obtain ⟨c, hc, rfl⟩ := Group.exists_contributor_of_mem_entryKeys hk
    have hname := h.name_lt_of_mem_contents_plan preferred hg hc
    exact ⟨c.name, (mem_classesOf_sheet allocator).2 ⟨hname, s, g, hg, c, hc, rfl, k, hk, rfl⟩⟩

end Model

/-- The class names in the nested rule selectors of the styles. -/
def Description.mentions (d : Description) : List Text :=
  d.styles.flatMap fun s => Node.classNames ((parse s.2).toOption.getD [])

/--
A compilation gives the names of the first words, up to the last one drawn, that do not stand in the
verbatim CSS. So the names that the styles mention are not given exactly when those of the first
words among them stand in the verbatim CSS too.
-/
theorem compile_gives_iff {d : Description} (hd : d.Ordered) {options : CompileOptions}
    {out : CompileOutput} (h : compile d options = .ok out) :
    ∃ first last count,
      Description.verbatimClasses Description.prologueName d.prologue = .ok first ∧
      Description.verbatimClasses Description.epilogueName d.epilogue = .ok last ∧
      (count ≠ 0 → out.classes.Gives (options.stem ++ Word.ofNumber count)) ∧
      (∀ ident, out.classes.Gives ident ↔ ident ∉ first ++ last ∧
        ∃ n, 0 < n ∧ n ≤ count ∧ ident = options.stem ++ Word.ofNumber n) ∧
      ((∀ ident ∈ d.mentions, ¬out.classes.Gives ident) ↔
        ∀ n, 0 < n → n ≤ count → options.stem ++ Word.ofNumber n ∈ d.mentions →
          options.stem ++ Word.ofNumber n ∈ first ++ last) := by
  obtain ⟨c, hc, rfl⟩ := compile_ok h
  obtain ⟨reserved, m, hr, _, hm, rfl⟩ := Description.compilation_ok hc
  obtain ⟨first, last, hfirst, hlast, rfl⟩ := Description.reserved_ok hr
  let allocator : Allocator := ⟨options.stem, Sorted.ofList (first ++ last), 0⟩
  let draws := (m.plan d.atRules).keys.eraseDups.length
  let count := (allocator.take draws).2.counter
  have hdrawn : ∀ ident, (Compilation.classes ⟨m, (m.sheet d.atRules allocator).1,
      (m.sheet d.atRules allocator).2⟩ d).Gives ident ↔ ident ∈ (allocator.take draws).1 :=
    fun ident => (Description.gives_classes_iff hc hd).trans
      ((Description.model_reachable hm).wellFormed.exists_classesOf_sheet_iff d.atRules allocator)
  have hgives : ∀ ident, (Compilation.classes ⟨m, (m.sheet d.atRules allocator).1,
      (m.sheet d.atRules allocator).2⟩ d).Gives ident ↔ ident ∉ first ++ last ∧
        ∃ n, 0 < n ∧ n ≤ count ∧ ident = options.stem ++ Word.ofNumber n := by
    intro ident
    rw [hdrawn, Allocator.mem_take]
    exact and_congr_left fun _ => not_congr Sorted.mem_ofList
  refine ⟨first, last, count, hfirst, hlast, fun hcount => ?_, hgives, ?_⟩
  · refine (hdrawn _).2 ?_
    cases hdraws : draws with
    | zero => simp only [count, hdraws] at hcount; exact absurd rfl hcount
    | succ k => exact hdraws ▸ allocator.candidate_counter_mem_take k
  · constructor
    · intro hapart n hpos hle hmention
      by_contra hfree
      exact hapart _ hmention ((hgives _).2 ⟨hfree, n, hpos, hle, rfl⟩)
    · intro hcovered ident hmention hgiven
      obtain ⟨hfree, n, hpos, hle, rfl⟩ := (hgives ident).1 hgiven
      exact hfree (hcovered n hpos hle hmention)

theorem compile_gives_iff_verbatim :
    let source := ("\x7b\"_start\": \".a \x7b top: 0 \x7d\", " ++
      "\"s\": \x7b\"A\": \"&:not(.a) \x7b color: red \x7d\"\x7d\x7d").toList
    ∃ d out, Description.load .json source = .ok d ∧ compile d ⟨[], .plain⟩ = .ok out ∧
      ['a'] ∈ d.mentions ∧ ¬out.classes.Gives ['a'] := by
  intro source
  let d : Description := ⟨some ".a \x7b top: 0 \x7d".toList, none, [],
    [(['s'], [(['A'], "&:not(.a) \x7b color: red \x7d".toList)])]⟩
  have hd : Description.load .json source = .ok d := by decide +kernel
  obtain ⟨out, hout, _⟩ := exists_ok (x := compile d ⟨[], .plain⟩) (p := fun _ => true)
    (by decide +kernel)
  obtain ⟨first, last, _, hfirst, _, _, hgives, _⟩ :=
    compile_gives_iff (Description.ordered_load hd) hout
  have ha : Description.verbatimClasses Description.prologueName d.prologue = .ok [['a']] := by
    decide +kernel
  rw [ha] at hfirst
  cases hfirst
  exact ⟨d, out, hd, hout, by decide +kernel, fun hgiven => ((hgives _).1 hgiven).1 (by simp)⟩

/-- The class name that a nested selector mentions is given to the rule of that selector. -/
theorem compile_gives_mention :
    let source := "\x7b\"s\": \x7b\"A\": \"&:not(.a)\x7bcolor:red\x7d\"\x7d\x7d".toList
    ∃ d out, Description.load .json source = .ok d ∧ compile d ⟨[], .plain⟩ = .ok out ∧
      ['a'] ∈ d.mentions ∧ out.classes.Gives ['a'] := by
  intro source
  let d : Description := ⟨none, none, [], [(['s'], [(['A'], "&:not(.a)\x7bcolor:red\x7d".toList)])]⟩
  have hd : Description.load .json source = .ok d := by decide +kernel
  obtain ⟨out, hout, hidents⟩ := exists_ok (x := compile d ⟨[], .plain⟩)
    (p := fun out => decide (out.classes.idents? ⟨['s'], ['A']⟩ = some [['a']])) (by decide +kernel)
  exact ⟨d, out, hd, hout, by decide +kernel, _, _, of_decide_eq_true hidents, by simp⟩

end AtomicCss
