import AtomicCss.Compile
import AtomicCss.Proofs.Data.Outcome
import AtomicCss.Proofs.Sheet.Handout
set_option autoImplicit false

namespace AtomicCss

theorem Description.reserved_ok {d : Description} {l : List Text} (h : d.reserved = .ok l) :
    ∃ first last, verbatimClasses prologueName d.prologue = .ok first ∧
      verbatimClasses epilogueName d.epilogue = .ok last ∧ l = Sorted.ofList (first ++ last) := by
  unfold reserved at h
  obtain ⟨first, hf, h⟩ := bind_ok h
  obtain ⟨last, hl, h⟩ := bind_ok h
  exact ⟨first, last, hf, hl, (Except.ok.inj h).symm⟩

theorem Description.compilation_ok {d : Description} {stem : Text} {c : Compilation}
    (h : d.compilation stem = .ok c) :
    ∃ reserved model, d.reserved = .ok reserved ∧ Allocator.isStem stem = true ∧
      d.model = .ok model ∧ c = ⟨model, (model.sheet d.atRules ⟨stem, reserved, 0⟩).1,
        (model.sheet d.atRules ⟨stem, reserved, 0⟩).2⟩ := by
  unfold compilation at h
  obtain ⟨reserved, hr, h⟩ := bind_ok h
  by_cases hs : Allocator.isStem stem = true
  · rw [Allocator.ofStem?, if_pos hs] at h
    obtain ⟨model, hm, h⟩ := bind_ok h
    exact ⟨reserved, model, hr, hs, hm, (Except.ok.inj h).symm⟩
  · rw [Allocator.ofStem?, if_neg hs] at h
    cases h

theorem compile_ok {d : Description} {options : CompileOptions} {out : CompileOutput}
    (h : compile d options = .ok out) :
    ∃ c, d.compilation options.stem = .ok c ∧ out = c.output d options.mode := by
  obtain ⟨c, hc, hout⟩ := map_ok h
  exact ⟨c, hc, hout.symm⟩

namespace ScopeTree

/-- The class names that a plan's keys got, draw by draw. -/
def handedOut (plan : ScopeTree Group) (rules : ScopeTree Rule) : List (ClassKey × Text) :=
  plan.keys.zip rules.identifiers

theorem handedOut_mapContent_rule (nameOf : ClassKey → Text) (plan : ScopeTree Group) :
    plan.handedOut (plan.mapContent (List.map (Group.rule nameOf))) =
      plan.keys.map fun k => (k, nameOf k) := by
  rw [handedOut, identifiers_mapContent_rule]
  simpa using List.zip_map' (f := id) (g := nameOf) (l := plan.keys)

end ScopeTree

theorem Allocation.Sound.stem_append {a : Allocation} (h : a.Sound) {key : ClassKey} {ident : Text}
    (hi : a.classes.get? key = some ident) :
    ident ∉ a.allocator.reserved ∧
      ∃ w, w ≠ [] ∧ (∀ c ∈ w, c.isAlpha = true) ∧ ident = a.allocator.stem ++ w := by
  obtain ⟨hr, n, hpos, _, hn⟩ := h.drawn key ident hi
  refine ⟨hr, Word.ofNumber n, Word.ofNumber_ne_nil (Nat.ne_of_gt hpos), fun c hc => ?_, hn⟩
  exact Word.isAlpha_of_mem_alphabet (Word.mem_alphabet_of_mem_ofNumber hc)

section

variable {m : Model} {preferred : List Text} (allocator : Allocator)

theorem Model.handedOut_sheet :
    (m.plan preferred).handedOut (m.sheet preferred allocator).1 =
      (m.plan preferred).keys.map fun k => (k, (m.sheet preferred allocator).2.nameOf k) := by
  rw [sheet_rules, ScopeTree.handedOut_mapContent_rule]

theorem Model.classes_sheet_of_mem_handedOut {x : ClassKey × Text}
    (hx : x ∈ (m.plan preferred).handedOut (m.sheet preferred allocator).1) :
    (m.sheet preferred allocator).2.classes.get? x.1 = some x.2 := by
  rw [handedOut_sheet, List.mem_map] at hx
  obtain ⟨k, hk, rfl⟩ := hx
  obtain ⟨s, g, v, hg, hk⟩ := ScopeTree.mem_keys.1 hk
  exact classes_sheet allocator hg hk

theorem Model.exists_handedOut_of_mem_classesOf {n : NameId} {ident : Text}
    (h : ident ∈ (m.sheet preferred allocator).2.classesOf n) :
    ∃ k, (k, ident) ∈ (m.plan preferred).handedOut (m.sheet preferred allocator).1 := by
  obtain ⟨_, s, g, hg, c, _, _, k, hk, rfl⟩ := (mem_classesOf_sheet allocator).1 h
  rw [handedOut_sheet]
  exact ⟨k, List.mem_map.2 ⟨k, ScopeTree.mem_keys.2 ⟨s, g, _, hg, hk⟩, rfl⟩⟩

end

/--
Over a whole compilation, a key gets one name and two keys get two, no name stands in the verbatim
CSS, and each is the stem with letters after it. All names of the rules and of the class map are
handed out like this.
-/
theorem compile_handsOut {d : Description} {options : CompileOptions} {out : CompileOutput}
    (h : compile d options = .ok out) :
    ∃ c first last, d.compilation options.stem = .ok c ∧ out = c.output d options.mode ∧
      Description.verbatimClasses Description.prologueName d.prologue = .ok first ∧
      Description.verbatimClasses Description.epilogueName d.epilogue = .ok last ∧
      let handed := (c.model.plan d.atRules).handedOut c.rules
      handed.map (·.2) = c.rules.identifiers ∧
      (∀ n, ∀ ident ∈ c.allocation.classesOf n, ∃ k, (k, ident) ∈ handed) ∧
      (∀ x ∈ handed, ∀ y ∈ handed, x.1 = y.1 ↔ x.2 = y.2) ∧
      ∀ x ∈ handed, x.2 ∉ first ∧ x.2 ∉ last ∧
        ∃ w, w ≠ [] ∧ (∀ ch ∈ w, ch.isAlpha = true) ∧ x.2 = options.stem ++ w := by
  obtain ⟨c, hc, hout⟩ := compile_ok h
  obtain ⟨reserved, m, hr, _, _, rfl⟩ := Description.compilation_ok hc
  obtain ⟨first, last, hfirst, hlast, rfl⟩ := Description.reserved_ok hr
  let allocator : Allocator := ⟨options.stem, Sorted.ofList (first ++ last), 0⟩
  have hleads := m.leads_sheet d.atRules allocator
  have hsound := m.sound_sheet d.atRules allocator
  refine ⟨_, first, last, hc, hout, hfirst, hlast, ?_,
    fun n ident => Model.exists_handedOut_of_mem_classesOf allocator, fun x hx y hy => ?_,
    fun x hx => ?_⟩
  · rw [Model.handedOut_sheet, Model.sheet_rules, ScopeTree.identifiers_mapContent_rule,
      List.map_map]
    rfl
  · have hxc := Model.classes_sheet_of_mem_handedOut allocator hx
    have hyc := Model.classes_sheet_of_mem_handedOut allocator hy
    constructor
    · intro hkey
      rw [hkey, hyc] at hxc
      exact (Option.some.inj hxc).symm
    · intro hident
      rw [← hident] at hyc
      exact hsound.injective _ _ _ hxc hyc
  · have hxc := Model.classes_sheet_of_mem_handedOut allocator hx
    obtain ⟨hreserved, w, hw, halpha, hident⟩ := hsound.stem_append hxc
    rw [hleads.reserved] at hreserved
    rw [hleads.stem] at hident
    have hout : x.2 ∉ first ++ last := fun hm => hreserved (Sorted.mem_ofList.2 hm)
    rw [List.mem_append, not_or] at hout
    exact ⟨hout.1, hout.2, w, hw, halpha, hident⟩

theorem compile_handsOut_skips_a :
    let d : Description := {
      prologue := some ".a{}".toList
      epilogue := none
      atRules := []
      namespaces := [([], [(['A'], "color: red; &:hover { top: 0 }".toList)])] }
    ∃ out, compile d ⟨[], .plain⟩ = .ok out ∧ ∃ c, d.compilation [] = .ok c ∧
      ∀ x ∈ (c.model.plan d.atRules).handedOut c.rules, x.2 ≠ ['a'] := by
  intro d
  have hok : (compile d ⟨[], .plain⟩).toOption.isSome = true := by decide +kernel
  cases hout : compile d ⟨[], .plain⟩ with
  | error e => simp [hout, Except.toOption] at hok
  | ok out =>
    obtain ⟨c, first, _, hc, _, hfirst, _, _, _, _, hnew⟩ := compile_handsOut hout
    have ha : Description.verbatimClasses Description.prologueName d.prologue = .ok [['a']] := by
      decide +kernel
    rw [ha] at hfirst
    cases hfirst
    exact ⟨out, rfl, c, hc, fun x hx heq => (hnew x hx).1 (by simp [heq])⟩

end AtomicCss
