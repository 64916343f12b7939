import AtomicCss.Proofs.ClassMap.Declared
import AtomicCss.Proofs.Compile.ClassMap
set_option autoImplicit false

namespace AtomicCss

/-- Which characters begin and continue an identifier; beyond ASCII this is up to Unicode. -/
structure IdentifierChars where
  starts : Char → Bool
  continues : Char → Bool
  starts_ascii : ∀ c, c.toNat < 128 → starts c = c.isAlpha
  continues_ascii : ∀ c, c.toNat < 128 → continues c = (c.isAlphanum || c = '_')

namespace IdentifierChars

/-- The reserved words of a module, those of strict code included. -/
def reserved : List Text := [
  "await", "break", "case", "catch", "class", "const", "continue", "debugger", "default", "delete",
  "do", "else", "enum", "export", "extends", "false", "finally", "for", "function", "if", "import",
  "in", "instanceof", "new", "null", "return", "super", "switch", "this", "throw", "true", "try",
  "typeof", "var", "void", "while", "with", "yield",
  "implements", "interface", "let", "package", "private", "protected", "public",
  "static"].map String.toList

/-- The names that strict code cannot bind, although they are not reserved. -/
def restricted : List Text := ["arguments", "eval"].map String.toList

/-- The joiners may stand inside an identifier. -/
def isName (u : IdentifierChars) : Text → Bool
  | [] => false
  | c :: r =>
    (u.starts c || c = '$' || c = '_') &&
      r.all fun d => u.continues d || d = '$' || d = '\u200c' || d = '\u200d'

/-- Whether strict code of a module can bind the name. -/
def canBind (u : IdentifierChars) (name : Text) : Bool :=
  u.isName name && !reserved.contains name && !restricted.contains name

variable {u : IdentifierChars} {name : Text}

theorem starts_of_isAlpha (u : IdentifierChars) {c : Char} (h : c.isAlpha = true) :
    u.starts c = true := by
  have hc : c.isAlphanum = true := by rw [Char.isAlphanum, h, Bool.true_or]
  rw [u.starts_ascii c (toNat_lt_of_isAlphanum hc), h]

theorem continues_of_isNamePart (u : IdentifierChars) {c : Char}
    (h : ModuleReader.isNamePart c = true) : (u.continues c || c = '$') = true := by
  rw [ModuleReader.isNamePart, Bool.or_eq_true] at h
  rcases h with h | h
  · have hascii : c.toNat < 128 := by
      rcases Bool.or_eq_true_iff.1 h with halphanum | hlow
      · exact toNat_lt_of_isAlphanum halphanum
      · rw [of_decide_eq_true hlow]
        decide
    rw [u.continues_ascii c hascii, h, Bool.true_or]
  · rw [h, Bool.or_true]

theorem isName_cons (u : IdentifierChars) {c : Char} {r : Text}
    (hc : c.isAlpha = true ∨ c = '$' ∨ c = '_')
    (hr : ∀ d ∈ r, ModuleReader.isNamePart d = true) : u.isName (c :: r) = true := by
  rw [isName, Bool.and_eq_true, List.all_eq_true]
  refine ⟨?_, fun d hd => ?_⟩
  · rcases hc with hc | rfl | rfl
    · rw [u.starts_of_isAlpha hc, Bool.true_or, Bool.true_or]
    · rw [decide_eq_true rfl, Bool.or_true, Bool.true_or]
    · rw [decide_eq_true rfl, Bool.or_true]
  · rw [u.continues_of_isNamePart (hr d hd), Bool.true_or, Bool.true_or]

theorem isName_of_isExportName (u : IdentifierChars) (h : isExportName name = true) :
    u.isName name = true := by
  cases name with
  | nil => cases h
  | cons c r =>
    have hparts := (List.forall_mem_cons.1 (ModuleReader.all_isNamePart h)).2
    simp only [isExportName, Bool.and_eq_true, Bool.or_eq_true, decide_eq_true_eq] at h
    exact u.isName_cons (h.1.2.imp_right Or.inl) hparts

theorem not_reserved_of_isExportName (h : isExportName name = true) : name ∉ reserved := by
  have hknown : ∀ word ∈ reserved, word ∈ reservedWords := by decide +kernel
  intro hmem
  cases name with
  | nil => cases h
  | cons c r =>
    simp only [isExportName, Bool.and_eq_true, Bool.not_eq_true', List.contains_eq_mem,
      decide_eq_false_iff_not] at h
    exact h.1.1 (hknown _ hmem)

theorem canBind_iff_of_isExportName (u : IdentifierChars) (h : isExportName name = true) :
    u.canBind name = true ↔ name ∉ restricted := by
  have hreserved := not_reserved_of_isExportName h
  simp [canBind, u.isName_of_isExportName h, hreserved]

theorem canBind_helper (u : IdentifierChars) {mode : EmissionMode}
    (h : name ∈ ModuleScan.helpers mode) : u.canBind name = true := by
  have hfree : ∀ helper ∈ ModuleScan.helpers mode, helper ∉ reserved ∧ helper ∉ restricted := by
    cases mode <;> decide +kernel
  have hname : u.isName name = true := by
    cases mode with
    | plain => cases h
    | dev =>
      rcases List.mem_cons.1 h with rfl | h
      · exact u.isName_cons (Or.inr (Or.inr rfl)) (List.all_eq_true.1 rfl)
      · rw [List.mem_singleton.1 h]
        exact u.isName_cons (Or.inr (Or.inr rfl)) (List.all_eq_true.1 rfl)
  simp [canBind, hname, hfree name h]

end IdentifierChars

/-- No namespace is called like a helper: those begin with an underscore. -/
theorem nodup_helpers_append {spaces : List Text} (hnodup : spaces.Nodup)
    (h : ∀ space ∈ spaces, isExportName space = true) (mode : EmissionMode) :
    (ModuleScan.helpers mode ++ spaces).Nodup := by
  have hhelpers : (ModuleScan.helpers mode).Nodup ∧
      ∀ helper ∈ ModuleScan.helpers mode, isExportName helper = false := by
    cases mode <;> decide
  refine List.nodup_append.2 ⟨hhelpers.1, hnodup, ?_⟩
  rintro helper hhelper space hspace rfl
  have hname := hhelpers.2 helper hhelper
  rw [h helper hspace] at hname
  cases hname

theorem declaredNames_compile {d : Description} (hd : d.Accepted) {options : CompileOptions}
    {out : CompileOutput} (hout : compile d options = .ok out) :
    ModuleScan.declaredNames out.module =
      ModuleScan.helpers options.mode ++ d.namespaces.map (·.1) := by
  obtain ⟨c, hc, rfl⟩ := compile_ok hout
  rw [← Description.keys_classes hc hd.ordered]
  exact ModuleScan.declaredNames_renderModule
    (Description.isExportName_of_mem_keys hc hd.ordered hd.exportable) options.mode

/--
The module of a compilation declares its helpers and the namespaces of the description, each name
once. All are names that its code can bind unless a namespace is called `eval` or `arguments`.
-/
theorem compile_declares (u : IdentifierChars) {d : Description} (hd : d.Accepted)
    {options : CompileOptions} {out : CompileOutput} (hout : compile d options = .ok out) :
    ModuleScan.declaredNames out.module =
        ModuleScan.helpers options.mode ++ d.namespaces.map (·.1) ∧
      (ModuleScan.declaredNames out.module).Nodup ∧
      ((∀ name ∈ ModuleScan.declaredNames out.module, u.canBind name = true) ↔
        ∀ n ∈ d.namespaces, n.1 ∉ IdentifierChars.restricted) := by
  have hdeclared := declaredNames_compile hd hout
  have hexport := hd.exportable
  have hspaces := hd.ordered.namespaces.nodup_keys
  refine ⟨hdeclared, ?_, ?_⟩
  · rw [hdeclared]
    exact nodup_helpers_append hspaces (List.forall_mem_map.2 hexport) options.mode
  rw [hdeclared, List.forall_mem_append, List.forall_mem_map]
  constructor
  · exact fun h n hn => (u.canBind_iff_of_isExportName (hexport n hn)).1 (h.2 n hn)
  · exact fun h => ⟨fun _ hhelper => u.canBind_helper hhelper,
      fun n hn => (u.canBind_iff_of_isExportName (hexport n hn)).2 (h n hn)⟩

def IdentifierChars.ascii : IdentifierChars where
  starts := Char.isAlpha
  continues c := c.isAlphanum || c = '_'
  starts_ascii _ _ := rfl
  continues_ascii _ _ := rfl

theorem compile_declares_dev :
    let source := "\x7b\"$\": \x7b\"class eval\": \"color: red\"\x7d, \"lets\": \x7b\x7d\x7d".toList
    ∃ d out, Description.load .json source = .ok d ∧ compile d ⟨[], .dev⟩ = .ok out ∧
      ModuleScan.declaredNames out.module =
        ["_MissingClassError".toList, "_accessor".toList, ['$'], "lets".toList] ∧
      ∀ name ∈ ModuleScan.declaredNames out.module, IdentifierChars.ascii.canBind name = true := by
  intro source
  let d : Description := ⟨none, none, [],
    [(['$'], [("class eval".toList, "color: red".toList)]), ("lets".toList, [])]⟩
  have hd : Description.load .json source = .ok d := by decide +kernel
  obtain ⟨out, hout, _⟩ := exists_ok (x := compile d ⟨[], .dev⟩) (p := fun _ => true)
    (by decide +kernel)
  obtain ⟨hdeclared, _, hbind⟩ :=
    compile_declares IdentifierChars.ascii (Description.accepted_load hd) hout
  exact ⟨d, out, hd, hout, hdeclared, hbind.2 (by decide)⟩

/-- A namespace may be called `eval`, and then the module is illegal. -/
theorem compile_declares_eval :
    let source := "\x7b\"eval\": \x7b\"A\": \"color: red\"\x7d\x7d".toList
    ∃ d out, Description.load .json source = .ok d ∧ compile d ⟨[], .plain⟩ = .ok out ∧
      "eval".toList ∈ ModuleScan.declaredNames out.module ∧
      ∀ u : IdentifierChars, u.canBind "eval".toList = false := by
  intro source
  let d : Description := ⟨none, none, [], [("eval".toList, [(['A'], "color: red".toList)])]⟩
  have hd : Description.load .json source = .ok d := by decide +kernel
  obtain ⟨out, hout, _⟩ := exists_ok (x := compile d ⟨[], .plain⟩) (p := fun _ => true)
    (by decide +kernel)
  refine ⟨d, out, hd, hout, ?_, fun u => ?_⟩
  · rw [declaredNames_compile (Description.accepted_load hd) hout]
    decide
  · have hrestricted : IdentifierChars.restricted.contains "eval".toList = true := by decide
    rw [IdentifierChars.canBind, hrestricted, Bool.not_true, Bool.and_false]

end AtomicCss
