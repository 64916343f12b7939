import AtomicCss.Proofs.ClassMap.Literals
import AtomicCss.Proofs.Data.OrderedMap
import AtomicCss.Proofs.Input.Documents
set_option autoImplicit false

namespace AtomicCss.ModuleReader

def isNamePart (c : Char) : Bool := c.isAlphanum || c = '_' || c = '$'

def literal? : Text → Option (Text × Text)
  | '"' :: r => Json.unquote? r
  | _ => none

/-- An object of strings, and what follows it. -/
def object? (t : Text) : Option (List (Text × Text) × Text) := do
  match ← Json.value? (t.length + 1) Json.maxDepth t with
  | (.object l, r) =>
    let members ← l.mapM fun m => (Json.text? m.2).map (m.1, ·)
    some (members, r)
  | _ => none

/-- What the constant is set to: the object, or in development mode its accessor, which is told the
name of the constant. -/
def value? (mode : EmissionMode) (name t : Text) : Option (List (Text × Text) × Text) :=
  match mode with
  | .plain => object? t
  | .dev => do
    let (label, r) ← literal? (← Json.skipWord? "_accessor(".toList t)
    let (members, r) ← object? (← Json.skipWord? ", ".toList r)
    let r ← Json.skipWord? [')'] r
    if label = name then some (members, r) else none

/-- The first export, its name with its members, and what follows it. -/
def export? (mode : EmissionMode) (t : Text) : Option ((Text × List (Text × Text)) × Text) := do
  let r ← Json.skipWord? "export const ".toList t
  let name := r.takeWhile isNamePart
  let r ← Json.skipWord? " = ".toList (r.dropWhile isNamePart)
  let (members, r) ← value? mode name r
  let r ← Json.skipWord? [';', '\n'] r
  some ((name, members), r)

def exports? (mode : EmissionMode) (fuel : Nat) (t : Text) :
    Option (List (Text × List (Text × Text))) :=
  match fuel, t with
  | _, [] => some []
  | 0, _ => none
  | fuel + 1, t => do
    let (e, r) ← export? mode t
    let l ← exports? mode fuel r
    some (e :: l)

def prelude (mode : EmissionMode) : Text :=
  match mode with
  | .plain => []
  | .dev => ClassMap.unlines (ClassMap.accessorPrelude.map String.toList) ++ ['\n']

/-- The exports of a module. -/
def read? (mode : EmissionMode) (t : Text) : Option (List (Text × List (Text × Text))) := do
  let r ← Json.skipWord? (prelude mode) t
  exports? mode r.length r

variable {m : ClassMap} {mode : EmissionMode} {space : Text}

theorem skipWord?_append (word t : Text) : Json.skipWord? word (word ++ t) = some t := by
  have hprefix : word.isPrefixOf (word ++ t) = true :=
    List.isPrefixOf_iff_prefix.2 (List.prefix_append word t)
  rw [Json.skipWord?, if_pos hprefix, List.drop_left]

theorem literal?_quote (t r : Text) : literal? (Json.quote t ++ r) = some (t, r) :=
  Json.unquote?_quote t r

theorem object?_objectLiteral (m : ClassMap) (space r : Text) :
    object? (m.objectLiteral space ++ r) = some (m.entries space, r) := by
  have hfuel : (m.entries space).length + 2 ≤ (m.objectLiteral space ++ r).length + 1 := by
    have hlength := m.length_entries_le space
    rw [List.length_append]
    omega
  rw [object?, show Json.maxDepth = 126 + 1 from rfl, m.value?_objectLiteral space hfuel]
  simp only [Option.bind_eq_bind, Option.bind_some, Json.mapM_text?_members]

theorem all_isNamePart (h : isExportName space = true) : ∀ c ∈ space, isNamePart c = true := by
  cases space with
  | nil => cases h
  | cons c r =>
    simp only [isExportName, Bool.and_eq_true, List.all_eq_true] at h
    refine List.forall_mem_cons.2 ⟨?_, h.2⟩
    rcases Bool.or_eq_true_iff.1 h.1.2 with hletter | hdollar
    · simp [isNamePart, Char.isAlphanum, hletter]
    · simp [isNamePart, of_decide_eq_true hdollar]

theorem takeWhile_isNamePart (h : isExportName space = true) (r : Text) :
    (space ++ " = ".toList ++ r).takeWhile isNamePart = space := by
  rw [List.append_assoc, List.takeWhile_append_of_pos (all_isNamePart h)]
  exact List.append_nil space

theorem dropWhile_isNamePart (h : isExportName space = true) (r : Text) :
    (space ++ " = ".toList ++ r).dropWhile isNamePart = " = ".toList ++ r := by
  rw [List.append_assoc, List.dropWhile_append_of_pos (all_isNamePart h)]
  rfl

def valueText (m : ClassMap) (mode : EmissionMode) (space : Text) : Text :=
  match mode with
  | .plain => m.objectLiteral space
  | .dev =>
    "_accessor(".toList ++ (Json.quote space ++ (", ".toList ++ (m.objectLiteral space ++ [')'])))

-- The fixed words are generalized where texts are only regrouped: they are long to evaluate.
theorem exportLine_eq (m : ClassMap) (mode : EmissionMode) (space : Text) :
    m.exportLine mode space =
      "export const ".toList ++ (space ++ " = ".toList ++ (valueText m mode space ++ [';'])) := by
  cases mode with
  | plain =>
    rw [ClassMap.exportLine_plain]
    unfold valueText
    generalize "export const ".toList = a
    generalize " = ".toList = b
    simp only [List.append_assoc]
  | dev =>
    have hend : ");".toList = [')'] ++ [';'] := rfl
    rw [ClassMap.exportLine_dev, hend]
    unfold valueText
    generalize "export const ".toList = a
    generalize " = ".toList = b
    generalize "_accessor(".toList = c
    generalize ", ".toList = d
    simp only [List.append_assoc]

theorem value?_valueText (m : ClassMap) (mode : EmissionMode) (space r : Text) :
    value? mode space (valueText m mode space ++ r) = some (m.entries space, r) := by
  cases mode with
  | plain => exact object?_objectLiteral m space r
  | dev =>
    unfold value? valueText
    generalize "_accessor(".toList = a
    generalize ", ".toList = b
    simp only [List.append_assoc, skipWord?_append, literal?_quote, object?_objectLiteral,
      Option.bind_eq_bind, Option.bind_some, if_true]

theorem export?_exportLine (h : isExportName space = true) (r : Text) :
    export? mode (m.exportLine mode space ++ '\n' :: r) = some ((space, m.entries space), r) := by
  have htext : m.exportLine mode space ++ '\n' :: r = "export const ".toList ++
      (space ++ " = ".toList ++ (valueText m mode space ++ ([';', '\n'] ++ r))) := by
    rw [exportLine_eq]
    generalize "export const ".toList = a
    generalize " = ".toList = b
    simp
  rw [htext]
  unfold export?
  simp only [skipWord?_append, takeWhile_isNamePart h, dropWhile_isNamePart h, value?_valueText,
    Option.bind_eq_bind, Option.bind_some]

theorem exports?_unlines {spaces : List Text} (h : ∀ space ∈ spaces, isExportName space = true)
    (fuel : Nat) :
    exports? mode (spaces.length + fuel) (ClassMap.unlines (spaces.map (m.exportLine mode))) =
      some (spaces.map fun space => (space, m.entries space)) := by
  induction spaces with
  | nil => cases fuel <;> rfl
  | cons space spaces ih =>
    have hline := h space List.mem_cons_self
    have hrest := ih fun s hs => h s (List.mem_cons_of_mem _ hs)
    have htext : ClassMap.unlines ((space :: spaces).map (m.exportLine mode)) =
        m.exportLine mode space ++ '\n' :: ClassMap.unlines (spaces.map (m.exportLine mode)) := by
      simp [ClassMap.unlines]
    have hlength : (space :: spaces).length + fuel = (spaces.length + fuel) + 1 := by
      rw [List.length_cons]
      omega
    rw [htext, hlength, exports?, export?_exportLine hline]
    · simp only [Option.bind_eq_bind, Option.bind_some, hrest, List.map_cons]
    · exact List.append_ne_nil_of_right_ne_nil _ (List.cons_ne_nil _ _)

theorem renderModule_eq (m : ClassMap) (mode : EmissionMode) :
    m.renderModule mode =
      prelude mode ++ ClassMap.unlines (m.keys.map (m.exportLine mode)) := by
  cases mode with
  | plain => rfl
  | dev => exact (List.append_assoc _ ['\n'] _).symm

theorem read?_renderModule_keys (h : ∀ space ∈ m.keys, isExportName space = true) :
    read? mode (m.renderModule mode) =
      some (m.keys.map fun space => (space, m.entries space)) := by
  have hlines : m.keys.length ≤ (ClassMap.unlines (m.keys.map (m.exportLine mode))).length := by
    rw [← List.length_map (m.exportLine mode)]
    exact Text.length_le_flatMap fun line => by simp
  obtain ⟨k, hk⟩ := Nat.exists_eq_add_of_le hlines
  rw [read?, renderModule_eq, skipWord?_append]
  simp only [Option.bind_eq_bind, Option.bind_some]
  rw [hk]
  exact exports?_unlines h k

/-- A rendered module is read as the namespaces in their order, each with its styles and their class
lists in their order. -/
theorem read?_renderModule (hnodup : m.keys.Nodup) (h : ∀ space ∈ m.keys, isExportName space = true)
    (mode : EmissionMode) :
    read? mode (m.renderModule mode) =
      some (m.map fun e => (e.1, e.2.map fun s => (s.1, ClassMap.classList s.2))) := by
  have hentries : ∀ e ∈ m, (e.1, m.entries e.1) =
      (e.1, e.2.map fun s => (s.1, ClassMap.classList s.2)) := by
    intro e he
    rw [ClassMap.entries, OrderedMap.get?_of_mem hnodup he, Option.getD_some]
  rw [read?_renderModule_keys h, OrderedMap.keys, List.map_map]
  exact congrArg some (List.map_congr_left hentries)

/-- A style may be called like the end of its namespace and the beginning of another. -/
theorem read?_renderModule_awkward_names :
    let name := "\"\n\x7d;\nexport const b = \x7b\\\u0000".toList
    let m : ClassMap := [("$a".toList, [(name, [['a'], ['b']]), ([], [])]), (['b'], [])]
    ∀ mode, read? mode (m.renderModule mode) =
      some [("$a".toList, [(name, "a b".toList), ([], [])]), (['b'], [])] := by
  intro name m mode
  exact read?_renderModule (by decide) (by decide) mode

end AtomicCss.ModuleReader
