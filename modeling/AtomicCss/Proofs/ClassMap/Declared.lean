import AtomicCss.Proofs.ClassMap.Reader
import AtomicCss.Text.Quoting
set_option autoImplicit false

/-!
The names that a module declares.

The scan knows strings, templates and brackets, and takes every name that follows a declaring word
outside of them. In a rendered module these are the helpers and the namespaces
(`declaredNames_renderModule`): nothing that a style is called can declare a name.
-/

namespace AtomicCss

structure ModuleScan where
  quoting : Quoting
  /-- How many brackets are open. -/
  depth : Nat
  /-- The word that is being read outside of brackets. -/
  word : Text
  /-- Whether the word before that declares the next one. -/
  declares : Bool
  names : List Text
  deriving DecidableEq, Repr

namespace ModuleScan

def declaringWords : List Text := ["class", "const", "function", "let", "var"].map String.toList

def atRest (depth : Nat) (names : List Text) : ModuleScan := ⟨.bare, depth, [], false, names⟩

def endWord (s : ModuleScan) : ModuleScan :=
  if s.word = [] then s
  else if s.declares then { s with word := [], declares := false, names := s.names ++ [s.word] }
  else { s with word := [], declares := declaringWords.contains s.word }

def takeCode (s : ModuleScan) (c : Char) : ModuleScan :=
  if ModuleReader.isNamePart c then
    if s.depth = 0 then { s with word := s.word ++ [c] } else s
  else
    let s := s.endWord
    if isQuote c || c = '`' then { s with quoting := .inside c }
    else if c = '(' || c = '[' || c = '{' then { s with depth := s.depth + 1 }
    else if c = ')' || c = ']' || c = '}' then { s with depth := s.depth - 1 }
    else s

def step (s : ModuleScan) (c : Char) : ModuleScan :=
  match s.quoting with
  | .bare => s.takeCode c
  | q => { s with quoting := q.next c }

def run (s : ModuleScan) (t : Text) : ModuleScan := t.foldl step s

/-- What the top level of a module declares, in order. -/
def declaredNames (t : Text) : List Text := ((atRest 0 []).run t).endWord.names

/-- The declarations that come before the exports. -/
def helpers : EmissionMode → List Text
  | .plain => []
  | .dev => ["_MissingClassError".toList, "_accessor".toList]

variable {depth : Nat} {names : List Text} {m : ClassMap} {space : Text}

theorem run_append (s : ModuleScan) (t r : Text) : s.run (t ++ r) = (s.run t).run r :=
  List.foldl_append

theorem run_cons (s : ModuleScan) (c : Char) (t : Text) : s.run (c :: t) = (s.step c).run t := rfl

theorem hexDigit_ne {n : Nat} (h : n < 16) : hexDigit n ≠ '\\' ∧ hexDigit n ≠ '"' := by
  have all : ∀ m : Fin 16, hexDigit m.val ≠ '\\' ∧ hexDigit m.val ≠ '"' := by decide
  exact all ⟨n, h⟩

theorem step_inside {s : ModuleScan} (h : s.quoting = .inside '"') {c : Char} (hslash : c ≠ '\\')
    (hquote : c ≠ '"') : s.step c = s := by
  have hnext : (Quoting.inside '"').next c = .inside '"' := by
    rw [Quoting.next, if_neg hslash, if_neg hquote]
  cases s
  cases h
  rw [step]
  exact congrArg (ModuleScan.mk · _ _ _ _) hnext

theorem run_backslash {s : ModuleScan} (h : s.quoting = .inside '"') (c : Char) :
    s.run ['\\', c] = s := by
  cases s
  cases h
  rfl

theorem run_escape {s : ModuleScan} (h : s.quoting = .inside '"') (c : Char) :
    s.run (Json.escape c) = s := by
  unfold Json.escape
  split
  · exact run_backslash h '"'
  split
  · exact run_backslash h '\\'
  split
  · exact run_backslash h 'b'
  split
  · exact run_backslash h 't'
  split
  · exact run_backslash h 'n'
  split
  · exact run_backslash h 'f'
  split
  · exact run_backslash h 'r'
  split
  next hcontrol =>
    have hhigh := hexDigit_ne (n := c.toNat / 16) (by omega)
    have hlow := hexDigit_ne (n := c.toNat % 16) (by omega)
    have hzero : s.step '0' = s := step_inside h (by decide) (by decide)
    calc s.run ['\\', 'u', '0', '0', hexDigit (c.toNat / 16), hexDigit (c.toNat % 16)]
        = (s.run ['\\', 'u']).run ['0', '0', hexDigit (c.toNat / 16), hexDigit (c.toNat % 16)] :=
          rfl
      _ = (s.step (hexDigit (c.toNat / 16))).step (hexDigit (c.toNat % 16)) := by
          rw [run_backslash h, run_cons, hzero, run_cons, hzero]
          rfl
      _ = s := by rw [step_inside h hhigh.1 hhigh.2, step_inside h hlow.1 hlow.2]
  next hquote hslash _ _ _ _ _ _ => exact step_inside h hslash hquote

theorem run_flatMap_escape {s : ModuleScan} (h : s.quoting = .inside '"') (t : Text) :
    s.run (t.flatMap Json.escape) = s := by
  induction t with
  | nil => rfl
  | cons c t ih => rw [List.flatMap_cons, run_append, run_escape h, ih]

theorem run_quote (t : Text) : (atRest depth names).run (Json.quote t) = atRest depth names := by
  have hopen : (atRest depth names).step '"' = { atRest depth names with quoting := .inside '"' } :=
    rfl
  rw [Json.quote, run_cons, hopen, run_append, run_flatMap_escape rfl]
  rfl

theorem run_memberLine (e : Text × Text) :
    (atRest (depth + 1) names).run (Json.memberLine e) = atRest (depth + 1) names := by
  have hindent : (atRest (depth + 1) names).run ['\n', ' ', ' '] = atRest (depth + 1) names := rfl
  have hcolon : (atRest (depth + 1) names).run [':', ' '] = atRest (depth + 1) names := rfl
  have htext : Json.memberLine e =
      ['\n', ' ', ' '] ++ (Json.quote e.1 ++ ([':', ' '] ++ Json.quote e.2)) := by
    rw [Json.memberLine, List.append_assoc, List.append_assoc]
    rfl
  rw [htext, run_append, hindent, run_append, run_quote, run_append, hcolon, run_quote]

theorem run_memberLines (l : List (Text × Text)) :
    (atRest (depth + 1) names).run (l.flatMap fun e => ',' :: Json.memberLine e) =
      atRest (depth + 1) names := by
  induction l with
  | nil => rfl
  | cons e l ih =>
    have hcomma : (atRest (depth + 1) names).step ',' = atRest (depth + 1) names := rfl
    rw [List.flatMap_cons, run_append, run_cons, hcomma, run_memberLine, ih]

theorem run_objectLiteral (m : ClassMap) (space : Text) :
    (atRest depth names).run (m.objectLiteral space) = atRest depth names := by
  cases h : m.entries space with
  | nil => rw [ClassMap.objectLiteral_of_nil h]; rfl
  | cons e l =>
    have hopen : (atRest depth names).step '{' = atRest (depth + 1) names := rfl
    have hclose : (atRest (depth + 1) names).run ['\n', '}'] = atRest depth names := rfl
    rw [ClassMap.objectLiteral_of_cons h, run_cons, hopen, run_append, run_memberLine, run_append,
      run_memberLines, hclose]

theorem run_word {s : ModuleScan} (hbare : s.quoting = .bare) (htop : s.depth = 0) {t : Text}
    (h : ∀ c ∈ t, ModuleReader.isNamePart c = true) :
    s.run t = { s with word := s.word ++ t } := by
  induction t generalizing s with
  | nil => rw [List.append_nil]; rfl
  | cons c t ih =>
    obtain ⟨hc, ht⟩ := List.forall_mem_cons.1 h
    have hcode : s.step c = s.takeCode c := by rw [step, hbare]
    have hstep : s.step c = { s with word := s.word ++ [c] } := by
      rw [hcode, takeCode, if_pos hc, if_pos htop]
    have htail : { s with word := s.word ++ [c] }.run t = { s with word := s.word ++ [c] ++ t } :=
      ih hbare htop ht
    rw [run_cons, hstep, htail, List.append_assoc, List.singleton_append]

theorem run_call (names : List Text) :
    (atRest 0 names).run "_accessor(".toList = atRest 1 names := by
  have htext : "_accessor(".toList = "_accessor".toList ++ ['('] := by decide
  have hname : (atRest 0 names).run "_accessor".toList =
      ⟨.bare, 0, "_accessor".toList, false, names⟩ := run_word rfl rfl (List.all_eq_true.1 rfl)
  rw [htext, run_append, hname]
  rfl

theorem run_valueText (m : ClassMap) (mode : EmissionMode) (space : Text) :
    (atRest 0 names).run (ModuleReader.valueText m mode space) = atRest 0 names := by
  cases mode with
  | plain => exact run_objectLiteral m space
  | dev =>
    have hcomma : (atRest 1 names).run ", ".toList = atRest 1 names := rfl
    unfold ModuleReader.valueText
    rw [run_append, run_call, run_append, run_quote, run_append, hcomma, run_append,
      run_objectLiteral]
    rfl

theorem run_const (names : List Text) :
    (atRest 0 names).run "export const ".toList = ⟨.bare, 0, [], true, names⟩ := by
  have htext : "export const ".toList =
      "export".toList ++ ([' '] ++ ("const".toList ++ [' '])) := by decide
  have hexport : (atRest 0 names).run "export".toList =
      ⟨.bare, 0, "export".toList, false, names⟩ := run_word rfl rfl (List.all_eq_true.1 rfl)
  have hblank : (ModuleScan.mk .bare 0 "export".toList false names).run [' '] = atRest 0 names :=
    rfl
  have hconst : (atRest 0 names).run "const".toList =
      ⟨.bare, 0, "const".toList, false, names⟩ := run_word rfl rfl (List.all_eq_true.1 rfl)
  rw [htext, run_append, hexport, run_append, hblank, run_append, hconst]
  rfl

theorem run_exportLine (h : isExportName space = true) (m : ClassMap) (mode : EmissionMode) :
    (atRest 0 names).run (m.exportLine mode space ++ ['\n']) = atRest 0 (names ++ [space]) := by
  have hword : (ModuleScan.mk .bare 0 [] true names).run space = ⟨.bare, 0, space, true, names⟩ :=
    run_word rfl rfl (ModuleReader.all_isNamePart h)
  have hequals : (ModuleScan.mk .bare 0 space true names).run " = ".toList =
      atRest 0 (names ++ [space]) := by
    cases space with
    | nil => cases h
    | cons c r => rfl
  rw [ModuleReader.exportLine_eq, run_append, run_append, run_const, run_append, run_append,
    run_append, hword, hequals, run_valueText]
  rfl

theorem run_unlines {spaces : List Text} (h : ∀ space ∈ spaces, isExportName space = true)
    (m : ClassMap) (mode : EmissionMode) :
    (atRest 0 names).run (ClassMap.unlines (spaces.map (m.exportLine mode))) =
      atRest 0 (names ++ spaces) := by
  induction spaces generalizing names with
  | nil => rw [List.append_nil]; rfl
  | cons space spaces ih =>
    obtain ⟨hspace, hspaces⟩ := List.forall_mem_cons.1 h
    have htext : ClassMap.unlines ((space :: spaces).map (m.exportLine mode)) =
        (m.exportLine mode space ++ ['\n']) ++ ClassMap.unlines (spaces.map (m.exportLine mode)) :=
      rfl
    rw [htext, run_append, run_exportLine hspace, ih hspaces, List.append_assoc,
      List.singleton_append]

/-- A line is taken for its characters without being evaluated. -/
theorem map_toList_cons {line : String} {t : Text} {lines : List String} {texts : List Text}
    (h : line = String.ofList t) (hlines : lines.map String.toList = texts) :
    (line :: lines).map String.toList = t :: texts := by
  rw [List.map_cons, h, String.toList_ofList, hlines]

theorem run_accessorPrelude :
    (atRest 0 []).run (ClassMap.unlines (ClassMap.accessorPrelude.map String.toList)) =
      atRest 0 (helpers .dev) := by
  have hlines : ∃ texts, ClassMap.accessorPrelude.map String.toList = texts ∧
      (atRest 0 []).run (ClassMap.unlines texts) = atRest 0 (helpers .dev) := by
    apply Exists.intro
    apply And.intro
    · unfold ClassMap.accessorPrelude
      repeat' first | exact List.map_nil | apply map_toList_cons rfl
    · decide +kernel
  obtain ⟨texts, htexts, hrun⟩ := hlines
  rw [htexts, hrun]

theorem run_prelude (mode : EmissionMode) :
    (atRest 0 []).run (ModuleReader.prelude mode) = atRest 0 (helpers mode) := by
  cases mode with
  | plain => rfl
  | dev =>
    unfold ModuleReader.prelude
    rw [run_append, run_accessorPrelude]
    rfl

theorem declaredNames_renderModule (h : ∀ space ∈ m.keys, isExportName space = true)
    (mode : EmissionMode) :
    declaredNames (m.renderModule mode) = helpers mode ++ m.keys := by
  rw [declaredNames, ModuleReader.renderModule_eq, run_append, run_prelude, run_unlines h]
  rfl

end ModuleScan
end AtomicCss
