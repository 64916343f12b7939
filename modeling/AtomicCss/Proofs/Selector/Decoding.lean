import AtomicCss.Proofs.Compile.ClassNames
import AtomicCss.Text.Hex
set_option autoImplicit false

/-!
The class selectors of verbatim CSS, and the names that browsers give them.

What a class selector is follows CSS Syntax: an identifier behind a dot, outside strings, attribute
brackets and escapes, where a backslash before hexadecimal digits stands for a code point and
before any other character for that character (`Spells`). The scan of `classNames` goes along with
this reading as long as nothing is escaped that it would take for a quote or a bracket
(`Reading.agrees`). Then it meets every class selector, and collects its name unless the name is
spelled with a code point.
-/

namespace AtomicCss

namespace Selector

def isNewline (c : Char) : Bool := c = '\n' || c = '\r' || c = '\x0c'

/-- Characters with which an identifier can begin. -/
def beginsIdent (c : Char) : Bool := c.isAlpha || c = '_' || 0x80 ≤ c.toNat

/-- A backslash at the end of a line, or of the selector, escapes nothing. -/
def isEscape : Text → Bool
  | '\\' :: c :: _ => !isNewline c
  | _ => false

def startsIdent : Text → Bool
  | '-' :: r => r.head?.any (fun c => c = '-' || beginsIdent c) || isEscape r
  | t => t.head?.any beginsIdent || isEscape t

/-- The character with this code point, or the replacement character if there is none. -/
def codePoint (n : Nat) : Char := if n = 0 ∨ ¬n.isValidChar then '\uFFFD' else Char.ofNat n

/-- One blank after the digits of a code point belongs to them. -/
def skipBlank : Text → Text
  | '\r' :: '\n' :: r => r
  | c :: r => if isCssBlank c then r else c :: r
  | [] => []

/-- The identifier at the start of a text, and the name that it stands for. -/
inductive Spells : Text → Text → Prop where
  | stop {t : Text} : t.head?.any continuesName = false → isEscape t = false → Spells t []
  | plain {c : Char} {r name : Text} : continuesName c = true → Spells r name →
      Spells (c :: r) (c :: name)
  | escape {c : Char} {r name : Text} : isNewline c = false → hexValue? c = none →
      Spells r name → Spells ('\\' :: c :: r) (c :: name)
  | code {digits r name : Text} {n : Nat} : 1 ≤ digits.length → digits.length ≤ 6 →
      hexNumber? digits = some n → (digits.length = 6 ∨ r.head?.bind hexValue? = none) →
      Spells (skipBlank r) name → Spells ('\\' :: (digits ++ r)) (codePoint n :: name)

/-- Where a reader of a selector stands, before the next character. -/
structure Reading where
  quoting : Quoting
  escaped : Bool
  inAttribute : Bool
  /-- All characters since the dot belong to the class name. -/
  inName : Bool
  deriving DecidableEq, Repr

namespace Reading

def start : Reading := ⟨.bare, false, false, false⟩

/-- The state behind `c`, which stands before `r`. -/
def next (s : Reading) (c : Char) (r : Text) : Reading :=
  if s.quoting ≠ .bare then { s with quoting := s.quoting.next c }
  else if s.escaped then { s with escaped := false }
  else if c = '\\' then
    { s with escaped := isEscape (c :: r), inName := s.inName && isEscape (c :: r) }
  else
    { quoting := s.quoting.next c
      escaped := false
      inAttribute := if c = '[' then true else if c = ']' then false else s.inAttribute
      inName := !s.inAttribute && c = '.' && startsIdent r || s.inName && continuesName c }

def after (s : Reading) (rest : Text) : Text → Reading
  | [] => s
  | c :: r => (s.next c (r ++ rest)).after rest r

def outside (s : Reading) : Bool := s.quoting = .bare && !s.escaped && !s.inAttribute

end Reading

/-- In the selector `s`, the class selector of this name has its dot between `before` and `rest`. -/
structure IsClass (s before rest name : Text) : Prop where
  split : s = before ++ '.' :: rest
  outside : (Reading.start.after ('.' :: rest) before).outside = true
  starts : startsIdent rest = true
  spells : Spells rest name

/-- Not a hyphen and, beyond ASCII, a character that is not a letter. -/
def startsAlike : Text → Bool
  | '-' :: c :: _ => c.toNat < 0x80 || isAlphabetic c
  | _ => true

namespace Reading

/--
Outside strings and class names, `c` is not an escaped quote or bracket. And it is not a dot before
a name that the scan does not enter.
-/
def allows (s : Reading) (c : Char) (r : Text) : Bool :=
  s.quoting ≠ .bare ||
    if s.escaped then s.inName || !(isQuote c || c = '[' || c = ']')
    else s.inAttribute || c ≠ '.' || startsAlike r

/-- What stands before `rest` is allowed, character by character. -/
def agrees (s : Reading) (rest : Text) : Text → Bool
  | [] => true
  | c :: r => s.allows c (r ++ rest) && (s.next c (r ++ rest)).agrees rest r

end Reading

/-- Up to its end, no backslash stands before a hexadecimal digit or a newline. -/
def plainName : Text → Bool
  | '\\' :: c :: r => !isNewline c && (hexValue? c).isNone && plainName r
  | c :: r => !continuesName c || plainName r
  | [] => true

/-- The scan and the reader stand at the same place. -/
inductive InStep : ClassScan → Reading → Prop where
  | between {q : Quoting} {a : Bool} {s : Reading} : s.quoting = q → s.inAttribute = a →
      s.inName = false → InStep (.between q a) s
  | name {read : Text} {s : Reading} : s.quoting = .bare → s.escaped = false →
      s.inAttribute = false → InStep (.name read) s

section

variable {c : Char} {r t read : Text} {s : Reading}

theorem ne_of_continuesName {d : Char} (hc : continuesName c = true)
    (hd : continuesName d = false) : c ≠ d := by
  rintro rfl
  rw [hd] at hc
  cases hc

theorem classNamesFrom_plain (hc : continuesName c = true) :
    classNamesFrom (.name read) (c :: r) = classNamesFrom (.name (c :: read)) r := by
  rw [classNamesFrom, if_pos hc]
  rintro _ _ rfl
  exact absurd rfl (ne_of_continuesName hc (by decide))

theorem classNamesFrom_stop (hc : continuesName c = false) (hslash : c ≠ '\\' ∨ r = []) :
    classNamesFrom (.name read) (c :: r) =
      read.reverse :: classNamesFrom (.pass .bare false c r) r := by
  rw [classNamesFrom, if_neg (by simp [hc])]
  rintro d u rfl rfl
  simp at hslash

theorem isEscape_cons (h : isEscape (c :: r) = true) : c = '\\' := by
  unfold isEscape at h
  split at h
  next heq => exact (List.cons.inj heq).1
  next => cases h

theorem starts_of_begins (h : (beginsIdent c || isEscape (c :: r)) = true) :
    (isAlphabetic c || c = '_' || c = '\\' || 0x80 ≤ c.toNat) = true := by
  simp only [Bool.or_eq_true, beginsIdent, decide_eq_true_eq] at h ⊢
  rcases h with ((halpha | hline) | hbeyond) | hescape
  · exact Or.inl (Or.inl (Or.inl (isAlphabetic_of_isAlpha halpha)))
  · exact Or.inl (Or.inl (Or.inr hline))
  · exact Or.inr hbeyond
  · exact Or.inl (Or.inr (isEscape_cons hescape))

theorem startsName_of_startsIdent (h : startsIdent t = true) (halike : startsAlike t = true) :
    startsName t = true := by
  cases t with
  | nil => cases h
  | cons c r =>
    by_cases hhyphen : c = '-'
    · subst hhyphen
      cases r with
      | nil => cases h
      | cons d r =>
        by_cases hd : d = '-'
        · simp [startsName, hd]
        · have hbegins := starts_of_begins (c := d) (r := r) (by simpa [startsIdent, hd] using h)
          have hbeyond : 0x80 ≤ d.toNat → isAlphabetic d = true := fun hge => by
            simpa [startsAlike, Nat.not_lt.2 hge] using halike
          simp only [Bool.or_eq_true, decide_eq_true_eq] at hbegins
          simp only [startsName, Bool.or_eq_true, decide_eq_true_eq]
          tauto
    · have hbegins := starts_of_begins (c := c) (r := r) (by simpa [startsIdent, hhyphen] using h)
      simpa [startsName, hhyphen] using hbegins

theorem exists_classNamesFrom_name {name : Text} (h : Spells t name) (hplain : plainName t = true)
    (read : Text) : ∃ l, classNamesFrom (.name read) t = (read.reverse ++ name) :: l := by
  induction h generalizing read with
  | @stop t hend hescape =>
    cases t with
    | nil => exact ⟨[], by simp [classNamesFrom]⟩
    | cons c r =>
      have hslash : c ≠ '\\' ∨ r = [] := by
        rw [or_iff_not_imp_left, not_not]
        rintro rfl
        cases r with
        | nil => rfl
        | cons d r =>
          rw [plainName, Bool.and_eq_true, Bool.and_eq_true] at hplain
          rw [isEscape, hplain.1.1] at hescape
          cases hescape
      rw [classNamesFrom_stop hend hslash, List.append_nil]
      exact ⟨_, rfl⟩
  | @plain c r name hc _ ih =>
    have hrest : plainName r = true := by
      rw [plainName] at hplain
      · simpa [hc] using hplain
      · rintro d u rfl
        exact absurd rfl (ne_of_continuesName hc (by decide))
    obtain ⟨l, hl⟩ := ih hrest (c :: read)
    exact ⟨l, by rw [classNamesFrom_plain hc, hl]; simp⟩
  | @escape c r name _ _ _ ih =>
    rw [plainName, Bool.and_eq_true] at hplain
    obtain ⟨l, hl⟩ := ih hplain.2 (c :: read)
    exact ⟨l, by rw [classNamesFrom, hl]; simp⟩
  | @code digits r name n hone _ hnumber =>
    cases digits with
    | nil => cases hone
    | cons d digits =>
      rw [List.cons_append, plainName, Bool.and_eq_true, Bool.and_eq_true,
        Option.isNone_iff_eq_none] at hplain
      simp [hexNumber?, hplain.1.2] at hnumber

namespace Reading

theorem next_quoted (hq : s.quoting ≠ .bare) :
    s.next c r = { s with quoting := s.quoting.next c } := by
  simp [next, hq]

variable (hq : s.quoting = .bare)
include hq

theorem next_escaped (he : s.escaped = true) : s.next c r = { s with escaped := false } := by
  simp [next, hq, he]

theorem next_backslash (he : s.escaped = false) : s.next '\\' r =
    { s with escaped := isEscape ('\\' :: r), inName := s.inName && isEscape ('\\' :: r) } := by
  simp [next, hq, he]

theorem next_bare (he : s.escaped = false) (hc : c ≠ '\\') : s.next c r =
    { quoting := Quoting.bare.next c
      escaped := false
      inAttribute := if c = '[' then true else if c = ']' then false else s.inAttribute
      inName := !s.inAttribute && c = '.' && startsIdent r || s.inName && continuesName c } := by
  simp [next, hq, he, hc]

end Reading

theorem InStep.pass_bare {a : Bool}
    (hname : c = '.' → a = false → startsName r = true → InStep (.name []) s)
    (hbetween : ¬(c = '.' ∧ a = false ∧ startsName r = true) →
      InStep (.between (Quoting.bare.next c)
        (if c = '[' then true else if c = ']' then false else a)) s) :
    InStep (.pass .bare a c r) s := by
  rw [ClassScan.pass, if_pos rfl]
  split
  next h =>
    simp only [Bool.and_eq_true, decide_eq_true_eq, Bool.not_eq_true'] at h
    exact hname h.1.1 h.1.2 h.2
  next h =>
    refine hbetween fun hdot => h ?_
    simp [hdot]

theorem InStep.pass_plain (hallows : s.allows c r = true) (hq : s.quoting = .bare)
    (he : s.escaped = false) (hslash : c ≠ '\\') (hends : (s.inName && continuesName c) = false) :
    InStep (.pass .bare s.inAttribute c r) (s.next c r) := by
  rw [Reading.next_bare hq he hslash, hends]
  refine .pass_bare (fun hc ha _ => ?_) fun hnone => .between rfl rfl ?_
  · exact .name (by simp [hc, Quoting.next, isQuote]) rfl (by simp [hc, ha])
  · rw [Bool.or_false, ← Bool.not_eq_true]
    intro hstarts
    simp only [Bool.and_eq_true, Bool.not_eq_true', decide_eq_true_eq] at hstarts
    obtain ⟨⟨ha, hc⟩, hr⟩ := hstarts
    have halike : startsAlike r = true := by
      simpa [Reading.allows, hq, he, ha, hc] using hallows
    exact hnone ⟨hc, ha, startsName_of_startsIdent hr halike⟩

theorem InStep.pass (hallows : s.allows c r = true) (hn : s.inName = false) :
    InStep (.pass s.quoting s.inAttribute c r) (s.next c r) := by
  by_cases hq : s.quoting = .bare
  · rw [hq]
    cases he : s.escaped with
    | true =>
      have hc : isQuote c = false ∧ c ≠ '[' ∧ c ≠ ']' := by
        simpa [Reading.allows, hq, he, hn, and_assoc] using hallows
      rw [Reading.next_escaped hq he]
      refine .pass_bare (fun _ ha _ => .name hq rfl ha) fun _ => ?_
      exact .between (by simp [hq, Quoting.next, hc.1]) (by simp [hc.2.1, hc.2.2]) hn
    | false =>
      by_cases hslash : c = '\\'
      · subst hslash
        rw [Reading.next_backslash hq he]
        refine .pass_bare (fun hc => by cases hc) fun _ => ?_
        exact .between (by simp [hq, Quoting.next, isQuote]) (by simp) (by simp [hn])
      · exact .pass_plain hallows hq he hslash (by simp [hn])
  · rw [ClassScan.pass, if_neg hq, Reading.next_quoted hq]
    exact .between rfl rfl hn

theorem InStep.name_plain (hstep : InStep (.name read) s) (hc : continuesName c = true) :
    InStep (.name (c :: read)) (s.next c r) := by
  have hne : ∀ d, continuesName d = false → c ≠ d := fun _ => ne_of_continuesName hc
  cases hstep with
  | name hq he ha =>
    rw [Reading.next_bare hq he (hne '\\' (by decide))]
    refine .name ?_ rfl ?_
    · simp [Quoting.next, isQuote, hne '"' (by decide), hne '\'' (by decide)]
    · simp [ha, hne '[' (by decide), hne ']' (by decide)]

theorem InStep.name_escape {d : Char} (hstep : InStep (.name read) s) :
    InStep (.name (d :: read)) ((s.next '\\' (d :: r)).next d r) := by
  cases hstep with
  | name hq he ha =>
    cases hd : isNewline d with
    | false => refine .name ?_ ?_ ?_ <;> simp [Reading.next, hq, he, ha, isEscape, hd]
    | true =>
      simp only [isNewline, Bool.or_eq_true, decide_eq_true_eq] at hd
      rcases hd with (rfl | rfl) | rfl <;> refine .name ?_ ?_ ?_ <;>
        simp [Reading.next, hq, he, ha, isEscape, isNewline, Quoting.next, isQuote]

theorem classNamesFrom_dot {a : Bool} (ha : a = false) (h : startsName r = true) :
    classNamesFrom (.pass .bare a '.' r) r = classNamesFrom (.name []) r := by
  simp [ClassScan.pass, ha, h]

end

theorem exists_append_classNamesFrom (before : Text) {rest : Text} {scan : ClassScan} {s : Reading}
    (hstep : InStep scan s) (hagrees : s.agrees ('.' :: rest) before = true)
    (houtside : (s.after ('.' :: rest) before).outside = true) (hstarts : startsName rest = true) :
    ∃ l, classNamesFrom scan (before ++ '.' :: rest) = l ++ classNamesFrom (.name []) rest := by
  match before with
  | [] =>
    rw [Reading.after, Reading.outside] at houtside
    simp only [Bool.and_eq_true, decide_eq_true_eq, Bool.not_eq_true'] at houtside
    cases hstep with
    | between hq ha _ =>
      refine ⟨[], ?_⟩
      rw [List.nil_append, classNamesFrom, ← hq, ← ha, houtside.1.1,
        classNamesFrom_dot houtside.2 hstarts, List.nil_append]
    | @name read _ _ _ =>
      refine ⟨[read.reverse], ?_⟩
      rw [List.nil_append, classNamesFrom_stop (by decide) (Or.inl (by decide)),
        classNamesFrom_dot rfl hstarts]
      rfl
  | c :: r =>
    rw [Reading.agrees, Bool.and_eq_true] at hagrees
    cases hstep with
    | between hq ha hn =>
      have hnext := InStep.pass hagrees.1 hn
      rw [hq, ha] at hnext
      rw [List.cons_append, classNamesFrom]
      exact exists_append_classNamesFrom r hnext hagrees.2 houtside hstarts
    | @name read _ hq he ha =>
      -- In a name the scan reads a backslash and the next character as one, the reader one by one.
      by_cases hslash : c = '\\'
      · subst hslash
        cases r with
        | nil => simp [Reading.after, Reading.next, hq, he, isEscape, isNewline, Reading.outside]
            at houtside
        | cons d b =>
          have hagrees := hagrees.2
          rw [Reading.agrees, Bool.and_eq_true] at hagrees
          rw [List.cons_append, List.cons_append, classNamesFrom]
          exact exists_append_classNamesFrom b (InStep.name hq he ha).name_escape hagrees.2
            houtside hstarts
      cases hc : continuesName c with
      | true =>
        rw [List.cons_append, classNamesFrom_plain hc]
        exact exists_append_classNamesFrom r ((InStep.name hq he ha).name_plain hc) hagrees.2
          houtside hstarts
      | false =>
        have hnext := InStep.pass_plain hagrees.1 hq he hslash (by simp [hc])
        rw [ha] at hnext
        obtain ⟨l, hl⟩ := exists_append_classNamesFrom r hnext hagrees.2 houtside hstarts
        exact ⟨read.reverse :: l, by
          rw [List.cons_append, classNamesFrom_stop hc (Or.inl hslash), hl, List.cons_append]⟩

/-- The class selector is read alike by the scan, and its name is spelled without code points. -/
structure Legible (before rest : Text) : Prop where
  agrees : Reading.start.agrees ('.' :: rest) before = true
  starts : startsAlike rest = true
  plain : plainName rest = true

theorem mem_classNames {s before rest name : Text} (h : IsClass s before rest name)
    (hlegible : Legible before rest) : name ∈ classNames s := by
  obtain ⟨l, hl⟩ := exists_append_classNamesFrom before (.between rfl rfl rfl) hlegible.agrees
    h.outside (startsName_of_startsIdent h.starts hlegible.starts)
  obtain ⟨more, hmore⟩ := exists_classNamesFrom_name h.spells hlegible.plain []
  have hnames : classNames s = l ++ name :: more := by
    rw [hmore] at hl
    rw [classNames, h.split]
    exact hl
  rw [hnames]
  exact List.mem_append_right _ List.mem_cons_self

end Selector

namespace Node

mutual

def selectors : Node → List Text
  | .declaration _ _ | .statement _ => []
  | .rule selector children => selector :: selectorsAll children
  | .atRule _ children => selectorsAll children

def selectorsAll : List Node → List Text
  | [] => []
  | n :: r => selectors n ++ selectorsAll r

end

mutual

theorem classMentions_eq (n : Node) :
    n.classMentions = n.selectors.flatMap Selector.classNames := by
  match n with
  | .declaration _ _ | .statement _ => rfl
  | .rule selector children =>
    rw [classMentions, selectors, List.flatMap_cons, classMentionsAll_eq children]
  | .atRule _ children => rw [classMentions, selectors, classMentionsAll_eq children]

theorem classMentionsAll_eq (nodes : List Node) :
    classMentionsAll nodes = (selectorsAll nodes).flatMap Selector.classNames := by
  match nodes with
  | [] => rfl
  | n :: r =>
    rw [classMentionsAll, selectorsAll, List.flatMap_append, classMentions_eq n,
      classMentionsAll_eq r]

end

end Node

open Selector (IsClass Legible Spells)

/--
Every class selector of an accepted text that is legible is among its class names under its real
name, and reserved if the text is verbatim CSS of a description.
-/
theorem Description.reserves_class {t : Text} {nodes : List Node} (hparse : parse t = .ok nodes)
    {selector before rest name : Text} (hselector : selector ∈ Node.selectorsAll nodes)
    (hclass : IsClass selector before rest name) (hlegible : Legible before rest) :
    name ∈ Node.classNames nodes ∧ ∀ (d : Description) (l : List Text),
      d.prologue = some t ∨ d.epilogue = some t → d.reserved = .ok l → name ∈ l := by
  have hname : name ∈ Node.classNames nodes := by
    rw [Node.classNames, Sorted.mem_ofList, Node.classMentionsAll_eq]
    exact List.mem_flatMap.2 ⟨selector, hselector, Selector.mem_classNames hclass hlegible⟩
  refine ⟨hname, fun d l htext hl => ?_⟩
  obtain ⟨first, last, hfirst, hlast, rfl⟩ := reserved_ok hl
  have hverbatim : ∀ binding names, verbatimClasses binding (some t) = .ok names →
      names = Node.classNames nodes := by
    intro binding names h
    rw [verbatimClasses, hparse] at h
    exact (Except.ok.inj h).symm
  rw [Sorted.mem_ofList, List.mem_append]
  rcases htext with htext | htext
  · rw [htext] at hfirst
    exact Or.inl (hverbatim _ _ hfirst ▸ hname)
  · rw [htext] at hlast
    exact Or.inr (hverbatim _ _ hlast ▸ hname)

theorem Description.reserves_class_colon :
    let t := "@media print \x7b p > [a=\".b\"] .g\\:h:hover \x7b \x7d \x7d".toList
    let selector := "p > [a=\".b\"] .g\\:h:hover".toList
    let before := "p > [a=\".b\"] ".toList
    let rest := "g\\:h:hover".toList
    ∃ nodes, parse t = .ok nodes ∧ selector ∈ Node.selectorsAll nodes ∧
      IsClass selector before rest "g:h".toList ∧ Legible before rest ∧
      "g:h".toList ∈ Node.classNames nodes := by
  intro t selector before rest
  obtain ⟨nodes, hnodes, h⟩ := exists_ok (x := parse t) (p := fun nodes =>
    (Node.selectorsAll nodes).contains selector) (by decide +kernel)
  have hmem : selector ∈ Node.selectorsAll nodes := by simpa using h
  have hspells : Spells rest "g:h".toList :=
    .plain (by decide) (.escape (by decide) (by decide) (.plain (by decide)
      (.stop (by decide) (by decide))))
  have hclass : IsClass selector before rest "g:h".toList :=
    ⟨by decide, by decide, by decide, hspells⟩
  have hlegible : Legible before rest := ⟨by decide, by decide, by decide⟩
  exact ⟨nodes, hnodes, hmem, hclass, hlegible,
    (Description.reserves_class hnodes hmem hclass hlegible).1⟩

/-- The text is accepted, and a class selector in it has a name that is not collected. -/
def Overlooked (t name : Text) : Prop :=
  ∃ nodes, parse t = .ok nodes ∧ name ∉ Node.classNames nodes ∧
    ∃ selector ∈ Node.selectorsAll nodes, ∃ before rest, IsClass selector before rest name

theorem overlooked_of {t selector before rest name : Text}
    (h : ((parse t).toOption.any fun nodes =>
      (Node.selectorsAll nodes).contains selector && !(Node.classNames nodes).contains name) = true)
    (hclass : IsClass selector before rest name) : Overlooked t name := by
  obtain ⟨nodes, hnodes, h⟩ := exists_ok h
  simp only [Bool.and_eq_true, List.contains_iff_mem, Bool.not_eq_true', Bool.eq_false_iff, ne_eq]
    at h
  exact ⟨nodes, hnodes, h.2, selector, h.1, before, rest, hclass⟩

/--
A name that is spelled with a code point is overlooked, one behind an escaped bracket, and one that
begins with a hyphen and a character that is not a letter.
-/
theorem overlooked_names :
    Overlooked ".\\61\x7b\x7d".toList "a".toList ∧
      Overlooked "#\\[ .b\x7b\x7d".toList "b".toList ∧
      Overlooked ".-😀\x7b\x7d".toList "-😀".toList := by
  have hone : 1 ≤ "61".toList.length := by decide
  have hnumber : hexNumber? "61".toList = some 0x61 := by decide
  have hspells : Spells "\\61".toList [Selector.codePoint 0x61] :=
    Spells.code (r := []) hone (by decide) hnumber (Or.inr rfl) (.stop (by decide) (by decide))
  have hcode : IsClass ".\\61".toList [] "\\61".toList "a".toList :=
    ⟨rfl, by decide, by decide, hspells⟩
  have hbracket : IsClass "#\\[ .b".toList "#\\[ ".toList "b".toList "b".toList :=
    ⟨rfl, by decide, by decide, .plain (by decide) (.stop (by decide) (by decide))⟩
  have hhyphen : IsClass ".-😀".toList [] "-😀".toList "-😀".toList :=
    ⟨rfl, by decide, by decide, .plain (by decide) (.plain (by decide)
      (.stop (by decide) (by decide)))⟩
  exact ⟨overlooked_of (by decide +kernel) hcode, overlooked_of (by decide +kernel) hbracket,
    overlooked_of (by decide +kernel) hhyphen⟩

end AtomicCss
