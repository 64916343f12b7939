import AtomicCss.Proofs.Style.Gap
import Mathlib.Data.List.Forall2
set_option autoImplicit false

/-!
Texts on lines one after the other.

Texts that are parsed one by one are parsed to the same nodes together exactly when each of them
stands apart from what comes behind it (`parse_lines`).
-/

namespace AtomicCss

/-- The statement at the end is empty, or what comes behind it ends it before it goes on. -/
def Reader.standsBefore (r : Reader) (t : Text) : Bool :=
  r.statement.isEmpty ||
    match Gap.blank.firstInk t with
    | none => true
    | some c => r.depth = 0 && c = ';'

/-- What comes behind the text does not go on with its last statement. -/
def standsApart (s t : Text) : Bool :=
  (Reader.initial.readAll s).toOption.all (·.standsBefore t)

/-- On lines one after the other, no text goes on with a statement of one before it. -/
def linesApart : List Text → Bool
  | [] => true
  | t :: r => standsApart t (Text.join ['\n'] r) && linesApart r

theorem standsBefore_iff {r : Reader} {t : Text} : r.standsBefore t = true ↔ r.statement = [] ∨
    (Gap.blank.firstInk t = none ∨ r.depth = 0 ∧ Gap.blank.firstInk t = some ';') := by
  unfold Reader.standsBefore
  cases Gap.blank.firstInk t <;> simp

theorem standsApart_nil (t : Text) : standsApart t [] = true := by
  unfold standsApart
  cases Reader.initial.readAll t with
  | error e => rfl
  | ok r => simp [Except.toOption, standsBefore_iff, Gap.firstInk]

/-- What reading a parsed text and the end of its line comes to. -/
structure Behind (s : Text) (front : List Node) (r : Reader) : Prop where
  reads : ∀ t, parseAsWritten (s ++ '\n' :: t) = (r.readAll t).bind Reader.finish
  apart : ∀ t, standsApart s t = r.standsBefore t
  mode : r.mode = .code
  outer : r.outer = []
  nodes : r.statementText = [] ∧ r.Ready ∧ front = r.nodes ∨ r.statementText ≠ [] ∧
    ∃ n, Node.ofStatement r.statementText = .ok n ∧ front = r.nodes ++ [n]

theorem exists_behind {s : Text} {front : List Node} (h : parseAsWritten s = .ok front) :
    ∃ r, Behind s front r := by
  obtain ⟨e, he, hfinish⟩ := bind_ok h
  obtain ⟨hmode, houter, hnodes⟩ := Reader.finish_eq_ok.1 hfinish
  obtain ⟨r, hr, hscan, hcontinues⟩ :=
    Reader.step_of_scan (Scan.step_blank (s := e.scan) hmode (show isBlank '\n' = true by decide))
  have hcode : r.mode = .code := congrArg Scan.mode hscan
  have hdepth : r.depth = e.depth := congrArg Scan.depth hscan
  have hpending : r.pending = '\n' :: e.pending := hcontinues.pending
  have hstatement : r.statement = e.statement := by
    rw [Reader.statement, hpending, List.reverse_cons]
    exact Text.trim_append_blank (List.forall_mem_singleton.2 (by decide)) _
  have htext : r.statementText = e.statement := by
    rw [← Reader.statement_of_code hcode, hstatement]
  refine ⟨r, ?_, ?_, hcode, hcontinues.outer.trans houter, ?_⟩
  · intro t
    rw [parseAsWritten, Reader.readAll_append, he]
    show ((e.readAll ('\n' :: t)).bind _) = _
    rw [Reader.readAll_cons, hr]
    rfl
  · intro t
    have hsame : r.standsBefore t = e.standsBefore t := by
      rw [Reader.standsBefore, Reader.standsBefore, hstatement, hdepth]
    rw [hsame, standsApart, he]
    rfl
  · rw [htext, hcontinues.nodes]
    rcases hnodes with ⟨hempty, hfront⟩ | hlast
    · refine Or.inl ⟨hempty, ⟨hcode, ?_, ?_⟩, hfront⟩
      · rw [hdepth]
        exact (Reader.coherent_initial.readAll he).depth_eq_zero hempty
      · rw [← Reader.pending_of_code hcode, hpending]
        exact List.forall_mem_cons.2 ⟨by decide, Reader.blank_of_statement_nil hempty⟩
    · exact Or.inr hlast

theorem agree_of_standsApart {s t : Text} {front : List Node} (h : parseAsWritten s = .ok front)
    (hapart : standsApart s t = true) :
    Agree (fun nodes rest => nodes = front ++ rest) (parseAsWritten (s ++ '\n' :: t))
      (parseAsWritten t) := by
  obtain ⟨r, hr⟩ := exists_behind h
  rw [hr.apart, standsBefore_iff, Reader.statement_of_code hr.mode] at hapart
  rw [hr.reads]
  rcases hr.nodes with ⟨_, hready, rfl⟩ | ⟨hne, n, hn, rfl⟩
  · exact (hready.frames Reader.ready_initial hr.outer rfl rfl).reads t
  · have hreads := Reader.reads_of_firstInk hn hne hr.outer (.of_eq rfl rfl rfl rfl)
      (.of_eq rfl rfl rfl rfl) (g := .blank) hr.mode rfl (hapart.resolve_left hne)
    simpa [parseAsWritten] using hreads

/-- The node that the statement became is read again where both lines are read. -/
theorem Behind.completes {s t : Text} {front written nodes : List Node} {r : Reader} {n : Node}
    (h : Behind s front r) (hn : Node.ofStatement r.statementText = .ok n)
    (hne : r.statementText ≠ []) (hreads : (r.readAll t).bind Reader.finish = .ok written)
    (heq : Node.renamePropertiesAll propertyName written =
      Node.renamePropertiesAll propertyName (r.nodes ++ [n]) ++ nodes) :
    r.Completes t written := by
  have hink : Text.ink r.statementText = Text.ink r.read := by
    rw [Reader.statementText, Text.ink_trim, Text.ink_reverse]
  refine ⟨h.outer, hreads, ?_, fun hzero => hne ?_⟩
  · obtain ⟨ms, hms⟩ := Reader.marks_of_reads hreads
    have hrmarks : r.marks = Node.marksAll r.nodes := by simp [Reader.marks, h.outer]
    have hmarks := congrArg Node.marksAll heq
    rw [Node.marksAll_append, Node.marksAll_renameProperties, Node.marksAll_renameProperties, hms,
      Node.marksAll_append, ← hrmarks, List.map_append, List.map_append, List.append_assoc,
      List.append_cancel_left_eq] at hmarks
    simp only [Node.marksAll, (Node.ofStatement_ok hn).1, List.append_nil, List.map_singleton,
      List.singleton_append] at hmarks
    obtain ⟨m, rest, rfl, hm, _⟩ := List.map_eq_cons_iff.1 hmarks
    obtain ⟨hsize, hleaf⟩ := Mark.eq_of_rename_eq hm
    exact ⟨m, rest, hms, hleaf, hsize.trans ((Node.ofStatement_ok hn).2.trans hink)⟩
  · rw [Reader.statementText]
    exact Text.trim_of_blank fun c hc => Text.ink_eq_zero.1 hzero c (List.mem_reverse.1 hc)

theorem standsApart_of_parse {s t : Text} {front nodes : List Node} (h : parse s = .ok front)
    (hall : parse (s ++ '\n' :: t) = .ok (front ++ nodes)) : standsApart s t = true := by
  obtain ⟨first, hfirst, rfl⟩ := map_ok h
  obtain ⟨written, hwritten, heq⟩ := map_ok hall
  obtain ⟨r, hr⟩ := exists_behind hfirst
  rw [hr.reads] at hwritten
  rw [hr.apart, standsBefore_iff, Reader.statement_of_code hr.mode]
  rcases hr.nodes with ⟨hempty, _⟩ | ⟨hne, n, hn, rfl⟩
  · exact Or.inl hempty
  · exact Or.inr ((hr.completes hn hne hwritten heq).firstInk hr.mode)

theorem parse_newline {s t : Text} {front nodes : List Node} (h : parse s = .ok front) :
    parse (s ++ '\n' :: t) = .ok (front ++ nodes) ↔
      standsApart s t = true ∧ parse t = .ok nodes := by
  have hagree : standsApart s t = true → Agree (fun all rest => all = front ++ rest)
      (parse (s ++ '\n' :: t)) (parse t) := by
    intro hapart
    obtain ⟨written, hwritten, rfl⟩ := map_ok h
    refine (agree_of_standsApart hwritten hapart).map fun all rest hall => ?_
    rw [hall, Node.renamePropertiesAll_eq_map, List.map_append]
    simp only [Node.renamePropertiesAll_eq_map]
  constructor
  · intro hall
    have hapart := standsApart_of_parse h hall
    obtain ⟨rest, hrest, heq⟩ := (hagree hapart).ok_left hall
    rw [List.append_cancel_left_eq] at heq
    exact ⟨hapart, heq ▸ hrest⟩
  · rintro ⟨hapart, ht⟩
    obtain ⟨all, hall, rfl⟩ := (hagree hapart).ok_right ht
    exact hall

theorem parse_lines {lines : List Text} {nodes : List (List Node)}
    (h : List.Forall₂ (fun t n => parse t = .ok n) lines nodes) :
    parse (Text.join ['\n'] lines) = .ok nodes.flatten ↔ linesApart lines = true := by
  induction h with
  | nil => exact ⟨fun _ => rfl, fun _ => rfl⟩
  | @cons t n lines nodes ht hlines ih =>
    cases hlines with
    | nil => simp [linesApart, ht, standsApart_nil]
    | @cons u k lines nodes hu hlines =>
      have hjoin : Text.join ['\n'] (t :: u :: lines) =
          t ++ '\n' :: Text.join ['\n'] (u :: lines) := by simp
      rw [hjoin, List.flatten_cons, parse_newline ht, ih]
      exact Bool.and_eq_true_iff.symm

end AtomicCss
