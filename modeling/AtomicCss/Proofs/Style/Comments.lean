import AtomicCss.Proofs.Style.Frame
set_option autoImplicit false

/-!
Comments that are put into a text.

A reader is the same before and after a comment, but for where it stands. So a comment between two
characters that are read outside strings and comments leaves no trace in the nodes
(`parse_insert_comment`), whatever quotes, braces and parentheses are in it.
-/

namespace AtomicCss

def commentOf (inside : Text) : Text := '/' :: '*' :: (inside ++ ['*', '/'])

/--
Between the two texts the reader is outside strings and comments, and not between a slash and an
asterisk that open a comment.
-/
def isOutside (before after : Text) : Bool :=
  (Reader.initial.readAll before).toOption.any fun r =>
    r.mode = .code || (r.mode = .slash && after.head? != some '*')

theorem Stacked.refl (outer : List OpenBlock) (nodes : List Node) :
    Stacked [] outer nodes outer nodes := by
  induction outer generalizing nodes with
  | nil => exact .bottom
  | cons b outer ih => exact .block (ih b.before)

namespace Reader

variable {r s : Reader} {c : Char} {x t : Text} {nodes : List Node}

/-- The readers are at the same character of the same statement, though not in the same place. -/
structure Resumes (r s : Reader) : Prop where
  depth : s.depth = r.depth
  read : s.read = r.read
  nodes : s.nodes = r.nodes
  outer : s.outer = r.outer

theorem Resumes.trans {u : Reader} (h : r.Resumes s) (g : s.Resumes u) : r.Resumes u :=
  ⟨g.depth.trans h.depth, g.read.trans h.read, g.nodes.trans h.nodes, g.outer.trans h.outer⟩

theorem Resumes.frames (h : r.Resumes s) (hmode : s.mode = r.mode) : Frames [] s r where
  mode := hmode
  depth := h.depth
  statement t := by rw [h.read]
  stack := by
    rw [h.outer, h.nodes]
    exact .refl r.outer r.nodes

theorem step_inside (hmode : r.mode = .comment ∨ r.mode = .commentStar ∧ c ≠ '/') :
    ∃ s, r.step c = .ok s ∧ s.mode = (if c = '*' then .commentStar else .comment) ∧
      r.Resumes s := by
  have htake : r.take c =
      .ok { r with mode := if c = '*' then .commentStar else .comment } := by
    rcases hmode with hmode | ⟨hmode, hc⟩
    · simp [take, hmode]
    · simp [take, hmode, hc]
  exact ⟨_, step_ok htake, rfl, rfl, rfl, rfl, rfl⟩

theorem readAll_inside (hmode : r.mode = .comment ∨ r.mode = .commentStar ∧ x.head? ≠ some '/')
    (hx : ¬ ['*', '/'] <:+: x) :
    ∃ s, r.readAll (x ++ ['*', '/']) = .ok s ∧ s.mode = .code ∧ r.Resumes s := by
  induction x generalizing r with
  | nil =>
    have hstar : r.mode = .comment ∨ r.mode = .commentStar ∧ '*' ≠ '/' :=
      hmode.imp_right fun h => ⟨h.1, by decide⟩
    obtain ⟨s, hs, hsmode, hresumes⟩ := step_inside hstar
    have htake : s.take '/' = .ok { s with mode := .code } := by simp [take, hsmode]
    refine ⟨{ s with mode := .code, here := s.here.advance '/' }, ?_, rfl,
      hresumes.trans ⟨rfl, rfl, rfl, rfl⟩⟩
    rw [List.nil_append, readAll_cons, hs]
    exact (readAll_singleton s '/').trans (step_ok htake)
  | cons c x ih =>
    have hc : r.mode = .comment ∨ r.mode = .commentStar ∧ c ≠ '/' :=
      hmode.imp_right fun h => ⟨h.1, by simpa using h.2⟩
    rw [List.infix_cons_iff, not_or] at hx
    obtain ⟨hhere, hrest⟩ := hx
    obtain ⟨s, hs, hsmode, hresumes⟩ := step_inside hc
    have hnext : s.mode = .comment ∨ s.mode = .commentStar ∧ x.head? ≠ some '/' := by
      rw [hsmode]
      split
      next hstar =>
        -- an asterisk before a slash would end the comment here
        refine Or.inr ⟨rfl, fun hslash => hhere ?_⟩
        obtain ⟨y, rfl⟩ := List.head?_eq_some_iff.1 hslash
        exact ⟨y, by rw [hstar]; rfl⟩
      next => exact Or.inl rfl
    obtain ⟨u, hu, humode, hrest⟩ := ih hnext hrest
    refine ⟨u, ?_, humode, hresumes.trans hrest⟩
    rw [List.cons_append, readAll_cons, hs]
    exact hu

theorem step_settled (h : r.mode = .code ∨ r.mode = .slash ∧ c ≠ '*') :
    r.settled.step c = r.step c := by
  rw [step, step, take_eq_takeCode h, take_eq_takeCode (r := r.settled) (Or.inl rfl)]
  rfl

theorem reads_settled (h : r.mode = .code ∨ r.mode = .slash ∧ t.head? ≠ some '*') :
    (r.settled.readAll t).bind finish = .ok nodes ↔ (r.readAll t).bind finish = .ok nodes := by
  cases t with
  | nil =>
    have hmode : r.mode = .code ∨ r.mode = .slash := h.imp_right And.left
    have hstatement : r.settled.statement = r.statement := statement_of_code rfl
    show r.settled.finish = .ok nodes ↔ r.finish = .ok nodes
    rw [finish_eq_ok, finish_eq_ok, hstatement]
    simp [hmode, settled]
  | cons c t =>
    have hc : r.mode = .code ∨ r.mode = .slash ∧ c ≠ '*' :=
      h.imp_right fun h => ⟨h.1, by simpa using h.2⟩
    rw [readAll_cons, readAll_cons, step_settled hc]

theorem readAll_comment (h : r.mode = .code ∨ r.mode = .slash) (hx : ¬ ['*', '/'] <:+: x) :
    ∃ s, r.readAll (commentOf x) = .ok s ∧ s.mode = .code ∧ r.settled.Resumes s := by
  have hslash : r.mode = .code ∨ r.mode = .slash ∧ '/' ≠ '*' :=
    h.imp_right fun h => ⟨h, by decide⟩
  have hopen : r.step '/' = .ok { r.settled with
      mode := .slash, mark := r.here, here := r.here.advance '/' } := by
    rw [← step_settled hslash]
    rfl
  obtain ⟨s, hs, hmode, hresumes⟩ := readAll_inside (x := x) (r := { r.settled with
    mode := .comment, mark := r.here, here := (r.here.advance '/').advance '*' }) (Or.inl rfl) hx
  refine ⟨s, ?_, hmode, hresumes.depth, hresumes.read, hresumes.nodes, hresumes.outer⟩
  rw [commentOf, readAll_cons, hopen]
  exact hs

end Reader

theorem parseAsWritten_insert_comment {before after inside : Text} {nodes : List Node}
    (h : isOutside before after = true) (hinside : ¬ ['*', '/'] <:+: inside) :
    parseAsWritten (before ++ (commentOf inside ++ after)) = .ok nodes ↔
      parseAsWritten (before ++ after) = .ok nodes := by
  obtain ⟨r, hr, hmode⟩ := exists_ok h
  simp only [Bool.or_eq_true, Bool.and_eq_true, decide_eq_true_eq, bne_iff_ne] at hmode
  obtain ⟨s, hs, hcode, hresumes⟩ := Reader.readAll_comment (hmode.imp_right And.left) hinside
  have hread : parseAsWritten (before ++ after) = (r.readAll after).bind Reader.finish := by
    rw [parseAsWritten, Reader.readAll_append, hr]
    rfl
  have hcomment : parseAsWritten (before ++ (commentOf inside ++ after)) =
      (s.readAll after).bind Reader.finish := by
    rw [parseAsWritten, Reader.readAll_append, hr]
    show (r.readAll (commentOf inside ++ after)).bind _ = _
    rw [Reader.readAll_append, hs]
    rfl
  have hreads := (hresumes.frames hcode).reads after
  rw [hread, hcomment, ← Reader.reads_settled hmode]
  constructor
  · intro h
    obtain ⟨rest, hrest, rfl⟩ := hreads.ok_left h
    exact hrest
  · intro h
    obtain ⟨all, hall, rfl⟩ := hreads.ok_right h
    exact hall

/--
A comment between two characters that are read outside strings and comments leaves the nodes of
the text as they are.
-/
theorem parse_insert_comment {before after inside : Text} {nodes : List Node}
    (h : isOutside before after = true) (hinside : ¬ ['*', '/'] <:+: inside) :
    parse (before ++ (commentOf inside ++ after)) = .ok nodes ↔
      parse (before ++ after) = .ok nodes := by
  have hwritten : ∀ ns, parseAsWritten (before ++ (commentOf inside ++ after)) = .ok ns ↔
      parseAsWritten (before ++ after) = .ok ns :=
    fun _ => parseAsWritten_insert_comment h hinside
  constructor
  · intro hparse
    obtain ⟨written, hok, rfl⟩ := map_ok hparse
    rw [parse, (hwritten written).1 hok]
    rfl
  · intro hparse
    obtain ⟨written, hok, rfl⟩ := map_ok hparse
    rw [parse, (hwritten written).2 hok]
    rfl

theorem parse_insert_comment_slashes :
    let before := "a \x7b width: calc((1px + 2px) /".toList
    let after := " 3); background: url('/*') \x7d @media print \x7b b \x7b c: d \x7d \x7d".toList
    let inside := " ' \" ( \x7b ; /* * ".toList
    let printed := "a\x7bwidth:calc((1px + 2px) / 3);background:url('/*')\x7d".toList ++
      "@media print\x7bb\x7bc:d\x7d\x7d".toList
    isOutside before after = true ∧ ¬ ['*', '/'] <:+: inside ∧ ∃ nodes,
      parse (before ++ (commentOf inside ++ after)) = .ok nodes ∧
        Node.renderAll nodes = printed := by
  intro before after inside printed
  have hpos : isOutside before after = true := by decide +kernel
  have hinside : ¬ ['*', '/'] <:+: inside := by decide +kernel
  obtain ⟨nodes, hnodes, hprinted⟩ := exists_ok (x := parse (before ++ after))
    (p := fun n => Node.renderAll n = printed) (by decide +kernel)
  exact ⟨hpos, hinside, nodes, (parse_insert_comment hpos hinside).2 hnodes,
    of_decide_eq_true hprinted⟩

end AtomicCss
