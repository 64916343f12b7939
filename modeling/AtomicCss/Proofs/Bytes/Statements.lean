import AtomicCss.Proofs.Bytes.Selectors
import AtomicCss.Proofs.Style.Moves
set_option autoImplicit false

/-!
Statements of a style text, read byte by byte.

Between two characters outside strings and comments, the scan of bytes stands where a reader stands
that has the same statement in hand (`readStatement_ends`).
-/

namespace AtomicCss

open Text (bytes leadByte isAscii)

/-- Line and column of byte `i`; none if the part of the line before it is no piece of the text. -/
def Position.ofByte? (t : Text) (i : Nat) : Option Position :=
  let before := t.bytes.take (min i t.bytes.length)
  let lineStart := before.length - (before.reverse.takeWhile (· != '\n'.toUInt8)).length
  (t.slice? lineStart i).map fun line => ⟨before.count '\n'.toUInt8 + 1, line.length + 1⟩

namespace Position

theorem after_append (u w : Text) : after (u ++ w) = w.foldl advance (after u) := List.foldl_append

theorem exists_lines (u : Text) : ∃ a b, u = a ++ b ∧ '\n' ∉ b ∧ (a = [] ∨ ∃ x, a = x ++ ['\n']) ∧
    after u = ⟨u.count '\n' + 1, b.length + 1⟩ := by
  induction u using List.reverseRecOn with
  | nil => exact ⟨[], [], rfl, List.not_mem_nil, Or.inl rfl, rfl⟩
  | append_singleton u c ih =>
    obtain ⟨a, b, hu, hb, ha, hafter⟩ := ih
    rw [after_append_singleton, hafter, advance, List.count_append]
    by_cases hc : c = '\n'
    · subst hc
      exact ⟨u ++ ['\n'], [], (List.append_nil _).symm, List.not_mem_nil, Or.inr ⟨u, rfl⟩, rfl⟩
    · refine ⟨a, b ++ [c], by rw [hu, List.append_assoc], ?_, ha, ?_⟩
      · simpa [hb] using Ne.symm hc
      · simp [hc]

theorem ofByte?_eq (u v : Text) : ofByte? (u ++ v) u.utf8Length = some (after u) := by
  obtain ⟨a, b, hu, hb, ha, hafter⟩ := exists_lines u
  have hbefore : (u ++ v).bytes.take (min u.utf8Length (u ++ v).bytes.length) = u.bytes := by
    rw [Text.length_bytes, Text.utf8Length_append, Nat.min_eq_left (Nat.le_add_right _ _),
      Text.bytes_append, ← Text.length_bytes, List.take_left]
  have hline : ∀ code ∈ b.bytes.reverse, (code != '\n'.toUInt8) = true := by
    intro code hcode
    rw [bne_iff_ne]
    rintro rfl
    have hpos := List.count_pos_iff.2 (List.mem_reverse.1 hcode)
    rw [Text.count_bytes (by decide), List.count_pos_iff] at hpos
    exact hb hpos
  have hfirst : a.bytes.reverse.takeWhile (· != '\n'.toUInt8) = [] := by
    rcases ha with rfl | ⟨x, rfl⟩
    · rfl
    · rw [Text.bytes_append, List.reverse_append]
      rfl
  have hstart : u.bytes.length - (u.bytes.reverse.takeWhile (· != '\n'.toUInt8)).length =
      a.utf8Length := by
    rw [hu, Text.bytes_append, List.reverse_append, List.takeWhile_append_of_pos hline, hfirst,
      List.append_nil, List.length_reverse, List.length_append, Nat.add_sub_cancel,
      Text.length_bytes]
  have hslice := Text.slice?_append a b v
  rw [← List.append_assoc, ← hu] at hslice
  rw [ofByte?]
  simp only [hbefore, hstart, hslice, Option.map_some,
    Text.count_bytes (show isAscii '\n' = true by decide), hafter]

end Position

/-- A fault that is found at byte `i`. -/
def failAt {α : Type} (t : Text) (fault : SyntaxFault) (i : Nat) : Option (Except SyntaxError α) :=
  (Position.ofByte? t i).map fun p => .error ⟨fault, p⟩

theorem failAt_eq {α : Type} (fault : SyntaxFault) (u v : Text) :
    failAt (u ++ v) fault u.utf8Length =
      some (.error ⟨fault, .after u⟩ : Except SyntaxError α) := by
  rw [failAt, Position.ofByte?_eq]
  rfl

/-- Where a string that `q` closes ends, if it ends on its line. -/
def stringEnd? (t : Text) (q : UInt8) (i : Nat) : Option Nat :=
  if h : i < t.bytes.length then
    if t.bytes[i] = '\\'.toUInt8 then stringEnd? t q (i + 2)
    else if t.bytes[i] = q then some (i + 1)
    else if t.bytes[i] = '\n'.toUInt8 then none
    else stringEnd? t q (i + 1)
  else none
termination_by t.bytes.length - i

/-- The end of the string that the quote at byte `i` opens. -/
def skipString (t : Text) (q : UInt8) (i : Nat) : Option (Except SyntaxError Nat) :=
  match stringEnd? t q (i + 1) with
  | some next => some (.ok next)
  | none => failAt t .unclosedString i

/-- The end of the comment that begins at byte `i`. -/
def skipComment (t : Text) (i : Nat) : Option (Except SyntaxError Nat) :=
  (t.slice? (i + 2) t.bytes.length).bind fun rest =>
    match Text.find? ['*', '/'] rest with
    | some offset => some (.ok (i + 2 + offset + 2))
    | none => failAt t .unclosedComment i

theorem failAt_ne_ok {α : Type} {t : Text} {fault : SyntaxFault} {i : Nat} {a : α} :
    failAt t fault i ≠ some (.ok a) := by
  unfold failAt
  cases Position.ofByte? t i <;> simp

theorem lt_of_stringEnd? {t : Text} {q : UInt8} {i j : Nat} (h : stringEnd? t q i = some j) :
    i < j := by
  fun_induction stringEnd? t q i with
  | case1 i hlt hback ih => exact Nat.lt_of_succ_lt (Nat.lt_of_succ_lt (ih h))
  | case2 =>
    cases h
    exact Nat.lt_succ_self _
  | case3 => cases h
  | case4 i hlt hback hclose hline ih => exact Nat.lt_of_succ_lt (ih h)
  | case5 => cases h

theorem lt_of_skipString {t : Text} {q : UInt8} {i j : Nat}
    (h : skipString t q i = some (.ok j)) : i < j := by
  unfold skipString at h
  split at h
  next hend =>
    cases h
    exact Nat.lt_of_succ_lt (lt_of_stringEnd? hend)
  next => exact absurd h failAt_ne_ok

theorem lt_of_skipComment {t : Text} {i j : Nat} (h : skipComment t i = some (.ok j)) : i < j := by
  obtain ⟨rest, _, h⟩ := Option.bind_eq_some_iff.1 h
  split at h
  · cases h
    omega
  · exact absurd h failAt_ne_ok

inductive Terminator where
  | semicolon
  | opening
  | closing
  | ending
  deriving DecidableEq, Repr

def isTerminatorByte (code : UInt8) : Bool :=
  code = ';'.toUInt8 || code = '{'.toUInt8 || code = '}'.toUInt8

def Terminator.ofByte (code : UInt8) : Terminator :=
  if code = ';'.toUInt8 then .semicolon else if code = '{'.toUInt8 then .opening else .closing

structure Statement where
  text : Text
  terminator : Terminator
  /-- The byte behind the terminator. -/
  next : Nat

/--
The statement from byte `i` on, behind `text`. What stands between `front` and `i` is in it too;
none if that is no piece of the text.
-/
def readStatement (t : Text) (front i depth : Nat) (text : Text) :
    Option (Except SyntaxError Statement) :=
  if h : i < t.bytes.length then
    if t.bytes[i] = '/'.toUInt8 ∧ t.bytes[i + 1]? = some '*'.toUInt8 then
      match t.slice? front i with
      | none => none
      | some piece =>
        match hend : skipComment t i with
        | none => none
        | some (.error e) => some (.error e)
        | some (.ok next) => readStatement t next next depth (text ++ piece)
    else if isQuoteByte t.bytes[i] then
      match hend : skipString t t.bytes[i] i with
      | none => none
      | some (.error e) => some (.error e)
      | some (.ok next) => readStatement t front next depth text
    else if t.bytes[i] = '('.toUInt8 then readStatement t front (i + 1) (depth + 1) text
    else if t.bytes[i] = ')'.toUInt8 then readStatement t front (i + 1) (depth - 1) text
    else if isTerminatorByte t.bytes[i] ∧ depth = 0 then
      (t.slice? front i).map fun piece => .ok ⟨text ++ piece, .ofByte t.bytes[i], i + 1⟩
    else readStatement t front (i + 1) depth text
  else (t.slice? front i).map fun piece => .ok ⟨text ++ piece, .ending, i⟩
termination_by t.bytes.length - i
decreasing_by
  · have hnext := lt_of_skipComment hend
    omega
  · have hnext := lt_of_skipString hend
    omega
  all_goals omega

theorem lt_of_readStatement {t text : Text} {front i depth : Nat} {s : Statement}
    (h : readStatement t front i depth text = some (.ok s)) :
    i ≤ s.next ∧ (s.terminator ≠ .ending → i < s.next ∧ i < t.bytes.length) := by
  fun_induction readStatement t front i depth text with
  | case1 | case2 | case3 | case5 | case6 => cases h
  | case4 front i depth text hlt _ _ _ next hend ih =>
    have hnext := lt_of_skipComment hend
    have hle := (ih h).1
    exact ⟨by omega, fun _ => ⟨by omega, hlt⟩⟩
  | case7 front i depth text hlt _ _ next hend ih =>
    have hnext := lt_of_skipString hend
    have hle := (ih h).1
    exact ⟨by omega, fun _ => ⟨by omega, hlt⟩⟩
  | case8 front i depth text hlt _ _ _ ih | case9 front i depth text hlt _ _ _ _ ih
  | case11 front i depth text hlt _ _ _ _ _ ih =>
    have hle := (ih h).1
    exact ⟨by omega, fun _ => ⟨by omega, hlt⟩⟩
  | case10 front i depth text hlt =>
    obtain ⟨piece, _, hs⟩ := Option.map_eq_some_iff.1 h
    cases hs
    exact ⟨Nat.le_succ i, fun _ => ⟨Nat.lt_succ_self i, hlt⟩⟩
  | case12 =>
    obtain ⟨piece, _, hs⟩ := Option.map_eq_some_iff.1 h
    cases hs
    exact ⟨Nat.le_refl _, fun hne => absurd rfl hne⟩

/-- What the end of a string, or none, tells of a reader in it, with `v` left behind `u`. -/
inductive StringEnd (u v : Text) (r : Reader) : Option Nat → Prop
  | unclosed : r.run v = .error ⟨.unclosedString, r.mark⟩ → StringEnd u v r none
  | closed {x w : Text} {s : Reader} : v = x ++ w → r.Moves v s w → s.mode = .code →
      s.depth = r.depth → s.read = x.reverse ++ r.read →
      s.here = x.foldl Position.advance r.here → StringEnd u v r (some (u ++ x).utf8Length)

theorem StringEnd.cons {u v : Text} {c : Char} {r : Reader} {m : Mode} {stop : Option Nat}
    (hs : r.step c = .ok { r.push c with mode := m, here := r.here.advance c })
    (h : StringEnd (u ++ [c]) v { r.push c with mode := m, here := r.here.advance c } stop) :
    StringEnd u (c :: v) r stop := by
  have hmoves : r.Moves (c :: v) { r.push c with mode := m, here := r.here.advance c } v :=
    ⟨Reader.run_cons_ok hs v, rfl, rfl, rfl⟩
  cases h with
  | unclosed herror => exact .unclosed (hmoves.run.trans herror)
  | @closed x w s hv hnext hmode hdepth hread hhere =>
    rw [List.append_assoc]
    refine .closed (congrArg (c :: ·) hv) (hmoves.trans hnext) hmode hdepth ?_ hhere
    rw [hread]
    simp [Reader.push]

/-- The scan of a string, which is over when no quote is waited for. -/
def scanString (t : Text) : Option UInt8 → Nat → Option Nat
  | some q, i => stringEnd? t q i
  | none, i => some i

theorem stringEnd?_next {t : Text} {i : Nat} {code : UInt8} (h : t.bytes[i]? = some code)
    (hline : code ≠ '\n'.toUInt8) (q : UInt8) :
    stringEnd? t q i = scanString t (inString q code).1 (i + (inString q code).2) := by
  obtain ⟨hlt, rfl⟩ := List.getElem?_eq_some_iff.1 h
  rw [stringEnd?, dif_pos hlt, inString]
  split
  · rfl
  split
  · rfl
  · rfl

theorem stringEnd?_ends {t u v : Text} (ht : t = u ++ v) {q : Quoting}
    (hproper : q.Proper) (hbare : q ≠ .bare) {r : Reader}
    (hmode : r.mode = .quoted q) :
    StringEnd u v r (scanString t q.byte? (u.utf8Length + q.lead)) := by
  induction v generalizing u q r with
  | nil =>
    have hend : scanString t q.byte? (u.utf8Length + q.lead) = none := by
      have hlength : ¬u.utf8Length + q.lead < t.bytes.length := by
        rw [ht, List.append_nil, Text.length_bytes]
        omega
      cases q with
      | bare => exact absurd rfl hbare
      | inside d | escaped d =>
        rw [Quoting.byte?, scanString, stringEnd?]
        exact dif_neg hlength
    rw [hend]
    exact .unclosed (Reader.run_string_nil hmode)
  | cons c v ih =>
    by_cases hline : ∃ d, q = .inside d ∧ c = '\n'
    · obtain ⟨d, rfl, rfl⟩ := hline
      have hbyte : t.bytes[u.utf8Length]? = some '\n'.toUInt8 :=
        ht ▸ (Text.getElem?_bytes_eq_iff (by decide) u _).2 rfl
      obtain ⟨hlt, hget⟩ := List.getElem?_eq_some_iff.1 hbyte
      have hend : stringEnd? t d.toUInt8 u.utf8Length = none := by
        have hquote : '\n'.toUInt8 ≠ d.toUInt8 := by
          have hd : isQuote d = true := hproper
          simp only [isQuote, Bool.or_eq_true, decide_eq_true_eq] at hd
          rcases hd with rfl | rfl <;> decide
        rw [stringEnd?, dif_pos hlt, hget, if_neg (by decide), if_neg hquote, if_pos rfl]
      show StringEnd u _ r (stringEnd? t d.toUInt8 u.utf8Length)
      rw [hend]
      exact .unclosed (Reader.run_cons_error (Reader.step_string_end hmode) v)
    · have hstep := Reader.step_string hmode fun d hd hc => hline ⟨d, hd, hc⟩
      have hnext : t = (u ++ [c]) ++ v := by simpa using ht
      have hbytes : ∀ p b, t.bytes[p]? = some b → 128 ≤ b.toNat ∨ q.lead = 0 ∧ b = leadByte c →
          scanString t q.byte? p =
            scanString t (Quoting.step q.byte? b).1 (p + (Quoting.step q.byte? b).2) := by
        intro p b hb hcase
        cases q with
        | bare => exact absurd rfl hbare
        | inside d =>
          have hnewline := Text.ne_of_ne hcase (by decide) fun hc => hline ⟨d, rfl, hc⟩
          exact stringEnd?_next hb hnewline _
        | escaped d =>
          have hhigh := hcase.resolve_right fun h => absurd h.1 Nat.one_ne_zero
          exact stringEnd?_next hb (Text.ne_of_le_toNat hhigh (by decide)) _
      rw [Quoting.scan_next (f := scanString t) ht hbytes hproper]
      by_cases hclosed : q.next c = .bare
      · rw [if_pos hclosed] at hstep
        rw [hclosed]
        have hhere : StringEnd (u ++ [c]) v
            { r.push c with mode := .code, here := r.here.advance c }
            (some ((u ++ [c]) ++ []).utf8Length) := .closed rfl (.refl _ v) rfl rfl rfl rfl
        rw [List.append_nil] at hhere
        exact .cons hstep hhere
      · rw [if_neg hclosed] at hstep
        exact .cons hstep (ih hnext (hproper.next c) hclosed rfl)

/--
What passing over a string or comment tells of a reader before it, with `v` left behind `u`. The
part `kept` of what is passed is in the statement.
-/
inductive SkipEnd (kept : Text → Text) (u v : Text) (r : Reader) :
    Option (Except SyntaxError Nat) → Prop
  | failed {e : SyntaxError} : r.run v = .error e → SkipEnd kept u v r (some (.error e))
  | passed {x w : Text} {s : Reader} : v = x ++ w → r.Moves v s w → s.mode = .code →
      s.depth = r.depth → s.read = (kept x).reverse ++ r.read → s.here = .after (u ++ x) →
      x ≠ [] → SkipEnd kept u v r (some (.ok (u ++ x).utf8Length))

section

variable {t u v : Text} {r : Reader}

theorem skipString_ends {q : Char} (ht : t = u ++ q :: v) (hq : isQuote q = true)
    (hmode : r.mode = .code) (hhere : r.here = .after u) :
    SkipEnd id u (q :: v) r (skipString t (leadByte q) u.utf8Length) := by
  have hascii := Quoting.isAscii_of_isQuote hq
  have hslash : q ≠ '/' := by
    rintro rfl
    cases hq
  have hstep : r.step q = .ok { r.push q with
      mode := .quoted (.inside q), mark := r.here, here := r.here.advance q } := by
    rw [Reader.step, Reader.take, hmode, Reader.takeCode, if_neg hslash, if_pos hq]
    rfl
  have hmoves := Reader.run_cons_ok hstep v
  have hends := stringEnd?_ends (u := u ++ [q]) (v := v) (by simpa using ht)
    (q := .inside q) hq (by simp) (r := { r.push q with
      mode := .quoted (.inside q), mark := r.here, here := r.here.advance q }) rfl
  rw [skipString, (Text.leadByte_eq_iff hascii).2 rfl, ← Text.utf8Length_concat_ascii u hascii]
  change StringEnd _ _ _ (stringEnd? t q.toUInt8 (u ++ [q]).utf8Length) at hends
  generalize stringEnd? t q.toUInt8 (u ++ [q]).utf8Length = stop at hends
  cases hends with
  | unclosed herror =>
    show SkipEnd id u _ r (failAt t _ _)
    rw [ht, failAt_eq, ← hhere]
    exact .failed (hmoves.trans herror)
  | @closed x w s hv hnext hcode hdepth hread hstop =>
    rw [List.append_assoc]
    refine .passed (x := q :: x) (congrArg (q :: ·) hv) ⟨hmoves.trans hnext.run, hnext.nodes,
      hnext.outer, hnext.start⟩ hcode hdepth ?_ ?_ (List.cons_ne_nil _ _)
    · rw [hread]
      simp [Reader.push]
    · rw [hstop, hhere, Position.after_append]
      rfl

theorem skipComment_ends (ht : t = u ++ '/' :: '*' :: v) (hmode : r.mode = .code)
    (hhere : r.here = .after u) :
    SkipEnd (fun _ => []) u ('/' :: '*' :: v) r (skipComment t u.utf8Length) := by
  have hopened : (u ++ ['/', '*']).utf8Length = u.utf8Length + 2 := by
    rw [List.append_cons, Text.utf8Length_concat_ascii _ (by decide),
      Text.utf8Length_concat_ascii _ (by decide)]
  have hslice := Text.slice?_append (u ++ ['/', '*']) v []
  rw [List.append_nil, hopened, List.append_assoc, List.cons_append, List.cons_append,
    List.nil_append, ← ht, ← Text.length_bytes t] at hslice
  have hopen := Reader.run_append (Reader.readAll_enterComment hmode)
  rw [skipComment, hslice, Option.bind_some]
  cases hfind : Text.find? ['*', '/'] v with
  | none =>
    have hinside : r.enterComment.InComment v := ⟨Or.inl rfl, Text.find?_eq_none hfind⟩
    show SkipEnd _ u _ r (failAt t _ _)
    rw [ht, failAt_eq, ← hhere]
    exact .failed ((hopen v).trans hinside.run_unclosed)
  | some offset =>
    obtain ⟨x, w, rfl, rfl, hx⟩ := Text.find?_eq_some (by decide) hfind
    have hinside : r.enterComment.InComment x := ⟨Or.inl rfl, hx⟩
    have hclose := Reader.run_append hinside.readAll_end w
    have hlength : u.utf8Length + 2 + x.utf8Length + 2 =
        (u ++ '/' :: '*' :: (x ++ ['*', '/'])).utf8Length := by
      rw [show u ++ '/' :: '*' :: (x ++ ['*', '/']) = u ++ ['/', '*'] ++ (x ++ ['*', '/']) by simp,
        Text.utf8Length_append, Text.utf8Length_append x, hopened, Nat.add_assoc _ x.utf8Length]
      rfl
    show SkipEnd _ u _ r (some (.ok (u.utf8Length + 2 + x.utf8Length + 2)))
    rw [hlength]
    rw [List.append_assoc] at hclose
    refine .passed (w := w) (by simp) ⟨(hopen _).trans hclose, rfl, rfl, rfl⟩ rfl rfl rfl ?_
      (List.cons_ne_nil _ _)
    show List.foldl Position.advance ((r.here.advance '/').advance '*') (x ++ ['*', '/']) = _
    rw [hhere, Position.after_append]
    rfl

end

/-- What a statement tells of a reader that is in it, with `v` left of the text. -/
inductive StatementEnd (t v : Text) (r : Reader) : Option (Except SyntaxError Statement) → Prop
  | failed {e : SyntaxError} : r.run v = .error e → StatementEnd t v r (some (.error e))
  | stopped {u w : Text} {c : Char} {s : Reader} : isTerminator c = true → t = u ++ c :: w →
      r.Moves v s (c :: w) → s.mode = .code → s.depth = 0 → s.here = .after u →
      w.length < v.length →
      StatementEnd t v r (some (.ok ⟨s.read.reverse, .ofByte (leadByte c), u.utf8Length + 1⟩))
  | ended {s : Reader} : r.Moves v s [] → s.mode = .code →
      StatementEnd t v r (some (.ok ⟨s.read.reverse, .ending, t.utf8Length⟩))

theorem StatementEnd.of_moves {t v w : Text} {r s : Reader}
    {result : Option (Except SyntaxError Statement)} (h : r.Moves v s w)
    (hlength : w.length ≤ v.length) (hs : StatementEnd t w s result) :
    StatementEnd t v r result := by
  cases hs with
  | failed herror => exact .failed (h.run.trans herror)
  | stopped hc ht hmoves hmode hdepth hhere hlt =>
    exact .stopped hc ht (h.trans hmoves) hmode hdepth hhere (Nat.lt_of_lt_of_le hlt hlength)
  | ended hmoves hmode => exact .ended (h.trans hmoves) hmode

theorem isTerminatorByte_leadByte (c : Char) : isTerminatorByte (leadByte c) = isTerminator c := by
  simp only [isTerminatorByte, isTerminator,
    Text.leadByte_eq_iff (show isAscii ';' = true by decide),
    Text.leadByte_eq_iff (show isAscii '{' = true by decide),
    Text.leadByte_eq_iff (show isAscii '}' = true by decide)]

/-- Goes on from a result, if there is one. -/
def onResult {α β : Type} (x : Option (Except SyntaxError α))
    (f : α → Option (Except SyntaxError β)) : Option (Except SyntaxError β) :=
  match x with
  | none => none
  | some (.error e) => some (.error e)
  | some (.ok a) => f a

theorem StatementEnd.of_skip {kept : Text → Text} {t u v : Text} {r : Reader}
    {skip : Option (Except SyntaxError Nat)} {next : Nat → Option (Except SyntaxError Statement)}
    (h : SkipEnd kept u v r skip)
    (hnext : ∀ (x w : Text) (s : Reader), v = x ++ w → s.mode = .code → s.depth = r.depth →
      s.read = (kept x).reverse ++ r.read → s.here = .after (u ++ x) → w.length < v.length →
      StatementEnd t w s (next (u ++ x).utf8Length)) :
    StatementEnd t v r (onResult skip next) := by
  cases h with
  | failed herror => exact .failed herror
  | @passed x w s hv hmoves hmode hdepth hread hhere hx =>
    have hlength : w.length < v.length := by
      have hpos := List.length_pos_iff.2 hx
      rw [hv, List.length_append]
      omega
    exact (hnext x w s hv hmode hdepth hread hhere hlength).of_moves hmoves (Nat.le_of_lt hlength)

section

variable {t text : Text} {front i depth : Nat} {code : UInt8}

theorem readStatement_comment (h : t.bytes[i]? = some '/'.toUInt8)
    (hstar : t.bytes[i + 1]? = some '*'.toUInt8) :
    readStatement t front i depth text =
      (t.slice? front i).bind fun piece => onResult (skipComment t i) fun next =>
        readStatement t next next depth (text ++ piece) := by
  obtain ⟨hlt, hcode⟩ := List.getElem?_eq_some_iff.1 h
  rw [readStatement, dif_pos hlt, if_pos ⟨hcode, hstar⟩]
  cases t.slice? front i with
  | none => rfl
  | some piece =>
    rw [Option.bind_some]
    dsimp only
    split <;> simp [onResult, *]

theorem readStatement_string (h : t.bytes[i]? = some code) (hquote : isQuoteByte code = true) :
    readStatement t front i depth text =
      onResult (skipString t code i) fun next => readStatement t front next depth text := by
  obtain ⟨hlt, rfl⟩ := List.getElem?_eq_some_iff.1 h
  have hslash : t.bytes[i] ≠ '/'.toUInt8 := fun heq => by
    rw [heq] at hquote
    exact absurd hquote (by decide)
  rw [readStatement, dif_pos hlt, if_neg fun h => hslash h.1, if_pos hquote]
  split <;> simp [onResult, *]

theorem readStatement_terminator (h : t.bytes[i]? = some code)
    (hend : isTerminatorByte code = true) :
    readStatement t front i 0 text =
      (t.slice? front i).map fun piece => .ok ⟨text ++ piece, .ofByte code, i + 1⟩ := by
  obtain ⟨hlt, rfl⟩ := List.getElem?_eq_some_iff.1 h
  have hne : ∀ {d : UInt8}, isTerminatorByte d = false → t.bytes[i] ≠ d := fun hd heq => by
    rw [heq, hd] at hend
    cases hend
  have hquote : isQuoteByte t.bytes[i] = false := by
    simp [isQuoteByte, hne (d := '\''.toUInt8) (by decide), hne (d := '"'.toUInt8) (by decide)]
  rw [readStatement, dif_pos hlt, if_neg fun h => hne (by decide) h.1, hquote,
    if_neg Bool.false_ne_true, if_neg (hne (by decide)), if_neg (hne (by decide)),
    if_pos ⟨hend, rfl⟩]

theorem readStatement_end (h : t.utf8Length ≤ i) :
    readStatement t front i depth text =
      (t.slice? front i).map fun piece => .ok ⟨text ++ piece, .ending, i⟩ := by
  rw [readStatement, dif_neg (by rw [Text.length_bytes]; omega)]

def parenthesesByte (depth : Nat) (code : UInt8) : Nat :=
  if code = '('.toUInt8 then depth + 1 else if code = ')'.toUInt8 then depth - 1 else depth

theorem readStatement_plain (h : t.bytes[i]? = some code) (hquote : isQuoteByte code = false)
    (hcomment : ¬(code = '/'.toUInt8 ∧ t.bytes[i + 1]? = some '*'.toUInt8))
    (hend : ¬(isTerminatorByte code = true ∧ depth = 0)) :
    readStatement t front i depth text =
      readStatement t front (i + 1) (parenthesesByte depth code) text := by
  obtain ⟨hlt, rfl⟩ := List.getElem?_eq_some_iff.1 h
  rw [readStatement, dif_pos hlt, if_neg hcomment, hquote, if_neg Bool.false_ne_true,
    if_neg hend, parenthesesByte]
  split
  · rfl
  · split <;> rfl

theorem readStatement_high (h : t.bytes[i]? = some code) (hcode : 128 ≤ code.toNat) :
    readStatement t front i depth text = readStatement t front (i + 1) depth text := by
  have hne : ∀ {d : Char}, isAscii d = true → code ≠ d.toUInt8 := Text.ne_of_le_toNat hcode
  have hend : isTerminatorByte code = false := by
    simp [isTerminatorByte, hne (d := ';') (by decide), hne (d := '{') (by decide),
      hne (d := '}') (by decide)]
  rw [readStatement_plain h (isQuoteByte_high hcode) (fun h => hne (d := '/') (by decide) h.1)
    (by simp [hend]), parenthesesByte, if_neg (hne (by decide)), if_neg (hne (by decide))]

end

theorem parenthesesByte_leadByte (depth : Nat) (c : Char) :
    parenthesesByte depth (leadByte c) = Reader.parentheses depth c := by
  simp only [parenthesesByte, Reader.parentheses,
    Text.leadByte_eq_iff (show isAscii '(' = true by decide),
    Text.leadByte_eq_iff (show isAscii ')' = true by decide)]

theorem opensComment_iff {t u v : Text} {c : Char} (ht : t = u ++ c :: v) :
    leadByte c = '/'.toUInt8 ∧ t.bytes[u.utf8Length + 1]? = some '*'.toUInt8 ↔
      c = '/' ∧ v.head? = some '*' := by
  rw [Text.leadByte_eq_iff (by decide)]
  refine and_congr_right fun hc => ?_
  rw [ht, hc, ← Text.utf8Length_concat_ascii _ (show isAscii '/' = true by decide),
    List.append_cons]
  exact Text.getElem?_bytes_eq_iff (by decide) _ v

theorem readStatement_next {t u v text : Text} {c : Char} {front depth : Nat} (ht : t = u ++ c :: v)
    (hquote : isQuote c = false) (hcomment : ¬(c = '/' ∧ v.head? = some '*'))
    (hend : ¬(isTerminator c = true ∧ depth = 0)) :
    readStatement t front u.utf8Length depth text =
      readStatement t front (u ++ [c]).utf8Length (Reader.parentheses depth c) text := by
  cases hc : isAscii c with
  | true =>
    have hbyte : t.bytes[u.utf8Length]? = some (leadByte c) := ht ▸ Text.getElem?_bytes_cons u c v
    rw [readStatement_plain hbyte (by rwa [isQuoteByte_leadByte])
      (mt (opensComment_iff ht).1 hcomment) (by rwa [isTerminatorByte_leadByte]),
      parenthesesByte_leadByte, Text.utf8Length_concat_ascii u hc]
  | false =>
    have hopen : c ≠ '(' := by
      rintro rfl
      cases hc
    have hclose : c ≠ ')' := by
      rintro rfl
      cases hc
    rw [Reader.parentheses, if_neg hopen, if_neg hclose]
    exact Text.pass_over (i := 0) (f := fun i => readStatement t front i depth text) ht
      (fun p b hb hle => readStatement_high hb hle) (Nat.zero_le _) (Or.inr hc)

theorem readStatement_ends {t front y v : Text} {r : Reader} (text : Text)
    (ht : t = front ++ (y ++ v)) (hmode : r.mode = .code) (hread : r.read.reverse = text ++ y)
    (hhere : r.here = .after (front ++ y)) :
    StatementEnd t v r
      (readStatement t front.utf8Length (front ++ y).utf8Length r.depth text) := by
  induction hn : v.length using Nat.strongRecOn generalizing front y v text r with
  | ind n ih =>
    have hslice := Text.slice?_append front y v
    rw [← ht] at hslice
    cases v with
    | nil =>
      have hend : (front ++ y).utf8Length = t.utf8Length := by rw [ht, List.append_nil]
      rw [readStatement_end (Nat.le_of_eq hend.symm), hslice, Option.map_some, ← hread, hend]
      exact .ended (.refl r []) hmode
    | cons c v =>
      have hsplit : t = (front ++ y) ++ c :: v := by rw [ht, List.append_assoc]
      have hbyte : t.bytes[(front ++ y).utf8Length]? = some (leadByte c) :=
        hsplit ▸ Text.getElem?_bytes_cons _ c v
      by_cases hopen : c = '/' ∧ v.head? = some '*'
      · obtain ⟨rfl, hstar⟩ := hopen
        obtain ⟨w, rfl⟩ := List.head?_eq_some_iff.1 hstar
        have hbytes := (opensComment_iff hsplit).2 ⟨rfl, rfl⟩
        rw [readStatement_comment hbyte hbytes.2, hslice, Option.bind_some]
        refine .of_skip (skipComment_ends hsplit hmode hhere) ?_
        intro x z s hv hcode hdepth hkept hstop hlength
        have hrest : t = (front ++ y ++ x) ++ ([] ++ z) := by
          rw [hsplit, hv, List.nil_append, List.append_assoc _ x]
        have hnext := ih z.length (hn ▸ hlength) (text ++ y) hrest hcode
          (by rw [hkept]; simpa using hread) (by rw [hstop, List.append_nil]) rfl
        rw [List.append_nil, hdepth] at hnext
        exact hnext
      by_cases hquote : isQuote c = true
      · rw [readStatement_string hbyte (by rwa [isQuoteByte_leadByte])]
        refine .of_skip (skipString_ends hsplit hquote hmode hhere) ?_
        intro x z s hv hcode hdepth hkept hstop hlength
        have hrest : t = front ++ ((y ++ x) ++ z) := by
          rw [hsplit, hv, List.append_assoc, List.append_assoc]
        have hnext := ih z.length (hn ▸ hlength) text hrest hcode
          (by rw [hkept]; simp [hread]) (by rw [hstop, List.append_assoc]) rfl
        rw [← List.append_assoc, hdepth] at hnext
        exact hnext
      by_cases hend : isTerminator c = true ∧ r.depth = 0
      · have hterminator : isTerminatorByte (leadByte c) = true := by
          rw [isTerminatorByte_leadByte]
          exact hend.1
        rw [hend.2, readStatement_terminator hbyte hterminator, hslice, Option.map_some, ← hread]
        exact .stopped hend.1 hsplit (.refl r _) hmode hend.2 hhere (Nat.lt_succ_self _)
      · have hplain : isQuote c = false := by simpa using hquote
        obtain ⟨s, hmoves, hcode, hdepth, hkept, hstop⟩ :=
          Reader.exists_moves_plain hmode hplain hopen hend
        have hrest : t = front ++ ((y ++ [c]) ++ v) := by
          rw [ht, List.append_assoc, List.singleton_append]
        have hnext := ih v.length (by rw [← hn]; exact Nat.lt_succ_self _) text hrest hcode
          (by rw [hkept]; simp [hread])
          (by rw [hstop, hhere, ← Position.after_append_singleton, List.append_assoc]) rfl
        rw [← List.append_assoc, hdepth] at hnext
        rw [readStatement_next hsplit hplain hopen hend]
        exact hnext.of_moves hmoves (Nat.le_succ _)

end AtomicCss
