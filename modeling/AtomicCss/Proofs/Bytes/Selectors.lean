import AtomicCss.Proofs.Bytes.Access
import AtomicCss.Proofs.Selector.Entries
set_option autoImplicit false

/-!
Selector lists, scanned byte by byte.

A scan stands at a byte, and behind a backslash in a string at the second byte from it, be that
inside a character. All scans that know strings take the same bytes there (`inString`); so what one
character does in them is shown once (`Quoting.scan_next`).
-/

namespace AtomicCss

open Text (bytes leadByte isAscii)

/-- What a byte in a string `q` does: the string that goes on, and how many bytes are taken. -/
def inString (q code : UInt8) : Option UInt8 × Nat :=
  if code = '\\'.toUInt8 then (some q, 2)
  else if code = q then (none, 1)
  else (some q, 1)

def isQuoteByte (code : UInt8) : Bool := code = '\''.toUInt8 || code = '"'.toUInt8

theorem isQuoteByte_leadByte (c : Char) : isQuoteByte (leadByte c) = isQuote c := by
  rw [isQuoteByte, isQuote, Bool.or_comm]
  simp only [Text.leadByte_eq_iff (show isAscii '\'' = true by decide),
    Text.leadByte_eq_iff (show isAscii '"' = true by decide)]

theorem isQuoteByte_high {code : UInt8} (h : 128 ≤ code.toNat) : isQuoteByte code = false := by
  simp [isQuoteByte, Text.ne_of_le_toNat h (show isAscii '\'' = true by decide),
    Text.ne_of_le_toNat h (show isAscii '"' = true by decide)]

theorem inString_pos (q code : UInt8) : 0 < (inString q code).2 := by
  unfold inString
  split
  · exact Nat.zero_lt_two
  · split <;> exact Nat.zero_lt_one

namespace Quoting

def byte? : Quoting → Option UInt8
  | .bare => none
  | .inside q | .escaped q => some q.toUInt8

def lead : Quoting → Nat
  | .bare | .inside _ => 0
  | .escaped _ => 1

/-- What a byte without a meaning of its own does to the quote that is waited for. -/
def step : Option UInt8 → UInt8 → Option UInt8 × Nat
  | none, code => (if isQuoteByte code then some code else none, 1)
  | some q, code => inString q code

theorem isAscii_of_isQuote {q : Char} (hq : isQuote q = true) : isAscii q = true := by
  simp only [isQuote, Bool.or_eq_true, decide_eq_true_eq] at hq
  rcases hq with rfl | rfl <;> decide

theorem step_high {q : Quoting} (hq : q.Proper) {code : UInt8} (hcode : 128 ≤ code.toNat) :
    step q.byte? code = (q.byte?, 1) := by
  cases q with
  | bare => rw [byte?, step, isQuoteByte_high hcode, if_neg Bool.false_ne_true]
  | inside x | escaped x =>
    rw [byte?, step, inString, if_neg (Text.ne_of_le_toNat hcode (by decide)),
      if_neg (Text.ne_of_le_toNat hcode (isAscii_of_isQuote hq))]

section

variable {α : Type} {f : Option UInt8 → Nat → α} {t u v : Text} {c : Char} {q : Quoting}

theorem scan_over (ht : t = u ++ c :: v)
    (hf : ∀ p b, t.bytes[p]? = some b → 128 ≤ b.toNat →
      f q.byte? p = f (step q.byte? b).1 (p + (step q.byte? b).2))
    (hq : q.Proper) : f q.byte? (u.utf8Length + 1) = f q.byte? (u ++ [c]).utf8Length := by
  refine Text.pass_over ht (fun p b hb hle => ?_) c.utf8Size_pos (Or.inl Nat.zero_lt_one)
  rw [hf p b hb hle, step_high hq hle]

/--
A character takes a scan of bytes along as it takes the scan of characters. The scan has to know
only the bytes of that character from where it stands.
-/
theorem scan_next (ht : t = u ++ c :: v)
    (hf : ∀ p b, t.bytes[p]? = some b → 128 ≤ b.toNat ∨ q.lead = 0 ∧ b = leadByte c →
      f q.byte? p = f (step q.byte? b).1 (p + (step q.byte? b).2))
    (hq : q.Proper) :
    f q.byte? (u.utf8Length + q.lead) =
      f (q.next c).byte? ((u ++ [c]).utf8Length + (q.next c).lead) := by
  have hover := scan_over ht (fun p b hb hle => hf p b hb (Or.inl hle)) hq
  have hbyte : t.bytes[u.utf8Length]? = some (leadByte c) := ht ▸ Text.getElem?_bytes_cons u c v
  cases q with
  | bare =>
    have hstep := hf _ _ hbyte (Or.inr ⟨rfl, rfl⟩)
    rw [byte?, step, isQuoteByte_leadByte] at hstep
    rw [Quoting.next]
    by_cases hquote : isQuote c = true
    · have hascii := isAscii_of_isQuote hquote
      rw [if_pos hquote, (Text.leadByte_eq_iff hascii).2 rfl] at hstep
      rw [if_pos hquote, Text.utf8Length_concat_ascii u hascii]
      exact hstep
    · rw [if_neg hquote] at hstep
      rw [if_neg hquote]
      exact hstep.trans hover
  | escaped x => exact hover
  | inside x =>
    have hascii := isAscii_of_isQuote hq
    have hstep := hf _ _ hbyte (Or.inr ⟨rfl, rfl⟩)
    rw [byte?, step] at hstep
    rw [Quoting.next]
    by_cases hback : c = '\\'
    · rw [inString, if_pos ((Text.leadByte_eq_iff (by decide)).2 hback)] at hstep
      rw [if_pos hback, hback, Text.utf8Length_concat]
      exact hstep
    rw [inString, if_neg (mt (Text.leadByte_eq_iff (by decide)).1 hback)] at hstep
    rw [if_neg hback]
    by_cases hclose : c = x
    · rw [if_pos ((Text.leadByte_eq_iff hascii).2 hclose)] at hstep
      rw [if_pos hclose, hclose, Text.utf8Length_concat_ascii u hascii]
      exact hstep
    · rw [if_neg (mt (Text.leadByte_eq_iff hascii).1 hclose)] at hstep
      rw [if_neg hclose]
      exact hstep.trans hover

end

end Quoting

namespace Selector

/-- The entries from byte `i` on, of which the first begins at `start`; none if a piece is no text.
-/
def entriesBytes (t : Text) (quote : Option UInt8) (depth start i : Nat) (parts : List Text) :
    Option (List Text) :=
  if h : i < t.bytes.length then
    let code := t.bytes[i]
    match quote with
    | some q =>
      entriesBytes t (inString q code).1 depth start (i + (inString q code).2) parts
    | none =>
      if isQuoteByte code then entriesBytes t (some code) depth start (i + 1) parts
      else if code = '('.toUInt8 ∨ code = '['.toUInt8 then
        entriesBytes t none (depth + 1) start (i + 1) parts
      else if code = ')'.toUInt8 ∨ code = ']'.toUInt8 then
        entriesBytes t none (depth - 1) start (i + 1) parts
      else if code = ','.toUInt8 ∧ depth = 0 then
        (t.slice? start i).bind fun piece =>
          entriesBytes t none depth (i + 1) (i + 1) (parts ++ [Text.trim piece])
      else entriesBytes t none depth start (i + 1) parts
  else (t.slice? start t.bytes.length).map fun piece => parts ++ [Text.trim piece]
termination_by t.bytes.length - i
decreasing_by
  · have hpos := inString_pos q t.bytes[i]
    omega
  all_goals omega

section

variable {t : Text} {depth start i : Nat} {parts : List Text} {code : UInt8}

theorem entriesBytes_inside (h : t.bytes[i]? = some code) (q : UInt8) :
    entriesBytes t (some q) depth start i parts =
      entriesBytes t (inString q code).1 depth start (i + (inString q code).2) parts := by
  obtain ⟨hlt, rfl⟩ := List.getElem?_eq_some_iff.1 h
  rw [entriesBytes, dif_pos hlt]

theorem entriesBytes_bare (h : t.bytes[i]? = some code) :
    entriesBytes t none depth start i parts =
      if isQuoteByte code then entriesBytes t (some code) depth start (i + 1) parts
      else if code = '('.toUInt8 ∨ code = '['.toUInt8 then
        entriesBytes t none (depth + 1) start (i + 1) parts
      else if code = ')'.toUInt8 ∨ code = ']'.toUInt8 then
        entriesBytes t none (depth - 1) start (i + 1) parts
      else if code = ','.toUInt8 ∧ depth = 0 then
        (t.slice? start i).bind fun piece =>
          entriesBytes t none depth (i + 1) (i + 1) (parts ++ [Text.trim piece])
      else entriesBytes t none depth start (i + 1) parts := by
  obtain ⟨hlt, rfl⟩ := List.getElem?_eq_some_iff.1 h
  rw [entriesBytes, dif_pos hlt]

theorem entriesBytes_end (h : t.utf8Length ≤ i) (quote : Option UInt8) :
    entriesBytes t quote depth start i parts =
      (t.slice? start t.utf8Length).map fun piece => parts ++ [Text.trim piece] := by
  rw [entriesBytes, dif_neg (by rw [Text.length_bytes]; omega), Text.length_bytes]

end

theorem entriesFrom_inside {quoting : Quoting} (hq : quoting ≠ .bare) (depth : Nat) (read : Text)
    (c : Char) (v : Text) :
    entriesFrom quoting depth read (c :: v) = entriesFrom (quoting.next c) depth (c :: read) v := by
  rw [entriesFrom, if_neg hq]

theorem entriesFrom_comma (read v : Text) :
    entriesFrom .bare 0 read (',' :: v) = read.reverse :: entriesFrom .bare 0 [] v := by
  rw [entriesFrom, if_pos rfl]
  rfl

theorem entriesFrom_bare {c : Char} {depth : Nat} (h : ¬(c = ',' ∧ depth = 0)) (read v : Text) :
    entriesFrom .bare depth read (c :: v) =
      entriesFrom (Quoting.next .bare c) (nesting depth c) (c :: read) v := by
  rw [entriesFrom, if_pos rfl, if_neg (by simpa using h)]

theorem entriesBytes_plain {t : Text} {depth start i : Nat} {parts : List Text} {code : UInt8}
    (h : t.bytes[i]? = some code) (hopening : ¬(code = '('.toUInt8 ∨ code = '['.toUInt8))
    (hclosing : ¬(code = ')'.toUInt8 ∨ code = ']'.toUInt8))
    (hcomma : ¬(code = ','.toUInt8 ∧ depth = 0)) :
    entriesBytes t none depth start i parts =
      entriesBytes t (Quoting.step none code).1 depth start (i + (Quoting.step none code).2)
        parts := by
  rw [entriesBytes_bare h, Quoting.step, if_neg hopening, if_neg hclosing, if_neg hcomma]
  split <;> rfl

theorem entriesBytes_nesting {t : Text} {depth start i : Nat} {parts : List Text} {c : Char}
    (h : t.bytes[i]? = some (leadByte c)) (hc : c = '(' ∨ c = '[' ∨ c = ')' ∨ c = ']') :
    entriesBytes t none depth start i parts =
      entriesBytes t none (nesting depth c) start (i + 1) parts := by
  rw [entriesBytes_bare h]
  rcases hc with rfl | rfl | rfl | rfl <;> rfl

theorem entriesBytes_comma {t : Text} {start i : Nat} {parts : List Text}
    (h : t.bytes[i]? = some (leadByte ',')) :
    entriesBytes t none 0 start i parts = (t.slice? start i).bind fun piece =>
      entriesBytes t none 0 (i + 1) (i + 1) (parts ++ [Text.trim piece]) := by
  rw [entriesBytes_bare h]
  rfl

theorem entriesBytes_eq {t front read v : Text} (ht : t = front ++ (read.reverse ++ v))
    {q : Quoting} (hq : q.Proper) (depth : Nat) (parts : List Text) :
    entriesBytes t q.byte? depth front.utf8Length
        ((front ++ read.reverse).utf8Length + q.lead) parts =
      some (parts ++ (entriesFrom q depth read v).map Text.trim) := by
  induction v generalizing front read q depth parts with
  | nil =>
    have hend : t = front ++ read.reverse := by simpa using ht
    have hslice := Text.slice?_append front read.reverse []
    rw [← ht, ← hend] at hslice
    rw [entriesBytes_end (by rw [hend]; omega), hslice]
    rfl
  | cons c v ih =>
    have hnext : t = front ++ ((c :: read).reverse ++ v) := by simpa using ht
    have hstart : t = (front ++ read.reverse) ++ c :: v := by simpa using ht
    have hlength : (front ++ (c :: read).reverse).utf8Length =
        (front ++ read.reverse ++ [c]).utf8Length := by simp
    by_cases hbare : q = .bare
    · subst hbare
      have hbyte : t.bytes[(front ++ read.reverse).utf8Length]? = some (leadByte c) := by
        rw [hstart]
        exact Text.getElem?_bytes_cons _ c v
      by_cases hparen : c = '(' ∨ c = '[' ∨ c = ')' ∨ c = ']'
      · have hascii : isAscii c = true := by rcases hparen with rfl | rfl | rfl | rfl <;> decide
        have hcomma : ¬(c = ',' ∧ depth = 0) := by
          rcases hparen with rfl | rfl | rfl | rfl <;> simp
        have hnesting : Quoting.next .bare c = .bare := by
          rcases hparen with rfl | rfl | rfl | rfl <;> rfl
        rw [entriesFrom_bare hcomma, hnesting, ← ih hnext (q := .bare) trivial, hlength,
          Text.utf8Length_concat_ascii _ hascii]
        exact entriesBytes_nesting hbyte hparen
      by_cases hcomma : c = ',' ∧ depth = 0
      · obtain ⟨rfl, rfl⟩ := hcomma
        have hslice := Text.slice?_append front read.reverse (',' :: v)
        rw [← ht] at hslice
        have hfresh : t = (front ++ (',' :: read).reverse) ++ (([] : Text).reverse ++ v) := by
          simpa using ht
        have hrest := ih hfresh (q := .bare) trivial 0 (parts ++ [Text.trim read.reverse])
        rw [List.reverse_nil, List.append_nil, hlength,
          Text.utf8Length_concat_ascii _ (by decide)] at hrest
        rw [entriesFrom_comma, List.map_cons, List.append_cons, ← hrest]
        exact (entriesBytes_comma hbyte).trans (by rw [hslice]; rfl)
      · rw [not_or, not_or, not_or] at hparen
        obtain ⟨hround, hsquare, hroundEnd, hsquareEnd⟩ := hparen
        have hdepth : nesting depth c = depth := by
          simp [nesting, hround, hsquare, hroundEnd, hsquareEnd]
        rw [entriesFrom_bare hcomma, hdepth, ← ih hnext (hq.next c), hlength]
        refine Quoting.scan_next (q := .bare)
          (f := fun quote i => entriesBytes t quote depth front.utf8Length i parts) hstart
          (fun p b hb h => ?_) hq
        have hne : ∀ {d : Char}, isAscii d = true → c ≠ d → b ≠ d.toUInt8 := Text.ne_of_ne h
        refine entriesBytes_plain hb (not_or.2 ⟨hne (by decide) hround, hne (by decide) hsquare⟩)
          (not_or.2 ⟨hne (by decide) hroundEnd, hne (by decide) hsquareEnd⟩) fun hcode => ?_
        exact hne (by decide) (fun hc => hcomma ⟨hc, hcode.2⟩) hcode.1
    · rw [entriesFrom_inside hbare, ← ih hnext (hq.next c), hlength]
      refine Quoting.scan_next
        (f := fun quote i => entriesBytes t quote depth front.utf8Length i parts) hstart
        (fun p b hb _ => ?_) hq
      cases q with
      | bare => exact absurd rfl hbare
      | inside x | escaped x => exact entriesBytes_inside hb _

/-- A selector list, cut byte by byte. -/
def entriesByByte? (selector : Text) : Option (List Text) := entriesBytes selector none 0 0 0 []

theorem entriesByByte?_eq (selector : Text) : entriesByByte? selector = some (entries selector) :=
  have hfront : selector = [] ++ (([] : Text).reverse ++ selector) := rfl
  entriesBytes_eq hfront (q := .bare) trivial 0 []

end Selector
end AtomicCss
