import AtomicCss.Proofs.Bytes.Selectors
import AtomicCss.Proofs.Selector.Grammar
import Mathlib.Data.List.TakeWhile
set_option autoImplicit false

/-!
Entries of a selector list, read byte by byte.

The scans stop at ASCII characters only, so each of them stops between two characters; and the
parenthesis that an argument list begins with keeps its depth above zero up to the one that closes
it (`Pseudo.ofBytes?_eq`).
-/

namespace AtomicCss.Selector

open Text (bytes leadByte isAscii)

/-- Where a run of such characters ends. -/
def runEnd (p : Char → Bool) (t : Text) (i : Nat) : Nat :=
  if h : i < t.bytes.length then
    if p (Char.ofUInt8 t.bytes[i]) then runEnd p t (i + 1) else i
  else i
termination_by t.bytes.length - i

theorem le_runEnd (p : Char → Bool) (t : Text) (i : Nat) : i ≤ runEnd p t i := by
  fun_induction runEnd p t i with
  | case1 i h hp ih => omega
  | case2 => exact Nat.le_refl _
  | case3 => exact Nat.le_refl _

/-- The ampersands from byte `i` on, after `count` of them, and where they end. -/
def ampersandBytes (t : Text) (count i : Nat) : Nat × Nat :=
  if h : i < t.bytes.length then
    if t.bytes[i] = '&'.toUInt8 then
      if i + 1 < runEnd isCssBlank t (i + 1) ∧
          t.bytes[runEnd isCssBlank t (i + 1)]? = some '&'.toUInt8 then
        ampersandBytes t (count + 1) (runEnd isCssBlank t (i + 1))
      else ampersandBytes t (count + 1) (i + 1)
    else (count, i)
  else (count, i)
termination_by t.bytes.length - i

/-- Where an argument list ends, if it does; none if the depth would fall below zero. -/
def argumentBytes (t : Text) (quote : Option UInt8) (depth i : Nat) : Option (Option Nat) :=
  if h : i < t.bytes.length then
    let code := t.bytes[i]
    match quote with
    | some q => argumentBytes t (inString q code).1 depth (i + (inString q code).2)
    | none =>
      if isQuoteByte code then argumentBytes t (some code) depth (i + 1)
      else if code = '('.toUInt8 then argumentBytes t none (depth + 1) (i + 1)
      else if code = ')'.toUInt8 then
        if depth = 0 then none
        else if depth = 1 then some (some (i + 1))
        else argumentBytes t none (depth - 1) (i + 1)
      else argumentBytes t none depth (i + 1)
  else some none
termination_by t.bytes.length - i
decreasing_by
  · have hpos := inString_pos q t.bytes[i]
    omega
  all_goals omega

theorem lt_of_argumentBytes {t : Text} {quote : Option UInt8} {depth i j : Nat}
    (h : argumentBytes t quote depth i = some (some j)) : i < j := by
  fun_induction argumentBytes t quote depth i with
  | case1 depth i hlt code q ih =>
    have hpos := inString_pos q code
    have := ih h
    omega
  | case2 _ _ _ _ _ ih => exact Nat.lt_of_succ_lt (ih h)
  | case3 _ _ _ _ _ _ ih => exact Nat.lt_of_succ_lt (ih h)
  | case4 => cases h
  | case5 =>
    cases h
    exact Nat.lt_succ_self _
  | case6 _ _ _ _ _ _ _ _ _ ih => exact Nat.lt_of_succ_lt (ih h)
  | case7 _ _ _ _ _ _ _ ih => exact Nat.lt_of_succ_lt (ih h)
  | case8 => cases h

def nameStart (t : Text) (i : Nat) : Nat :=
  if t.bytes[i + 1]? = some ':'.toUInt8 then i + 2 else i + 1

def nameEnd (t : Text) (i : Nat) : Nat := runEnd isNameChar t (nameStart t i)

theorem lt_nameEnd (t : Text) (i : Nat) : i < nameEnd t i := by
  have hstart : i < nameStart t i := by
    unfold nameStart
    split <;> omega
  exact Nat.lt_of_lt_of_le hstart (le_runEnd _ _ _)

/-- Whether pseudo-classes and pseudo-elements fill the text from byte `i` on; none as above. -/
def chainBytes (t : Text) (i : Nat) : Option Bool :=
  if h : i < t.bytes.length then
    if t.bytes[i] = ':'.toUInt8 then
      if nameEnd t i = nameStart t i then some false
      else if t.bytes[nameEnd t i]? = some '('.toUInt8 then
        match hend : argumentBytes t none 0 (nameEnd t i) with
        | none => none
        | some none => some false
        | some (some next) => chainBytes t next
      else chainBytes t (nameEnd t i)
    else some false
  else some true
termination_by t.bytes.length - i
decreasing_by
  · have hname := lt_nameEnd t i
    have hnext := lt_of_argumentBytes hend
    omega
  · have hname := lt_nameEnd t i
    omega

/-- An entry, read byte by byte; none as above, or if its suffix is no piece of it. -/
def Pseudo.ofBytes? (entry : Text) : Option (Option Pseudo) :=
  let t := Text.trim entry
  let (count, start) := ampersandBytes t 0 0
  (chainBytes t start).bind fun accepted =>
    if !accepted || (count = 0 && start = t.bytes.length) then some none
    else (t.slice? start t.bytes.length).map fun suffix =>
      some ⟨if 0 < count then some count else none, suffix⟩

theorem apply_leadByte {p : Char → Bool} (hp : ∀ c, p c = true → isAscii c = true) (c : Char) :
    p (Char.ofUInt8 (leadByte c)) = p c := by
  cases hc : isAscii c with
  | true =>
    rw [(Text.leadByte_eq_iff hc).2 rfl]
    congr 1
    refine Char.toNat_inj.1 ?_
    exact (UInt8.toNat_toUInt32 _).trans (Text.toNat_toUInt8_ascii hc)
  | false =>
    have hnot : p c = false := by
      by_contra h
      rw [hp c (by simpa using h)] at hc
      cases hc
    have hlead := Text.le_of_mem_utf8EncodeChar hc (Text.leadByte_mem c)
    rw [hnot]
    by_contra h
    have hlt := hp _ (by simpa using h)
    have hnat : (Char.ofUInt8 (leadByte c)).toNat = (leadByte c).toNat := UInt8.toNat_toUInt32 _
    simp only [isAscii, hnat, decide_eq_true_eq] at hlt
    omega

theorem isAscii_of_isNameChar {c : Char} (h : isNameChar c = true) : isAscii c = true := by
  simp only [isNameChar, Bool.or_eq_true, decide_eq_true_eq] at h
  rcases h with (h | rfl) | rfl
  · exact decide_eq_true (toNat_lt_of_isAlphanum h)
  all_goals decide

theorem isAscii_of_isCssBlank {c : Char} (h : isCssBlank c = true) : isAscii c = true := by
  simp only [isCssBlank, Bool.or_eq_true, decide_eq_true_eq] at h
  rcases h with (((rfl | rfl) | rfl) | rfl) | rfl <;> decide

section

variable {t u v : Text}

theorem runEnd_eq {p : Char → Bool} (hp : ∀ c, p c = true → isAscii c = true) (ht : t = u ++ v) :
    runEnd p t u.utf8Length = (u ++ v.takeWhile p).utf8Length := by
  induction v generalizing u with
  | nil =>
    rw [runEnd, dif_neg (by rw [ht, Text.length_bytes]; simp)]
    simp
  | cons c v ih =>
    have hbyte : t.bytes[u.utf8Length]? = some (leadByte c) := ht ▸ Text.getElem?_bytes_cons u c v
    obtain ⟨hlt, hget⟩ := List.getElem?_eq_some_iff.1 hbyte
    rw [runEnd, dif_pos hlt, hget, apply_leadByte hp, List.takeWhile_cons]
    cases hc : p c with
    | true =>
      have hnext : t = (u ++ [c]) ++ v := by simpa using ht
      rw [if_pos rfl, if_pos rfl, ← Text.utf8Length_concat_ascii u (hp c hc), ih hnext]
      simp
    | false => simp

theorem ampersandBytes_of_ne (ht : t = u ++ v) (hv : v.head? ≠ some '&') (count : Nat) :
    ampersandBytes t count u.utf8Length = (count, u.utf8Length) := by
  have hbyte := mt (Text.getElem?_bytes_eq_iff (by decide) u v).1 hv
  rw [← ht] at hbyte
  rw [ampersandBytes]
  split
  next hlt =>
    rw [List.getElem?_eq_getElem hlt, Option.some.injEq] at hbyte
    exact if_neg hbyte
  next => rfl

theorem ampersandBytes_ampersand (ht : t = u ++ '&' :: v) (count : Nat) :
    ampersandBytes t count u.utf8Length =
      if v.takeWhile isCssBlank ≠ [] ∧ (v.dropWhile isCssBlank).head? = some '&' then
        ampersandBytes t (count + 1) (u ++ '&' :: v.takeWhile isCssBlank).utf8Length
      else ampersandBytes t (count + 1) (u ++ ['&']).utf8Length := by
  have hbyte := (Text.getElem?_bytes_eq_iff (by decide) u ('&' :: v)).2 rfl
  have hone := Text.utf8Length_concat_ascii u (show isAscii '&' = true by decide)
  have hrun := runEnd_eq (fun _ => isAscii_of_isCssBlank)
    (show t = (u ++ ['&']) ++ v by simpa using ht)
  have hsplit : t = (u ++ ['&'] ++ v.takeWhile isCssBlank) ++ v.dropWhile isCssBlank := by
    rw [List.append_assoc, List.takeWhile_append_dropWhile]
    simpa using ht
  have hnext := Text.getElem?_bytes_eq_iff (show isAscii '&' = true by decide)
    (u ++ ['&'] ++ v.takeWhile isCssBlank) (v.dropWhile isCssBlank)
  rw [← hsplit] at hnext
  rw [← ht] at hbyte
  obtain ⟨hlt, hget⟩ := List.getElem?_eq_some_iff.1 hbyte
  have hcond : (u ++ ['&']).utf8Length < (u ++ ['&'] ++ v.takeWhile isCssBlank).utf8Length ↔
      v.takeWhile isCssBlank ≠ [] := by
    rw [Text.utf8Length_append _ (List.takeWhile _ v), Ne, ← Text.utf8Length_eq_zero]
    omega
  rw [ampersandBytes, dif_pos hlt, if_pos hget, ← hone, hrun]
  simp only [hcond, hnext]
  rw [List.append_assoc u ['&'], List.singleton_append]

theorem ampersands_stop (count : Nat) (gap : Text)
    (h : (v.dropWhile isCssBlank).head? ≠ some '&') :
    ampersands count gap v = (count, gap.reverse ++ v) := by
  induction v generalizing gap with
  | nil => simp [ampersands]
  | cons c v ih =>
    by_cases hc : isCssBlank c = true
    · rw [List.dropWhile_cons_of_pos hc] at h
      rw [ampersands, if_neg (ne_ampersand_of_isCssBlank hc), if_pos hc, ih _ h]
      simp
    · rw [List.dropWhile_cons_of_neg hc] at h
      rw [ampersands, if_neg (by simpa using h), if_neg hc]

/--
Both counts stand at the same character. No ampersand follows behind blanks there, as the one before
it would have taken the blanks along.
-/
theorem ampersandBytes_eq (ht : t = u ++ v)
    (h : (v.dropWhile isCssBlank).head? = some '&' → v.head? = some '&') (count : Nat) :
    ∃ s, v = s ++ (ampersands count [] v).2 ∧
      ampersandBytes t count u.utf8Length = ((ampersands count [] v).1, (u ++ s).utf8Length) := by
  induction hn : v.length using Nat.strongRecOn generalizing u v count with
  | ind n ih =>
    by_cases hv : v.head? = some '&'
    · obtain ⟨r, rfl⟩ := List.head?_eq_some_iff.1 hv
      have hsplit := List.takeWhile_append_dropWhile (p := isCssBlank) (l := r)
      rw [ampersands, if_pos rfl, ampersandBytes_ampersand ht]
      split
      next hgap =>
        obtain ⟨w, hw⟩ := List.head?_eq_some_iff.1 hgap.2
        have hnext : t = (u ++ '&' :: r.takeWhile isCssBlank) ++ '&' :: w := by
          rw [← hw, List.append_assoc, List.cons_append, hsplit]
          exact ht
        have hgaps : ∀ c ∈ r.takeWhile isCssBlank, isCssBlank c = true :=
          List.all_eq_true.1 List.all_takeWhile
        have hskip : ampersands (count + 1) [] r = ampersands (count + 1) [] ('&' :: w) := by
          conv_lhs => rw [← hsplit, hw]
          rw [ampersands_gap _ hgaps, ampersands, if_pos rfl]
        have hlength : ('&' :: w).length < n := by
          rw [← hn, ← hw]
          exact Nat.lt_succ_of_le (List.length_dropWhile_le _ _)
        obtain ⟨s, hs, hread⟩ := ih _ hlength hnext (fun _ => rfl) (count + 1) rfl
        refine ⟨'&' :: r.takeWhile isCssBlank ++ s, ?_, ?_⟩
        · rw [hskip, List.append_assoc, ← hs, ← hw, List.cons_append, hsplit]
        · rw [hread, hskip]
          simp
      next hgap =>
        have hnext : t = (u ++ ['&']) ++ r := by simpa using ht
        have hhead : (r.dropWhile isCssBlank).head? = some '&' → r.head? = some '&' := by
          intro hd
          have hnil : r.takeWhile isCssBlank = [] := by
            by_contra hne
            exact hgap ⟨hne, hd⟩
          rw [hnil, List.nil_append] at hsplit
          rwa [hsplit] at hd
        obtain ⟨s, hs, hread⟩ := ih _ (by rw [← hn]; simp) hnext hhead (count + 1) rfl
        refine ⟨'&' :: s, ?_, ?_⟩
        · rw [List.cons_append, ← hs]
        · rw [hread]
          simp
    · refine ⟨[], ?_, ?_⟩
      · rw [ampersands_stop count [] (mt h hv)]
        rfl
      · rw [ampersands_stop count [] (mt h hv), ampersandBytes_of_ne ht hv, List.append_nil]

end

section

variable {t : Text} {depth i : Nat} {code : UInt8}

theorem argumentBytes_inside (h : t.bytes[i]? = some code) (q : UInt8) :
    argumentBytes t (some q) depth i =
      argumentBytes t (inString q code).1 depth (i + (inString q code).2) := by
  obtain ⟨hlt, rfl⟩ := List.getElem?_eq_some_iff.1 h
  rw [argumentBytes, dif_pos hlt]

theorem argumentBytes_bare (h : t.bytes[i]? = some code) :
    argumentBytes t none depth i =
      if isQuoteByte code then argumentBytes t (some code) depth (i + 1)
      else if code = '('.toUInt8 then argumentBytes t none (depth + 1) (i + 1)
      else if code = ')'.toUInt8 then
        if depth = 0 then none
        else if depth = 1 then some (some (i + 1))
        else argumentBytes t none (depth - 1) (i + 1)
      else argumentBytes t none depth (i + 1) := by
  obtain ⟨hlt, rfl⟩ := List.getElem?_eq_some_iff.1 h
  rw [argumentBytes, dif_pos hlt]

theorem argumentBytes_end (h : t.utf8Length ≤ i) (quote : Option UInt8) :
    argumentBytes t quote depth i = some none := by
  rw [argumentBytes, dif_neg (by rw [Text.length_bytes]; omega)]

theorem argumentBytes_plain (h : t.bytes[i]? = some code) (hopening : code ≠ '('.toUInt8)
    (hclosing : code ≠ ')'.toUInt8) :
    argumentBytes t none depth i =
      argumentBytes t (Quoting.step none code).1 depth (i + (Quoting.step none code).2) := by
  rw [argumentBytes_bare h, Quoting.step, if_neg hopening, if_neg hclosing]
  split <;> rfl

end

def ChainState.accepts (st : ChainState) (v : Text) : Bool :=
  (v.foldlM ChainState.step st).any ChainState.mayEnd

theorem ChainState.accepts_cons {st next : ChainState} {c : Char} (h : st.step c = some next)
    (v : Text) : st.accepts (c :: v) = next.accepts v := by
  rw [accepts, List.foldlM_cons, h]
  rfl

theorem ChainState.accepts_cons_none {st : ChainState} {c : Char} (h : st.step c = none)
    (v : Text) : st.accepts (c :: v) = false := by
  rw [accepts, List.foldlM_cons, h]
  rfl

/-- What the bytes of an argument list tell of a chain with `v` left of it, behind `u`. -/
inductive ArgumentsEnd (u v : Text) : Bool → Option (Option Nat) → Prop
  | never : ArgumentsEnd u v false (some none)
  | closed {y w : Text} (h : v = y ++ w) :
    ArgumentsEnd u v (ChainState.boundary.accepts w) (some (some (u ++ y).utf8Length))

theorem ArgumentsEnd.cons {u v : Text} {c : Char} {accepted : Bool} {r : Option (Option Nat)}
    (h : ArgumentsEnd (u ++ [c]) v accepted r) : ArgumentsEnd u (c :: v) accepted r := by
  cases h with
  | never => exact .never
  | @closed y w h =>
    rw [List.append_assoc]
    exact .closed (congrArg (c :: ·) h)

/-- Inside an argument list the depth is not zero, and the scan stops at the character that closes
the list. -/
theorem argumentBytes_ends {t u v : Text} (ht : t = u ++ v) {q : Quoting}
    (hq : q.Proper) (depth : Nat) :
    ArgumentsEnd u v ((ChainState.arguments (depth + 1) q).accepts v)
      (argumentBytes t q.byte? (depth + 1) (u.utf8Length + q.lead)) := by
  induction v generalizing u q depth with
  | nil =>
    rw [argumentBytes_end (by rw [ht, List.append_nil]; omega)]
    exact .never
  | cons c v ih =>
    have hnext : t = (u ++ [c]) ++ v := by simpa using ht
    have hbyte : t.bytes[u.utf8Length]? = some (leadByte c) := ht ▸ Text.getElem?_bytes_cons u c v
    by_cases hparen : q = .bare ∧ (c = '(' ∨ c = ')')
    · obtain ⟨rfl, rfl | rfl⟩ := hparen
      · have hnested : argumentBytes t none (depth + 1) u.utf8Length =
            argumentBytes t none (depth + 1 + 1) (u ++ ['(']).utf8Length := by
          rw [argumentBytes_bare hbyte, Text.utf8Length_concat_ascii u (by decide)]
          rfl
        have hends := (ih hnext (q := .bare) trivial (depth + 1)).cons
        exact hnested ▸ hends
      · cases depth with
        | zero =>
          have hclosed : argumentBytes t none 1 u.utf8Length =
              some (some (u ++ [')']).utf8Length) := by
            rw [argumentBytes_bare hbyte, Text.utf8Length_concat_ascii u (by decide)]
            rfl
          exact hclosed ▸ .closed (y := [')']) rfl
        | succ depth =>
          have hclosed : argumentBytes t none (depth + 1 + 1) u.utf8Length =
              argumentBytes t none (depth + 1) (u ++ [')']).utf8Length := by
            rw [argumentBytes_bare hbyte, Text.utf8Length_concat_ascii u (by decide)]
            rfl
          have hends := (ih hnext (q := .bare) trivial depth).cons
          exact hclosed ▸ hends
    · have hstep : (ChainState.arguments (depth + 1) q).step c =
          some (.arguments (depth + 1) (q.next c)) := by
        cases q with
        | bare =>
          have hne : c ≠ '(' ∧ c ≠ ')' := by simpa using hparen
          simp [ChainState.step, hne]
        | inside x | escaped x => rfl
      have hscan := Quoting.scan_next (f := fun quote i => argumentBytes t quote (depth + 1) i) ht
        (q := q) (fun p b hb h => ?_) hq
      · rw [ChainState.accepts_cons hstep]
        exact hscan ▸ (ih hnext (hq.next c) depth).cons
      · cases q with
        | bare =>
          have hne : c ≠ '(' ∧ c ≠ ')' := by simpa using hparen
          exact argumentBytes_plain hb (Text.ne_of_ne h (by decide) hne.1)
            (Text.ne_of_ne h (by decide) hne.2)
        | inside x | escaped x => exact argumentBytes_inside hb _

namespace ChainState

theorem accepts_names {s : Text} (hs : ∀ c ∈ s, isNameChar c = true) (v : Text) :
    name.accepts (s ++ v) = name.accepts v := by
  induction s with
  | nil => rfl
  | cons c s ih =>
    obtain ⟨hc, hs⟩ := List.forall_mem_cons.1 hs
    have hstep : name.step c = some name := if_pos hc
    rw [List.cons_append, accepts_cons hstep, ih hs]

theorem accepts_doubleColon (v : Text) :
    doubleColon.accepts v =
      (!(v.takeWhile isNameChar).isEmpty && name.accepts (v.dropWhile isNameChar)) := by
  cases v with
  | nil => rfl
  | cons c v =>
    by_cases hc : isNameChar c = true
    · have hnames : ∀ d ∈ v.takeWhile isNameChar, isNameChar d = true :=
        List.all_eq_true.1 List.all_takeWhile
      have hstep : doubleColon.step c = some name := if_pos hc
      rw [accepts_cons hstep, List.takeWhile_cons_of_pos hc, List.dropWhile_cons_of_pos hc]
      conv_lhs => rw [← List.takeWhile_append_dropWhile (p := isNameChar) (l := v)]
      rw [accepts_names hnames]
      rfl
    · have hstep : doubleColon.step c = none := if_neg hc
      rw [accepts_cons_none hstep, List.takeWhile_cons_of_neg hc]
      rfl

theorem accepts_colon {v : Text} (hv : v.head? ≠ some ':') :
    colon.accepts v = doubleColon.accepts v := by
  cases v with
  | nil => rfl
  | cons c v =>
    have hstep : colon.step c = doubleColon.step c := if_neg (by simpa using hv)
    rw [accepts, accepts, List.foldlM_cons, List.foldlM_cons, hstep]

theorem accepts_name {v : Text} (hname : ∀ c ∈ v.head?, isNameChar c = false)
    (hopen : v.head? ≠ some '(') : name.accepts v = boundary.accepts v := by
  cases v with
  | nil => rfl
  | cons c v =>
    have hc : isNameChar c = false := hname c rfl
    have hstep : name.step c = boundary.step c := by
      have hne : c ≠ '(' := by simpa using hopen
      simp [step, hc, hne]
    rw [accepts, accepts, List.foldlM_cons, List.foldlM_cons, hstep]

end ChainState

theorem nameStart_eq {t u v : Text} (ht : t = u ++ ':' :: v) :
    ∃ colons w, ':' :: v = colons ++ w ∧ colons ≠ [] ∧
      nameStart t u.utf8Length = (u ++ colons).utf8Length ∧
      ChainState.boundary.accepts (':' :: v) = ChainState.doubleColon.accepts w := by
  have hone := Text.utf8Length_concat_ascii u (show isAscii ':' = true by decide)
  have hcolon : t.bytes[u.utf8Length + 1]? = some ':'.toUInt8 ↔ v.head? = some ':' := by
    rw [← hone, ht, List.append_cons]
    exact Text.getElem?_bytes_eq_iff (by decide) _ _
  rw [nameStart, ChainState.accepts_cons rfl]
  split
  next h =>
    obtain ⟨w, rfl⟩ := List.head?_eq_some_iff.1 (hcolon.1 h)
    refine ⟨[':', ':'], w, rfl, List.cons_ne_nil _ _, ?_, ChainState.accepts_cons rfl w⟩
    rw [List.append_cons, Text.utf8Length_concat_ascii _ (by decide), hone]
  next h =>
    exact ⟨[':'], v, rfl, List.cons_ne_nil _ _, hone.symm, ChainState.accepts_colon (mt hcolon.2 h)⟩

theorem nameEnd_eq {t u v : Text} (ht : t = u ++ ':' :: v) :
    ∃ s w, ':' :: v = s ++ w ∧ s ≠ [] ∧ (∀ c ∈ w.head?, isNameChar c = false) ∧
      nameEnd t u.utf8Length = (u ++ s).utf8Length ∧
      ChainState.boundary.accepts (':' :: v) =
        if nameEnd t u.utf8Length = nameStart t u.utf8Length then false
        else ChainState.name.accepts w := by
  obtain ⟨colons, w, hw, hcolons, hstart, haccepts⟩ := nameStart_eq ht
  have hsplit := List.takeWhile_append_dropWhile (p := isNameChar) (l := w)
  have hend : nameEnd t u.utf8Length = (u ++ colons ++ w.takeWhile isNameChar).utf8Length := by
    rw [nameEnd, hstart]
    exact runEnd_eq (fun _ => isAscii_of_isNameChar) (by rw [List.append_assoc, ← hw, ht])
  have hempty : nameEnd t u.utf8Length = nameStart t u.utf8Length ↔
      w.takeWhile isNameChar = [] := by
    rw [hend, hstart, Text.utf8Length_append _ (List.takeWhile _ w), ← Text.utf8Length_eq_zero]
    omega
  refine ⟨colons ++ w.takeWhile isNameChar, w.dropWhile isNameChar, ?_, ?_, ?_, ?_, ?_⟩
  · rw [hw, List.append_assoc, hsplit]
  · simp [hcolons]
  · intro c hc
    have hhead := List.head?_dropWhile_not isNameChar w
    rw [hc] at hhead
    simpa using hhead
  · rw [hend, List.append_assoc]
  · rw [haccepts, ChainState.accepts_doubleColon]
    simp only [hempty]
    split
    next h => simp [h]
    next h => simp [h]

theorem chainBytes_colon {t : Text} {i : Nat} (h : t.bytes[i]? = some ':'.toUInt8) :
    chainBytes t i =
      if nameEnd t i = nameStart t i then some false
      else if t.bytes[nameEnd t i]? = some '('.toUInt8 then
        (argumentBytes t none 0 (nameEnd t i)).bind fun stop =>
          stop.elim (some false) (chainBytes t)
      else chainBytes t (nameEnd t i) := by
  obtain ⟨hlt, hget⟩ := List.getElem?_eq_some_iff.1 h
  rw [chainBytes, dif_pos hlt, if_pos hget]
  split
  · rfl
  split
  · split <;> simp [*]
  · rfl

theorem chainBytes_ne {t u v : Text} {c : Char} (ht : t = u ++ c :: v) (hc : c ≠ ':') :
    chainBytes t u.utf8Length = some false := by
  have hbyte : t.bytes[u.utf8Length]? = some (leadByte c) := ht ▸ Text.getElem?_bytes_cons u c v
  obtain ⟨hlt, hget⟩ := List.getElem?_eq_some_iff.1 hbyte
  rw [chainBytes, dif_pos hlt, hget, if_neg (mt (Text.leadByte_eq_iff (by decide)).1 hc)]

theorem ArgumentsEnd.chain {t u v : Text} {accepted : Bool} {r : Option (Option Nat)}
    (h : ArgumentsEnd u v accepted r)
    (hrest : ∀ y w, v = y ++ w →
      chainBytes t (u ++ y).utf8Length = some (ChainState.boundary.accepts w)) :
    (r.bind fun stop => stop.elim (some false) (chainBytes t)) = some accepted := by
  cases h with
  | never => rfl
  | closed h => exact hrest _ _ h

theorem argumentBytes_open {t u v : Text} (ht : t = u ++ '(' :: v) :
    ArgumentsEnd (u ++ ['(']) v (ChainState.name.accepts ('(' :: v))
      (argumentBytes t none 0 u.utf8Length) := by
  have hbyte : t.bytes[u.utf8Length]? = some '('.toUInt8 :=
    ht ▸ Text.getElem?_bytes_cons u '(' v
  have hopen : argumentBytes t none 0 u.utf8Length =
      argumentBytes t none 1 (u ++ ['(']).utf8Length := by
    rw [argumentBytes_bare hbyte, Text.utf8Length_concat_ascii u (by decide)]
    rfl
  have hinside : t = (u ++ ['(']) ++ v := by simpa using ht
  exact hopen ▸ argumentBytes_ends hinside (q := .bare) trivial 0

theorem chainBytes_eq {t u v : Text} (ht : t = u ++ v) :
    chainBytes t u.utf8Length = some (ChainState.boundary.accepts v) := by
  induction hn : v.length using Nat.strongRecOn generalizing u v with
  | ind n ih =>
    cases v with
    | nil =>
      rw [chainBytes, dif_neg (by rw [ht, Text.length_bytes, List.append_nil]; omega)]
      rfl
    | cons c v =>
      by_cases hc : c = ':'
      · subst hc
        have hbyte : t.bytes[u.utf8Length]? = some ':'.toUInt8 :=
          ht ▸ Text.getElem?_bytes_cons u ':' v
        obtain ⟨s, w, hw, hs, hhead, hend, haccepts⟩ := nameEnd_eq ht
        have hrest : t = (u ++ s) ++ w := by rw [List.append_assoc, ← hw, ht]
        have hlength : n = s.length + w.length := by rw [← hn, hw, List.length_append]
        have hpos := List.length_pos_iff.2 hs
        have hopen := Text.getElem?_bytes_eq_iff (show isAscii '(' = true by decide) (u ++ s) w
        rw [← hrest, ← hend] at hopen
        rw [chainBytes_colon hbyte, haccepts]
        split
        next => rfl
        split
        next hparen =>
          obtain ⟨x, rfl⟩ := List.head?_eq_some_iff.1 (hopen.1 hparen)
          rw [hend]
          refine (argumentBytes_open hrest).chain fun y z hx => ?_
          refine ih z.length ?_ (by rw [hrest, hx]; simp) rfl
          rw [hlength, hx, List.length_cons, List.length_append]
          omega
        next hparen =>
          rw [hend, ih w.length (by omega) hrest rfl,
            ChainState.accepts_name hhead (mt hopen.2 hparen)]
      · have hstep : ChainState.boundary.step c = none := if_neg hc
        rw [chainBytes_ne ht hc, ChainState.accepts_cons_none hstep]

theorem dropWhile_eq_self {t : Text} (h : t.head?.any isBlank = false) :
    t.dropWhile isCssBlank = t := by
  cases t with
  | nil => rfl
  | cons c t =>
    refine List.dropWhile_cons_of_neg fun hc => ?_
    have hblank := Text.isBlank_of_isCssBlank hc
    simp [hblank] at h

theorem Pseudo.ofBytes?_eq (entry : Text) :
    Pseudo.ofBytes? entry = some (Pseudo.ofEntry? entry) := by
  rw [ofBytes?, ofEntry?]
  generalize ht : Text.trim entry = t
  have hhead : t.dropWhile isCssBlank = t := by
    rw [← ht]
    exact dropWhile_eq_self (Text.isBlank_head?_trim entry)
  obtain ⟨s, hs, hread⟩ := ampersandBytes_eq (u := []) (v := t) rfl (by rw [hhead]; exact id) 0
  generalize ampersands 0 [] t = leading at hs hread
  obtain ⟨count, suffix⟩ := leading
  change t = s ++ suffix at hs
  have hslice := Text.slice?_append s suffix []
  rw [List.append_nil, ← hs, ← Text.length_bytes t] at hslice
  have hempty : s.utf8Length = t.bytes.length ↔ suffix = [] := by
    rw [Text.length_bytes, hs, Text.utf8Length_append, ← Text.utf8Length_eq_zero]
    omega
  have hchain := chainBytes_eq hs
  simp only [Text.utf8Length_nil, List.nil_append] at hread
  simp only [hread, hchain, Option.bind_some, hslice, hempty]
  have haccepts : isChain suffix = ChainState.boundary.accepts suffix := rfl
  have hcount : (if 0 < count then some count else none) =
      if count = 0 then none else some count := by
    cases count <;> rfl
  have hnil : suffix.isEmpty = decide (suffix = []) := by
    cases suffix <;> rfl
  rw [haccepts, hcount, hnil, Bool.or_comm]
  split <;> rfl

end AtomicCss.Selector
