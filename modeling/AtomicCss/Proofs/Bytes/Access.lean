import AtomicCss.Text.Basic
import Mathlib.Data.List.Basic
set_option autoImplicit false

/-!
A text as bytes, and access to it by the number of a byte.

An access fails if it is out of range or, for a piece of the text, if an end of the piece is inside
a character (`Text.slice?_eq_some_iff`). No byte of a character beyond ASCII is that of an ASCII
character, so a scan that looks for ASCII characters only passes over it (`Text.pass_over`).
-/

namespace AtomicCss.Text

def bytes (t : Text) : List UInt8 := t.flatMap String.utf8EncodeChar

def dropBytes? : Nat → Text → Option Text
  | 0, t => some t
  | _ + 1, [] => none
  | n + 1, c :: t => if c.utf8Size ≤ n + 1 then dropBytes? (n + 1 - c.utf8Size) t else none

def takeBytes? : Nat → Text → Option Text
  | 0, _ => some []
  | _ + 1, [] => none
  | n + 1, c :: t =>
    if c.utf8Size ≤ n + 1 then (takeBytes? (n + 1 - c.utf8Size) t).map (c :: ·) else none

def slice? (t : Text) (i j : Nat) : Option Text :=
  if i ≤ j then (dropBytes? i t).bind (takeBytes? (j - i)) else none

theorem foldl_utf8Size (t : Text) (n : Nat) :
    t.foldl (fun n c => n + c.utf8Size) n = n + t.utf8Length := by
  rw [utf8Length]
  induction t generalizing n with
  | nil => rfl
  | cons c t ih =>
    rw [List.foldl_cons, List.foldl_cons, ih, ih (0 + c.utf8Size)]
    omega

theorem utf8Length_append (s t : Text) : utf8Length (s ++ t) = utf8Length s + utf8Length t := by
  rw [utf8Length, List.foldl_append, foldl_utf8Size t]
  rfl

@[simp] theorem utf8Length_nil : utf8Length [] = 0 := rfl

theorem utf8Length_cons (c : Char) (t : Text) :
    utf8Length (c :: t) = c.utf8Size + utf8Length t := by
  rw [utf8Length, List.foldl_cons, foldl_utf8Size, Nat.zero_add]

theorem utf8Length_concat (t : Text) (c : Char) :
    utf8Length (t ++ [c]) = utf8Length t + c.utf8Size := by
  rw [utf8Length_append, utf8Length_cons, utf8Length_nil, Nat.add_zero]

theorem utf8Length_eq_zero {t : Text} : utf8Length t = 0 ↔ t = [] := by
  cases t with
  | nil => simp
  | cons c t =>
    have hc := c.utf8Size_pos
    rw [utf8Length_cons]
    simp only [reduceCtorEq, iff_false]
    omega

@[simp] theorem bytes_nil : bytes [] = [] := rfl

theorem bytes_cons (c : Char) (t : Text) : bytes (c :: t) = String.utf8EncodeChar c ++ bytes t :=
  List.flatMap_cons

theorem bytes_append (s t : Text) : bytes (s ++ t) = bytes s ++ bytes t := List.flatMap_append

theorem length_bytes (t : Text) : (bytes t).length = utf8Length t := by
  induction t with
  | nil => rfl
  | cons c t ih =>
    rw [bytes_cons, List.length_append, ih, utf8Length_cons, String.length_utf8EncodeChar]

theorem dropBytes?_eq_some_iff {n : Nat} {t v : Text} :
    dropBytes? n t = some v ↔ ∃ u, t = u ++ v ∧ utf8Length u = n := by
  induction t generalizing n with
  | nil =>
    cases n with
    | zero => simp [dropBytes?, eq_comm]
    | succ n =>
      simp only [dropBytes?, reduceCtorEq, false_iff]
      rintro ⟨u, hu, hn⟩
      rw [(List.append_eq_nil_iff.1 hu.symm).1] at hn
      cases hn
  | cons c t ih =>
    have hc := c.utf8Size_pos
    cases n with
    | zero =>
      simp only [dropBytes?, Option.some.injEq, utf8Length_eq_zero]
      constructor
      · rintro rfl
        exact ⟨[], rfl, rfl⟩
      · rintro ⟨u, hu, rfl⟩
        exact hu
    | succ n =>
      rw [dropBytes?]
      constructor
      · intro h
        obtain ⟨hle, h⟩ := Option.ite_none_right_eq_some.1 h
        obtain ⟨u, rfl, hu⟩ := ih.1 h
        exact ⟨c :: u, rfl, by rw [utf8Length_cons]; omega⟩
      · rintro ⟨u, hu, hn⟩
        cases u with
        | nil => cases hn
        | cons d u =>
          obtain ⟨rfl, rfl⟩ := List.cons.inj hu
          rw [utf8Length_cons] at hn
          rw [if_pos (by omega)]
          exact ih.2 ⟨u, rfl, by omega⟩

theorem takeBytes?_eq_some_iff {n : Nat} {t w : Text} :
    takeBytes? n t = some w ↔ ∃ v, t = w ++ v ∧ utf8Length w = n := by
  induction t generalizing n w with
  | nil =>
    cases n with
    | zero =>
      simp only [takeBytes?, Option.some.injEq]
      constructor
      · rintro rfl
        exact ⟨[], rfl, rfl⟩
      · rintro ⟨v, hv, _⟩
        exact (List.append_eq_nil_iff.1 hv.symm).1.symm
    | succ n =>
      simp only [takeBytes?, reduceCtorEq, false_iff]
      rintro ⟨v, hv, hn⟩
      rw [(List.append_eq_nil_iff.1 hv.symm).1] at hn
      cases hn
  | cons c t ih =>
    have hc := c.utf8Size_pos
    cases n with
    | zero =>
      simp only [takeBytes?, Option.some.injEq, utf8Length_eq_zero]
      constructor
      · rintro rfl
        exact ⟨_, rfl, rfl⟩
      · rintro ⟨v, _, rfl⟩
        rfl
    | succ n =>
      rw [takeBytes?]
      constructor
      · intro h
        obtain ⟨hle, h⟩ := Option.ite_none_right_eq_some.1 h
        obtain ⟨x, hx, rfl⟩ := Option.map_eq_some_iff.1 h
        obtain ⟨v, rfl, hn⟩ := ih.1 hx
        exact ⟨v, rfl, by rw [utf8Length_cons]; omega⟩
      · rintro ⟨v, hv, hn⟩
        cases w with
        | nil => cases hn
        | cons d w =>
          obtain ⟨rfl, rfl⟩ := List.cons.inj hv
          rw [utf8Length_cons] at hn
          rw [if_pos (by omega), ih.2 ⟨v, rfl, by omega⟩, Option.map_some]

theorem slice?_eq_some_iff {t w : Text} {i j : Nat} :
    slice? t i j = some w ↔
      ∃ u v, t = u ++ (w ++ v) ∧ utf8Length u = i ∧ utf8Length (u ++ w) = j := by
  rw [slice?, Option.ite_none_right_eq_some, Option.bind_eq_some_iff]
  simp only [dropBytes?_eq_some_iff, takeBytes?_eq_some_iff, utf8Length_append]
  constructor
  · rintro ⟨hle, _, ⟨u, rfl, rfl⟩, v, rfl, hw⟩
    exact ⟨u, v, rfl, rfl, by omega⟩
  · rintro ⟨u, v, rfl, rfl, rfl⟩
    exact ⟨by omega, _, ⟨u, rfl, rfl⟩, v, rfl, by omega⟩

theorem slice?_append (u w v : Text) :
    slice? (u ++ (w ++ v)) (utf8Length u) (utf8Length (u ++ w)) = some w :=
  slice?_eq_some_iff.2 ⟨u, v, rfl, rfl, rfl⟩

theorem getElem?_bytes_append (u v : Text) (i : Nat) :
    (bytes (u ++ v))[utf8Length u + i]? = (bytes v)[i]? := by
  rw [bytes_append, List.getElem?_append_right (by rw [length_bytes]; omega), length_bytes,
    Nat.add_sub_cancel_left]

def isAscii (c : Char) : Bool := c.toNat < 128

theorem utf8Size_ascii {c : Char} (h : isAscii c = true) : c.utf8Size = 1 := by
  refine Char.utf8Size_eq_one_iff.2 (UInt32.le_iff_toNat_le.2 ?_)
  have hlt : c.toNat < 128 := of_decide_eq_true h
  exact Nat.le_of_lt_succ hlt

theorem utf8EncodeChar_ascii {c : Char} (h : isAscii c = true) :
    String.utf8EncodeChar c = [c.toUInt8] :=
  String.utf8EncodeChar_eq_singleton (utf8Size_ascii h)

theorem toNat_toUInt8_ascii {c : Char} (h : isAscii c = true) : c.toUInt8.toNat = c.toNat := by
  have hlt : c.toNat < 128 := of_decide_eq_true h
  rw [Char.toUInt8, UInt32.toNat_toUInt8]
  exact Nat.mod_eq_of_lt (Nat.lt_trans hlt (by decide))

theorem le_of_mem_utf8EncodeChar {c : Char} (h : isAscii c = false) {b : UInt8}
    (hb : b ∈ String.utf8EncodeChar c) : 128 ≤ b.toNat := by
  have hc : ¬c.val.toNat ≤ 127 := by
    have hge : ¬c.toNat < 128 := of_decide_eq_false h
    exact fun hle => hge (Nat.lt_succ_of_le hle)
  unfold String.utf8EncodeChar at hb
  simp only [hc, if_false] at hb
  split at hb
  · simp only [List.mem_cons, List.not_mem_nil, or_false] at hb
    rcases hb with rfl | rfl <;> rw [UInt8.toNat_ofNat'] <;> omega
  split at hb
  · simp only [List.mem_cons, List.not_mem_nil, or_false] at hb
    rcases hb with rfl | rfl | rfl <;> rw [UInt8.toNat_ofNat'] <;> omega
  · simp only [List.mem_cons, List.not_mem_nil, or_false] at hb
    rcases hb with rfl | rfl | rfl | rfl <;> rw [UInt8.toNat_ofNat'] <;> omega

def leadByte (c : Char) : UInt8 := (String.utf8EncodeChar c).headD 0

theorem leadByte_mem (c : Char) : leadByte c ∈ String.utf8EncodeChar c := by
  have hlength := String.length_utf8EncodeChar c
  have hc := c.utf8Size_pos
  unfold leadByte
  cases h : String.utf8EncodeChar c with
  | nil =>
    rw [h, List.length_nil] at hlength
    omega
  | cons b r => exact List.mem_cons_self

theorem leadByte_eq_iff {c d : Char} (hd : isAscii d = true) : leadByte c = d.toUInt8 ↔ c = d := by
  have hself : ∀ {e : Char}, isAscii e = true → leadByte e = e.toUInt8 := fun he => by
    rw [leadByte, utf8EncodeChar_ascii he]
    rfl
  constructor
  · intro h
    cases hc : isAscii c with
    | true =>
      rw [hself hc] at h
      have hnat := congrArg UInt8.toNat h
      rw [toNat_toUInt8_ascii hc, toNat_toUInt8_ascii hd] at hnat
      exact Char.toNat_inj.1 hnat
    | false =>
      have hle := le_of_mem_utf8EncodeChar hc (leadByte_mem c)
      have hlt : d.toNat < 128 := of_decide_eq_true hd
      rw [h, toNat_toUInt8_ascii hd] at hle
      omega
  · rintro rfl
    exact hself hd

theorem ne_of_le_toNat {b : UInt8} (hb : 128 ≤ b.toNat) {d : Char} (hd : isAscii d = true) :
    b ≠ d.toUInt8 := by
  rintro rfl
  have hlt : d.toNat < 128 := of_decide_eq_true hd
  rw [toNat_toUInt8_ascii hd] at hb
  omega

theorem ne_of_ne {b : UInt8} {c d : Char} {p : Prop} (h : 128 ≤ b.toNat ∨ p ∧ b = leadByte c)
    (hd : isAscii d = true) (hc : c ≠ d) : b ≠ d.toUInt8 := by
  rcases h with h | ⟨_, rfl⟩
  · exact ne_of_le_toNat h hd
  · exact mt (leadByte_eq_iff hd).1 hc

theorem getElem?_bytes_cons (u : Text) (c : Char) (v : Text) :
    (bytes (u ++ c :: v))[utf8Length u]? = some (leadByte c) := by
  have hlength := String.length_utf8EncodeChar c
  have hc := c.utf8Size_pos
  rw [show utf8Length u = utf8Length u + 0 from rfl, getElem?_bytes_append, bytes_cons, leadByte]
  cases h : String.utf8EncodeChar c with
  | nil =>
    rw [h, List.length_nil] at hlength
    omega
  | cons b r => rfl

theorem utf8Length_concat_ascii (u : Text) {c : Char} (h : isAscii c = true) :
    utf8Length (u ++ [c]) = utf8Length u + 1 := by
  rw [utf8Length_concat, utf8Size_ascii h]

theorem getElem?_bytes_end (u : Text) : (bytes u)[utf8Length u]? = none := by
  exact List.getElem?_eq_none (Nat.le_of_eq (length_bytes u))

theorem getElem?_bytes_eq_iff {d : Char} (hd : isAscii d = true) (u v : Text) :
    (bytes (u ++ v))[utf8Length u]? = some d.toUInt8 ↔ v.head? = some d := by
  cases v with
  | nil => simp [getElem?_bytes_end]
  | cons c v =>
    rw [getElem?_bytes_cons, Option.some.injEq, leadByte_eq_iff hd, List.head?_cons,
      Option.some.injEq]

theorem count_bytes {d : Char} (hd : isAscii d = true) (t : Text) :
    (bytes t).count d.toUInt8 = t.count d := by
  induction t with
  | nil => rfl
  | cons c t ih =>
    rw [bytes_cons, List.count_append, ih, List.count_cons, Nat.add_comm]
    congr 1
    cases hc : isAscii c with
    | true =>
      have hiff := leadByte_eq_iff (c := c) hd
      rw [(leadByte_eq_iff hc).2 rfl] at hiff
      simp [utf8EncodeChar_ascii hc, List.count_singleton, hiff]
    | false =>
      have hne : (c == d) = false := by
        refine beq_false_of_ne ?_
        rintro rfl
        rw [hd] at hc
        cases hc
      rw [hne, List.count_eq_zero.2 fun hmem => ?_]
      · rfl
      · exact ne_of_le_toNat (le_of_mem_utf8EncodeChar hc hmem) hd rfl

/-- A scan that goes from byte to byte beyond ASCII gets from inside a character to its end. -/
theorem pass_over {α : Type} {f : Nat → α} {t u v : Text} {c : Char} (ht : t = u ++ c :: v)
    (hf : ∀ p b, t.bytes[p]? = some b → 128 ≤ b.toNat → f p = f (p + 1)) {i : Nat}
    (hi : i ≤ c.utf8Size) (h : 0 < i ∨ isAscii c = false) :
    f (utf8Length u + i) = f (utf8Length (u ++ [c])) := by
  have hend : utf8Length (u ++ [c]) = utf8Length u + c.utf8Size := utf8Length_concat u c
  cases hc : isAscii c with
  | true =>
    have hone := utf8Size_ascii hc
    have hi' : i = 1 := by
      rcases h with h | h
      · omega
      · rw [hc] at h
        cases h
    rw [hi', hend, hone]
  | false =>
    obtain ⟨k, hk⟩ : ∃ k, i + k = c.utf8Size := ⟨c.utf8Size - i, by omega⟩
    clear h
    induction k generalizing i with
    | zero => rw [hend, ← hk, Nat.add_zero]
    | succ k ih =>
      have hlt : i < (String.utf8EncodeChar c).length := by
        rw [String.length_utf8EncodeChar]
        omega
      have hbyte : t.bytes[utf8Length u + i]? = some (String.utf8EncodeChar c)[i] := by
        rw [ht, getElem?_bytes_append, bytes_cons, List.getElem?_append_left hlt,
          List.getElem?_eq_getElem hlt]
      rw [hf _ _ hbyte (le_of_mem_utf8EncodeChar hc (List.getElem_mem hlt)), Nat.add_assoc]
      exact ih (by omega) (by omega)

/-- The byte at which `p` first begins. -/
def find? (p : Text) : Text → Option Nat
  | [] => if p.isEmpty then some 0 else none
  | c :: t => if p.isPrefixOf (c :: t) then some 0 else (find? p t).map (c.utf8Size + ·)

theorem find?_eq_some {p t : Text} {n : Nat} (hp : p ≠ []) (h : find? p t = some n) :
    ∃ s v, t = s ++ (p ++ v) ∧ utf8Length s = n ∧ ¬p <:+: s := by
  have hnil : ¬p <:+: [] := fun h => hp (List.infix_nil.1 h)
  induction t generalizing n with
  | nil => simp [find?, hp] at h
  | cons c t ih =>
    rw [find?] at h
    split at h
    next hprefix =>
      cases h
      obtain ⟨v, hv⟩ := List.isPrefixOf_iff_prefix.1 hprefix
      exact ⟨[], v, hv.symm, rfl, hnil⟩
    next hprefix =>
      obtain ⟨m, hm, rfl⟩ := Option.map_eq_some_iff.1 h
      obtain ⟨s, v, rfl, hs, hfirst⟩ := ih hm
      refine ⟨c :: s, v, rfl, by rw [utf8Length_cons, hs], ?_⟩
      rw [List.infix_cons_iff, not_or]
      refine ⟨fun hshort => hprefix ?_, hfirst⟩
      exact List.isPrefixOf_iff_prefix.2 (hshort.trans (List.prefix_append (c :: s) (p ++ v)))

theorem find?_eq_none {p t : Text} (h : find? p t = none) : ¬p <:+: t := by
  induction t with
  | nil =>
    intro hinfix
    simp [find?, List.infix_nil.1 hinfix] at h
  | cons c t ih =>
    rw [find?] at h
    split at h
    next => cases h
    next hprefix =>
      rw [List.infix_cons_iff, not_or]
      exact ⟨fun hfirst => hprefix (List.isPrefixOf_iff_prefix.2 hfirst),
        ih (Option.map_eq_none_iff.1 h)⟩

end AtomicCss.Text
