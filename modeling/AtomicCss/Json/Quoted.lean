import AtomicCss.Text.Hex
set_option autoImplicit false

/-!
JSON string literals.

Writing escapes the quote, the backslash and control characters, the common ones by a letter.
Reading takes every escape of the format, pairs of surrogates included, and no raw control
character.
-/

namespace AtomicCss.Json

def escape (c : Char) : Text :=
  if c = '"' then ['\\', '"']
  else if c = '\\' then ['\\', '\\']
  else if c = '\x08' then ['\\', 'b']
  else if c = '\t' then ['\\', 't']
  else if c = '\n' then ['\\', 'n']
  else if c = '\x0c' then ['\\', 'f']
  else if c = '\r' then ['\\', 'r']
  else if c.toNat < 0x20 then
    ['\\', 'u', '0', '0', hexDigit (c.toNat / 16), hexDigit (c.toNat % 16)]
  else [c]

def quote (t : Text) : Text := '"' :: (t.flatMap escape ++ ['"'])

def unescape? (c : Char) : Option Char :=
  if c = '"' || c = '\\' || c = '/' then some c
  else if c = 'b' then some '\x08'
  else if c = 't' then some '\t'
  else if c = 'n' then some '\n'
  else if c = 'f' then some '\x0c'
  else if c = 'r' then some '\r'
  else none

def isHighSurrogate (n : Nat) : Bool := 0xD800 ≤ n && n < 0xDC00

def isLowSurrogate (n : Nat) : Bool := 0xDC00 ≤ n && n < 0xE000

def joinSurrogates (high low : Nat) : Char :=
  Char.ofNat (0x10000 + (high - 0xD800) * 0x400 + (low - 0xDC00))

/-- The text of a literal after its opening quote, and what follows the closing one. -/
def unquote? : Text → Option (Text × Text)
  | [] => none
  | '"' :: r => some ([], r)
  | '\\' :: 'u' :: a :: b :: c :: d :: r => do
    let n ← hexNumber? [a, b, c, d]
    if isHighSurrogate n then
      match r with
      | '\\' :: 'u' :: a :: b :: c :: d :: r =>
        let low ← hexNumber? [a, b, c, d]
        if isLowSurrogate low then
          let (t, rest) ← unquote? r
          some (joinSurrogates n low :: t, rest)
        else none
      | _ => none
    else if isLowSurrogate n then none
    else
      let (t, rest) ← unquote? r
      some (Char.ofNat n :: t, rest)
  | '\\' :: c :: r => do
    let e ← unescape? c
    let (t, rest) ← unquote? r
    some (e :: t, rest)
  | c :: r =>
    if c.toNat < 0x20 || c = '\\' then none
    else (unquote? r).map fun (t, rest) => (c :: t, rest)

@[simp] theorem unquote?_nil : unquote? [] = none := rfl

@[simp] theorem unquote?_close (r : Text) : unquote? ('"' :: r) = some ([], r) := by
  rw [unquote?]

theorem unquote?_control {n : Nat} (h : n < 32) (r : Text) :
    unquote? (['\\', 'u', '0', '0', hexDigit (n / 16), hexDigit (n % 16)] ++ r) =
      (unquote? r).map fun p => (Char.ofNat n :: p.1, p.2) := by
  have digits : hexNumber? ['0', '0', hexDigit (n / 16), hexDigit (n % 16)] = some n := by
    have all : ∀ m : Fin 32,
        hexNumber? ['0', '0', hexDigit (m.val / 16), hexDigit (m.val % 16)] = some m.val := by
      decide
    exact all ⟨n, h⟩
  have high : isHighSurrogate n = false := by simp [isHighSurrogate]; omega
  have low : isLowSurrogate n = false := by simp [isLowSurrogate]; omega
  simp only [List.cons_append, List.nil_append]
  rw [unquote?, digits]
  simp only [Option.bind_eq_bind, Option.bind_some, high, low, Bool.false_eq_true, if_false]
  cases unquote? r <;> rfl

theorem unquote?_letter {e c : Char} (hu : e ≠ 'u') (h : unescape? e = some c) (r : Text) :
    unquote? ('\\' :: e :: r) = (unquote? r).map fun p => (c :: p.1, p.2) := by
  rw [unquote?]
  · simp only [h, Option.bind_eq_bind, Option.bind_some]
    cases unquote? r <;> rfl
  · rintro a b c d r rfl
    exact absurd rfl hu

theorem unquote?_escape (c : Char) (r : Text) :
    unquote? (escape c ++ r) = (unquote? r).map fun p => (c :: p.1, p.2) := by
  unfold escape
  split
  · subst c; exact unquote?_letter (by decide) rfl r
  split
  · subst c; exact unquote?_letter (by decide) rfl r
  split
  · subst c; exact unquote?_letter (by decide) rfl r
  split
  · subst c; exact unquote?_letter (by decide) rfl r
  split
  · subst c; exact unquote?_letter (by decide) rfl r
  split
  · subst c; exact unquote?_letter (by decide) rfl r
  split
  · subst c; exact unquote?_letter (by decide) rfl r
  split
  · rename_i h
    have hc := unquote?_control (n := c.toNat) (by omega) r
    rwa [Char.ofNat_toNat] at hc
  · rename_i hq hb _ _ _ _ _ hc
    rw [List.singleton_append, unquote?]
    · simp [hc, hb]
    · simpa using hq
    · rintro a b c d r rfl
      exact absurd rfl hb
    · rintro d r rfl
      exact absurd rfl hb

theorem unquote?_flatMap_escape (t r : Text) :
    unquote? (t.flatMap escape ++ '"' :: r) = some (t, r) := by
  induction t with
  | nil => simp
  | cons c t ih => rw [List.flatMap_cons, List.append_assoc, unquote?_escape, ih]; rfl

theorem unquote?_quote (t r : Text) : unquote? ((quote t).tail ++ r) = some (t, r) := by
  simpa [quote] using unquote?_flatMap_escape t r

end AtomicCss.Json
