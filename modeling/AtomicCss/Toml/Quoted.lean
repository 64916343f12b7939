import AtomicCss.Text.Hex
set_option autoImplicit false

namespace AtomicCss.Toml

/-- Characters that may stand in strings and comments as they are, on one line. -/
def isPlain (c : Char) : Bool := c = '\t' || (0x20 ≤ c.toNat && c.toNat ≠ 0x7F)

def isSpace (c : Char) : Bool := c = ' ' || c = '\t'

def lineBreak? : Text → Option Text
  | '\n' :: r => some r
  | '\r' :: '\n' :: r => some r
  | _ => none

def dropLineBreak (t : Text) : Text := (lineBreak? t).getD t

def unescape? (c : Char) : Option Char :=
  if c = '"' || c = '\\' then some c
  else if c = 'b' then some '\x08'
  else if c = 't' then some '\t'
  else if c = 'n' then some '\n'
  else if c = 'f' then some '\x0c'
  else if c = 'r' then some '\r'
  else none

/-- The character with a hexadecimal number; surrogates are none. -/
def scalar? (digits : Text) : Option Char := do
  let n ← hexNumber? digits
  if h : n.isValidChar then some (Char.ofNatAux n h) else none

/--
The rest of a basic string, on several lines if `multi` holds, and what follows it. While
`skipping`, blanks and line breaks are dropped, as they are after a backslash at the end of a line.
-/
def basic? (multi skipping : Bool) : Text → Option (Text × Text)
  | [] => none
  | '\r' :: '\n' :: r =>
    if !multi then none
    else if skipping then basic? multi true r
    else (basic? multi false r).map fun (t, rest) => ('\n' :: t, rest)
  | '\n' :: r =>
    if !multi then none
    else if skipping then basic? multi true r
    else (basic? multi false r).map fun (t, rest) => ('\n' :: t, rest)
  | '"' :: r =>
    if !multi then some ([], r)
    else
      match r with
      | '"' :: '"' :: '"' :: '"' :: r => some (['"', '"'], r)
      | '"' :: '"' :: '"' :: r => some (['"'], r)
      | '"' :: '"' :: r => some ([], r)
      | r => (basic? multi false r).map fun (t, rest) => ('"' :: t, rest)
  | '\\' :: 'u' :: a :: b :: c :: d :: r => do
    let e ← scalar? [a, b, c, d]
    let (t, rest) ← basic? multi false r
    some (e :: t, rest)
  | '\\' :: 'U' :: a :: b :: c :: d :: e :: f :: g :: h :: r => do
    let e ← scalar? [a, b, c, d, e, f, g, h]
    let (t, rest) ← basic? multi false r
    some (e :: t, rest)
  | '\\' :: c :: r =>
    if multi && (lineBreak? ((c :: r).dropWhile isSpace)).isSome then basic? multi true (c :: r)
    else do
      let e ← unescape? c
      let (t, rest) ← basic? multi false r
      some (e :: t, rest)
  | c :: r =>
    if skipping && isSpace c then basic? multi true r
    else if !isPlain c || c = '\\' then none
    else (basic? multi false r).map fun (t, rest) => (c :: t, rest)

def literal? (multi : Bool) : Text → Option (Text × Text)
  | [] => none
  | '\r' :: '\n' :: r =>
    if multi then (literal? multi r).map fun (t, rest) => ('\n' :: t, rest) else none
  | '\n' :: r =>
    if multi then (literal? multi r).map fun (t, rest) => ('\n' :: t, rest) else none
  | '\'' :: r =>
    if !multi then some ([], r)
    else
      match r with
      | '\'' :: '\'' :: '\'' :: '\'' :: r => some (['\'', '\''], r)
      | '\'' :: '\'' :: '\'' :: r => some (['\''], r)
      | '\'' :: '\'' :: r => some ([], r)
      | r => (literal? multi r).map fun (t, rest) => ('\'' :: t, rest)
  | c :: r =>
    if isPlain c then (literal? multi r).map fun (t, rest) => (c :: t, rest) else none

/-- A string of any kind. A line break right after three quotes is dropped. -/
def string? : Text → Option (Text × Text)
  | '"' :: '"' :: '"' :: r => basic? true false (dropLineBreak r)
  | '"' :: r => basic? false false r
  | '\'' :: '\'' :: '\'' :: r => literal? true (dropLineBreak r)
  | '\'' :: r => literal? false r
  | _ => none

end AtomicCss.Toml
