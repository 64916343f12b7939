import AtomicCss.Text.Blank
import AtomicCss.Text.Quoting
set_option autoImplicit false

/-!
Headers of at-rules: the stored form, with single spaces, and the key under which headers that
differ only in their spacing share one block.
-/

namespace AtomicCss.Header

/-- One space for each run of blanks, none at the ends. -/
def normalize (h : Text) : Text := Text.join [' '] (Text.words h)

/-- Punctuation after which a space means nothing. -/
def swallowsAfter (c : Char) : Bool := c = '(' || c = ':' || c = ','

def swallowsBefore (c : Char) : Bool := c = ')' || c = ':' || c = ','

/--
The rest of a key: `quote` is the string being read, `previous` the character before the text, and
`last` the character that the key ends with so far.

A quote closes its string unless a backslash stands right before it.
-/
def keyFrom (quote previous last : Option Char) : Text → Text
  | [] => []
  | c :: r =>
    match quote with
    | some q =>
      c :: keyFrom (if c = q && previous != some '\\' then none else quote) (some c) (some c) r
    | none =>
      if isQuote c then c :: keyFrom (some c) (some c) (some c) r
      else if c = ' ' && (last.any swallowsAfter || r.head?.any swallowsBefore) then
        keyFrom none (some c) last r
      else c :: keyFrom none (some c) (some c) r

/-- Spaces next to parentheses, colons and commas are dropped outside strings. -/
def key (h : Text) : Text := keyFrom none none none (normalize h)

/-- Characters of the keyword that an at-rule begins with. -/
def isKeywordChar (c : Char) : Bool := c = '@' || isNameChar c

def keyword (h : Text) : Text := h.takeWhile isKeywordChar

/-- What follows the keyword, without needless spaces. -/
def operand (h : Text) : Text := key (h.dropWhile isKeywordChar)

/-- The shortest form that keeps a space between the keyword and what follows it. -/
def compact (h : Text) : Text :=
  if (operand h).isEmpty then keyword h else keyword h ++ ' ' :: operand h

@[simp] theorem key_nil : key [] = [] := rfl

end AtomicCss.Header
