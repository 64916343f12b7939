import AtomicCss.Json.Quoted
import AtomicCss.Number.Binary64
set_option autoImplicit false

/-!
Reading JSON. Numbers are checked and dropped: one that is too large for a double is an error, any
other is only known to be a number. A number is its leading digits, as many as fit 64 bits, times a
power of ten, each rounded to a double.
-/

namespace AtomicCss

inductive Json where
  | null
  | boolean (b : Bool)
  | number
  | string (t : Text)
  | array (elements : List Json)
  | object (members : List (Text × Json))
  deriving Repr

namespace Json

def isSpace (c : Char) : Bool := c = ' ' || c = '\n' || c = '\t' || c = '\r'

def skipSpace (t : Text) : Text := t.dropWhile isSpace

def digits? (t : Text) : Option (Text × Text) :=
  let digits := t.takeWhile Char.isDigit
  if digits.isEmpty then none else some (digits, t.dropWhile Char.isDigit)

/--
The number that `n` and the digits after it write, as far as it fits 64 bits, and how many digits
are left over.
-/
def fit (n : Nat) : Text → Nat × Nat
  | [] => (n, 0)
  | c :: r =>
    let m := n * 10 + (c.toNat - 48)
    if m < twoTo 64 then fit m r else (n, r.length + 1)

/-- Whether the product of two doubles, nearest to `n` and to `tenTo exponent`, is infinite. -/
def exceedsDouble (n : Nat) (exponent : Int) : Bool :=
  if n = 0 || exponent < 0 then false
  else
    308 < exponent ||
      Binary64.product (Binary64.round n 1) (Binary64.round (tenTo exponent.toNat) 1)
        = Binary64.infinity

/-- An integer part has no leading zero. -/
def integer? : Text → Option (Text × Text)
  | '0' :: r => if r.head?.any Char.isDigit then none else some (['0'], r)
  | t => digits? t

def fraction? : Text → Option (Text × Text)
  | '.' :: r => digits? r
  | t => some ([], t)

def exponent? : Text → Option (Int × Text)
  | c :: r =>
    if c = 'e' || c = 'E' then
      match r with
      | '-' :: r => (digits? r).map fun (d, rest) => (-(decimalNumber d : Int), rest)
      | '+' :: r => (digits? r).map fun (d, rest) => ((decimalNumber d : Int), rest)
      | r => (digits? r).map fun (d, rest) => ((decimalNumber d : Int), rest)
    else some (0, c :: r)
  | [] => some (0, [])

/-- What follows a number without its sign. -/
def skipUnsigned? (t : Text) : Option Text := do
  let (whole, r) ← integer? t
  let (fraction, r) ← fraction? r
  let (exponent, r) ← exponent? r
  let (n, dropped) := fit 0 whole
  let (n, unread) := fit n fraction
  if exceedsDouble n (exponent + dropped - (fraction.length - unread)) then none else some r

def skipNumber? : Text → Option Text
  | '-' :: r => skipUnsigned? r
  | t => skipUnsigned? t

def skipWord? (word t : Text) : Option Text :=
  if word.isPrefixOf t then some (t.drop word.length) else none

def atom? : Text → Option (Json × Text)
  | '"' :: r => (unquote? r).map fun (t, rest) => (.string t, rest)
  | 'n' :: r => (skipWord? "ull".toList r).map fun rest => (.null, rest)
  | 't' :: r => (skipWord? "rue".toList r).map fun rest => (.boolean true, rest)
  | 'f' :: r => (skipWord? "alse".toList r).map fun rest => (.boolean false, rest)
  | t => (skipNumber? t).map fun rest => (.number, rest)

def key? : Text → Option (Text × Text)
  | '"' :: r => do
    let (k, r) ← unquote? r
    match skipSpace r with
    | ':' :: r => some (k, r)
    | _ => none
  | _ => none

def comma? (isFirst : Bool) (t : Text) : Option Text :=
  if isFirst then some t
  else
    match t with
    | ',' :: r => some (skipSpace r)
    | _ => none

mutual

/-- A value with at most `depth` containers in one another, read in at most `fuel` steps. -/
def value? (fuel depth : Nat) (t : Text) : Option (Json × Text) :=
  match fuel, depth, skipSpace t with
  | fuel + 1, depth + 1, '[' :: r =>
    (elements? fuel depth true r).map fun (l, rest) => (.array l, rest)
  | fuel + 1, depth + 1, '{' :: r =>
    (members? fuel depth true r).map fun (l, rest) => (.object l, rest)
  | _, _, t => atom? t

def elements? (fuel depth : Nat) (isFirst : Bool) (t : Text) : Option (List Json × Text) :=
  match fuel, skipSpace t with
  | _ + 1, ']' :: r => some ([], r)
  | fuel + 1, t => do
    let t ← comma? isFirst t
    let (v, r) ← value? fuel depth t
    let (l, rest) ← elements? fuel depth false r
    some (v :: l, rest)
  | 0, _ => none

def members? (fuel depth : Nat) (isFirst : Bool) (t : Text) :
    Option (List (Text × Json) × Text) :=
  match fuel, skipSpace t with
  | _ + 1, '}' :: r => some ([], r)
  | fuel + 1, t => do
    let t ← comma? isFirst t
    let (k, r) ← key? t
    let (v, r) ← value? fuel depth r
    let (l, rest) ← members? fuel depth false r
    some ((k, v) :: l, rest)
  | 0, _ => none

end

def maxDepth : Nat := 127

end Json
end AtomicCss
