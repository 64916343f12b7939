import AtomicCss.Toml.DateTime
import AtomicCss.Toml.Quoted
set_option autoImplicit false

/-!
Reading the statements of a TOML document.

Only values that can occur in a document of bindings are read: strings, lists of strings, inline
tables of strings, and dates and times. All others are refused, as no binding has their shape.
-/

namespace AtomicCss.Toml

inductive Value where
  | text (t : Text)
  | list (l : List Text)
  | table (members : List (Text × Text))
  | dateTime (t : Text)
  deriving DecidableEq, Repr

inductive Statement where
  | assign (path : List Text) (value : Value)
  | header (path : List Text)
  deriving DecidableEq, Repr

def skipSpace (t : Text) : Text := t.dropWhile isSpace

def skipComment (t : Text) : Text :=
  match t with
  | '#' :: r => r.dropWhile isPlain
  | _ => t

/-- What follows the end of a statement: blanks, perhaps a comment, and a line break or the end. -/
def endOfLine? (t : Text) : Option Text :=
  match skipComment (skipSpace t) with
  | [] => some []
  | r => lineBreak? r

def simpleKey? (t : Text) : Option (Text × Text) :=
  match t with
  | '"' :: r => basic? false false r
  | '\'' :: r => literal? false r
  | _ =>
    let bare := t.takeWhile isNameChar
    if bare.isEmpty then none else some (bare, t.dropWhile isNameChar)

def path? : Nat → Text → Option (List Text × Text)
  | 0, _ => none
  | fuel + 1, t => do
    let (k, r) ← simpleKey? (skipSpace t)
    match skipSpace r with
    | '.' :: r =>
      let (path, rest) ← path? fuel r
      some (k :: path, rest)
    | r => some ([k], r)

def assignee? (t : Text) : Option (List Text × Text) := do
  let (path, r) ← path? (t.length + 1) t
  let r ← sign? '=' r
  some (path, skipSpace r)

def skipLines : Nat → Text → Text
  | 0, t => t
  | fuel + 1, t =>
    let t := skipComment (skipSpace t)
    match lineBreak? t with
    | some r => skipLines fuel r
    | none => t

def list? : Nat → Text → Option (List Text × Text)
  | 0, _ => none
  | fuel + 1, t =>
    match skipLines (t.length + 1) t with
    | ']' :: r => some ([], r)
    | t => do
      let (s, r) ← string? t
      match skipLines (r.length + 1) r with
      | ']' :: r => some ([s], r)
      | ',' :: r =>
        let (l, rest) ← list? fuel r
        some (s :: l, rest)
      | _ => none

def members? : Nat → Text → Option (List (Text × Text) × Text)
  | 0, _ => none
  | fuel + 1, t => do
    let (path, r) ← assignee? t
    let (s, r) ← string? r
    match path, skipSpace r with
    | [k], '}' :: r => some ([(k, s)], r)
    | [k], ',' :: r =>
      let (l, rest) ← members? fuel r
      some ((k, s) :: l, rest)
    | _, _ => none

def value? (t : Text) : Option (Value × Text) :=
  match t with
  | '[' :: r => (list? (r.length + 1) r).map fun (l, rest) => (.list l, rest)
  | '{' :: r =>
    match skipSpace r with
    | '}' :: r => some (.table [], r)
    | r => (members? (r.length + 1) r).map fun (m, rest) => (.table m, rest)
  | '"' :: _ | '\'' :: _ => (string? t).map fun (s, rest) => (.text s, rest)
  | _ => (dateTime? t).map fun (d, rest) => (.dateTime d, rest)

def statement? (t : Text) : Option (Statement × Text) :=
  match t with
  | '[' :: r => do
    let (path, r) ← path? (r.length + 1) r
    let r ← sign? ']' r
    some (.header path, r)
  | _ => do
    let (path, r) ← assignee? t
    let (v, r) ← value? r
    some (.assign path v, r)

def statements? : Nat → Text → Option (List Statement)
  | 0, _ => none
  | fuel + 1, t =>
    match skipLines (t.length + 1) t with
    | [] => some []
    | t => do
      let (s, r) ← statement? t
      let r ← endOfLine? r
      let l ← statements? fuel r
      some (s :: l)

/-- A byte order mark may stand before the first statement. -/
def document? (t : Text) : Option (List Statement) :=
  let t := if t.head? = some '\ufeff' then t.drop 1 else t
  statements? (t.length + 1) t

end AtomicCss.Toml
