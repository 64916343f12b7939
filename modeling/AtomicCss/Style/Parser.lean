import AtomicCss.Style.Header
import AtomicCss.Style.Node
import AtomicCss.Text.Position
set_option autoImplicit false

/-!
Reading style text.

The reader is a state that takes one character at a time, so reading `s ++ t` is reading `s` and
then `t` (`Reader.readAll_append`). A statement runs up to a semicolon or brace outside strings,
comments and parentheses; comments leave no trace in it.
-/

namespace AtomicCss

inductive SyntaxFault where
  | missingSelector
  | unexpectedClose
  | unclosedBlock
  | unclosedString
  | unclosedComment
  | emptyProperty
  | expectedDeclaration (found : Text)
  deriving DecidableEq, Repr

structure SyntaxError where
  fault : SyntaxFault
  position : Position
  deriving DecidableEq, Repr

def SyntaxFault.message : SyntaxFault → Text
  | .missingSelector => "Missing selector before '\x7b'".toList
  | .unexpectedClose => "Unexpected '\x7d'".toList
  | .unclosedBlock => "Unclosed block".toList
  | .unclosedString => "Unclosed string".toList
  | .unclosedComment => "Unclosed comment".toList
  | .emptyProperty => "Empty property name".toList
  | .expectedDeclaration found => "Expected declaration, found `".toList ++ found ++ ['`']

def SyntaxError.message (e : SyntaxError) : Text :=
  e.fault.message ++ " at ".toList ++ e.position.message

/-- What the last characters have begun. -/
inductive Mode where
  | code
  | slash
  | comment
  | commentStar
  | quoted (quoting : Quoting)
  deriving DecidableEq, Repr

structure OpenBlock where
  head : Text
  before : List Node
  opened : Position
  deriving Repr

def isAtHeader (t : Text) : Bool := t.head? == some '@'

def Node.ofStatement (t : Text) : Except SyntaxFault Node :=
  if isAtHeader t then .ok (.statement (Header.normalize t))
  else
    match t.dropWhile (· != ':') with
    | [] => .error (.expectedDeclaration t)
    | _ :: value =>
      let property := Text.trim (t.takeWhile (· != ':'))
      if property.isEmpty then .error .emptyProperty
      else .ok (.declaration property (Text.trim value))

def OpenBlock.close (b : OpenBlock) (children : List Node) : Node :=
  if isAtHeader b.head then .atRule (Header.normalize b.head) children
  else .rule b.head children

/-- A reader at `here`, inside the blocks `outer`, innermost first. -/
structure Reader where
  mode : Mode
  /-- Open parentheses of the statement. -/
  depth : Nat
  /-- The statement so far, last character first. -/
  read : Text
  start : Position
  /-- Where the string or comment being read opened. -/
  mark : Position
  here : Position
  nodes : List Node
  outer : List OpenBlock
  deriving Repr

namespace Reader

def initial : Reader := ⟨.code, 0, [], .first, .first, .first, [], []⟩

def statementText (r : Reader) : Text := Text.trim r.read.reverse

def push (r : Reader) (c : Char) : Reader := { r with read := c :: r.read }

/-- Turns to the statement after the character at `here`, which is `c`. -/
def restart (r : Reader) (c : Char) : Reader :=
  { r with read := [], start := r.here.advance c }

def endStatement (r : Reader) : Except SyntaxError Reader :=
  if r.statementText.isEmpty then .ok r
  else
    match Node.ofStatement r.statementText with
    | .ok n => .ok { r with nodes := r.nodes ++ [n] }
    | .error fault => .error ⟨fault, r.start⟩

def openBlock (r : Reader) : Except SyntaxError Reader :=
  if r.statementText.isEmpty then .error ⟨.missingSelector, r.start⟩
  else .ok { r with nodes := [], outer := ⟨r.statementText, r.nodes, r.here⟩ :: r.outer }

def closeBlock (r : Reader) : Except SyntaxError Reader :=
  match r.outer with
  | [] => .error ⟨.unexpectedClose, r.here⟩
  | b :: outer => .ok { r with nodes := b.before ++ [b.close r.nodes], outer := outer }

def takeCode (r : Reader) (c : Char) : Except SyntaxError Reader :=
  if c = '/' then .ok { r with mode := .slash, mark := r.here }
  else if isQuote c then .ok { r.push c with mode := .quoted (.inside c), mark := r.here }
  else if c = '(' then .ok { r.push c with depth := r.depth + 1 }
  else if c = ')' then .ok { r.push c with depth := r.depth - 1 }
  else if r.depth ≠ 0 then .ok (r.push c)
  else if c = ';' then r.endStatement.map (·.restart c)
  else if c = '{' then r.openBlock.map (·.restart c)
  else if c = '}' then do
    let ended ← r.endStatement
    let closed ← ended.closeBlock
    return closed.restart c
  else .ok (r.push c)

def take (r : Reader) (c : Char) : Except SyntaxError Reader :=
  match r.mode with
  | .code => r.takeCode c
  | .slash =>
    if c = '*' then .ok { r with mode := .comment }
    else ({ r with mode := .code }.push '/').takeCode c
  | .comment => .ok { r with mode := if c = '*' then .commentStar else .comment }
  | .commentStar =>
    .ok { r with mode := if c = '/' then .code else if c = '*' then .commentStar else .comment }
  | .quoted q =>
    match q, c with
    | .inside _, '\n' => .error ⟨.unclosedString, r.mark⟩
    | q, c =>
      .ok { r.push c with mode := if q.next c = .bare then .code else .quoted (q.next c) }

def step (r : Reader) (c : Char) : Except SyntaxError Reader :=
  (r.take c).map fun s => { s with here := s.here.advance c }

def readAll (r : Reader) (t : Text) : Except SyntaxError Reader := t.foldlM step r

def finish (r : Reader) : Except SyntaxError (List Node) := do
  let ended ← match r.mode with
    | .code => r.endStatement
    | .slash => (r.push '/').endStatement
    | .comment | .commentStar => .error ⟨.unclosedComment, r.mark⟩
    | .quoted _ => .error ⟨.unclosedString, r.mark⟩
  match ended.outer with
  | [] => return ended.nodes
  | b :: _ => .error ⟨.unclosedBlock, b.opened⟩

@[simp] theorem readAll_nil (r : Reader) : r.readAll [] = .ok r := rfl

@[simp] theorem readAll_cons (r : Reader) (c : Char) (t : Text) :
    r.readAll (c :: t) = (r.step c).bind (·.readAll t) := rfl

theorem readAll_append (r : Reader) (s t : Text) :
    r.readAll (s ++ t) = (r.readAll s).bind (·.readAll t) := List.foldlM_append

theorem here_endStatement {r s : Reader} (h : r.endStatement = .ok s) : s.here = r.here := by
  unfold endStatement at h
  split at h
  · cases h; rfl
  · split at h
    · cases h; rfl
    · cases h

theorem here_openBlock {r s : Reader} (h : r.openBlock = .ok s) : s.here = r.here := by
  unfold openBlock at h
  split at h
  · cases h
  · cases h; rfl

theorem here_closeBlock {r s : Reader} (h : r.closeBlock = .ok s) : s.here = r.here := by
  unfold closeBlock at h
  split at h
  · cases h
  · cases h; rfl

theorem here_takeCode {r s : Reader} {c : Char} (h : r.takeCode c = .ok s) : s.here = r.here := by
  unfold takeCode at h
  split at h
  · cases h; rfl
  split at h
  · cases h; rfl
  split at h
  · cases h; rfl
  split at h
  · cases h; rfl
  split at h
  · cases h; rfl
  split at h
  · cases he : r.endStatement with
    | error e => rw [he] at h; cases h
    | ok t => rw [he] at h; cases h; exact (here_endStatement he : t.here = r.here)
  split at h
  · cases ho : r.openBlock with
    | error e => rw [ho] at h; cases h
    | ok t => rw [ho] at h; cases h; exact (here_openBlock ho : t.here = r.here)
  split at h
  · cases he : r.endStatement with
    | error e => rw [he] at h; cases h
    | ok t =>
      cases hc : t.closeBlock with
      | error e => simp [he, hc, bind, Except.bind] at h
      | ok u =>
        simp only [he, hc, bind, Except.bind, pure, Except.pure, Except.ok.injEq] at h
        subst h
        exact (here_closeBlock hc).trans (here_endStatement he)
  · cases h; rfl

theorem here_take {r s : Reader} {c : Char} (h : r.take c = .ok s) : s.here = r.here := by
  unfold take at h
  split at h
  · exact here_takeCode h
  · split at h
    · cases h; rfl
    · exact (here_takeCode h).trans rfl
  · cases h; rfl
  · cases h; rfl
  · split at h
    · cases h
    · cases h; rfl

end Reader

/-- The nodes of a style text, with the names of properties in the case that they are written in. -/
def parseAsWritten (t : Text) : Except SyntaxError (List Node) :=
  (Reader.initial.readAll t).bind Reader.finish

/-- Custom properties are case-sensitive, all others are not. -/
def propertyName (t : Text) : Text :=
  if "--".toList.isPrefixOf t then t else t.lower

def parse (t : Text) : Except SyntaxError (List Node) :=
  (parseAsWritten t).map (Node.renamePropertiesAll propertyName)

end AtomicCss
