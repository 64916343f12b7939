import AtomicCss.Selector.List
import AtomicCss.Style.Parser
import AtomicCss.Stylesheet.Canonical
import AtomicCss.Stylesheet.PropertyName
set_option autoImplicit false

/-!
A plain library for stylesheets: they are read as styles are and printed as short as it goes or
indented. Values are printed as they are written.
-/

namespace AtomicCss.Stylesheet

def isPropertyChar (c : Char) : Bool := isNameChar c || c = '\\' || 0x80 ≤ c.toNat

mutual

/-- A declaration whose property is no identifier, in document order the first one. -/
def badProperty? : Node → Option Text
  | .declaration property _ => if property.all isPropertyChar then none else some property
  | .rule _ children | .atRule _ children => badPropertyIn? children
  | .statement _ => none

def badPropertyIn? : List Node → Option Text
  | [] => none
  | n :: r => (badProperty? n).or (badPropertyIn? r)

end

/-- A header in its shortest form, with the keyword of a condition in lower case. -/
def spelledHeader (header : Text) : Text :=
  let keyword := Header.keyword header
  let spelled :=
    if keyword.lower = "@media".toList || keyword.lower = "@supports".toList then keyword.lower
    else keyword
  spelled ++ (Header.compact header).drop keyword.length

mutual

def shorten : Node → Node
  | .declaration property value => .declaration property value
  | .rule selector children =>
    .rule (Text.join [','] (Selector.entries selector)) (shortenAll children)
  | .atRule header children => .atRule (spelledHeader header) (shortenAll children)
  | .statement header => .statement (spelledHeader header)

def shortenAll : List Node → List Node
  | [] => []
  | n :: r => shorten n :: shortenAll r

end

def compact (nodes : List Node) : Text := Node.renderAll (shortenAll nodes)

/-- A header with a space after each colon and comma. -/
def spacedHeader (header : Text) : Text :=
  (spelledHeader header).flatMap fun c => if c = ':' || c = ',' then [c, ' '] else [c]

def newline (depth : Nat) : Text := '\n' :: List.replicate (2 * depth) ' '

/-- Between siblings stands a blank line, unless neither of them has a block. -/
def gap (m n : Node) : Text := if m.hasBlock || n.hasBlock then ['\n'] else []

mutual

/-- A node from its first character to its last, with line breaks only inside. -/
def indent (depth : Nat) : Node → Text
  | .declaration property value => property ++ ": ".toList ++ value ++ [';']
  | .rule selector children =>
    Text.join ", ".toList (Selector.entries selector) ++ " \x7b".toList
      ++ (if children.isEmpty then [] else newline (depth + 1) ++ indentAll (depth + 1) children)
      ++ newline depth ++ ['}']
  | .atRule header children =>
    spacedHeader header ++ " \x7b".toList ++ newline (depth + 1) ++ indentAll (depth + 1) children
      ++ newline depth ++ ['}']
  | .statement header => spacedHeader header ++ [';']

def indentAll (depth : Nat) : List Node → Text
  | [] => []
  | [n] => indent depth n
  | m :: n :: r => indent depth m ++ gap m n ++ newline depth ++ indentAll depth (n :: r)

end

instance : Library where
  Sheet := List Node
  parse css := do
    let nodes ← (parseAsWritten css).mapError SyntaxError.message
    match badPropertyIn? nodes with
    | some property => throw ("Unexpected property name `".toList ++ property ++ ['`'])
    | none => return Node.renamePropertiesAll spelledProperty nodes
  rules := id
  withRules _ rules := rules
  printQuery query := .ok (Header.key query)
  print minify nodes := .ok (if minify then compact nodes else indentAll 0 nodes ++ ['\n'])

end AtomicCss.Stylesheet
