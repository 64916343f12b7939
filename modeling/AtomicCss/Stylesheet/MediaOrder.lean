import AtomicCss.Data.OrderedMap
import AtomicCss.Stylesheet.MediaQuery
import AtomicCss.Style.Header
import AtomicCss.Style.Node
set_option autoImplicit false

/-!
Merging the media blocks at the top of a stylesheet and moving them behind all else, in mobile-first
order. Blocks with equal keys keep the order in which their queries first appear.

Two queries are the same if they are printed the same. How a query is printed is left to a function
`spell`.
-/

namespace AtomicCss.Stylesheet

def mediaKeyword : Text := "@media".toList

/-- The header of a media block, and what is in it. -/
def mediaBlock? : Node → Option (Text × List Node)
  | .atRule header children =>
    if Text.sameLetters (Header.keyword header) mediaKeyword then some (header, children) else none
  | _ => none

def printedQuery (spell : Text → Text) (header : Text) : Text :=
  spell (header.dropWhile Header.isKeywordChar)

/-- Puts what is in a block behind what is in the first block of the same query. -/
def mergeBlock (spell : Text → Text) (m : OrderedMap Text (Text × List Node))
    (block : Text × List Node) : OrderedMap Text (Text × List Node) :=
  let query := printedQuery spell block.1
  m.put query <|
    match m.get? query with
    | some first => (first.1, first.2 ++ block.2)
    | none => block

def mergeBlocks (spell : Text → Text) (blocks : List (Text × List Node)) :
    OrderedMap Text (Text × List Node) :=
  blocks.foldl (mergeBlock spell) []

def sortBlocks (blocks : OrderedMap Text (Text × List Node)) :
    OrderedMap Text (Text × List Node) :=
  blocks.mergeSort fun a b => (MediaQuery.key a.1).le (MediaQuery.key b.1)

def sortMedia (spell : Text → Text) (nodes : List Node) : List Node :=
  nodes.filter (fun n => (mediaBlock? n).isNone)
    ++ (sortBlocks (mergeBlocks spell (nodes.filterMap mediaBlock?))).map fun b =>
      .atRule b.2.1 b.2.2

end AtomicCss.Stylesheet
