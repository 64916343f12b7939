import AtomicCss.Text.Basic
set_option autoImplicit false

namespace AtomicCss.Shorthand

/-- How the value of a shorthand spreads over its longhands. -/
inductive Form where
  /-- One to four values for top, right, bottom and left. -/
  | sides
  /-- As `sides`, for the corners, perhaps twice, with a slash between. -/
  | corners
  /-- One or two values for the horizontal and the vertical axis. -/
  | axes
  /-- Values of several kinds in free order, which are not taken apart. -/
  | composite
  deriving DecidableEq, Repr

structure Entry where
  form : Form
  shorthand : Text
  longhands : List Text
  deriving DecidableEq, Repr

def Entry.ofNames (form : Form) (shorthand : String) (longhands : List String) : Entry :=
  ⟨form, shorthand.toList, longhands.map String.toList⟩

/-- Shorthands that are written out as longhands, which stand in the order of expansion. -/
def expandable : List Entry := [
  .ofNames .sides "border-color"
    ["border-top-color", "border-right-color", "border-bottom-color", "border-left-color"],
  .ofNames .corners "border-radius"
    ["border-top-left-radius", "border-top-right-radius", "border-bottom-right-radius",
      "border-bottom-left-radius"],
  .ofNames .sides "border-style"
    ["border-top-style", "border-right-style", "border-bottom-style", "border-left-style"],
  .ofNames .sides "border-width"
    ["border-top-width", "border-right-width", "border-bottom-width", "border-left-width"],
  .ofNames .sides "margin" ["margin-top", "margin-right", "margin-bottom", "margin-left"],
  .ofNames .axes "overflow" ["overflow-x", "overflow-y"],
  .ofNames .sides "padding" ["padding-top", "padding-right", "padding-bottom", "padding-left"]]

/-- Shorthands that are kept as they are, with every longhand they reset. -/
def composite : List Entry := [
  .ofNames .composite "animation"
    ["animation-name", "animation-duration", "animation-timing-function", "animation-delay",
      "animation-iteration-count", "animation-direction", "animation-fill-mode",
      "animation-play-state"],
  .ofNames .composite "background"
    ["background-clip", "background-color", "background-image", "background-origin",
      "background-position", "background-repeat", "background-size", "background-attachment"],
  .ofNames .composite "border"
    ["border-bottom-width", "border-bottom-style", "border-bottom-color", "border-left-width",
      "border-left-style", "border-left-color", "border-right-width", "border-right-style",
      "border-right-color", "border-top-width", "border-top-style", "border-top-color",
      "border-color", "border-style", "border-width"],
  .ofNames .composite "border-bottom"
    ["border-bottom-width", "border-bottom-style", "border-bottom-color"],
  .ofNames .composite "border-left" ["border-left-width", "border-left-style", "border-left-color"],
  .ofNames .composite "border-right"
    ["border-right-width", "border-right-style", "border-right-color"],
  .ofNames .composite "border-top" ["border-top-width", "border-top-style", "border-top-color"],
  .ofNames .composite "column-rule" ["column-rule-width", "column-rule-style", "column-rule-color"],
  .ofNames .composite "columns" ["column-width", "column-count"],
  .ofNames .composite "flex" ["flex-grow", "flex-shrink", "flex-basis"],
  .ofNames .composite "flex-flow" ["flex-direction", "flex-wrap"],
  .ofNames .composite "font"
    ["font-style", "font-variant", "font-weight", "font-stretch", "font-size", "line-height",
      "font-family"],
  .ofNames .composite "grid"
    ["grid-template-rows", "grid-template-columns", "grid-template-areas", "grid-auto-rows",
      "grid-auto-columns", "grid-auto-flow"],
  .ofNames .composite "grid-area"
    ["grid-column-start", "grid-column-end", "grid-row-start", "grid-row-end"],
  .ofNames .composite "grid-column" ["grid-column-start", "grid-column-end"],
  .ofNames .composite "grid-row" ["grid-row-start", "grid-row-end"],
  .ofNames .composite "grid-template"
    ["grid-template-rows", "grid-template-columns", "grid-template-areas"],
  .ofNames .composite "list-style" ["list-style-type", "list-style-image", "list-style-position"],
  .ofNames .composite "offset"
    ["offset-position", "offset-path", "offset-distance", "offset-rotate", "offset-anchor"],
  .ofNames .composite "outline" ["outline-style", "outline-width", "outline-color"],
  .ofNames .composite "place-content" ["align-content", "justify-content"],
  .ofNames .composite "place-items" ["align-items", "justify-items"],
  .ofNames .composite "place-self" ["align-self", "justify-self"],
  .ofNames .composite "text-decoration"
    ["text-decoration-line", "text-decoration-color", "text-decoration-style",
      "text-decoration-thickness"],
  .ofNames .composite "transition"
    ["transition-property", "transition-duration", "transition-timing-function",
      "transition-delay"]]

def longhandsIn (table : List Entry) (property : Text) : Option (List Text) :=
  (table.find? (·.shorthand = property)).map (·.longhands)

def expandableLonghands (property : Text) : Option (List Text) := longhandsIn expandable property

def compositeLonghands (property : Text) : Option (List Text) := longhandsIn composite property

end AtomicCss.Shorthand
