import AtomicCss.Text.Blank
set_option autoImplicit false

/-!
How a stylesheet spells the names of properties.

A name from the tables counts in any case and is printed in lower case. Every other name, those of
custom properties among them, is printed as it is written.
-/

namespace AtomicCss.Stylesheet

/-- Names of properties that stand without the prefix of a vendor. -/
def standardProperties : List Text := Text.words (String.toList "
  accent-color align-content align-items align-self all animation animation-composition
  animation-delay animation-direction animation-duration animation-fill-mode
  animation-iteration-count animation-name animation-play-state animation-range
  animation-range-end animation-range-start animation-timeline animation-timing-function
  appearance aspect-ratio backdrop-filter backface-visibility background background-attachment
  background-clip background-color background-image background-origin background-position
  background-position-x background-position-y background-repeat background-size block-size border
  border-block border-block-color border-block-end border-block-end-color border-block-end-style
  border-block-end-width border-block-start border-block-start-color border-block-start-style
  border-block-start-width border-block-style border-block-width border-bottom
  border-bottom-color border-bottom-left-radius border-bottom-right-radius border-bottom-style
  border-bottom-width border-color border-end-end-radius border-end-start-radius border-image
  border-image-outset border-image-repeat border-image-slice border-image-source
  border-image-width border-inline border-inline-color border-inline-end border-inline-end-color
  border-inline-end-style border-inline-end-width border-inline-start border-inline-start-color
  border-inline-start-style border-inline-start-width border-inline-style border-inline-width
  border-left border-left-color border-left-style border-left-width border-radius border-right
  border-right-color border-right-style border-right-width border-spacing
  border-start-end-radius border-start-start-radius border-style border-top border-top-color
  border-top-left-radius border-top-right-radius border-top-style border-top-width border-width
  bottom box-decoration-break box-shadow box-sizing caret caret-color caret-shape clip-path
  clip-rule color color-interpolation color-interpolation-filters color-rendering color-scheme
  column-gap composes container container-name container-type cursor direction display fill
  fill-opacity fill-rule filter flex flex-basis flex-direction flex-flow flex-grow flex-shrink
  flex-wrap font font-family font-palette font-size font-stretch font-style font-variant-caps
  font-weight gap grid grid-area grid-auto-columns grid-auto-flow grid-auto-rows grid-column
  grid-column-end grid-column-start grid-row grid-row-end grid-row-start grid-template
  grid-template-areas grid-template-columns grid-template-rows height hyphens image-rendering
  inline-size inset inset-block inset-block-end inset-block-start inset-inline inset-inline-end
  inset-inline-start justify-content justify-items justify-self left letter-spacing line-break
  line-height list-style list-style-image list-style-position list-style-type margin margin-block
  margin-block-end margin-block-start margin-bottom margin-inline margin-inline-end
  margin-inline-start margin-left margin-right margin-top marker marker-end marker-mid marker-side
  marker-start mask mask-border mask-border-mode mask-border-outset mask-border-repeat
  mask-border-slice mask-border-source mask-border-width mask-clip mask-composite mask-image
  mask-mode mask-origin mask-position mask-position-x mask-position-y mask-repeat mask-size
  mask-type max-block-size max-height max-inline-size max-width min-block-size min-height
  min-inline-size min-width opacity order outline outline-color outline-style outline-width
  overflow overflow-wrap overflow-x overflow-y padding padding-block padding-block-end
  padding-block-start padding-bottom padding-inline padding-inline-end padding-inline-start
  padding-left padding-right padding-top perspective perspective-origin place-content place-items
  place-self position print-color-adjust resize right rotate row-gap scale scroll-margin
  scroll-margin-block scroll-margin-block-end scroll-margin-block-start scroll-margin-bottom
  scroll-margin-inline scroll-margin-inline-end scroll-margin-inline-start scroll-margin-left
  scroll-margin-right scroll-margin-top scroll-padding scroll-padding-block
  scroll-padding-block-end scroll-padding-block-start scroll-padding-bottom scroll-padding-inline
  scroll-padding-inline-end scroll-padding-inline-start scroll-padding-left scroll-padding-right
  scroll-padding-top shape-rendering stroke stroke-dasharray stroke-dashoffset stroke-linecap
  stroke-linejoin stroke-miterlimit stroke-opacity stroke-width tab-size text-align
  text-align-last text-decoration text-decoration-color text-decoration-line
  text-decoration-skip-ink text-decoration-style text-decoration-thickness text-emphasis
  text-emphasis-color text-emphasis-position text-emphasis-style text-indent text-justify
  text-overflow text-rendering text-shadow text-size-adjust text-transform top transform
  transform-box transform-origin transform-style transition transition-delay transition-duration
  transition-property transition-timing-function translate unicode-bidi user-select
  vertical-align view-transition-class view-transition-group view-transition-name visibility
  white-space width word-break word-spacing word-wrap z-index")

/-- The prefixes of vendors, each with the names that may follow it. -/
def vendorProperties : List (Text × List Text) := [
  ("-webkit-".toList, Text.words (String.toList "
    align-content align-items align-self animation animation-delay animation-direction
    animation-duration animation-fill-mode animation-iteration-count animation-name
    animation-play-state animation-timing-function appearance backdrop-filter
    backface-visibility background-clip border-bottom-left-radius border-bottom-right-radius
    border-image border-radius border-top-left-radius border-top-right-radius box-align
    box-decoration-break box-direction box-flex box-flex-group box-lines box-ordinal-group
    box-orient box-pack box-shadow box-sizing clip-path filter flex flex-basis flex-direction
    flex-flow flex-grow flex-shrink flex-wrap hyphens justify-content mask mask-box-image
    mask-box-image-outset mask-box-image-repeat mask-box-image-slice mask-box-image-source
    mask-box-image-width mask-clip mask-composite mask-image mask-origin mask-position
    mask-repeat mask-size mask-source-type order perspective perspective-origin
    print-color-adjust text-decoration text-decoration-color text-decoration-line
    text-decoration-skip-ink text-decoration-style text-emphasis text-emphasis-color
    text-emphasis-position text-emphasis-style text-size-adjust transform transform-origin
    transform-style transition transition-delay transition-duration transition-property
    transition-timing-function user-select")),
  ("-moz-".toList, Text.words (String.toList "
    animation animation-delay animation-direction animation-duration animation-fill-mode
    animation-iteration-count animation-name animation-play-state animation-timing-function
    appearance backface-visibility background-clip border-bottom-left-radius
    border-bottom-right-radius border-image border-radius border-top-left-radius
    border-top-right-radius box-align box-direction box-flex box-lines box-ordinal-group
    box-orient box-pack box-shadow box-sizing hyphens perspective perspective-origin tab-size
    text-align-last text-decoration text-decoration-color text-decoration-line
    text-decoration-style text-size-adjust transform transform-origin transform-style transition
    transition-delay transition-duration transition-property transition-timing-function
    user-select")),
  ("-ms-".toList, Text.words (String.toList "
    appearance flex flex-align flex-direction flex-flow flex-item-align flex-line-pack
    flex-negative flex-order flex-pack flex-positive flex-preferred-size flex-wrap hyphens
    text-size-adjust transform transform-origin transition transition-delay
    transition-duration transition-property transition-timing-function user-select")),
  ("-o-".toList, Text.words (String.toList "
    animation animation-delay animation-direction animation-duration animation-fill-mode
    animation-iteration-count animation-name animation-play-state animation-timing-function
    border-image tab-size text-overflow transform transform-origin"))]

/-- Whether a name, in lower case, is in the tables. -/
def isListedProperty (name : Text) : Bool :=
  standardProperties.contains name
    || vendorProperties.any fun v => v.1.isPrefixOf name && v.2.contains (name.drop v.1.length)

def spelledProperty (name : Text) : Text :=
  if isListedProperty name.lower then name.lower else name

end AtomicCss.Stylesheet
