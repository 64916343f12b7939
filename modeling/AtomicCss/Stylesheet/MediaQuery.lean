import AtomicCss.Number.Decimal
import AtomicCss.Text.Blank
set_option autoImplicit false

/-!
The mobile-first order of media queries: those without a size, then by least width, least height,
greatest width and greatest height, the last two from large to small, and print at the end.
-/

namespace AtomicCss.MediaQuery

/-- A size feature, the rank of queries that have it, and whether large sizes come first. -/
structure Feature where
  rank : Nat
  name : Text
  descending : Bool

def features : List Feature := [
  ⟨1, "min-width".toList, false⟩,
  ⟨2, "min-height".toList, false⟩,
  ⟨3, "max-width".toList, true⟩,
  ⟨4, "max-height".toList, true⟩]

structure Key where
  rank : Nat
  size : Binary64
  deriving DecidableEq, Repr

def Key.le (a b : Key) : Bool :=
  a.rank < b.rank || (a.rank = b.rank && a.size.rank ≤ b.size.rank)

def isNumberChar (c : Char) : Bool := c.isDigit || c = '.' || c = '-' || c = '+'

/-- A length in pixels. An em has sixteen, and any other unit counts as a pixel. -/
def length? (t : Text) : Option Binary64 :=
  let unit := Text.trim (t.dropWhile isNumberChar)
  (Binary64.ofDecimal? (t.takeWhile isNumberChar)).map fun number =>
    if unit = "em".toList || unit = "rem".toList then number.scale 16 else number

def size? (query feature : Text) : Option Binary64 := do
  match Text.trimStart (← Text.afterFirst feature query) with
  | ':' :: r => length? (Text.trim (r.takeWhile (· != ')')))
  | _ => none

def Feature.key? (query : Text) (f : Feature) : Option Key :=
  (size? query f.name).map fun size => ⟨f.rank, if f.descending then size.negate else size⟩

/-- Whether `print` stands among the words of letters, digits and hyphens. -/
def isPrint (query : Text) : Bool :=
  (Text.wordsBy (fun c => !c.isAlphanum && c != '-') query).contains "print".toList

def key (query : Text) : Key :=
  let query := Text.lower query
  match features.findSome? (Feature.key? query) with
  | some k => k
  | none => ⟨if isPrint query then 5 else 0, .zero⟩

end AtomicCss.MediaQuery
