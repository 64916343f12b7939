import AtomicCss.Number.Binary64
import AtomicCss.Text.Hex
set_option autoImplicit false

namespace AtomicCss.Binary64

def ofUnsigned? (t : Text) : Option Nat :=
  let whole := t.takeWhile Char.isDigit
  let fraction? := match t.dropWhile Char.isDigit with
    | [] => some []
    | '.' :: r => if r.all Char.isDigit then some r else none
    | _ => none
  fraction?.bind fun fraction =>
    if (whole ++ fraction).isEmpty then none
    else some (round (decimalNumber (whole ++ fraction)) (tenTo fraction.length))

def ofDecimal? : Text → Option Binary64
  | '-' :: r => (ofUnsigned? r).map (⟨true, ·⟩)
  | '+' :: r => (ofUnsigned? r).map (⟨false, ·⟩)
  | t => (ofUnsigned? t).map (⟨false, ·⟩)

end AtomicCss.Binary64
