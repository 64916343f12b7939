import AtomicCss.Number.Power
set_option autoImplicit false

/-!
Doubles as sign and magnitude, where the magnitude is the 63 bits below the sign.

A magnitude counts the doubles from zero up, so the order of magnitudes is the order of values, and
infinity comes after the largest finite one. Rounding goes to the nearest double, and from halfway
to the one whose last bit is zero.
-/

namespace AtomicCss

structure Binary64 where
  negative : Bool
  magnitude : Nat
  deriving DecidableEq, Repr

namespace Binary64

def zero : Binary64 := ⟨false, 0⟩

def infinity : Nat := 2047 * twoTo 52

/-- The magnitude nearest to `n / d` times the smallest positive double. -/
def roundUnits (n d : Nat) : Nat :=
  let exponent := Nat.log2 (n / d) - 52
  let spacing := d * twoTo exponent
  let below := n / spacing
  let rest := n % spacing
  let up := spacing < 2 * rest || (spacing = 2 * rest && below % 2 = 1)
  min (exponent * twoTo 52 + if up then below + 1 else below) infinity

/-- The magnitude nearest to `n / d`. -/
def round (n d : Nat) : Nat := roundUnits (n * twoTo 1074) d

/-- How often the smallest positive double goes into a finite magnitude. -/
def units (magnitude : Nat) : Nat :=
  let exponent := magnitude / twoTo 52
  if exponent = 0 then magnitude else (twoTo 52 + magnitude % twoTo 52) * twoTo (exponent - 1)

def negate (x : Binary64) : Binary64 := ⟨!x.negative, x.magnitude⟩

def scale (x : Binary64) (k : Nat) : Binary64 :=
  if infinity ≤ x.magnitude then x else ⟨x.negative, roundUnits (units x.magnitude * k) 1⟩

def product (a b : Nat) : Nat := roundUnits (units a * units b) (twoTo 1074)

def bits (x : Binary64) : Nat := (if x.negative then twoTo 63 else 0) + x.magnitude

/-- The place in the total order, in which negative zero comes before zero. -/
def rank (x : Binary64) : Int := if x.negative then -(x.magnitude : Int) - 1 else x.magnitude

theorem rank_injective {x y : Binary64} (h : x.rank = y.rank) : x = y := by
  obtain ⟨a, m⟩ := x
  obtain ⟨b, n⟩ := y
  cases a <;> cases b <;> simp only [rank, Bool.false_eq_true, if_false, if_true] at h
  · have : m = n := by omega
    rw [this]
  · omega
  · omega
  · have : m = n := by omega
    rw [this]

example : round 1 10 = 0x3fb999999999999a := by decide +kernel
example : round 9007199254740993 1 = 0x4340000000000000 := by decide +kernel
example : round 1 (twoTo 1074) = 1 := by decide +kernel

end Binary64
end AtomicCss
