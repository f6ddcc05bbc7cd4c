/-!
# Finite binary64 numbers

The numbers of a document that are no integers: a sign, a significand below
2^53 and a power of two. All arithmetic is exact arithmetic on natural numbers
followed by one rounding to the nearest number, ties to the even significand.

**The form**: the significand is at least 2^52 unless the exponent is the least
one, so every number has one form, and zero has one for each sign.

What it does not establish: that reading a decimal rounds it correctly. A
decimal is read as its leading digits, rounded, times or divided by a rounded
power of ten, and rounded again.
-/

namespace FeatureAssembly

/-- **A finite binary64 number**: its sign, and `significand * 2 ^ exponent`. -/
structure Binary64 where
  negative : Bool
  significand : Nat
  exponent : Int
deriving DecidableEq, Repr, Inhabited

namespace Binary64

/-- The exponent of the smallest numbers. -/
def leastExponent : Int := -1074

/-- The exponent of the largest numbers. -/
def greatestExponent : Int := 971

def zero : Binary64 := ⟨false, 0, leastExponent⟩

/-- Whether a number is a zero of either sign. -/
def isZero (x : Binary64) : Bool := x.significand == 0

/-- The number with the other sign. -/
def negate (x : Binary64) : Binary64 := { x with negative := !x.negative }

/-- A fraction times a power of two, as a fraction. -/
def scale (num den : Nat) (exponent : Int) : Nat × Nat :=
  match exponent with
  | .ofNat e => (num * Nat.pow 2 e, den)
  | .negSucc e => (num, den * Nat.pow 2 (e + 1))

/-- The natural number next to a fraction; a tie goes to the even one. -/
def nearest (num den : Nat) : Nat :=
  let quotient := num / den
  let rest := 2 * (num % den)
  if rest < den then quotient
  else if den < rest then quotient + 1
  else quotient + quotient % 2

/-- The exponent at which a fraction has fifty-three binary digits, but not below
the least. -/
def exponentFor (num den : Nat) : Int :=
  let guess := (num.log2 : Int) - den.log2 - 53
  let (n, d) := scale num den (-guess)
  max leastExponent (if n / d < Nat.pow 2 53 then guess else guess + 1)

/-- The number nearest to a fraction, unless it is too large. -/
def ofFraction? (num den : Nat) : Option Binary64 :=
  if num = 0 then some zero
  else
    let exponent := exponentFor num den
    let (n, d) := scale num den (-exponent)
    let significand := nearest n d
    let (significand, exponent) :=
      if significand < Nat.pow 2 53 then (significand, exponent)
      else (Nat.pow 2 52, exponent + 1)
    if greatestExponent < exponent then none else some ⟨false, significand, exponent⟩

/-- The number nearest to a natural number below 2^1024; zero beyond. -/
def ofNat (n : Nat) : Binary64 := (ofFraction? n 1).getD zero

/-- The absolute value as a fraction. -/
def toFraction (x : Binary64) : Nat × Nat := scale x.significand 1 x.exponent

/-- The product of two absolute values, unless it is too large. -/
def mul? (x y : Binary64) : Option Binary64 :=
  let (a, b) := x.toFraction
  let (c, d) := y.toFraction
  ofFraction? (a * c) (b * d)

/-- The quotient of two absolute values, of which the second is not zero. -/
def div (x y : Binary64) : Binary64 :=
  let (a, b) := x.toFraction
  let (c, d) := y.toFraction
  (ofFraction? (a * d) (b * c)).getD zero

/-! ## Reading a decimal -/

/-- The largest power of ten that is a finite number. -/
def greatestPower : Nat := 308

/-- A power of ten, rounded. -/
def powerOfTen (n : Nat) : Binary64 := ofNat (Nat.pow 10 n)

/-- A number divided by a power of ten, in steps of the largest one. -/
def divPower : Nat → Binary64 → Nat → Binary64
  | 0, x, _ => x
  | steps + 1, x, n =>
    if n ≤ greatestPower then x.div (powerOfTen n)
    else if x.isZero then x
    else divPower steps (x.div (powerOfTen greatestPower)) (n - greatestPower)

/-- A natural number times a power of ten, unless it is too large. -/
def ofDecimal? (digits : Nat) (power : Int) : Option Binary64 :=
  let x := ofNat digits
  match power with
  | .ofNat n =>
    if x.isZero then some x
    else if n ≤ greatestPower then x.mul? (powerOfTen n)
    else none
  | .negSucc n => some (divPower 4 x (n + 1))

end Binary64

end FeatureAssembly
