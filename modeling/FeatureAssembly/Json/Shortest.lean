import FeatureAssembly.Json.Binary64

/-!
# Shortest decimals

The text of a number that is no integer: the fewest decimal digits that read
back as the number, and of those the nearest to it. Numbers from 1e-5 to below
1e16 are written positionally, always with a fraction, all others with a signed
exponent.

A decimal reads back as a number if it lies in the interval of the reals that
round to the number. The ends of the interval belong to it exactly if the
significand is even. On the grid of the decimals with a given count of digits
only the two neighbours of the number can be the nearest one in the interval,
so these two are tried, for one digit, for two digits, and so on.
-/

namespace FeatureAssembly.Binary64

/-- A decimal: `digits * 10 ^ power`. -/
structure Decimal where
  digits : Nat
  power : Int
deriving DecidableEq, Repr

/-- A fraction divided by a power of ten, as a fraction. -/
def scaleTen (num den : Nat) (power : Int) : Nat × Nat :=
  match power with
  | .ofNat p => (num, den * Nat.pow 10 p)
  | .negSucc p => (num * Nat.pow 10 (p + 1), den)

/-- The place of the first decimal digit of a positive fraction: the greatest power
of ten that is not above it, searched for upwards from a lower bound. -/
def leadingPower (num den : Nat) : Nat → Int → Int
  | 0, power => power
  | steps + 1, power =>
    let (n, d) := scaleTen num den (power + 1)
    if n < d then power else leadingPower num den steps (power + 1)

/-- Whether a decimal lies in the interval of the reals that round to a number. -/
def roundsTo (x : Binary64) (c : Decimal) : Bool :=
  let lower := if x.significand = Nat.pow 2 52 ∧ leastExponent < x.exponent then 1 else 2
  let (below, den) := scale (4 * x.significand - lower) 4 x.exponent
  let (above, _) := scale (4 * x.significand + 2) 4 x.exponent
  let (n, d) := scaleTen c.digits 1 (-c.power)
  if x.significand % 2 = 0 then below * d ≤ n * den ∧ n * den ≤ above * d
  else below * d < n * den ∧ n * den < above * d

/-- The neighbour of a number on the grid of a power of ten that reads back, the
nearer one if both do, and of two equally near the even one. -/
def onGrid? (x : Binary64) (power : Int) : Option Decimal :=
  let (num, den) := x.toFraction
  let (n, d) := scaleTen num den power
  let down : Decimal := ⟨n / d, power⟩
  let up : Decimal := ⟨n / d + 1, power⟩
  match roundsTo x down, roundsTo x up with
  | true, false => some down
  | false, true => some up
  | true, true => some ⟨nearest n d, power⟩
  | false, false => none

/-- The decimal with the fewest digits, trying more and more of them. -/
def shortestFrom (x : Binary64) (lead : Int) : Nat → Nat → Decimal
  | 0, _ => ⟨0, 0⟩
  | tries + 1, digits =>
    match onGrid? x (lead - digits) with
    | some c => c
    | none => shortestFrom x lead tries (digits + 1)

/-- The decimal digits of a natural number. -/
def digitsOf (n : Nat) : List Char := (toString n).toList

/-- The text of a decimal with digits that do not end in zero. -/
def decimalText (digits : List Char) (power : Int) : List Char :=
  let count : Int := digits.length
  let lead := power + count - 1
  if -5 ≤ lead ∧ lead < 16 then
    if 0 ≤ power then digits ++ List.replicate power.toNat '0' ++ ['.', '0']
    else if 0 ≤ lead then
      digits.take (lead + 1).toNat ++ '.' :: digits.drop (lead + 1).toNat
    else '0' :: '.' :: List.replicate (-lead - 1).toNat '0' ++ digits
  else
    let tail := digits.drop 1
    digits.take 1 ++ (if tail.isEmpty then [] else '.' :: tail) ++
      'e' :: (if lead < 0 then '-' else '+') :: digitsOf lead.natAbs

/-- Drop the final zeros of a list of digits, and count them. -/
def dropFinalZeros (digits : List Char) : List Char × Nat :=
  let kept := (digits.reverse.dropWhile (· == '0')).reverse
  (kept, digits.length - kept.length)

/-- **The text of a number.** -/
def text (x : Binary64) : List Char :=
  let sign := if x.negative then ['-'] else []
  if x.isZero then sign ++ ['0', '.', '0']
  else
    let (num, den) := x.toFraction
    let guess := ((num.log2 : Int) - den.log2 - 1) * 30103 / 100000 - 1
    let lead := leadingPower num den 4 guess
    let c := shortestFrom x lead 18 0
    let (kept, zeros) := dropFinalZeros (digitsOf c.digits)
    sign ++ decimalText kept (c.power + zeros)

end FeatureAssembly.Binary64
