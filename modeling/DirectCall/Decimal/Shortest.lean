/-!
# Shortest decimals

A format gives the widths of the fields of a binary number; `Format.decode` reads a bit pattern as
`±m · 2 ^ q`, an infinity or no number. `Magnitude.shortest` gives the decimal with the fewest digits that
rounds to it, and of those the nearest. All comparisons are exact.
-/

/-! ## Binary floating point numbers -/

namespace DirectCall.Decimal

/-- The power `2 ^ n`. -/
def twoTo (n : Nat) : Nat := Nat.pow 2 n

structure Format where
  mantissaBits : Nat
  exponentBits : Nat

namespace Format

def single : Format := ⟨23, 8⟩

def double : Format := ⟨52, 11⟩

/-- Largest exponent of a normal number. -/
def bias (f : Format) : Nat := twoTo (f.exponentBits - 1) - 1

end Format

/-- A positive number `mantissa · 2 ^ exponent`, or zero. The next number below lies half as far
away as the next above if `narrowBelow` holds. -/
structure Magnitude where
  mantissa : Nat
  exponent : Int
  narrowBelow : Bool

inductive Binary where
  | notANumber
  | infinite (negative : Bool)
  | finite (negative : Bool) (magnitude : Magnitude)

/-- The number that a bit pattern stands for. -/
def Format.decode (f : Format) (bits : Nat) : Binary :=
  let fraction := bits % twoTo f.mantissaBits
  let biased := bits / twoTo f.mantissaBits % twoTo f.exponentBits
  let negative := bits / twoTo (f.mantissaBits + f.exponentBits) % 2 == 1
  let least : Int := 1 - (f.bias : Int) - f.mantissaBits
  if biased = twoTo f.exponentBits - 1 then
    if fraction = 0 then .infinite negative else .notANumber
  else if biased = 0 then .finite negative ⟨fraction, least, false⟩
  else .finite negative ⟨twoTo f.mantissaBits + fraction, least + biased - 1, fraction = 0 ∧ 1 < biased⟩

end DirectCall.Decimal

/-! ## Decimals -/

namespace DirectCall.Decimal

/-- The power `10 ^ e`, which is taken for one if `e` is negative. -/
def tenTo (e : Int) : Nat := Nat.pow 10 e.toNat

/-- The number `digits · 10 ^ exponent`. -/
structure Numeral where
  digits : Nat
  exponent : Int
  deriving DecidableEq, Repr

/-- A positive number and the ends of the reals that round to it, over one denominator. -/
structure Rounding where
  low : Nat
  value : Nat
  high : Nat
  denominator : Nat
  /-- The ends belong to it. -/
  closed : Bool

namespace Magnitude

/-- Ends are midway to the neighbours, and belong to the number whose mantissa is even. -/
def rounding (m : Magnitude) : Rounding :=
  let scale := twoTo (m.exponent - 2).toNat
  { low := (4 * m.mantissa - (if m.narrowBelow then 1 else 2)) * scale
    value := 4 * m.mantissa * scale
    high := (4 * m.mantissa + 2) * scale
    denominator := twoTo (2 - m.exponent).toNat
    closed := m.mantissa % 2 == 0 }

end Magnitude

def digitCount (n : Nat) : Nat := (Nat.toDigits 10 n).length

namespace Rounding

/-- The exponent `e` with `10 ^ e ≤ value < 10 ^ (e + 1)`. -/
def magnitude (r : Rounding) : Int :=
  if r.denominator ≤ r.value then digitCount (r.value / r.denominator) - 1
  else
    let inverse := (r.denominator + r.value - 1) / r.value
    Int.negOfNat (digitCount (inverse - 1))

/-- `candidate · 10 ^ exponent` rounds to the number. -/
def accepts (r : Rounding) (d : Numeral) : Bool :=
  let x := d.digits * tenTo d.exponent * r.denominator
  let unit := tenTo (-d.exponent)
  if r.closed then r.low * unit ≤ x && x ≤ r.high * unit
  else r.low * unit < x && x < r.high * unit

/-- The grid point at or below the value, for steps of `10 ^ exponent`. -/
def below (r : Rounding) (exponent : Int) : Nat :=
  r.value * tenTo (-exponent) / (r.denominator * tenTo exponent)

/-- The upper neighbour is at least as near as the lower one. -/
def upperNearer (r : Rounding) (exponent : Int) : Bool :=
  let x := r.value * tenTo (-exponent)
  let step := r.denominator * tenTo exponent
  step ≤ 2 * (x % step)

/-- The nearer of the two neighbours on a grid that round to the number. -/
def onGrid? (r : Rounding) (exponent : Int) : Option Numeral :=
  let lower : Numeral := ⟨r.below exponent, exponent⟩
  let upper : Numeral := ⟨r.below exponent + 1, exponent⟩
  match r.accepts lower, r.accepts upper with
  | true, true => some (if r.upperNearer exponent then upper else lower)
  | true, false => some lower
  | false, true => some upper
  | false, false => none

/-- The coarsest of the next `grids` grids with a hit. -/
def search (r : Rounding) (exponent : Int) : Nat → Numeral
  | 0 => ⟨r.below exponent, exponent⟩
  | grids + 1 =>
    match r.onGrid? exponent with
    | some d => d
    | none => r.search (exponent - 1) grids

end Rounding

/-- The shortest decimal of a positive number; 17 digits tell all doubles apart. -/
def Magnitude.shortest (m : Magnitude) : Numeral :=
  m.rounding.search m.rounding.magnitude 17

end DirectCall.Decimal
