import DirectCall.Decimal.Shortest

/-!
# Spelling of floating point numbers

Numbers from `10 ^ -4` up to `10 ^ 16` are written out with at least one decimal place, others as a
mantissa with an exponent.
-/

namespace DirectCall.Decimal

/-- Least exponent that is written out. -/
def leastPositional : Int := -4

/-- Greatest exponent that is written out. -/
def greatestPositional : Int := 15

def zeros (n : Nat) : List Char := List.replicate n '0'

/-- Digits of `d` without zeros at the end, and the exponent of the first one. -/
def significant (d : Numeral) : List Char × Int :=
  let all := Nat.toDigits 10 d.digits
  ((all.reverse.dropWhile (· = '0')).reverse, all.length - 1 + d.exponent)

/-- A number written out; `exponent` is that of the first digit. -/
def positional (digits : List Char) (exponent : Int) : List Char :=
  if exponent < 0 then ['0', '.'] ++ zeros ((-exponent).toNat - 1) ++ digits
  else
    let places := exponent.toNat + 1
    let whole := digits.take places ++ zeros (places - digits.length)
    let rest := digits.drop places
    whole ++ '.' :: (if rest = [] then ['0'] else rest)

/-- Mantissa and exponent. -/
def scientific (digits : List Char) (exponent : Int) : List Char :=
  let mantissa :=
    match digits with
    | [] => ['0']
    | [d] => [d]
    | d :: rest => d :: '.' :: rest
  mantissa ++ 'e' :: (toString exponent).toList

def spell (d : Numeral) : List Char :=
  let (digits, exponent) := significant d
  if leastPositional ≤ exponent ∧ exponent ≤ greatestPositional then positional digits exponent
  else scientific digits exponent

/-- The text of the number that a bit pattern stands for. -/
def Format.text (f : Format) (bits : Nat) : String :=
  let sign (negative : Bool) : List Char := if negative then ['-'] else []
  match f.decode bits with
  | .notANumber => "NaN"
  | .infinite negative => String.ofList (sign negative ++ ['i', 'n', 'f'])
  | .finite negative m =>
    String.ofList (sign negative ++ if m.mantissa = 0 then ['0', '.', '0'] else spell m.shortest)

end DirectCall.Decimal
