/-! Quotients as decimals with the fewest digits.

    A quotient is rounded to a double, and the double is written with the fewest digits that read
    back as it; of several such decimals the nearest is taken. All arithmetic is exact. -/

namespace PointsTo.Decimal

/-- A positive double: `mantissa · 2 ^ exponent`, with a mantissa of 53 bits. -/
structure Double where
  mantissa : Nat
  exponent : Int
  deriving DecidableEq, Repr

/-- A decimal: `digits · 10 ^ exponent`. -/
structure Digits where
  digits : Nat
  exponent : Int
  deriving DecidableEq, Repr

/-- A power as a fraction. -/
def power (base : Nat) (exponent : Int) : Nat × Nat :=
  (Nat.pow base exponent.toNat, Nat.pow base (-exponent).toNat)

/-- A quotient rounded to a natural, a half to the even one. -/
def roundDiv (num den : Nat) : Nat :=
  let q := num / den
  let r := num % den
  if 2 * r < den then q
  else if 2 * r = den then q + q % 2
  else q + 1

/-- The double nearest to a quotient of positive machine words. -/
def nearest (num den : Nat) : Double :=
  let guess : Int := (num.log2 : Int) - den.log2 - 52
  let below := num * (power 2 guess).2 < Nat.pow 2 52 * (den * (power 2 guess).1)
  let exponent := if below then guess - 1 else guess
  let mantissa := roundDiv (num * (power 2 exponent).2) (den * (power 2 exponent).1)
  if mantissa = Nat.pow 2 53 then ⟨Nat.pow 2 52, exponent + 1⟩ else ⟨mantissa, exponent⟩

namespace Double

variable (d : Double)

/-- Is `c · 10 ^ t` at most `n / 4` of the double's unit? -/
def atMost (c : Nat) (t : Int) (n : Nat) : Bool :=
  let (u, w) := power 10 t
  let (x, y) := power 2 (d.exponent - 2)
  c * u * y ≤ n * x * w

/-- Is `c · 10 ^ t` at least `n / 4` of the double's unit? -/
def atLeast (c : Nat) (t : Int) (n : Nat) : Bool :=
  let (u, w) := power 10 t
  let (x, y) := power 2 (d.exponent - 2)
  n * x * w ≤ c * u * y

/-- Does a decimal read back as the double? It must lie between the middles to the neighbours,
    which belong to the even mantissa; below a power of two the neighbour is nearer. -/
def readsBack (c : Nat) (t : Int) : Bool :=
  let m := 4 * d.mantissa
  let low := if d.mantissa = Nat.pow 2 52 then m - 1 else m - 2
  let high := m + 2
  if d.mantissa % 2 = 0 then d.atLeast c t low && d.atMost c t high
  else !d.atMost c t low && !d.atLeast c t high

/-- The largest multiple of `10 ^ t` that is not above the double. -/
def floorAt (t : Int) : Nat :=
  let (u, w) := power 10 t
  let (x, y) := power 2 d.exponent
  d.mantissa * x * w / (y * u)

/-- Is the double nearer to `c · 10 ^ t` than to the next multiple? -/
def nearerBelow (c : Nat) (t : Int) : Bool :=
  let (u, w) := power 10 t
  let (x, y) := power 2 d.exponent
  2 * (d.mantissa * x * w) ≤ (2 * c + 1) * u * y

/-- The decimal on the grid of `10 ^ t` that reads back, if there is one. -/
def onGrid? (t : Int) : Option Digits :=
  let c := d.floorAt t
  match d.readsBack c t, d.readsBack (c + 1) t with
  | true, true => some ⟨if d.nearerBelow c t then c else c + 1, t⟩
  | true, false => some ⟨c, t⟩
  | false, true => some ⟨c + 1, t⟩
  | false, false => none

/-- The first grid with a decimal that reads back, from `10 ^ t` downwards. -/
def search : Nat → Int → Digits
  | 0, t => ⟨d.floorAt t, t⟩
  | n + 1, t => (d.onGrid? t).getD (search n (t - 1))

/-- The place of the leading digit of a double, or the one above it. -/
def leading : Int :=
  if 0 ≤ d.exponent then (Nat.toDigits 10 (d.mantissa * Nat.pow 2 d.exponent.toNat)).length
  else
    let whole := d.mantissa / Nat.pow 2 (-d.exponent).toNat
    if whole = 0 then 1 - ((-d.exponent).toNat - d.mantissa.log2) * 3 / 10
    else (Nat.toDigits 10 whole).length

/-- The decimal of fewest digits that reads back as the double. -/
def shortest : Digits := d.search 20 d.leading

end Double

/-- A decimal in positional notation; a whole number has no point. -/
def Digits.text (d : Digits) : String :=
  if 0 ≤ d.exponent then toString (d.digits * Nat.pow 10 d.exponent.toNat)
  else
    let places := (-d.exponent).toNat
    let whole := d.digits / Nat.pow 10 places
    let rest := (Nat.toDigits 10 (d.digits % Nat.pow 10 places)).leftpad places '0'
    toString whole ++ "." ++ String.ofList rest

/-- The text of a quotient of machine words; zero if there is nothing to divide by. -/
def quotientText (num den : Nat) : String :=
  if num = 0 ∨ den = 0 then "0" else (nearest num den).shortest.text

end PointsTo.Decimal
