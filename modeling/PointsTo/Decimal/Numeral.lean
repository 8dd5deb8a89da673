/-! Decimal numerals. -/

namespace PointsTo.Decimal

/-- The number that a row of decimal digits denotes. -/
def ofDigits (cs : List Char) : Nat := Nat.ofDigitChars 10 cs 0

/-- The number that a text denotes: one digit or more, and nothing else. -/
def nat? (cs : List Char) : Option Nat :=
  if cs.isEmpty || !cs.all Char.isDigit then none else some (ofDigits cs)

end PointsTo.Decimal
