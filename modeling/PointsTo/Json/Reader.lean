import PointsTo.Decimal.Numeral
import PointsTo.Json.Basic

/-! Reading JSON texts.

    `Json.read` accepts every text and marks in the value where the grammar breaks. The readers
    below return the rest of the text, or `none` where reading stopped. -/

namespace PointsTo.Json

/-- The four characters that may stand between tokens. -/
def isBlank (c : Char) : Bool := c == ' ' || c == '\n' || c == '\t' || c == '\r'

/-- The text from its first token on. -/
def skipBlanks (cs : List Char) : List Char := cs.dropWhile isBlank

/-! ### Strings -/

/-- The value of a hexadecimal digit. -/
def hexDigit? (c : Char) : Option Nat :=
  if '0' ≤ c ∧ c ≤ '9' then some (c.toNat - '0'.toNat)
  else if 'a' ≤ c ∧ c ≤ 'f' then some (c.toNat - 'a'.toNat + 10)
  else if 'A' ≤ c ∧ c ≤ 'F' then some (c.toNat - 'A'.toNat + 10)
  else none

/-- The value of four hexadecimal digits. -/
def hexUnit? (a b c d : Char) : Option Nat := do
  return ((← hexDigit? a) * 16 + (← hexDigit? b)) * 256 + (← hexDigit? c) * 16 + (← hexDigit? d)

/-- The first half of a surrogate pair. -/
def isHighSurrogate (u : Nat) : Bool := 0xD800 ≤ u && u < 0xDC00

/-- The second half of a surrogate pair. -/
def isLowSurrogate (u : Nat) : Bool := 0xDC00 ≤ u && u < 0xE000

/-- The character of a surrogate pair. -/
def pairChar (high low : Nat) : Char :=
  Char.ofNat (0x10000 + (high - 0xD800) * 0x400 + (low - 0xDC00))

/-- The character that a one-letter escape stands for. -/
def simpleEscape? : Char → Option Char
  | '"' => some '"'
  | '\\' => some '\\'
  | '/' => some '/'
  | 'b' => some '\x08'
  | 'f' => some '\x0c'
  | 'n' => some '\n'
  | 'r' => some '\r'
  | 't' => some '\t'
  | _ => none

/-- Puts a character in front of a string, unless the string denotes nothing. -/
def prepend (c : Char) (r : Option (List Char) × List Char) : Option (List Char) × List Char :=
  (r.1.map (c :: ·), r.2)

/-- Reads the characters of a string up to its closing quote. The string is `none` if it holds an
    unpaired surrogate. -/
def readString : List Char → Option (Option (List Char) × List Char)
  | '"' :: rest => some (some [], rest)
  | '\\' :: 'u' :: a :: b :: c :: d :: '\\' :: 'u' :: e :: f :: g :: h :: rest =>
    match hexUnit? a b c d with
    | none => none
    | some u =>
      if isHighSurrogate u then
        match hexUnit? e f g h with
        | none => none
        | some v =>
          if isLowSurrogate v then (readString rest).map (prepend (pairChar u v))
          else (readString ('\\' :: 'u' :: e :: f :: g :: h :: rest)).map fun r => (none, r.2)
      else
        let r := readString ('\\' :: 'u' :: e :: f :: g :: h :: rest)
        if isLowSurrogate u then r.map fun r => (none, r.2) else r.map (prepend (Char.ofNat u))
  | '\\' :: 'u' :: a :: b :: c :: d :: rest =>
    match hexUnit? a b c d with
    | none => none
    | some u =>
      if isHighSurrogate u || isLowSurrogate u then (readString rest).map fun r => (none, r.2)
      else (readString rest).map (prepend (Char.ofNat u))
  | '\\' :: c :: rest =>
    match simpleEscape? c with
    | none => none
    | some d => (readString rest).map (prepend d)
  | c :: rest => if c.toNat < 0x20 || c == '\\' then none else (readString rest).map (prepend c)
  | [] => none

/-! ### Numbers -/

/-- The least number that is too large for a double, even after rounding. -/
def doubleLimit : Nat := Nat.pow 2 1024 - Nat.pow 2 970

/-- Is `digits · 10 ^ exponent` too large for a double? Numbers with more than 310 digits before
    the point are, and those with none are not; only between the two is the power computed. -/
def overflowsDouble (digits : Nat) (exponent : Int) : Bool :=
  let before := (Nat.toDigits 10 digits).length + exponent
  if digits = 0 ∨ before < 0 then false
  else if 310 < before then true
  else if 0 ≤ exponent then doubleLimit ≤ digits * Nat.pow 10 exponent.toNat
  else doubleLimit * Nat.pow 10 (-exponent).toNat ≤ digits

/-- Reads the digits of a number's integer part; a zero stands alone. -/
def readInteger : List Char → Option (List Char × List Char)
  | '0' :: rest => match rest with
    | c :: _ => if c.isDigit then none else some (['0'], rest)
    | [] => some (['0'], [])
  | cs =>
    let digits := cs.takeWhile Char.isDigit
    if digits.isEmpty then none else some (digits, cs.dropWhile Char.isDigit)

/-- Reads a fraction if there is one; the point needs a digit after it. -/
def readFraction : List Char → Option (Option (List Char) × List Char)
  | '.' :: rest =>
    let digits := rest.takeWhile Char.isDigit
    if digits.isEmpty then none else some (some digits, rest.dropWhile Char.isDigit)
  | cs => some (none, cs)

/-- Splits a sign off an exponent: is it negative, and what follows? -/
def exponentSign : List Char → Bool × List Char
  | '-' :: rest => (true, rest)
  | '+' :: rest => (false, rest)
  | cs => (false, cs)

/-- Reads an exponent if there is one; its mark needs a digit after it. -/
def readExponent : List Char → Option (Option Int × List Char)
  | c :: rest =>
    if c == 'e' || c == 'E' then
      let (negative, cs) := exponentSign rest
      let digits := cs.takeWhile Char.isDigit
      if digits.isEmpty then none
      else
        let n : Int := Decimal.ofDigits digits
        some (some (if negative then -n else n), cs.dropWhile Char.isDigit)
    else some (none, c :: rest)
  | [] => some (none, [])

/-- Reads a number. -/
def readNumber (cs : List Char) : Option (Json × List Char) := do
  let (negative, unsigned) := match cs with
    | '-' :: rest => (true, rest)
    | _ => (false, cs)
  let (whole, afterWhole) ← readInteger unsigned
  let (fraction, afterFraction) ← readFraction afterWhole
  let (exponent, rest) ← readExponent afterFraction
  let places := fraction.getD []
  if overflowsDouble (Decimal.ofDigits (whole ++ places)) (exponent.getD 0 - places.length) then
    return (.noValue, rest)
  if !negative && fraction.isNone && exponent.isNone then
    return (.num (Decimal.ofDigits whole), rest)
  return (.real (String.ofList (cs.take (cs.length - rest.length))), rest)

/-! ### Values -/

/-- Reads one of the three words. -/
def readWord (word : String) (value : Json) (cs : List Char) : Json × Option (List Char) :=
  if word.toList.isPrefixOf cs then (value, some (cs.drop word.length)) else (.malformed, none)

mutual

/-- Reads one value. -/
def readValue (fuel : Nat) (text : List Char) : Json × Option (List Char) :=
  match fuel with
  | 0 => (.malformed, none)
  | fuel + 1 =>
    match skipBlanks text with
    | [] => (.malformed, none)
    | c :: rest =>
      if c == '"' then
        match readString rest with
        | none => (.malformed, none)
        | some (none, rest) => (.noValue, some rest)
        | some (some s, rest) => (.str (String.ofList s), some rest)
      else if c == '[' then
        match skipBlanks rest with
        | ']' :: rest => (.arr [], some rest)
        | _ =>
          let (items, rest) := readItems fuel rest
          (.arr items, rest)
      else if c == '\x7b' then
        match skipBlanks rest with
        | '\x7d' :: rest => (.obj [], some rest)
        | _ =>
          let (fields, rest) := readFields fuel rest
          (.obj fields, rest)
      else if c == 'n' then readWord "null" .null (c :: rest)
      else if c == 't' then readWord "true" (.bool true) (c :: rest)
      else if c == 'f' then readWord "false" (.bool false) (c :: rest)
      else match readNumber (c :: rest) with
        | some (j, rest) => (j, some rest)
        | none => (.malformed, none)

/-- Reads the items of an array from the first one on, and its closing bracket. -/
def readItems (fuel : Nat) (text : List Char) : List Json × Option (List Char) :=
  match fuel with
  | 0 => ([.malformed], none)
  | fuel + 1 =>
    match readValue fuel text with
    | (j, none) => ([j], none)
    | (j, some rest) =>
      match skipBlanks rest with
      | ',' :: rest =>
        let (items, rest) := readItems fuel rest
        (j :: items, rest)
      | ']' :: rest => ([j], some rest)
      | _ => ([j, .malformed], none)

/-- Reads the fields of an object from the first one on, and its closing brace. -/
def readFields (fuel : Nat) (text : List Char) : List (String × Json) × Option (List Char) :=
  match fuel with
  | 0 => ([("", .malformed)], none)
  | fuel + 1 =>
    match skipBlanks text with
    | '"' :: rest =>
      match readString rest with
      | some (some key, rest) =>
        match skipBlanks rest with
        | ':' :: rest =>
          match readValue fuel rest with
          | (j, none) => ([(String.ofList key, j)], none)
          | (j, some rest) =>
            match skipBlanks rest with
            | ',' :: rest =>
              let (fields, rest) := readFields fuel rest
              ((String.ofList key, j) :: fields, rest)
            | '\x7d' :: rest => ([(String.ofList key, j)], some rest)
            | _ => ([(String.ofList key, j), ("", .malformed)], none)
        | _ => ([(String.ofList key, .malformed)], none)
      | _ => ([("", .malformed)], none)
    | _ => ([("", .malformed)], none)

end

/-- A text read as JSON: its value, and whether nothing but blanks follows it. -/
structure Document where
  value : Json
  complete : Bool

/-- Reads a text. Each step of the readers takes at least one character or enters one level. -/
def read (text : String) : Document :=
  let cs := text.toList
  match readValue (2 * cs.length + 2) cs with
  | (j, none) => ⟨j, false⟩
  | (j, some rest) => ⟨j, (skipBlanks rest).isEmpty⟩

end PointsTo.Json
