import PointsTo.Json.Basic

/-! Writing JSON values on one line. -/

namespace PointsTo.Json

/-- The hexadecimal digits, in lower case. -/
def hexChar (n : Nat) : Char := "0123456789abcdef".toList.getD n '0'

/-- A character inside a string: quotes, backslashes and control characters are escaped. -/
def escapeChar (c : Char) : List Char :=
  if c == '"' then ['\\', '"']
  else if c == '\\' then ['\\', '\\']
  else if c == '\n' then ['\\', 'n']
  else if c == '\r' then ['\\', 'r']
  else if c == '\t' then ['\\', 't']
  else if c.toNat < 0x20 then
    ['\\', 'u', '0', '0', hexChar (c.toNat / 16), hexChar (c.toNat % 16)]
  else [c]

/-- A string in quotes. -/
def renderString (s : String) : String :=
  "\"" ++ String.ofList (s.toList.flatMap escapeChar) ++ "\""

mutual

/-- The text of a value. -/
def render : Json → String
  | .null => "null"
  | .bool b => if b then "true" else "false"
  | .num n => toString n
  | .real literal => literal
  | .str s => renderString s
  | .arr items => "[" ++ renderItems items ++ "]"
  | .obj fields => "\x7b" ++ renderFields fields ++ "\x7d"
  | .noValue | .malformed => ""

/-- The texts of items, separated by commas. -/
def renderItems : List Json → String
  | [] => ""
  | [j] => j.render
  | j :: rest => j.render ++ "," ++ renderItems rest

/-- The texts of fields, separated by commas. -/
def renderFields : List (String × Json) → String
  | [] => ""
  | [(k, j)] => renderString k ++ ":" ++ j.render
  | (k, j) :: rest => renderString k ++ ":" ++ j.render ++ "," ++ renderFields rest

end

/-- A number, or `null`. -/
def ofNat? : Option Nat → Json
  | none => .null
  | some n => .num n

/-- A string, or `null`. -/
def ofString? : Option String → Json
  | none => .null
  | some s => .str s

/-- A list of numbers. -/
def ofNats (ns : List Nat) : Json := .arr (ns.map .num)

end PointsTo.Json
