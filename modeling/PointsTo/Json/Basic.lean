/-! JSON values as they are found in a text.

    A text need not be JSON from its first character to its last. A value therefore also records
    where reading stopped: `malformed` stands at the place where the text breaks the grammar, as the
    last item of an open array, as the value of a key, or under the empty key where a key should be.
    `noValue` stands for a token that keeps the grammar and denotes nothing: a string with an
    unpaired surrogate, a number beyond the range of doubles. -/

namespace PointsTo

/-- A JSON value, possibly broken off. -/
inductive Json where
  | null
  | bool (b : Bool)
  /-- A number written without sign, fraction and exponent. -/
  | num (n : Nat)
  /-- Any other number, as it is written. -/
  | real (literal : String)
  | str (s : String)
  | arr (items : List Json)
  | obj (fields : List (String × Json))
  | noValue
  | malformed
  deriving Repr, BEq, Inhabited

namespace Json

mutual

/-- Does the value keep the grammar throughout? -/
def wellFormed : Json → Bool
  | .malformed => false
  | .arr items => wellFormedItems items
  | .obj fields => wellFormedFields fields
  | _ => true

/-- Do all items keep the grammar? -/
def wellFormedItems : List Json → Bool
  | [] => true
  | j :: rest => j.wellFormed && wellFormedItems rest

/-- Do all field values keep the grammar? -/
def wellFormedFields : List (String × Json) → Bool
  | [] => true
  | (_, j) :: rest => j.wellFormed && wellFormedFields rest

end

mutual

/-- Does the value keep the grammar, denote something throughout, and nest at most `depth` deep? -/
def meaningful (depth : Nat) : Json → Bool
  | .malformed | .noValue => false
  | .arr items => match depth with
    | 0 => false
    | d + 1 => meaningfulItems d items
  | .obj fields => match depth with
    | 0 => false
    | d + 1 => meaningfulFields d fields
  | _ => true

/-- Are all items meaningful? -/
def meaningfulItems (depth : Nat) : List Json → Bool
  | [] => true
  | j :: rest => j.meaningful depth && meaningfulItems depth rest

/-- Are all field values meaningful? -/
def meaningfulFields (depth : Nat) : List (String × Json) → Bool
  | [] => true
  | (_, j) :: rest => j.meaningful depth && meaningfulFields depth rest

end

end Json

end PointsTo
