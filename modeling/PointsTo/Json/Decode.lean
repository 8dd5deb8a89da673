import PointsTo.Json.Reader

/-! Decoding JSON values into records.

    Decoders meet a value in the order of its text, and the first thing they cannot accept decides
    the error: `notJson` where the text breaks off, `wrongShape` where a value is not what is wanted.
    A record is written as an object, whose unknown fields are skipped, or as an array of its fields
    in their order. A buffered record is read whole before any of it is decoded. -/

namespace PointsTo

/-- Why a text could not be decoded. -/
inductive DecodeError where
  /-- The text is not JSON. -/
  | notJson
  /-- The text is JSON of another shape than the wanted one. -/
  | wrongShape
  deriving DecidableEq, Repr

/-- Turns a JSON value into a value of a type. -/
abbrev Decoder (α : Type) := Json → Except DecodeError α

namespace Decoder

/-- The error of a value that is not of the wanted kind. -/
def mismatch : Json → DecodeError
  | .malformed | .noValue => .notJson
  | _ => .wrongShape

/-- A natural number below `limit`, written as an integer. -/
def natBelow (limit : Nat) : Decoder Nat
  | .num n => if n < limit then .ok n else .error .wrongShape
  | j => .error (mismatch j)

/-- A string. -/
def string : Decoder String
  | .str s => .ok s
  | j => .error (mismatch j)

/-- A truth value. -/
def bool : Decoder Bool
  | .bool b => .ok b
  | j => .error (mismatch j)

/-- `null` or a value. -/
def optional {α : Type} (d : Decoder α) : Decoder (Option α)
  | .null => .ok none
  | j => (d j).map some

/-- An array of values. -/
def list {α : Type} (d : Decoder α) : Decoder (List α)
  | .arr items => items.mapM d
  | j => .error (mismatch j)

/-- Runs a decoder for its error only. -/
def check {α : Type} (d : Decoder α) : Decoder Unit := fun j => do
  let _ ← d j

/-- Skips a value that keeps the grammar. -/
def skip : Decoder Unit := fun j => if j.wellFormed then .ok () else .error .notJson

/-- Keeps a value for later; it must denote something and nest at most `depth` deep. -/
def buffer (depth : Nat) : Decoder Unit := fun j =>
  if j.meaningful depth then .ok () else .error .notJson

/-- One of several words, written as itself or as the only key of an object with value `null`. -/
def word {α : Type} (ofWord? : String → Option α) : Decoder α
  | .str s => match ofWord? s with
    | some a => .ok a
    | none => .error .wrongShape
  | .obj [] => .error .notJson
  | .obj ((k, j) :: rest) =>
    match j, ofWord? k with
    | .malformed, none => if k = "" then .error .notJson else .error .wrongShape
    | _, none => .error .wrongShape
    | .null, some a => if rest.isEmpty then .ok a else .error .notJson
    | j, some _ => .error (mismatch j)
  | _ => .error .notJson

/-- Like `word` for a buffered value, where an empty object may stand for the `null`. -/
def bufferedWord {α : Type} (ofWord? : String → Option α) : Decoder α
  | .str s => match ofWord? s with
    | some a => .ok a
    | none => .error .wrongShape
  | .obj [(k, .null)] | .obj [(k, .obj [])] => match ofWord? k with
    | some a => .ok a
    | none => .error .wrongShape
  | _ => .error .wrongShape

/-- Walks the fields in the order of the text: a known key may come once and its value must decode,
    the values of other keys go through `other`. -/
def scan (known : List (String × Decoder Unit)) (other : Decoder Unit) :
    List String → List (String × Json) → Except DecodeError Unit
  | _, [] => .ok ()
  | seen, (k, j) :: rest =>
    match known.lookup k with
    | none => do other j; scan known other seen rest
    | some d =>
      if seen.contains k then .error .wrongShape
      else do d j; scan known other (k :: seen) rest

/-- How a record is written. -/
structure Layout where
  /-- The fields in their order, with their decoders. -/
  fields : List (String × Decoder Unit)
  /-- The number of leading fields that an array must give. -/
  required : Nat
  /-- The error of an array with too many items. -/
  excess : DecodeError

/-- The fields of a record, after all of them were found to decode. -/
def record (l : Layout) : Decoder (List (String × Json))
  | .obj fields => do
    scan l.fields skip [] fields
    return fields
  | .arr items => do
    let fields := (l.fields.map Prod.fst).zip items
    scan l.fields skip [] fields
    if items.length < l.required then throw .wrongShape
    if l.fields.length < items.length then throw l.excess
    return fields
  | j => .error (mismatch j)

/-- A field that must be there. -/
def field {α : Type} (fields : List (String × Json)) (key : String) (d : Decoder α) :
    Except DecodeError α :=
  match fields.lookup key with
  | some j => d j
  | none => .error .wrongShape

/-- A field that has a value of its own if it is missing. -/
def fieldD {α : Type} (fields : List (String × Json)) (key : String) (d : Decoder α) (default : α) :
    Except DecodeError α :=
  match fields.lookup key with
  | some j => d j
  | none => .ok default

/-- Refuses fields of which one of the given keys comes twice. -/
def distinct (keys : List String) (fields : List (String × Json)) : Except DecodeError Unit :=
  if keys.all fun k => fields.countP (·.1 == k) ≤ 1 then .ok () else .error .wrongShape

/-- Decodes a whole text. -/
def text {α : Type} (d : Decoder α) (s : String) : Except DecodeError α :=
  let doc := Json.read s
  match d doc.value with
  | .error e => .error e
  | .ok a => if doc.complete then .ok a else .error .notJson

end Decoder

end PointsTo
