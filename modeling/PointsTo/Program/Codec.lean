import PointsTo.Program.Desc
import PointsTo.Types.Codec

/-! Program descriptions as JSON.

    A description is an object with the lists `types`, `objects`, `values`, `statements`,
    `indirect_edges` and `seed_pts`, each of which may be missing. -/

namespace PointsTo

/-- The word of an allocation. -/
def AllocKind.word : AllocKind → String
  | .stack => "stack"
  | .global => "global"
  | .heap => "heap"
  | .constant => "constant"
  | .special => "special"

/-- The allocation that a word names. -/
def AllocKind.ofWord? : String → Option AllocKind
  | "stack" => some .stack
  | "global" => some .global
  | "heap" => some .heap
  | "constant" => some .constant
  | "special" => some .special
  | _ => none

/-- The kinds of statements. A number in place of a kind counts them from zero. -/
inductive StmtTag where | addr | copy | gep | load | store | phi
  deriving DecidableEq, Repr

namespace StmtTag

/-- All kinds in the order of their numbers. -/
def all : List StmtTag := [.addr, .copy, .gep, .load, .store, .phi]

/-- The kind that a word names. -/
def ofWord? : String → Option StmtTag
  | "addr" => some .addr
  | "copy" => some .copy
  | "gep" => some .gep
  | "load" => some .load
  | "store" => some .store
  | "phi" => some .phi
  | _ => none

end StmtTag

namespace Decoder

/-- How an object is written. -/
def objectLayout : Layout where
  fields := [("name", check string), ("alloc", check (word AllocKind.ofWord?)),
    ("ty", check (optional typeId)), ("is_array", check bool), ("in_recursion", check bool),
    ("field_insensitive", check bool), ("dummy", check bool)]
  required := 2
  excess := .notJson

/-- An object. -/
def objectDesc : Decoder ObjectDesc := fun j => do
  let fields ← record objectLayout j
  return {
    name := ← field fields "name" string
    alloc := ← field fields "alloc" (word AllocKind.ofWord?)
    ty := ← fieldD fields "ty" (optional typeId) none
    isArray := ← fieldD fields "is_array" bool false
    inRecursion := ← fieldD fields "in_recursion" bool false
    fieldInsensitive := ← fieldD fields "field_insensitive" bool false
    dummy := ← fieldD fields "dummy" bool false }

/-- The fields of each kind of statement. -/
def stmtKeys : StmtTag → List String
  | .addr => ["obj", "dst"]
  | .copy => ["src", "dst", "vtable_init"]
  | .gep => ["base", "dst", "offset", "ty"]
  | .load => ["ptr", "dst", "ty"]
  | .store => ["src", "ptr", "ty"]
  | .phi => ["dst", "operands", "receiver"]

/-- What a kind and its fields describe. -/
def stmtKindOf (fields : List (String × Json)) : StmtTag → Except DecodeError StmtKindDesc
  | .addr => return .addr (← field fields "obj" string) (← field fields "dst" string)
  | .copy =>
    return .copy (← field fields "src" string) (← field fields "dst" string)
      (← fieldD fields "vtable_init" bool false)
  | .gep =>
    return .gep (← field fields "base" string) (← field fields "dst" string)
      (← fieldD fields "offset" (optional machineWord) none)
      (← fieldD fields "ty" (optional typeId) none)
  | .load =>
    return .load (← field fields "ptr" string) (← field fields "dst" string)
      (← fieldD fields "ty" (optional typeId) none)
  | .store =>
    return .store (← field fields "src" string) (← field fields "ptr" string)
      (← fieldD fields "ty" (optional typeId) none)
  | .phi =>
    return .phi (← field fields "dst" string) (← field fields "operands" (list string))
      (← fieldD fields "receiver" (optional typeId) none)

/-- What the fields of a statement describe. -/
def stmtKind (fields : List (String × Json)) : Except DecodeError StmtKindDesc := do
  distinct ["kind"] fields
  let t ← field fields "kind" (tag StmtTag.ofWord? StmtTag.all)
  distinct (stmtKeys t) fields
  stmtKindOf fields t

/-- A statement; `depth` levels may open inside it. -/
def stmtDesc (depth : Nat) : Decoder StmtDesc
  | .obj fields => do
    scan [("id", check (optional string))] (buffer depth) [] fields
    return {
      id := ← fieldD fields "id" (optional string) none
      kind := ← stmtKind fields }
  | j => .error (mismatch j)

/-- How a flow is written. -/
def flowLayout : Layout where
  fields := [("src", check string), ("dst", check string), ("objs", check (list string))]
  required := 3
  excess := .notJson

/-- A flow of contents. -/
def flowDesc : Decoder FlowDesc := fun j => do
  let fields ← record flowLayout j
  return {
    src := ← field fields "src" string
    dst := ← field fields "dst" string
    objs := ← field fields "objs" (list string) }

/-- How a seed is written. -/
def seedLayout : Layout where
  fields := [("value", check string), ("objs", check (list string))]
  required := 2
  excess := .notJson

/-- What a value points to from the start. -/
def seedDesc : Decoder SeedDesc := fun j => do
  let fields ← record seedLayout j
  return {
    value := ← field fields "value" string
    objs := ← field fields "objs" (list string) }

/-- The types of a program, three levels below its text. -/
def programTypes : Decoder (List TypeDesc) := list (typeDesc (maxNesting - 3))

/-- The statements of a program, three levels below its text. -/
def programStmts : Decoder (List StmtDesc) := list (stmtDesc (maxNesting - 3))

/-- How a program is written. -/
def programLayout : Layout where
  fields := [("types", check programTypes), ("objects", check (list objectDesc)),
    ("values", check (list string)), ("statements", check programStmts),
    ("indirect_edges", check (list flowDesc)), ("seed_pts", check (list seedDesc))]
  required := 0
  excess := .notJson

/-- A program. -/
def programDesc : Decoder ProgramDesc := fun j => do
  let fields ← record programLayout j
  return {
    types := ← fieldD fields "types" programTypes []
    objects := ← fieldD fields "objects" (list objectDesc) []
    values := ← fieldD fields "values" (list string) []
    statements := ← fieldD fields "statements" programStmts []
    flows := ← fieldD fields "indirect_edges" (list flowDesc) []
    seeds := ← fieldD fields "seed_pts" (list seedDesc) [] }

end Decoder

/-- Reads a program description. -/
def ProgramDesc.ofJson (j : Json) : Except DecodeError ProgramDesc := Decoder.programDesc j

/-- Reads a program description from a text. -/
def ProgramDesc.ofText (text : String) : Except DecodeError ProgramDesc :=
  Decoder.text Decoder.programDesc text

end PointsTo
