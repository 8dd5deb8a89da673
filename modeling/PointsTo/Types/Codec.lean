import PointsTo.Json.Decode
import PointsTo.Json.Printer
import PointsTo.Types.Table

/-! Type descriptors as JSON.

    A descriptor is an object with its name, file, line and size, a tag that names its shape, and
    the fields of that shape. `TypeDesc.ofJson` reads back what `TypeDesc.toJson` writes, in any
    order of the fields and beside any others. -/

namespace PointsTo

/-! ### Words -/

/-- The word of an encoding. -/
def Encoding.word : Encoding → String
  | .signed => "signed"
  | .unsigned => "unsigned"
  | .signedChar => "signed_char"
  | .unsignedChar => "unsigned_char"
  | .float => "float"
  | .boolean => "boolean"

/-- The encoding that a word names. -/
def Encoding.ofWord? : String → Option Encoding
  | "signed" => some .signed
  | "unsigned" => some .unsigned
  | "signed_char" => some .signedChar
  | "unsigned_char" => some .unsignedChar
  | "float" => some .float
  | "boolean" => some .boolean
  | _ => none

/-- The tags of type descriptors. A number in place of a tag counts them from zero. -/
inductive TypeTag where
  | basic | pointer | reference | rvalueReference | array | structTag | classTag | union
  | typedef | const | volatile | subroutine
  deriving DecidableEq, Repr

namespace TypeTag

/-- All tags in the order of their numbers. -/
def all : List TypeTag :=
  [.basic, .pointer, .reference, .rvalueReference, .array, .structTag, .classTag, .union,
    .typedef, .const, .volatile, .subroutine]

/-- The word of a tag. -/
def word : TypeTag → String
  | .basic => "basic"
  | .pointer => "pointer"
  | .reference => "reference"
  | .rvalueReference => "rvalue_reference"
  | .array => "array"
  | .structTag => "struct"
  | .classTag => "class"
  | .union => "union"
  | .typedef => "typedef"
  | .const => "const"
  | .volatile => "volatile"
  | .subroutine => "subroutine"

/-- The tag that a word names. -/
def ofWord? (s : String) : Option TypeTag := all.find? (·.word == s)

end TypeTag

/-- The tag of a shape. -/
def TypeKind.tag : TypeKind → TypeTag
  | .basic _ => .basic
  | .address .pointer _ => .pointer
  | .address .reference _ => .reference
  | .address .rvalueReference _ => .rvalueReference
  | .array _ _ => .array
  | .record .structWord _ => .structTag
  | .record .classWord _ => .classTag
  | .union _ => .union
  | .qualified .typedef _ => .typedef
  | .qualified .const _ => .const
  | .qualified .volatile _ => .volatile
  | .subroutine => .subroutine

/-! ### Writing -/

/-- A member as an object. -/
def Member.toJson (m : Member) : Json :=
  .obj [("name", .ofString? m.name), ("ty", .num m.ty), ("inheritance", .bool m.inheritance)]

/-- The fields that belong to a shape. -/
def TypeKind.jsonFields : TypeKind → List (String × Json)
  | .basic e => [("encoding", .str e.word)]
  | .address _ target => [("pointee", .ofNat? target)]
  | .array element count => [("element", .num element), ("count", .ofNat? count)]
  | .record _ members | .union members => [("members", .arr (members.map Member.toJson))]
  | .qualified _ base => [("base", .ofNat? base)]
  | .subroutine => []

/-- A descriptor as an object, every field written. -/
def TypeDesc.toJson (d : TypeDesc) : Json :=
  .obj ([("name", .ofString? d.name), ("file", .ofString? d.file), ("line", .num d.line),
    ("size_bits", .num d.sizeBits), ("tag", .str d.kind.tag.word)] ++ d.kind.jsonFields)

/-- A table as the array of its descriptors. -/
def TypeTable.toJson (t : TypeTable) : Json := .arr (t.types.toList.map TypeDesc.toJson)

/-! ### Reading -/

namespace Decoder

/-- A type's place. -/
def typeId : Decoder TypeId := natBelow idLimit

/-- A machine word. -/
def machineWord : Decoder Nat := natBelow wordLimit

/-- How a member is written. -/
def memberLayout : Layout where
  fields := [("name", check (optional string)), ("ty", check typeId), ("inheritance", check bool)]
  required := 2
  excess := .wrongShape

/-- A member of a record or union. -/
def member : Decoder Member := fun j => do
  let fields ← record memberLayout j
  return {
    name := ← fieldD fields "name" (optional string) none
    ty := ← field fields "ty" typeId
    inheritance := ← fieldD fields "inheritance" bool false }

/-- A tag, as its word or its number. -/
def tag {α : Type} (ofWord? : String → Option α) (all : List α) : Decoder α
  | .str s => match ofWord? s with
    | some t => .ok t
    | none => .error .wrongShape
  | .num n => match all[n]? with
    | some t => .ok t
    | none => .error .wrongShape
  | j => .error (mismatch j)

/-- The fields of each shape. -/
def kindKeys : TypeTag → List String
  | .basic => ["encoding"]
  | .pointer | .reference | .rvalueReference => ["pointee"]
  | .array => ["element", "count"]
  | .structTag | .classTag | .union => ["members"]
  | .typedef | .const | .volatile => ["base"]
  | .subroutine => []

/-- The shape that a tag and its fields describe. -/
def kindOf (fields : List (String × Json)) : TypeTag → Except DecodeError TypeKind
  | .basic => return .basic (← field fields "encoding" (bufferedWord Encoding.ofWord?))
  | .pointer => return .address .pointer (← fieldD fields "pointee" (optional typeId) none)
  | .reference => return .address .reference (← fieldD fields "pointee" (optional typeId) none)
  | .rvalueReference =>
    return .address .rvalueReference (← fieldD fields "pointee" (optional typeId) none)
  | .array =>
    return .array (← field fields "element" typeId)
      (← fieldD fields "count" (optional machineWord) none)
  | .structTag => return .record .structWord (← field fields "members" (list member))
  | .classTag => return .record .classWord (← field fields "members" (list member))
  | .union => return .union (← field fields "members" (list member))
  | .typedef => return .qualified .typedef (← fieldD fields "base" (optional typeId) none)
  | .const => return .qualified .const (← fieldD fields "base" (optional typeId) none)
  | .volatile => return .qualified .volatile (← fieldD fields "base" (optional typeId) none)
  | .subroutine => return .subroutine

/-- The shape among the fields of a descriptor. -/
def typeKind (fields : List (String × Json)) : Except DecodeError TypeKind := do
  distinct ["tag"] fields
  let t ← field fields "tag" (tag TypeTag.ofWord? TypeTag.all)
  distinct (kindKeys t) fields
  kindOf fields t

/-- The fields that every descriptor may have. -/
def descFields : List (String × Decoder Unit) :=
  [("name", check (optional string)), ("file", check (optional string)),
    ("line", check (natBelow idLimit)), ("size_bits", check machineWord)]

/-- A type descriptor; `depth` levels may open inside it. -/
def typeDesc (depth : Nat) : Decoder TypeDesc
  | .obj fields => do
    scan descFields (buffer depth) [] fields
    return {
      name := ← fieldD fields "name" (optional string) none
      file := ← fieldD fields "file" (optional string) none
      line := ← fieldD fields "line" (natBelow idLimit) 0
      sizeBits := ← fieldD fields "size_bits" machineWord 0
      kind := ← typeKind fields }
  | j => .error (mismatch j)

/-- A table; `depth` levels may open inside its descriptors. -/
def typeTable (depth : Nat) : Decoder TypeTable := fun j => do
  return ⟨(← list (typeDesc depth) j).toArray⟩

end Decoder

/-- The number of levels that a text may nest. -/
def maxNesting : Nat := 127

/-- Reads a descriptor that is a text of its own. -/
def TypeDesc.ofJson (j : Json) : Except DecodeError TypeDesc := Decoder.typeDesc (maxNesting - 1) j

/-- Reads a table that is a text of its own. -/
def TypeTable.ofJson (j : Json) : Except DecodeError TypeTable :=
  Decoder.typeTable (maxNesting - 2) j

end PointsTo
