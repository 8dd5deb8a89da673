/-! Type descriptors.

    A descriptor says how a type of the analysed program was declared. Descriptors refer to each
    other by their place in a table; where a referenced type may be missing, its absence stands for
    `void`. -/

namespace PointsTo

/-- The place of a descriptor in its table. -/
abbrev TypeId := Nat

/-- How the bits of a basic type are read. -/
inductive Encoding where | signed | unsigned | signedChar | unsignedChar | float | boolean
  deriving DecidableEq, Repr

/-- The encoding with its signedness forgotten. -/
def Encoding.signAgnostic : Encoding → Encoding
  | .unsigned => .signed
  | .unsignedChar => .signedChar
  | e => e

/-- A member of a record or union. -/
structure Member where
  name : Option String
  ty : TypeId
  /-- Is the member a base-class subobject? -/
  inheritance : Bool
  deriving DecidableEq, Repr

/-- A named field. -/
def Member.field (name : String) (ty : TypeId) : Member := ⟨some name, ty, false⟩

/-- A base-class subobject. -/
def Member.base (ty : TypeId) : Member := ⟨none, ty, true⟩

/-- The ways to refer to a value of another type. -/
inductive Indirection where | pointer | reference | rvalueReference
  deriving DecidableEq, Repr

/-- The two words with which a record is declared. -/
inductive RecordWord where | structWord | classWord
  deriving DecidableEq, Repr

/-- What stands in front of a type without making it another one. -/
inductive Qualifier where | typedef | const | volatile
  deriving DecidableEq, Repr

/-- The shape of a type. -/
inductive TypeKind where
  | basic (encoding : Encoding)
  | address (indirection : Indirection) (pointee : Option TypeId)
  | array (element : TypeId) (count : Option Nat)
  | record (word : RecordWord) (members : List Member)
  | union (members : List Member)
  | qualified (qualifier : Qualifier) (base : Option TypeId)
  | subroutine
  deriving DecidableEq, Repr

/-- A type as it was declared. -/
structure TypeDesc where
  name : Option String := none
  file : Option String := none
  line : Nat := 0
  sizeBits : Nat := 0
  kind : TypeKind
  deriving DecidableEq, Repr

namespace TypeDesc

/-- The descriptor with the place of its declaration. -/
def declaredAt (d : TypeDesc) (file : String) (line : Nat) : TypeDesc :=
  { d with file := some file, line := line }

/-- The members of a record or union. -/
def members? (d : TypeDesc) : Option (List Member) :=
  match d.kind with
  | .record _ members | .union members => some members
  | _ => none

/-- Is the type a struct or a class? -/
def isRecord (d : TypeDesc) : Bool :=
  match d.kind with
  | .record _ _ => true
  | _ => false

/-- Is the type a union? -/
def isUnion (d : TypeDesc) : Bool :=
  match d.kind with
  | .union _ => true
  | _ => false

/-- Is the type an array? -/
def isArray (d : TypeDesc) : Bool :=
  match d.kind with
  | .array _ _ => true
  | _ => false

/-- Is the type a pointer or a reference? -/
def isAddress (d : TypeDesc) : Bool :=
  match d.kind with
  | .address _ _ => true
  | _ => false

/-- Is the type made up of others: a record, a union or an array? -/
def isAggregate (d : TypeDesc) : Bool := d.isRecord || d.isUnion || d.isArray

/-- The types that the descriptor refers to, in order. -/
def references (d : TypeDesc) : List TypeId :=
  match d.kind with
  | .record _ members | .union members => members.map Member.ty
  | .array element _ => [element]
  | .address _ target | .qualified _ target => target.toList
  | .basic _ | .subroutine => []

end TypeDesc

end PointsTo
