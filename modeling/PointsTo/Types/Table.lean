import PointsTo.Fault
import PointsTo.Types.Desc

/-! Tables of type descriptors.

    Types are added one by one and found by their place, as long as places fit into ids. The sizes of
    arrays, records and unions follow from those of their parts, counted in machine words. -/

namespace PointsTo

/-- All types of a program. -/
structure TypeTable where
  types : Array TypeDesc
  deriving DecidableEq, Repr

namespace TypeTable

/-- The table without types. -/
def empty : TypeTable := ⟨#[]⟩

instance : EmptyCollection TypeTable := ⟨empty⟩
instance : Inhabited TypeTable := ⟨empty⟩

/-- The number of types. -/
def size (t : TypeTable) : Nat := t.types.size

/-- All places of the table in order. -/
def ids (t : TypeTable) : List TypeId := List.range t.size

/-- The descriptor at a place, if there is one. -/
def get? (t : TypeTable) (id : TypeId) : Option TypeDesc := t.types[id]?

/-- The descriptor at a place of the table. -/
def get (t : TypeTable) (id : TypeId) : Except Fault TypeDesc :=
  match t.get? id with
  | some d => .ok d
  | none => .error (.indexOutOfBounds t.size id)

/-- Appends a descriptor and gives its place, which must fit into an id. -/
def add (t : TypeTable) (d : TypeDesc) : Except Fault (TypeId × TypeTable) := do
  let id ← checkedId t.size
  return (id, ⟨t.types.push d⟩)

/-- The table of a list of descriptors. -/
def ofList (descs : List TypeDesc) : Except Fault TypeTable :=
  descs.foldlM (fun t d => do return (← t.add d).2) ∅

/-- Appends a basic type. -/
def addBasic (t : TypeTable) (name : String) (sizeBits : Nat) (encoding : Encoding) :
    Except Fault (TypeId × TypeTable) :=
  t.add { name := some name, sizeBits, kind := .basic encoding }

/-- Appends a pointer, which has 64 bits. -/
def addPointer (t : TypeTable) (pointee : Option TypeId) : Except Fault (TypeId × TypeTable) :=
  t.add { sizeBits := 64, kind := .address .pointer pointee }

/-- Appends an array; one of unknown length has no bits. -/
def addArray (t : TypeTable) (element : TypeId) (count : Option Nat) :
    Except Fault (TypeId × TypeTable) := do
  let d ← t.get element
  let sizeBits ← checkedMul (count.getD 0) d.sizeBits
  t.add { sizeBits, kind := .array element count }

/-- The sum of the members' sizes. -/
def sumOfSizes (t : TypeTable) (members : List Member) : Except Fault Nat :=
  members.foldlM (fun total m => do checkedAdd total (← t.get m.ty).sizeBits) 0

/-- The largest of the members' sizes. -/
def maxOfSizes (t : TypeTable) (members : List Member) : Except Fault Nat :=
  members.foldlM (fun largest m => do return max largest (← t.get m.ty).sizeBits) 0

/-- Appends a struct or class, as large as its members together. -/
def addRecord (t : TypeTable) (word : RecordWord) (name : String) (members : List Member) :
    Except Fault (TypeId × TypeTable) := do
  let sizeBits ← t.sumOfSizes members
  t.add { name := some name, sizeBits, kind := .record word members }

/-- Appends a union, as large as its largest member. -/
def addUnion (t : TypeTable) (name : String) (members : List Member) :
    Except Fault (TypeId × TypeTable) := do
  let sizeBits ← t.maxOfSizes members
  t.add { name := some name, sizeBits, kind := .union members }

/-- Appends a type definition. -/
def addTypedef (t : TypeTable) (name : String) (base : Option TypeId) :
    Except Fault (TypeId × TypeTable) :=
  t.add { name := some name, kind := .qualified .typedef base }

/-- Appends a constant type. -/
def addConst (t : TypeTable) (base : Option TypeId) : Except Fault (TypeId × TypeTable) :=
  t.add { kind := .qualified .const base }

end TypeTable

end PointsTo
