import PointsTo.Graph.Node
import PointsTo.Types.Desc

/-! Program descriptions.

    A description lists the types, objects and values of a program, its statements, the flows of
    contents between them, and what values point to from the start. Values, objects and statements
    are named; types are referred to by their place. -/

namespace PointsTo

/-- An object of a program. -/
structure ObjectDesc where
  name : String
  alloc : AllocKind
  ty : Option TypeId := none
  isArray : Bool := false
  inRecursion : Bool := false
  fieldInsensitive : Bool := false
  /-- Is the object a placeholder? -/
  dummy : Bool := false
  deriving DecidableEq, Repr

/-- What a statement of a program does. -/
inductive StmtKindDesc where
  | addr (obj dst : String)
  | copy (src dst : String) (vtableInit : Bool)
  /-- A projection without an offset leads to an unknown place. -/
  | gep (base dst : String) (offset : Option Nat) (ty : Option TypeId)
  | load (ptr dst : String) (ty : Option TypeId)
  | store (src ptr : String) (ty : Option TypeId)
  | phi (dst : String) (operands : List String) (receiver : Option TypeId)
  deriving DecidableEq, Repr

/-- A statement of a program. -/
structure StmtDesc where
  id : Option String := none
  kind : StmtKindDesc
  deriving DecidableEq, Repr

/-- A flow of contents from one statement to another. -/
structure FlowDesc where
  src : String
  dst : String
  objs : List String
  deriving DecidableEq, Repr

/-- What a value points to from the start. -/
structure SeedDesc where
  value : String
  objs : List String
  deriving DecidableEq, Repr

/-- A program. -/
structure ProgramDesc where
  types : List TypeDesc := []
  objects : List ObjectDesc := []
  values : List String := []
  statements : List StmtDesc := []
  flows : List FlowDesc := []
  seeds : List SeedDesc := []
  deriving DecidableEq, Repr

end PointsTo
