/-! Faults: the ways in which an operation of the analysis can refuse its input.

    Every partial operation of the library answers in `Except Fault`. A fault records its cause;
    its wording is `Fault.message` and nowhere else. -/

namespace PointsTo

/-- The three classes of nodes in a value-flow graph. -/
inductive NodeClass where | value | object | stmt
  deriving DecidableEq, Repr

/-- The two objects that stand for memory the program does not own. -/
inductive SpecialObject where | blackHole | constant
  deriving DecidableEq, Repr

/-- The cause of a refused operation. -/
inductive Fault where
  /-- A sum of machine words does not fit into a machine word. -/
  | addOverflow
  /-- A product of machine words does not fit into a machine word. -/
  | mulOverflow
  /-- An index at or beyond the length of a table. -/
  | indexOutOfBounds (len index : Nat)
  /-- An id that does not fit into 32 bits. -/
  | idTooLarge
  /-- An indirect edge with an endpoint that is not a statement. -/
  | edgeOutsideStatements
  /-- A direct edge with an endpoint that does not exist. -/
  | edgeToMissingNode
  /-- No node has this id. -/
  | noNode (id : Nat)
  /-- The node of this id is of another class than the wanted one; its text is kept. -/
  | wrongClass (id : Nat) (wanted : NodeClass) (shown : String)
  /-- The object was never given a type. -/
  | untyped (obj : Nat)
  /-- Objects that stand for foreign memory have no clones. -/
  | cannotClone (kind : SpecialObject) (obj : Nat)
  deriving DecidableEq, Repr

/-- The class of a node with its article, as messages name it. -/
def NodeClass.phrase : NodeClass → String
  | .value => "a value"
  | .object => "an object"
  | .stmt => "a statement"

/-- The name of a special object's kind. -/
def SpecialObject.kindName : SpecialObject → String
  | .blackHole => "BlackHole"
  | .constant => "Constant"

/-- Node ids as messages write them. -/
def nodeText (id : Nat) : String := "NodeIndex(" ++ toString id ++ ")"

/-- The wording of each fault. -/
def Fault.message : Fault → String
  | .addOverflow => "attempt to add with overflow"
  | .mulOverflow => "attempt to multiply with overflow"
  | .indexOutOfBounds len index =>
    "index out of bounds: the len is " ++ toString len ++ " but the index is " ++ toString index
  | .idTooLarge => "assertion failed: idx <= u32::MAX as usize"
  | .edgeOutsideStatements => "assertion failed: self.is_stmt(src) && self.is_stmt(dst)"
  | .edgeToMissingNode => "Graph::add_edge: node indices out of bounds"
  | .noNode id => "No VFG node " ++ nodeText id
  | .wrongClass id wanted shown => nodeText id ++ " is not " ++ wanted.phrase ++ ": " ++ shown
  | .untyped obj => "Object " ++ nodeText obj ++ " has no type"
  | .cannotClone kind obj => "Cannot clone " ++ kind.kindName ++ " object " ++ nodeText obj

/-- One more than the largest machine word. -/
def wordLimit : Nat := Nat.pow 2 64

/-- One more than the largest id. -/
def idLimit : Nat := Nat.pow 2 32

/-- The sum of two machine words. -/
def checkedAdd (a b : Nat) : Except Fault Nat :=
  if a + b < wordLimit then .ok (a + b) else .error .addOverflow

/-- The product of two machine words. -/
def checkedMul (a b : Nat) : Except Fault Nat :=
  if a * b < wordLimit then .ok (a * b) else .error .mulOverflow

/-- An id taken from a number. -/
def checkedId (n : Nat) : Except Fault Nat :=
  if n < idLimit then .ok n else .error .idTooLarge

end PointsTo
