import PointsTo.Fault
import PointsTo.Text.Quoted
import PointsTo.Types.Desc

/-! The nodes of a value-flow graph: values, objects and statements.

    A value is a pointer variable of the program. An object stands for memory: one allocation has a
    whole object, an object for each field that was asked for, and clones of all of these. A
    statement defines at most one value and uses others. -/

namespace PointsTo

/-- The place of a node in its graph; values, objects and statements are counted together. -/
abbrev NodeId := Nat

/-- The place of an allocation in its graph. -/
abbrev MemId := Nat

/-- How memory comes into being. -/
inductive AllocKind where
  | stack
  | global
  | heap
  /-- Constants, merged into one. -/
  | constant
  /-- Memory that stands for something built in. -/
  | special
  deriving DecidableEq, Repr

/-- One allocation, shared by its whole object, its field objects and all their clones. -/
structure Memory where
  name : String
  alloc : AllocKind
  /-- The declared type. -/
  ty : Option TypeId := none
  isArray : Bool := false
  /-- Does one object stand for several live ones? -/
  inRecursion : Bool := false
  /-- Are the fields not told apart? -/
  fieldInsensitive : Bool := false
  deriving DecidableEq, Repr

instance : Inhabited Memory := ⟨{ name := "", alloc := .special }⟩

/-- What an object stands for. -/
inductive ObjKind where
  /-- The whole of an allocation. -/
  | base
  /-- The field of a whole object at a flattened offset. -/
  | field (base : NodeId) (offset : Nat)
  /-- A placeholder without an allocation of its own. -/
  | dummy
  /-- Memory that the program does not own. -/
  | special (which : SpecialObject)
  deriving DecidableEq, Repr

/-- An object. -/
structure ObjNode where
  kind : ObjKind
  mem : MemId
  name : String
  deriving DecidableEq, Repr

namespace ObjNode

/-- Is the object a field of another one? -/
def isField (o : ObjNode) : Bool :=
  match o.kind with
  | .field _ _ => true
  | _ => false

/-- Does the object stand for memory that the program does not own? -/
def isSpecial (o : ObjNode) : Bool :=
  match o.kind with
  | .special _ => true
  | _ => false

end ObjNode

/-- Where a projection leads. -/
inductive GepOffset where
  /-- To the field at a flattened offset. -/
  | field (offset : Nat)
  /-- To a place that is not known before the program runs. -/
  | variant
  deriving DecidableEq, Repr

/-- What a statement does. -/
inductive StmtKind where
  /-- `dst` takes the address of `obj`. -/
  | addr (obj dst : NodeId)
  /-- `dst` takes the value of `src`. -/
  | copy (src dst : NodeId) (vtableInit : Bool)
  /-- `dst` takes the address of a field of what `base` points to. -/
  | gep (base dst : NodeId) (offset : GepOffset)
  /-- `dst` takes what is stored where `ptr` points to. -/
  | load (ptr dst : NodeId)
  /-- `src` is stored where `ptr` points to. -/
  | store (src ptr : NodeId)
  /-- `dst` takes the value of one of the operands. -/
  | phi (dst : NodeId) (operands : List NodeId)
  deriving DecidableEq, Repr

namespace StmtKind

/-- The value that the statement defines. -/
def target? : StmtKind → Option NodeId
  | .addr _ dst | .copy _ dst _ | .gep _ dst _ | .load _ dst | .phi dst _ => some dst
  | .store _ _ => none

/-- The values that the statement uses, in order. -/
def uses : StmtKind → List NodeId
  | .addr _ _ => []
  | .copy src _ _ => [src]
  | .gep base _ _ => [base]
  | .load ptr _ => [ptr]
  | .store src ptr => [src, ptr]
  | .phi _ operands => operands

/-- The name of what the statement does. -/
def kindName : StmtKind → String
  | .addr _ _ => "Addr"
  | .copy _ _ _ => "Copy"
  | .gep _ _ _ => "Gep"
  | .load _ _ => "Load"
  | .store _ _ => "Store"
  | .phi _ _ => "Phi"

/-- Is the statement a store? -/
def isStore : StmtKind → Bool
  | .store _ _ => true
  | _ => false

end StmtKind

/-- A statement. -/
structure StmtNode where
  kind : StmtKind
  /-- The type of the memory that is accessed, or of the receiver that a constructor's phi brings in. -/
  ty : Option TypeId
  deriving DecidableEq, Repr

/-- A node. -/
inductive Node where
  | value (name : String)
  | object (o : ObjNode)
  | stmt (s : StmtNode)
  deriving DecidableEq, Repr

/-! ### Texts -/

/-- A constructor with its fields. -/
def fieldsText (head : String) (fields : List (String × String)) : String :=
  head ++ " \x7b " ++ ", ".intercalate (fields.map fun (k, v) => k ++ ": " ++ v) ++ " \x7d"

/-- The text of an allocation's place. -/
def memText (mem : MemId) : String := "M" ++ toString mem

/-- The text of an object's kind. -/
def ObjKind.text : ObjKind → String
  | .base => "Base"
  | .field whole offset => fieldsText "Field" [("base", nodeText whole), ("offset", toString offset)]
  | .dummy => "Dummy"
  | .special which => which.kindName

/-- The text of a projection's offset. -/
def GepOffset.text : GepOffset → String
  | .field offset => "Field(" ++ toString offset ++ ")"
  | .variant => "Variant"

/-- The text of what a statement does. -/
def StmtKind.text : StmtKind → String
  | .addr obj dst => fieldsText "Addr" [("obj", nodeText obj), ("dst", nodeText dst)]
  | .copy src dst vtableInit =>
    fieldsText "Copy"
      [("src", nodeText src), ("dst", nodeText dst), ("vtable_init", toString vtableInit)]
  | .gep base dst offset =>
    fieldsText "Gep" [("base", nodeText base), ("dst", nodeText dst), ("offset", offset.text)]
  | .load ptr dst => fieldsText "Load" [("ptr", nodeText ptr), ("dst", nodeText dst)]
  | .store src ptr => fieldsText "Store" [("src", nodeText src), ("ptr", nodeText ptr)]
  | .phi dst operands =>
    fieldsText "Phi"
      [("dst", nodeText dst), ("operands", Text.bracketed (operands.map nodeText))]

/-- The text of an optional type. -/
def typeText : Option TypeId → String
  | none => "None"
  | some id => "Some(T" ++ toString id ++ ")"

/-- The text of a node. -/
def Node.text : Node → String
  | .value name => "Value(" ++ fieldsText "ValueNode" [("name", Text.quoted name)] ++ ")"
  | .object o =>
    "Object(" ++ fieldsText "ObjNode"
      [("kind", o.kind.text), ("mem", memText o.mem), ("name", Text.quoted o.name)] ++ ")"
  | .stmt s =>
    "Stmt(" ++ fieldsText "StmtNode" [("kind", s.kind.text), ("target_ty", typeText s.ty)] ++ ")"

end PointsTo
