import PointsTo.Graph.Basic
import PointsTo.Program.Codec
import PointsTo.Types.Equiv

/-! Building the value-flow graph of a described program.

    Building first gives ids to the types, checks that types refer to types and that no chain of
    qualifiers is endless, then adds values, objects, statements, flows and seeds in this order, resolving names on the way. The
    names `blackhole` and `constant` always mean the two special objects. -/

namespace PointsTo

/-- Why a description does not describe a program. -/
inductive ProgramError where
  /-- A type that is not in the table; `referrer` is the type that refers to it. -/
  | typeOutOfRange (referrer : Option TypeId) (index count : Nat)
  | endlessQualifiers (id : TypeId)
  | duplicateValue (name : String)
  | duplicateName (name : String)
  | unknownValue (name : String)
  | unknownObject (name : String)
  | unknownStmt (name : String)
  /-- A constructor's phi into this value has no operand to take the receiver from. -/
  | missingReceiver (dst : String)
  | duplicateStmt (name : String)
  deriving DecidableEq, Repr

/-- The wording of each error. -/
def ProgramError.message : ProgramError → String
  | .typeOutOfRange referrer index count =>
    let place := match referrer with
      | some id => "In type " ++ toString id ++ ": "
      | none => ""
    place ++ "Type index " ++ toString index ++ " out of range (" ++ toString count ++ " types)"
  | .endlessQualifiers id => "Type " ++ toString id ++ " is part of a cyclic typedef chain"
  | .duplicateValue name => "Duplicate value " ++ name
  | .duplicateName name => "Duplicate name " ++ name
  | .unknownValue name => "Unknown value " ++ name
  | .unknownObject name => "Unknown object " ++ name
  | .unknownStmt name => "Unknown statement " ++ name
  | .missingReceiver dst => "Constructor phi of " ++ dst ++ " has no operand"
  | .duplicateStmt name => "Duplicate statement id " ++ name

/-- A program: its graph, its types, and its statements by id. -/
structure Program where
  graph : Graph := ∅
  types : TypeTable := ∅
  stmtIds : Std.TreeMap String NodeId := ∅

/-- A program under construction: its parts and the names declared so far. -/
structure Builder extends Program where
  valueIds : Std.TreeMap String NodeId := ∅
  objectIds : Std.TreeMap String NodeId := ∅

namespace Builder

/-- A construction that may fail. -/
abbrev Build (α : Type) := Except ProgramError α

/-! ### Types -/

/-- A place of the type table. -/
def checkId (types : TypeTable) (referrer : Option TypeId) (id : TypeId) : Build Unit :=
  if id < types.size then .ok () else .error (.typeOutOfRange referrer id types.size)

/-- An optional place of the type table. -/
def checkType (b : Builder) (ty : Option TypeId) : Build Unit :=
  match ty with
  | some id => checkId b.types none id
  | none => .ok ()

/-- All types that a type refers to are in the table. -/
def checkReferences (types : TypeTable) (id : TypeId) : Build Unit :=
  match types.get? id with
  | some d => d.references.forM (checkId types (some id))
  | none => .ok ()

/-- The chain of qualifiers from a type ends. -/
def checkQualifiers (types : TypeTable) (id : TypeId) : Build Unit :=
  match types.hasEndlessQualifiers id with
  | .ok true => .error (.endlessQualifiers id)
  | _ => .ok ()

/-- Starts with the types, all of which are checked. -/
def ofTypes (types : TypeTable) : Build Builder := do
  types.ids.forM (checkReferences types)
  types.ids.forM (checkQualifiers types)
  return { types }

/-! ### Names -/

/-- The value of a name. -/
def value (b : Builder) (name : String) : Build NodeId :=
  match b.valueIds[name]? with
  | some id => .ok id
  | none => .error (.unknownValue name)

/-- The object of a name; the special objects come into being here. -/
def object (b : Builder) (name : String) : Build (NodeId × Builder) :=
  if name = "blackhole" then
    let (id, graph) := b.graph.blackHole
    .ok (id, { b with graph })
  else if name = "constant" then
    let (id, graph) := b.graph.constant
    .ok (id, { b with graph })
  else match b.objectIds[name]? with
    | some id => .ok (id, b)
    | none => .error (.unknownObject name)

/-- The objects of names. -/
def objects (b : Builder) : List String → Build (List NodeId × Builder)
  | [] => .ok ([], b)
  | name :: rest => do
    let (id, b) ← b.object name
    let (ids, b) ← b.objects rest
    return (id :: ids, b)

/-- The statement of an id. -/
def stmt (b : Builder) (name : String) : Build NodeId :=
  match b.stmtIds[name]? with
  | some id => .ok id
  | none => .error (.unknownStmt name)

/-! ### Declarations and statements -/

/-- Declares a value. -/
def addValue (b : Builder) (name : String) : Build Builder := do
  if b.valueIds.contains name then throw (.duplicateValue name)
  let (id, graph) := b.graph.addValue name
  return { b with graph, valueIds := b.valueIds.insert name id }

/-- Declares an object. -/
def addObject (b : Builder) (o : ObjectDesc) : Build Builder := do
  if b.objectIds.contains o.name || b.valueIds.contains o.name then throw (.duplicateName o.name)
  b.checkType o.ty
  let (id, graph) :=
    if o.dummy then b.graph.addDummy o.name o.ty
    else b.graph.addObject {
      name := o.name
      alloc := o.alloc
      ty := o.ty
      isArray := o.isArray
      inRecursion := o.inRecursion
      fieldInsensitive := o.fieldInsensitive }
  return { b with graph, objectIds := b.objectIds.insert o.name id }

/-- Resolves the names of a statement. -/
def resolve (b : Builder) : StmtKindDesc → Build ((StmtKind × Option TypeId) × Builder)
  | .addr obj dst => do
    let (obj, b) ← b.object obj
    return ((.addr obj (← b.value dst), none), b)
  | .copy src dst vtableInit => do
    return ((.copy (← b.value src) (← b.value dst) vtableInit, none), b)
  | .gep base dst offset ty => do
    let kind := StmtKind.gep (← b.value base) (← b.value dst)
      (match offset with
        | some k => .field k
        | none => .variant)
    b.checkType ty
    return ((kind, ty), b)
  | .load ptr dst ty => do
    let kind := StmtKind.load (← b.value ptr) (← b.value dst)
    b.checkType ty
    return ((kind, ty), b)
  | .store src ptr ty => do
    let kind := StmtKind.store (← b.value src) (← b.value ptr)
    b.checkType ty
    return ((kind, ty), b)
  | .phi dst operands receiver => do
    let ids ← operands.mapM b.value
    if receiver.isSome && ids.isEmpty then throw (.missingReceiver dst)
    let kind := StmtKind.phi (← b.value dst) ids
    b.checkType receiver
    return ((kind, receiver), b)

/-- Adds a statement. -/
def addStmt (b : Builder) (d : StmtDesc) : Build Builder := do
  let ((kind, ty), b) ← b.resolve d.kind
  let (id, graph) := b.graph.addStmt kind ty
  match d.id with
  | some name =>
    if b.stmtIds.contains name then throw (.duplicateStmt name)
    return { b with graph, stmtIds := b.stmtIds.insert name id }
  | none => return { b with graph }

/-- Adds a flow of contents. -/
def addFlow (b : Builder) (d : FlowDesc) : Build Builder := do
  let src ← b.stmt d.src
  let dst ← b.stmt d.dst
  let (objs, b) ← b.objects d.objs
  return { b with graph := (b.graph.linkIndirect src dst objs).2 }

/-- Adds what a value points to from the start. -/
def addSeed (b : Builder) (d : SeedDesc) : Build Builder := do
  let v ← b.value d.value
  let (objs, b) ← b.objects d.objs
  return { b with graph := objs.foldl (·.seed v ·) b.graph }

end Builder

/-- The program of a description, the types of which are in a table. -/
def Program.assemble (types : TypeTable) (d : ProgramDesc) : Except ProgramError Program := do
  let b ← Builder.ofTypes types
  let b ← d.values.foldlM Builder.addValue b
  let b ← d.objects.foldlM Builder.addObject b
  let b ← d.statements.foldlM Builder.addStmt b
  let b ← d.flows.foldlM Builder.addFlow b
  let b ← d.seeds.foldlM Builder.addSeed b
  return b.toProgram

/-- How building ends without a program: the description is refused, or there is a fault. -/
inductive LoadError where
  | refused (cause : ProgramError)
  | fault (cause : Fault)
  deriving DecidableEq, Repr

/-- The wording of each error. -/
def LoadError.message : LoadError → String
  | .refused cause => cause.message
  | .fault cause => cause.message

/-- The program of a description. -/
def Program.build (d : ProgramDesc) : Except LoadError Program := do
  let types ← (TypeTable.ofList d.types).mapError .fault
  (assemble types d).mapError .refused

/-! ### Texts and files -/

/-- Why a text does not give a program. -/
inductive TextError where
  | decode (cause : DecodeError)
  | program (cause : LoadError)
  deriving DecidableEq, Repr

/-- The wording of each error. -/
def TextError.message : TextError → String
  | .decode .notJson => "not a JSON text"
  | .decode .wrongShape => "not a program description"
  | .program cause => cause.message

/-- The program of what was decoded. -/
def Program.ofDecoded : Except DecodeError ProgramDesc → Except TextError Program
  | .error e => .error (.decode e)
  | .ok d => (Program.build d).mapError .program

/-- The program that a JSON value describes. -/
def Program.ofJson (j : Json) : Except TextError Program := ofDecoded (ProgramDesc.ofJson j)

/-- The program that a text describes. -/
def Program.ofText (text : String) : Except TextError Program := ofDecoded (ProgramDesc.ofText text)

/-- Why a file does not give a program. -/
inductive FileError where
  | unreadable (path cause : String)
  | invalid (path : String) (cause : TextError)
  deriving DecidableEq, Repr

/-- The wording of each error. -/
def FileError.message : FileError → String
  | .unreadable path cause => "Unable to read " ++ path ++ ": " ++ cause
  | .invalid path cause => "Invalid program description " ++ path ++ ": " ++ cause.message

/-- The program that a file describes; `contents` is its text or why it could not be read. -/
def Program.ofFile (path : String) (contents : Except String String) : Except FileError Program :=
  match contents with
  | .error cause => .error (.unreadable path cause)
  | .ok text => (Program.ofText text).mapError (.invalid path)

end PointsTo
